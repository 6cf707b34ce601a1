import VesselRelay.Proofs.Geo.Corners
import VesselRelay.Proofs.Geo.Enclosure
import VesselRelay.Proofs.Geo.Lattice
import VesselRelay.Proofs.Geo.Plotted

/-!
Areas that share a position intersect, but for what eludes the tests of two shapes. Boxes are
compared first and miss what escapes from them. Of the tests themselves, those of circles take a
distance or a nearest position for the least one, and a plane for the globe; those of rings miss
nothing on the grid, and that of two rectangles misses nothing anywhere.
-/
namespace VesselRelay
open Binary64 (number?)

/-! ### Shapes -/

namespace Shape
variable [Trigonometry] {s t : Shape} {p : Position}

/-- Whether two distances are together, in exact numbers, no less than a third: the way over a
position is no shorter than the direct one. -/
def Detours (direct first second : Float) : Prop :=
  ∃ a b c, number? direct = some a ∧ number? first = some b ∧ number? second = some c ∧ a ≤ b + c

/-- Whether a position off the grid is among some. -/
def OffGrid (positions : List Position) : Prop := ∃ q ∈ positions, ¬ q.onGrid

/-- Where the test of two shapes, their boxes aside, may miss a position that both hold. -/
def Eludes : Shape → Shape → Position → Prop
  | circle c, circle d, p => ¬ Detours (c.center.distance c.model d.center)
      (c.center.distance c.model p) (d.center.distance d.model p)
  | circle c, rectangle r, p | rectangle r, circle c, p =>
      ¬ c.center.distance c.model (nearestIn r c.center) ≤ c.center.distance c.model p
  | circle c, polygon g, p | polygon g, circle c, p => OffGrid (c.center :: p :: g.points) ∨
      ∃ e ∈ Ring.edges g.points, Ring.segmentsMeet e (c.center, p) ∧
        ¬ (c.contains e.1 ∨ anchorToSegment (LocalFrame.anchored c.center) e ≤ c.radius)
  | rectangle _, rectangle _, _ => False
  | rectangle r, polygon g, p | polygon g, rectangle r, p => OffGrid (p :: (r.corners ++ g.points))
  | polygon g, polygon h, p => OffGrid (p :: (g.points ++ h.points))

theorem circlesMeet_of_contains {c d : Circle} (inC : c.contains p) (inD : d.contains p)
    (detours : Detours (c.center.distance c.model d.center) (c.center.distance c.model p)
      (d.center.distance d.model p)) : circlesMeet c d := by
  obtain ⟨x, y, z, direct, first, second, short⟩ := detours
  refine decide_eq_true (Binary64.le_add_of_pos c.positive d.positive direct ?_)
  intro r s radius radius'
  have withinC := (Binary64.le_iff_of_number? first radius).mp (of_decide_eq_true inC)
  have withinD := (Binary64.le_iff_of_number? second radius').mp (of_decide_eq_true inD)
  linarith

theorem circleMeetsRectangle_of_contains {c : Circle} {r : Rectangle} (inC : c.contains p)
    (nearest : c.center.distance c.model (nearestIn r c.center) ≤ c.center.distance c.model p) :
    circleMeetsRectangle c r :=
  decide_eq_true (Binary64.le_trans nearest (of_decide_eq_true inC))

theorem circleMeetsRing_of_contains {c : Circle} {g : Polygon} (inRing : g.contains p)
    (found : ¬ Eludes (circle c) (polygon g) p) : circleMeetsRing c g.points := by
  obtain ⟨grid, near⟩ := not_or.mp found
  simp only [OffGrid, not_exists, not_and, not_not, List.forall_mem_cons] at grid
  obtain ⟨onCenter, onP, corners⟩ := grid
  rw [circleMeetsRing, Bool.or_eq_true]
  by_cases center : Ring.contains g.points c.center
  · exact .inl center
  · right
    obtain ⟨e, edge, met⟩ := Ring.exists_edge_met corners onCenter onP center inRing
    refine List.any_eq_true.mpr ⟨e, edge, ?_⟩
    rw [Bool.or_eq_true, decide_eq_true_eq]
    by_contra far
    exact near ⟨e, edge, met, far⟩

omit [Trigonometry] in
theorem onGrid_of_not_offGrid {ring other : List Position}
    (grid : ¬ OffGrid (p :: (ring ++ other))) :
    p.onGrid ∧ (∀ q ∈ ring, q.onGrid) ∧ ∀ q ∈ other, q.onGrid := by
  simpa only [OffGrid, not_exists, not_and, not_not, List.forall_mem_cons,
    List.forall_mem_append] using grid

/-- Each pair of kinds has its own test, and its own way to miss. -/
theorem touches_of_contains (inS : s.contains p) (inT : t.contains p) (found : ¬ s.Eludes t p) :
    s.touches t := by
  cases s with
  | circle c =>
    cases t with
    | circle d => exact circlesMeet_of_contains inS inT (not_not.mp found)
    | rectangle r => exact circleMeetsRectangle_of_contains inS (not_not.mp found)
    | polygon g => exact circleMeetsRing_of_contains inT found
  | rectangle r =>
    cases t with
    | circle d => exact circleMeetsRectangle_of_contains inT (not_not.mp found)
    | rectangle r' =>
      exact Box.intersects_of_contains (within_of_contains (s := .rectangle r) inS id)
        (within_of_contains (s := .rectangle r') inT id)
    | polygon g =>
      obtain ⟨on, corners, corners'⟩ := onGrid_of_not_offGrid found
      exact Ring.meets_of_contains corners corners' on ((r.ring_contains p).trans inS) inT
  | polygon g =>
    cases t with
    | circle d => exact circleMeetsRing_of_contains inS found
    | rectangle r =>
      obtain ⟨on, corners, corners'⟩ := onGrid_of_not_offGrid found
      exact Ring.meets_of_contains corners' corners on inS ((r.ring_contains p).trans inT)
    | polygon h =>
      obtain ⟨on, corners, corners'⟩ := onGrid_of_not_offGrid found
      exact Ring.meets_of_contains corners corners' on inS inT

theorem intersects_of_contains (inS : s.contains p) (inT : t.contains p)
    (stays : ¬ s.Escapes p) (stays' : ¬ t.Escapes p) (found : ¬ s.Eludes t p) :
    s.intersects t := by
  rw [intersects, Bool.and_eq_true]
  exact ⟨Box.intersects_of_contains (within_of_contains inS stays) (within_of_contains inT stays'),
    touches_of_contains inS inT found⟩

omit [Trigonometry] in
/-- The corners of a shape, if it has any. -/
def corners : Shape → List Position
  | circle _ => []
  | rectangle r => r.corners
  | polygon g => g.points

omit [Trigonometry] in
theorem polygon_onGrid (grid : ∀ q ∈ s.corners, q.onGrid) :
    ∀ g, s = .polygon g → ∀ q ∈ g.points, q.onGrid := by
  rintro g rfl
  exact grid

theorem not_eludes_of_grid (straight : s.isCircle = false) (straight' : t.isCircle = false)
    (on : p.onGrid) (grid : ∀ q ∈ s.corners, q.onGrid) (grid' : ∀ q ∈ t.corners, q.onGrid) :
    ¬ s.Eludes t p := by
  have onGrid {ring other : List Position} (grid : ∀ q ∈ ring, q.onGrid)
      (grid' : ∀ q ∈ other, q.onGrid) : ¬ OffGrid (p :: (ring ++ other)) := by
    simp only [OffGrid, not_exists, not_and, not_not, List.forall_mem_cons, List.forall_mem_append]
    exact ⟨on, grid, grid'⟩
  cases s with
  | circle c => cases straight
  | rectangle r =>
    cases t with
    | circle d => cases straight'
    | rectangle r' => exact id
    | polygon g => exact onGrid grid grid'
  | polygon g =>
    cases t with
    | circle d => cases straight'
    | rectangle r => exact onGrid grid' grid
    | polygon h => exact onGrid grid grid'

end Shape

/-! ### Areas -/

namespace Area

/-- What two areas answer that share a position. -/
structure Shares [Trigonometry] (a b : Area) (p : Position) : Prop where
  /-- Some shapes of theirs hold it. -/
  shapes : ∃ s ∈ a.leaves, ∃ t ∈ b.leaves, s.contains p ∧ t.contains p
  /-- The boxes of such shapes meet, unless it escapes from one of them. -/
  boxes : ∀ s ∈ a.leaves, ∀ t ∈ b.leaves, s.contains p → t.contains p →
    s.box.intersects t.box ∨ s.Escapes p ∨ t.Escapes p
  /-- It is missed only where it escapes from every such pair or eludes its test. -/
  missed : ¬ a.intersects b → ∀ s ∈ a.leaves, ∀ t ∈ b.leaves, s.contains p → t.contains p →
    s.Escapes p ∨ t.Escapes p ∨ s.Eludes t p
  /-- Without circles nothing on the grid is missed. -/
  grid : a.CircleFree → b.CircleFree → p.onGrid →
    (∀ s ∈ a.leaves ++ b.leaves, ∀ q ∈ s.corners, q.onGrid) → a.intersects b

theorem eluded_of_missed [Trigonometry] {a b : Area} {s t : Shape} {p : Position}
    (missed : ¬ a.intersects b) (leaf : s ∈ a.leaves) (leaf' : t ∈ b.leaves) (holds : s.contains p)
    (holds' : t.contains p) : s.Escapes p ∨ t.Escapes p ∨ s.Eludes t p := by
  by_cases escapes : s.Escapes p
  · exact .inl escapes
  by_cases escapes' : t.Escapes p
  · exact .inr (.inl escapes')
  by_cases eludes : s.Eludes t p
  · exact .inr (.inr eludes)
  have meet := Shape.intersects_of_contains holds holds' escapes escapes' eludes
  exact absurd ((intersects_iff a b).mpr ⟨s, leaf, t, leaf', meet⟩) missed

theorem shares_of_contains [Trigonometry] {a b : Area} {p : Position} (inA : a.contains p)
    (inB : b.contains p) : Shares a b p := by
  obtain ⟨s, leaf, holds⟩ := a.contains_iff p |>.mp inA
  obtain ⟨t, leaf', holds'⟩ := b.contains_iff p |>.mp inB
  refine ⟨⟨s, leaf, t, leaf', holds, holds'⟩, ?_, ?_, ?_⟩
  · intro s _ t _ holds holds'
    by_cases escapes : s.Escapes p
    · exact .inr (.inl escapes)
    by_cases escapes' : t.Escapes p
    · exact .inr (.inr escapes')
    exact .inl (Box.intersects_of_contains (Shape.within_of_contains holds escapes)
      (Shape.within_of_contains holds' escapes'))
  · intro missed s leaf t leaf' holds holds'
    exact eluded_of_missed missed leaf leaf' holds holds'
  · intro free free' on corners
    have grid := corners s (List.mem_append_left _ leaf)
    have grid' := corners t (List.mem_append_right _ leaf')
    by_contra missed
    rcases eluded_of_missed missed leaf leaf' holds holds' with escapes | escapes | eludes
    · exact Shape.not_escapes_of_grid (free s leaf) (Shape.polygon_onGrid grid) p escapes
    · exact Shape.not_escapes_of_grid (free' t leaf') (Shape.polygon_onGrid grid') p escapes
    · exact Shape.not_eludes_of_grid (free s leaf) (free' t leaf') on grid grid' eludes

/-- A triangle whose tip lies in a rectangle. -/
theorem shares_of_contains_tip :
    let level : Trigonometry := ⟨fun x => x, fun _ => 1, fun x => x, fun y _ => y, fun _ => 0⟩
    let northWest : Position := ⟨5, 14, by decide +kernel, by decide +kernel⟩
    let southEast : Position := ⟨-5, 18, by decide +kernel, by decide +kernel⟩
    let south : Position := ⟨-5, 13, by decide +kernel, by decide +kernel⟩
    let tip : Position := ⟨-0.5, 16, by decide +kernel, by decide +kernel⟩
    let north : Position := ⟨5, 13, by decide +kernel, by decide +kernel⟩
    let a : Area := .union [.union [], .shape (.polygon ⟨[south, tip, north], by decide⟩)]
    let b : Area := .shape (.rectangle ⟨northWest, southEast, by decide +kernel, by decide +kernel⟩)
    a.contains tip ∧ b.contains tip ∧ a.intersects b := by
  intro level northWest southEast south tip north a b
  have inA : a.contains tip := by decide +kernel
  have inB : b.contains tip := by decide +kernel
  have corners : ∀ s ∈ a.leaves ++ b.leaves, ∀ q ∈ s.corners, q.onGrid := by decide +kernel
  exact ⟨inA, inB, (shares_of_contains inA inB).grid (by decide +kernel) (by decide +kernel)
    (by decide +kernel) corners⟩

/-- A rectangle that begins in a circle, east of the circle's box. -/
theorem shared_and_missed :
    let _ := alongSeventy
    let northWest : Position := ⟨70.5, 38.15, by decide +kernel, by decide +kernel⟩
    let southEast : Position := ⟨69.5, 40, by decide +kernel, by decide +kernel⟩
    let a : Area := .shape (.circle northernCircle)
    let b : Area := .shape (.rectangle ⟨northWest, southEast, by decide +kernel, by decide +kernel⟩)
    a.contains easternPosition ∧ b.contains easternPosition ∧ a.intersects b = false := by
  intro _ northWest southEast a b
  exact ⟨by decide +kernel, by decide +kernel, by decide +kernel⟩

end Area
end VesselRelay
