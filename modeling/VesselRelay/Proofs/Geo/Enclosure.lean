import VesselRelay.Proofs.Geo.Grid
import VesselRelay.Proofs.Geo.Meeting

/-!
The box of an area holds what the area holds, but for what a leaf of the area lets escape: a circle
at a high latitude reaches further east and west than it is reckoned to, and an edge of a polygon
may stray by rounding. Nothing escapes from rectangles and from polygons with corners on the grid.
-/
namespace VesselRelay

theorem Shape.not_escapes_of_grid [Trigonometry] {s : Shape} (straight : s.isCircle = false)
    (grid : ∀ g, s = .polygon g → ∀ q ∈ g.points, q.onGrid) (p : Position) : ¬ s.Escapes p := by
  cases s with
  | circle c => cases straight
  | rectangle r => exact id
  | polygon g =>
    rintro ⟨e, edge, strays⟩
    obtain ⟨start, finish⟩ := Ring.ends_of_mem_edges edge
    exact Ring.not_strays (grid g rfl _ start) (grid g rfl _ finish) p strays

/-- How the box of an area encloses what the area holds. -/
structure Area.Encloses [Trigonometry] (a : Area) (box : Box) : Prop where
  /-- Only what escapes from a leaf that holds it can be outside. -/
  held : ∀ p, a.contains p → box.contains p ∨ ∃ s ∈ a.leaves, s.contains p ∧ s.Escapes p
  /-- The center of a circle never is. -/
  centers : ∀ c, .circle c ∈ a.leaves → box.contains c.center
  /-- Beside a circle that is reckoned to reach a pole or to pass the date line, nothing is outside
  to the east or to the west. -/
  wraps : ∀ c, .circle c ∈ a.leaves → c.Wraps →
    ∀ p : Position, box.west ≤ p.longitude ∧ p.longitude ≤ box.east
  /-- Without circles, and with the corners of all polygons on the grid, nothing is outside. -/
  grid : a.CircleFree → (∀ g, .polygon g ∈ a.leaves → ∀ q ∈ g.points, q.onGrid) →
    ∀ p, a.contains p → box.contains p

namespace Area

theorem encloses_held [Trigonometry] {a : Area} {box : Box} (found : a.box = .ok box) :
    a.Encloses box where
  held p held := within_or_escapes found held
  centers c leaf :=
    Box.within_iff.mp ((encloses_box a found).covers c.box (List.mem_map_of_mem leaf)) c.center
      c.box_contains_center
  wraps c leaf wraps p := by
    have within := (encloses_box a found).covers c.box (List.mem_map_of_mem leaf)
    obtain ⟨west, east⟩ := c.box_spans wraps p
    exact ⟨Binary64.le_trans within.west west, Binary64.le_trans east within.east⟩
  grid free corners p held := by
    refine (within_or_escapes found held).resolve_right ?_
    rintro ⟨s, leaf, -, escapes⟩
    exact Shape.not_escapes_of_grid (free s leaf) (fun g same => corners g (same ▸ leaf)) p escapes

/-- A triangle with its corners on half degrees. -/
theorem encloses_held_of_triangle :
    let level : Trigonometry := ⟨fun x => x, fun _ => 1, fun x => x, fun y _ => y, fun _ => 0⟩
    let south : Position := ⟨-3, 6, by decide +kernel, by decide +kernel⟩
    let east : Position := ⟨3.5, 12, by decide +kernel, by decide +kernel⟩
    let north : Position := ⟨8, 6, by decide +kernel, by decide +kernel⟩
    let inner : Position := ⟨3, 7, by decide +kernel, by decide +kernel⟩
    let a : Area := .union [.shape (.polygon ⟨[south, east, north], by decide⟩)]
    ∃ box, a.box = .ok box ∧ a.contains inner ∧ box.contains inner := by
  intro level south east north inner a
  have found : a.box = .ok _ := rfl
  have held : a.contains inner := by decide +kernel
  refine ⟨_, found, held, (encloses_held found).grid (by decide +kernel) ?_ inner held⟩
  intro g leaf q corner
  cases List.mem_singleton.mp leaf
  have corners : ∀ q ∈ [south, east, north], q.onGrid := by decide +kernel
  exact corners q corner

end Area

/-! ### A circle in the north -/

/-- The functions as far as a circle at seventy degrees and a position on its parallel ask for them:
the sine is that of nothing and of half the way in longitude. -/
@[reducible]
def alongSeventy : Trigonometry where
  sin x := x / 0.11484266478122684 * 0.11459039098834942
  cos _ := 0.3420201433256688
  tan _ := 5.671281819617707
  atan2 _ _ := 0.03920226229764175
  log _ := 0.0

/-- A circle of five hundred kilometres at seventy degrees. -/
def northernCircle : Circle where
  center := ⟨70, 25, by decide +kernel, by decide +kernel⟩
  radius := 500000
  model := .geodesic
  positive := by decide +kernel

/-- On the parallel of its center the circle ends at 38.17 degrees, and its box at 38.147. -/
def easternPosition : Position where
  latitude := 70
  longitude := 38.16
  validLatitude := by decide +kernel
  validLongitude := by decide +kernel

theorem Area.box_misses_held :
    let _ := alongSeventy
    (Area.shape (.circle northernCircle)).contains easternPosition ∧
      (Area.shape (.circle northernCircle)).box = .ok northernCircle.box ∧
      ¬ northernCircle.box.contains easternPosition := by
  intro _
  exact ⟨by decide +kernel, rfl, by decide +kernel⟩

end VesselRelay
