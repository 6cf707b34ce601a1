import VesselRelay.Proofs.Geo.Crossing
import VesselRelay.Proofs.Geo.Extent

/-!
What an area holds lies in its box, with two exceptions. The box of a circle is reckoned on a plane,
which is too narrow near the poles. The passage of an edge of a polygon is rounded, which may put
it beyond both ends of the edge; a ring none of whose edges strays so far holds nothing outside the
box of its corners.
-/
namespace VesselRelay
open Binary64 (least greatest le_trans le_refl_of_le_left le_refl_of_le_right lt_of_lt_of_le
  lt_of_le_of_lt le_of_lt not_lt_of_le le_of_not_lt)

/-! ### Boxes of polygons -/

namespace Polygon

variable {box other : Box} {parts : List Box} {p : Position}

/-! A box is widened as two boxes are merged, from the one side and from the other. -/

theorem within_widen (box : Box) (p : Position) : box.Within (widen box p) where
  south := (Box.within_merge_left box (pointBox p)).south
  north := (Box.within_merge_right (pointBox p) box).north
  west := (Box.within_merge_left box (pointBox p)).west
  east := (Box.within_merge_right (pointBox p) box).east

theorem pointBox_within_widen (box : Box) (p : Position) : (pointBox p).Within (widen box p) where
  south := (Box.within_merge_right box (pointBox p)).south
  north := (Box.within_merge_left (pointBox p) box).north
  west := (Box.within_merge_right box (pointBox p)).west
  east := (Box.within_merge_left (pointBox p) box).east

theorem widen_within (inside : box.Within other) (corner : (pointBox p).Within other) :
    (widen box p).Within other where
  south := (Box.merge_within inside corner).south
  north := (Box.merge_within corner inside).north
  west := (Box.merge_within inside corner).west
  east := (Box.merge_within corner inside).east

theorem encloses_widen (encloses : box.Encloses parts) (p : Position) :
    (widen box p).Encloses (parts ++ [pointBox p]) where
  covers part here := by
    rcases List.mem_append.mp here with earlier | last
    · exact (encloses.covers part earlier).trans (within_widen box p)
    · exact List.mem_singleton.mp last ▸ pointBox_within_widen box p
  least other covered := by
    apply widen_within
    · exact encloses.least other fun part here => covered part (List.mem_append_left _ here)
    · exact covered _ (List.mem_append_right _ List.mem_cons_self)

/-- The box of a polygon is the least one around its corners. -/
theorem encloses_box (polygon : Polygon) :
    polygon.box.Encloses (polygon.points.map pointBox) := by
  have widened (rest : List Position) {box : Box} {parts : List Box}
      (start : box.Encloses parts) :
      (rest.foldl widen box).Encloses (parts ++ rest.map pointBox) := by
    induction rest generalizing box parts with
    | nil => simpa using start
    | cons p rest ih => simpa using ih (encloses_widen start p)
  obtain ⟨_ | ⟨p, rest⟩, enough⟩ := polygon
  · cases enough
  · exact widened rest (Box.encloses_singleton (pointBox p))

theorem box_contains (polygon : Polygon) : ∀ q ∈ polygon.points, polygon.box.contains q := by
  intro q corner
  have within := polygon.encloses_box.covers _ (List.mem_map_of_mem corner)
  refine Box.contains_iff.mpr ⟨within.south, within.north, within.west, within.east⟩

end Polygon

/-! ### Circles -/

namespace Circle
variable [Trigonometry] (c : Circle) {p : Position}

omit [Trigonometry] in
/-- How far a circle is reckoned to reach to the north and to the south, in degrees. -/
def reach : Float := c.radius / metresPerDegree

/-- How far a circle is reckoned to reach to the east and to the west, in degrees: as far as on the
parallel of its center. -/
def halfSpan : Float :=
  c.radius / (metresPerDegree * Trigonometry.cos (c.center.latitude * pi / 180.0))

/-- Whether a circle is reckoned to reach a pole or to pass the date line. -/
def Wraps : Prop :=
  (c.center.latitude - c.reach ≤ -90.0 ∨ 90.0 ≤ c.center.latitude + c.reach) ∨
    c.center.longitude - c.halfSpan < -180.0 ∨ 180.0 < c.center.longitude + c.halfSpan

/-- Whether a position lies beyond that, to the east or the west only of a circle that does not
wrap. -/
def Beyond (p : Position) : Prop :=
  ¬ (c.center.latitude - c.reach ≤ p.latitude ∧ p.latitude ≤ c.center.latitude + c.reach) ∨
    ¬ c.Wraps ∧ ¬ (c.center.longitude - c.halfSpan ≤ p.longitude ∧
      p.longitude ≤ c.center.longitude + c.halfSpan)

/-- However a circle is bounded, its center is inside. -/
theorem box_contains_center : c.box.contains c.center := by
  have south := southern_le c.reach c.center.validLatitude
  have north := le_northern c.reach c.center.validLatitude
  simp only [box]
  split
  · exact Box.contains_iff.mpr
      ⟨south, north, c.center.validLongitude.1, c.center.validLongitude.2⟩
  · split
    · rename_i inside
      exact Box.contains_iff.mpr ⟨south, north, inside.1.2, inside.2.1⟩
    · exact Box.contains_iff.mpr
        ⟨south, north, c.center.validLongitude.1, c.center.validLongitude.2⟩

omit [Trigonometry] in
theorem southern_le_of_le {latitude reach x : Float} (pole : -90.0 ≤ x)
    (within : latitude - reach ≤ x) : southern latitude reach ≤ x := by
  have reached := Binary64.greatest_le pole within
  exact le_trans (Binary64.least_le_left (le_refl_of_le_left reached)) reached

omit [Trigonometry] in
theorem le_northern_of_le {latitude reach x : Float} (pole : x ≤ 90.0)
    (within : x ≤ latitude + reach) : x ≤ northern latitude reach := by
  have reached := Binary64.le_least pole within
  exact le_trans reached (Binary64.left_le_greatest (le_refl_of_le_right reached))

/-- The box of a circle that wraps holds every longitude. -/
theorem box_spans (wraps : c.Wraps) (p : Position) :
    c.box.west ≤ p.longitude ∧ p.longitude ≤ c.box.east := by
  have self := validLatitude_southern c.reach c.center.validLatitude
  revert wraps
  simp only [Wraps, halfSpan, box]
  split
  · exact fun _ => p.validLongitude
  · rename_i clear
    split
    · rename_i inside
      rintro ((pole | pole) | beyond | beyond)
      · exact absurd (.inl (southern_le_of_le (le_refl_of_le_left self.1) pole)) clear
      · exact absurd (.inr (.inl (le_northern_of_le (le_refl_of_le_right self.2) pole))) clear
      · exact absurd beyond (not_lt_of_le inside.1.1)
      · exact absurd beyond (not_lt_of_le inside.2.2)
    · exact fun _ => p.validLongitude

theorem box_latitudes : c.box.south = southern c.center.latitude c.reach ∧
    c.box.north = northern c.center.latitude c.reach := by
  simp only [box]
  split
  · exact ⟨rfl, rfl⟩
  · split <;> exact ⟨rfl, rfl⟩

theorem box_longitudes (west : c.center.longitude - c.halfSpan ≤ p.longitude)
    (east : p.longitude ≤ c.center.longitude + c.halfSpan) :
    c.box.west ≤ p.longitude ∧ p.longitude ≤ c.box.east := by
  simp only [box]
  split
  · exact p.validLongitude
  · split
    · exact ⟨west, east⟩
    · exact p.validLongitude

theorem box_contains (stays : ¬ c.Beyond p) : c.box.contains p := by
  obtain ⟨latitudes, longitudes⟩ := not_or.mp stays
  obtain ⟨south, north⟩ := Decidable.not_not.mp latitudes
  have inside : c.box.west ≤ p.longitude ∧ p.longitude ≤ c.box.east := by
    by_cases wraps : c.Wraps
    · exact c.box_spans wraps p
    · obtain ⟨west, east⟩ := Decidable.not_not.mp (not_and.mp longitudes wraps)
      exact c.box_longitudes west east
  rw [Box.contains_iff, c.box_latitudes.1, c.box_latitudes.2]
  exact ⟨southern_le_of_le p.validLatitude.1 south, le_northern_of_le p.validLatitude.2 north,
    inside⟩

end Circle

/-! ### Rings -/

namespace Ring

variable {ring : List Position} {e : Edge} {p : Position} {box : Box}

/-- Whether an edge passes a latitude. It holds its lower end and not its upper one. -/
def passes (e : Edge) (p : Position) : Bool :=
  decide (p.latitude < e.2.latitude) != decide (p.latitude < e.1.latitude)

/-- The longitude at which an edge is reckoned to pass the latitude of a position. -/
def passage (e : Edge) (p : Position) : Float :=
  e.2.longitude + (p.latitude - e.2.latitude) * (e.1.longitude - e.2.longitude) /
    (e.1.latitude - e.2.latitude)

theorem crossesEast_eq (e : Edge) (p : Position) :
    crossesEast e p = (passes e p && decide (p.longitude < passage e p)) := rfl

/-- An edge strays where its passage is not between its ends. -/
def Strays (e : Edge) (p : Position) : Prop :=
  passes e p ∧ ¬ (least e.1.longitude e.2.longitude ≤ passage e p ∧
    passage e p ≤ greatest e.1.longitude e.2.longitude)

instance (e : Edge) (p : Position) : Decidable (Strays e p) :=
  inferInstanceAs (Decidable (_ ∧ _))

theorem contains_of_touches (start : box.contains e.1) (finish : box.contains e.2)
    (touch : touches e p) : box.contains p := by
  obtain ⟨_, bounds⟩ := Bool.and_eq_true_iff.mp touch
  simp only [withinBounds, Bool.and_eq_true, decide_eq_true_eq] at bounds
  obtain ⟨⟨⟨west, east⟩, south⟩, north⟩ := bounds
  rw [Box.contains_iff] at *
  obtain ⟨south₁, north₁, west₁, east₁⟩ := start
  obtain ⟨south₂, north₂, west₂, east₂⟩ := finish
  exact ⟨le_trans (Binary64.le_least south₁ south₂) south,
    le_trans north (Binary64.greatest_le north₁ north₂),
    le_trans (Binary64.le_least west₁ west₂) west,
    le_trans east (Binary64.greatest_le east₁ east₂)⟩

/-- Outside a box around its corners an even number of edges is met: none, or, from the west, every
one that passes the latitude. -/
theorem contains_of_odd (corners : ∀ q ∈ ring, box.contains q)
    (straight : ∀ e ∈ edges ring, ¬ Strays e p)
    (met : odd (fun e => crossesEast e p) (edges ring)) : box.contains p := by
  have latitude := le_refl_of_le_right p.validLatitude.1
  have longitude := le_refl_of_le_right p.validLongitude.1
  have self := Box.Within.refl box
  have ends {e : Edge} (edge : e ∈ edges ring) :=
    And.intro (Box.contains_iff.mp (corners _ (ends_of_mem_edges edge).1))
      (Box.contains_iff.mp (corners _ (ends_of_mem_edges edge).2))
  have between {e : Edge} (edge : e ∈ edges ring) (pass : passes e p) :
      box.west ≤ passage e p ∧ passage e p ≤ box.east := by
    obtain ⟨low, high⟩ := Decidable.not_not.mp (not_and.mp (straight e edge) pass)
    obtain ⟨⟨_, _, west, east⟩, _, _, west', east'⟩ := ends edge
    exact ⟨le_trans (Binary64.le_least west west') low,
      le_trans high (Binary64.greatest_le east east')⟩
  have notEven : odd (fun e => crossesEast e p) (edges ring) ≠ false := by
    rw [met]
    decide
  refine Box.contains_iff.mpr ⟨?_, ?_, ?_, ?_⟩
  · refine le_of_not_lt self.south latitude fun below => notEven (odd_of_none fun e edge => ?_)
    obtain ⟨⟨south, _⟩, south', _⟩ := ends edge
    simp [crossesEast_eq, passes, lt_of_lt_of_le below south, lt_of_lt_of_le below south']
  · refine le_of_not_lt latitude self.north fun above => notEven (odd_of_none fun e edge => ?_)
    obtain ⟨⟨_, north, _⟩, _, north', _⟩ := ends edge
    have low := not_lt_of_le (le_trans north (le_of_lt above))
    have low' := not_lt_of_le (le_trans north' (le_of_lt above))
    simp [crossesEast_eq, passes, low, low']
  · refine le_of_not_lt self.west longitude fun west => notEven ?_
    rw [← odd_edges (fun q => decide (p.latitude < q.latitude)) ring]
    refine odd_congr fun e edge => ?_
    have flip : passes e p = (decide (p.latitude < e.1.latitude) !=
        decide (p.latitude < e.2.latitude)) := bne_comm
    rw [crossesEast_eq, ← flip]
    cases pass : passes e p with
    | false => rfl
    | true => simp [lt_of_lt_of_le west (between edge pass).1]
  · refine le_of_not_lt longitude self.east fun east => notEven (odd_of_none fun e edge => ?_)
    rw [crossesEast_eq]
    cases pass : passes e p with
    | false => rfl
    | true => simp [not_lt_of_le (le_trans (between edge pass).2 (le_of_lt east))]

theorem within_of_contains (corners : ∀ q ∈ ring, box.contains q)
    (straight : ∀ e ∈ edges ring, ¬ Strays e p) (held : contains ring p) : box.contains p := by
  rcases contains_iff.mp held with ⟨e, edge, touch⟩ | met
  · obtain ⟨start, finish⟩ := ends_of_mem_edges edge
    exact contains_of_touches (corners _ start) (corners _ finish) touch
  · exact contains_of_odd corners straight met

end Ring

/-! ### Areas -/

section
variable [Trigonometry]

/-- Whether a shape may hold a position and its box not. -/
def Shape.Escapes : Shape → Position → Prop
  | circle c, p => c.Beyond p
  | rectangle _, _ => False
  | polygon g, p => ∃ e ∈ Ring.edges g.points, Ring.Strays e p

theorem Shape.within_of_contains {s : Shape} {p : Position} (held : s.contains p)
    (stays : ¬ s.Escapes p) : s.box.contains p := by
  cases s with
  | circle c => exact c.box_contains stays
  | rectangle r =>
    simp only [Shape.contains, Rectangle.contains, Bool.and_eq_true, decide_eq_true_eq] at held
    obtain ⟨⟨⟨north, south⟩, west⟩, east⟩ := held
    exact Box.contains_iff.mpr ⟨south, north, west, east⟩
  | polygon g =>
    have straight : ∀ e ∈ Ring.edges g.points, ¬ Ring.Strays e p := by
      intro e edge stray
      exact stays ⟨e, edge, stray⟩
    exact Ring.within_of_contains g.box_contains straight held

theorem Area.within_or_escapes {a : Area} {box : Box} (found : a.box = .ok box) {p : Position}
    (held : a.contains p) : box.contains p ∨ ∃ s ∈ a.leaves, s.contains p ∧ s.Escapes p := by
  obtain ⟨s, leaf, holds⟩ := a.contains_iff p |>.mp held
  by_cases escape : s.Escapes p
  · exact .inr ⟨s, leaf, holds, escape⟩
  · left
    have within := (Area.encloses_box a found).covers s.box (List.mem_map_of_mem leaf)
    exact Box.within_iff.mp within p (Shape.within_of_contains holds escape)

end
end VesselRelay
