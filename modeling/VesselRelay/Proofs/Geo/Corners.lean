import VesselRelay.Proofs.Binary64.Fraction
import VesselRelay.Proofs.Geo.Grid

/-!
A rectangle is the polygon of its corners. Its edges run along meridians and parallels, and there
nothing that is rounded counts: a position in the box of such an edge is straight ahead, since both
products of its turn vanish, and an edge along a meridian is passed on that meridian, since nothing
is added to it. So a position is held by the ring exactly where it is held by the four limits, also
where these leave no more than a segment or a point.
-/
namespace VesselRelay
open Binary64 (number? number?_nothing)

namespace Binary64

variable {x y : Float} {a : ℚ}

/-! ### What vanishes -/

theorem number?_sub_same (left : number? x = some a) (right : number? y = some a) :
    number? (x - y) = some 0 := by
  have beside := beside_sub left right
  rw [sub_self] at beside
  exact beside.exact number?_nothing

theorem number?_nothing_mul (left : number? x = some 0) (finite : (number? y).isSome) :
    number? (x * y) = some 0 := by
  obtain ⟨b, right⟩ := Option.isSome_iff_exists.mp finite
  have beside := beside_mul left right
  rw [zero_mul] at beside
  exact beside.exact number?_nothing

theorem number?_mul_nothing (finite : (number? x).isSome) (right : number? y = some 0) :
    number? (x * y) = some 0 := by
  rw [mul_comm]
  exact number?_nothing_mul right finite

end Binary64

/-! ### Positions in numbers -/

namespace Position

variable {a b p : Position} {u v w : ℚ × ℚ}

/-- Where a position lies, in degrees to the east and to the north. -/
structure Lies (p : Position) (v : ℚ × ℚ) : Prop where
  longitude : number? p.longitude = some v.1
  latitude : number? p.latitude = some v.2

theorem exists_lies (p : Position) : ∃ v, p.Lies v := by
  obtain ⟨x, longitude, _⟩ := p.number?_longitude
  obtain ⟨y, latitude, _⟩ := p.number?_latitude
  exact ⟨(x, y), longitude, latitude⟩

theorem isSome_longitude_sub (p q : Position) :
    (number? (p.longitude - q.longitude)).isSome := by
  obtain ⟨x, left, _, _⟩ := p.number?_longitude
  obtain ⟨y, right, _, _⟩ := q.number?_longitude
  exact isSome_sub_of_small right left (by linarith) (by linarith)

theorem isSome_latitude_sub (p q : Position) : (number? (p.latitude - q.latitude)).isSome := by
  obtain ⟨x, left, _, _⟩ := p.number?_latitude
  obtain ⟨y, right, _, _⟩ := q.number?_latitude
  exact isSome_sub_of_small right left (by linarith) (by linarith)

end Position

namespace Ring

variable {a b p : Position} {u v w : ℚ × ℚ}

theorem withinBounds_iff_mem (liesA : a.Lies u) (liesB : b.Lies v) (liesP : p.Lies w) :
    withinBounds a b p ↔ w.1 ∈ Set.uIcc u.1 v.1 ∧ w.2 ∈ Set.uIcc u.2 v.2 := by
  have west := Binary64.number?_least liesA.longitude liesB.longitude
  have east := Binary64.number?_greatest liesA.longitude liesB.longitude
  have south := Binary64.number?_least liesA.latitude liesB.latitude
  have north := Binary64.number?_greatest liesA.latitude liesB.latitude
  simp only [withinBounds, Bool.and_eq_true, decide_eq_true_eq, and_assoc,
    Binary64.le_iff_of_number? west liesP.longitude,
    Binary64.le_iff_of_number? liesP.longitude east,
    Binary64.le_iff_of_number? south liesP.latitude,
    Binary64.le_iff_of_number? liesP.latitude north, Set.uIcc, Set.mem_Icc]

theorem passes_iff_lies (liesA : a.Lies u) (liesB : b.Lies v) (liesP : p.Lies w) :
    passes (a, b) p ↔ (v.2 ≤ w.2 ∧ w.2 < u.2) ∨ (u.2 ≤ w.2 ∧ w.2 < v.2) := by
  rw [passes_iff, Binary64.le_iff_of_number? liesB.latitude liesP.latitude,
    Binary64.lt_iff_of_number? liesP.latitude liesA.latitude,
    Binary64.le_iff_of_number? liesA.latitude liesP.latitude,
    Binary64.lt_iff_of_number? liesP.latitude liesB.latitude]

/-! ### Along meridians and parallels -/

theorem turn_eq_straight
    (ahead : number? ((b.longitude - a.longitude) * (p.latitude - a.latitude)) = some 0)
    (aside : number? ((b.latitude - a.latitude) * (p.longitude - a.longitude)) = some 0) :
    turn a b p = .straight := by
  have vanishes := Binary64.number?_sub_same ahead aside
  have left := mt (Binary64.lt_iff_of_number? number?_nothing vanishes).mp (lt_irrefl 0)
  have right := mt (Binary64.lt_iff_of_number? vanishes number?_nothing).mp (lt_irrefl 0)
  simp only [turn, if_neg left, if_neg right]

/-- An edge along a meridian holds what is in its box. -/
theorem touches_of_meridian (liesA : a.Lies u) (liesB : b.Lies v) (liesP : p.Lies w)
    (meridian : u.1 = v.1) :
    touches (a, b) p ↔ w.1 = v.1 ∧ w.2 ∈ Set.uIcc u.2 v.2 := by
  have bounds := withinBounds_iff_mem liesA liesB liesP
  rw [meridian, Set.uIcc_self, Set.mem_singleton_iff] at bounds
  rw [touches, Bool.and_eq_true, beq_iff_eq, bounds, and_iff_right_iff_imp]
  rintro ⟨on, _⟩
  have ahead := Binary64.number?_sub_same liesB.longitude (meridian ▸ liesA.longitude)
  have aside := Binary64.number?_sub_same (on ▸ liesP.longitude) (meridian ▸ liesA.longitude)
  exact turn_eq_straight (Binary64.number?_nothing_mul ahead (p.isSome_latitude_sub a))
    (Binary64.number?_mul_nothing (b.isSome_latitude_sub a) aside)

/-- An edge along a parallel holds what is in its box. -/
theorem touches_of_parallel (liesA : a.Lies u) (liesB : b.Lies v) (liesP : p.Lies w)
    (parallel : u.2 = v.2) :
    touches (a, b) p ↔ w.1 ∈ Set.uIcc u.1 v.1 ∧ w.2 = v.2 := by
  have bounds := withinBounds_iff_mem liesA liesB liesP
  rw [parallel, Set.uIcc_self, Set.mem_singleton_iff] at bounds
  rw [touches, Bool.and_eq_true, beq_iff_eq, bounds, and_iff_right_iff_imp]
  rintro ⟨_, on⟩
  have ahead := Binary64.number?_sub_same (on ▸ liesP.latitude) (parallel ▸ liesA.latitude)
  have aside := Binary64.number?_sub_same liesB.latitude (parallel ▸ liesA.latitude)
  exact turn_eq_straight (Binary64.number?_mul_nothing (b.isSome_longitude_sub a) ahead)
    (Binary64.number?_nothing_mul aside (p.isSome_longitude_sub a))

/-- An edge along a meridian is passed on the meridian. -/
theorem number?_passage_of_meridian (liesA : a.Lies u) (liesB : b.Lies v) (meridian : u.1 = v.1)
    (rise : u.2 ≠ v.2) (p : Position) : number? (passage (a, b) p) = some v.1 := by
  have run := Binary64.number?_sub_same (meridian ▸ liesA.longitude) liesB.longitude
  have area := Binary64.number?_mul_nothing (p.isSome_latitude_sub b) run
  obtain ⟨d, height⟩ := Option.isSome_iff_exists.mp (a.isSome_latitude_sub b)
  have nonzero := Binary64.ne_zero_of_sub liesA.latitude liesB.latitude rise height
  have besideWay := Binary64.beside_div area height nonzero
  rw [zero_div] at besideWay
  have besidePassage :=
    Binary64.beside_add liesB.longitude (besideWay.exact number?_nothing)
  rw [add_zero] at besidePassage
  exact besidePassage.exact liesB.longitude

theorem crossesEast_of_meridian (liesA : a.Lies u) (liesB : b.Lies v) (liesP : p.Lies w)
    (meridian : u.1 = v.1) :
    crossesEast (a, b) p ↔
      ((v.2 ≤ w.2 ∧ w.2 < u.2) ∨ (u.2 ≤ w.2 ∧ w.2 < v.2)) ∧ w.1 < v.1 := by
  rw [crossesEast_eq, Bool.and_eq_true, decide_eq_true_eq, passes_iff_lies liesA liesB liesP]
  refine and_congr_right fun pass => ?_
  have rise : u.2 ≠ v.2 := by
    rcases pass with ⟨low, high⟩ | ⟨low, high⟩
    · exact (low.trans_lt high).ne'
    · exact (low.trans_lt high).ne
  exact Binary64.lt_iff_of_number? liesP.longitude
    (number?_passage_of_meridian liesA liesB meridian rise p)

theorem crossesEast_of_parallel (parallel : a.latitude = b.latitude) (p : Position) :
    crossesEast (a, b) p = false := by
  simp only [crossesEast, parallel, bne_self_eq_false, Bool.false_and]

end Ring

/-! ### Rectangles as rings -/

/-- Where a position's parallel meets the meridian of another one. -/
def Position.onMeridianOf (p q : Position) : Position :=
  ⟨p.latitude, q.longitude, p.validLatitude, q.validLongitude⟩

theorem Position.Lies.onMeridianOf {p q : Position} {v w : ℚ × ℚ} (liesP : p.Lies v)
    (liesQ : q.Lies w) : (p.onMeridianOf q).Lies (w.1, v.2) :=
  ⟨liesQ.longitude, liesP.latitude⟩

namespace Rectangle

variable {r : Rectangle} {p : Position} {u v w : ℚ × ℚ}

def northEast (r : Rectangle) : Position := r.northWest.onMeridianOf r.southEast

def southWest (r : Rectangle) : Position := r.southEast.onMeridianOf r.northWest

theorem edges_corners (r : Rectangle) : Ring.edges r.corners =
    [(r.southWest, r.northWest), (r.northWest, r.northEast), (r.northEast, r.southEast),
      (r.southEast, r.southWest)] := rfl

/-- Where a rectangle lies, from its north-western corner to its south-eastern one. -/
structure Spans (r : Rectangle) (u v : ℚ × ℚ) : Prop where
  northWest : r.northWest.Lies u
  southEast : r.southEast.Lies v
  upright : v.2 ≤ u.2
  eastward : u.1 ≤ v.1

theorem exists_spans (r : Rectangle) : ∃ u v, r.Spans u v := by
  obtain ⟨u, liesNW⟩ := r.northWest.exists_lies
  obtain ⟨v, liesSE⟩ := r.southEast.exists_lies
  exact ⟨u, v, liesNW, liesSE,
    (Binary64.le_iff_of_number? liesSE.latitude liesNW.latitude).mp r.upright,
    (Binary64.le_iff_of_number? liesNW.longitude liesSE.longitude).mp r.eastward⟩

theorem Spans.northEast (spans : r.Spans u v) : r.northEast.Lies (v.1, u.2) :=
  spans.northWest.onMeridianOf spans.southEast

theorem Spans.southWest (spans : r.Spans u v) : r.southWest.Lies (u.1, v.2) :=
  spans.southEast.onMeridianOf spans.northWest

theorem Spans.contains_iff (spans : r.Spans u v) (liesP : p.Lies w) :
    r.contains p ↔ (u.1 ≤ w.1 ∧ w.1 ≤ v.1) ∧ v.2 ≤ w.2 ∧ w.2 ≤ u.2 := by
  simp only [contains, Bool.and_eq_true, decide_eq_true_eq,
    Binary64.le_iff_of_number? liesP.latitude spans.northWest.latitude,
    Binary64.le_iff_of_number? spans.southEast.latitude liesP.latitude,
    Binary64.le_iff_of_number? spans.northWest.longitude liesP.longitude,
    Binary64.le_iff_of_number? liesP.longitude spans.southEast.longitude]
  tauto

/-- The edges hold the positions that are on one limit and within those across it. -/
theorem Spans.touches_iff (spans : r.Spans u v) (liesP : p.Lies w) :
    (∃ e ∈ Ring.edges r.corners, Ring.touches e p) ↔
      (w.1 = u.1 ∧ v.2 ≤ w.2 ∧ w.2 ≤ u.2) ∨ ((u.1 ≤ w.1 ∧ w.1 ≤ v.1) ∧ w.2 = u.2) ∨
        (w.1 = v.1 ∧ v.2 ≤ w.2 ∧ w.2 ≤ u.2) ∨ (u.1 ≤ w.1 ∧ w.1 ≤ v.1) ∧ w.2 = v.2 := by
  have west := Ring.touches_of_meridian spans.southWest spans.northWest liesP rfl
  have north := Ring.touches_of_parallel spans.northWest spans.northEast liesP rfl
  have east := Ring.touches_of_meridian spans.northEast spans.southEast liesP rfl
  have south := Ring.touches_of_parallel spans.southEast spans.southWest liesP rfl
  rw [Set.uIcc_of_le spans.upright, Set.mem_Icc] at west
  rw [Set.uIcc_of_le spans.eastward, Set.mem_Icc] at north
  rw [Set.uIcc_of_ge spans.upright, Set.mem_Icc] at east
  rw [Set.uIcc_of_ge spans.eastward, Set.mem_Icc] at south
  simp only [edges_corners, List.mem_cons, List.not_mem_nil, or_false, exists_eq_or_imp,
    exists_eq_left, west, north, east, south]

/-- Only the western and the eastern edge are met on the way east. Both are from the west of a
rectangle, and from inside it is the eastern one alone. -/
theorem Spans.odd_iff (spans : r.Spans u v) (liesP : p.Lies w) :
    Ring.odd (fun e => Ring.crossesEast e p) (Ring.edges r.corners) ↔
      (u.1 ≤ w.1 ∧ w.1 < v.1) ∧ v.2 ≤ w.2 ∧ w.2 < u.2 := by
  have west := Ring.crossesEast_of_meridian spans.southWest spans.northWest liesP rfl
  have east := Ring.crossesEast_of_meridian spans.northEast spans.southEast liesP rfl
  have north := Ring.crossesEast_of_parallel (a := r.northWest) (b := r.northEast) rfl p
  have south := Ring.crossesEast_of_parallel (a := r.southEast) (b := r.southWest) rfl p
  have never : ¬ (u.2 ≤ w.2 ∧ w.2 < v.2) := by
    rintro ⟨above, below⟩
    exact (above.trans_lt below).not_ge spans.upright
  simp only [never, false_or, or_false] at west east
  simp only [edges_corners, Ring.odd, north, south, Bool.false_bne, Bool.bne_false]
  rw [bne_iff_ne, ne_eq, Bool.eq_iff_iff, west, east]
  have farther (left : w.1 < u.1) : w.1 < v.1 := left.trans_le spans.eastward
  rw [← not_lt]
  grind

theorem ring_contains (r : Rectangle) (p : Position) :
    Ring.contains r.corners p = r.contains p := by
  obtain ⟨u, v, spans⟩ := r.exists_spans
  obtain ⟨w, liesP⟩ := p.exists_lies
  rw [Bool.eq_iff_iff, Ring.contains_iff, spans.touches_iff liesP, spans.odd_iff liesP,
    spans.contains_iff liesP]
  have order := spans.upright
  have order' := spans.eastward
  -- On a limit an edge holds the position, and within all of them the eastern edge alone is met.
  grind

/-- The box of a rectangle is the least one around its corners, two of which reach its limits. -/
theorem encloses_corners (r : Rectangle) : r.box.Encloses (r.corners.map Polygon.pointBox) where
  covers part here := by
    obtain ⟨q, corner, rfl⟩ := List.mem_map.mp here
    have self := Box.Within.refl r.box
    simp only [corners, List.mem_cons, List.not_mem_nil, or_false] at corner
    rcases corner with rfl | rfl | rfl | rfl
    · exact ⟨r.upright, self.north, self.west, r.eastward⟩
    · exact ⟨r.upright, self.north, r.eastward, self.east⟩
    · exact ⟨self.south, r.upright, r.eastward, self.east⟩
    · exact ⟨self.south, r.upright, self.west, r.eastward⟩
  least other covered := by
    have first := covered (Polygon.pointBox r.northWest) (List.mem_map_of_mem (by simp [corners]))
    have third := covered (Polygon.pointBox r.southEast) (List.mem_map_of_mem (by simp [corners]))
    exact ⟨third.south, first.north, first.west, third.east⟩

/-- The corners of a rectangle are those of a polygon that holds the same positions and has the same
box, but for the sign of a limit that is zero. -/
theorem contains_as_polygon (r : Rectangle) : ∃ g, Polygon.make r.corners = .ok g ∧
    (∀ p, r.contains p = g.contains p) ∧ r.box == g.box := by
  refine ⟨⟨r.corners, Nat.le_succ 3⟩, rfl, ?_, ?_⟩
  · intro p
    exact (r.ring_contains p).symm
  · exact r.encloses_corners.unique (Polygon.encloses_box _) fun _ => Iff.rfl

end Rectangle
end VesselRelay
