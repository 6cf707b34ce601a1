import VesselRelay.Proofs.Binary64.Undefined
import VesselRelay.Proofs.Geo.Grid
import VesselRelay.Proofs.Geo.Grouping
import VesselRelay.Proofs.Random.Unit

/-!
Where random positions lie. A position is drawn from one of the leaves of an area, whichever members
are chosen on the way, so it is held where its leaf holds what is drawn from it. Rectangles do, by
their limits, and polygons, by the trial. A circle is drawn from in the plane at its center, and
whether it holds the position is measured on the globe: its draws reach no farther than the radius
in the plane, and what the two measures differ by is left open.
-/
namespace VesselRelay
open Generator (Attempt double doubleBelow doubleBetween bind_apply bind_fst_eq_ok)
open Binary64 (number? number?_one number?_nothing)

variable {g : Generator} {p : Position}

/-! ### Spans -/

theorem uniformBetween_spec {least bound : Float} {l b : ℚ} (left : number? least = some l)
    (right : number? bound = some b) (order : least ≤ bound)
    (bounded : (number? (bound - least)).isSome) (g : Generator) :
    ∃ x, (uniformBetween least bound g).1 = .ok x ∧ least ≤ x ∧ x ≤ bound := by
  unfold uniformBetween
  split
  · rename_i wide
    have drawn : (doubleBetween least bound g).1 = .ok _ :=
      Generator.doubleBetween_fst_eq_ok.mpr ⟨wide, rfl⟩
    obtain ⟨v, exact, above, below⟩ := Generator.doubleBetween_range left right bounded drawn
    exact ⟨_, drawn, (Binary64.le_iff_of_number? left exact).mpr above,
      (Binary64.le_iff_of_number? exact right).mpr below⟩
  · exact ⟨least, rfl, Binary64.le_refl_of_le_left order, order⟩

/-- A draw from a box returns a position of the box. -/
theorem sampleSpan_spec (box : Box) (g : Generator) :
    ∃ p, (sampleSpan box.south box.north box.west box.east g).1 = .ok p ∧ box.contains p := by
  obtain ⟨s, south, lowS, highS⟩ := box.validSouth.exists_number
  obtain ⟨n, north, lowN, highN⟩ := box.validNorth.exists_number
  obtain ⟨w, west, lowW, highW⟩ := box.validWest.exists_number
  obtain ⟨e, east, lowE, highE⟩ := box.validEast.exists_number
  obtain ⟨latitude, drawn, aboveS, belowN⟩ := uniformBetween_spec south north box.upright
    (isSome_sub_of_small south north (by linarith) (by linarith)) g
  obtain ⟨longitude, drawn', aboveW, belowE⟩ := uniformBetween_spec west east box.eastward
    (isSome_sub_of_small west east (by linarith) (by linarith))
    (uniformBetween box.south box.north g).2
  have lat : ValidLatitude latitude :=
    ⟨Binary64.le_trans box.validSouth.1 aboveS, Binary64.le_trans belowN box.validNorth.2⟩
  have lon : ValidLongitude longitude :=
    ⟨Binary64.le_trans box.validWest.1 aboveW, Binary64.le_trans belowE box.validEast.2⟩
  refine ⟨⟨latitude, longitude, lat, lon⟩, ?_,
    Box.contains_iff.mpr ⟨aboveS, belowN, aboveW, belowE⟩⟩
  refine bind_fst_eq_ok.mpr ⟨latitude, drawn, bind_fst_eq_ok.mpr ⟨longitude, drawn', ?_⟩⟩
  change Position.make latitude longitude = _
  simp [Position.make, lat, lon]

theorem Rectangle.sample_spec (r : Rectangle) (g : Generator) :
    ∃ p, (r.sample g).1 = .ok p ∧ r.contains p := by
  obtain ⟨p, drawn, inside⟩ := sampleSpan_spec r.box g
  obtain ⟨south, north, west, east⟩ := Box.contains_iff.mp inside
  refine ⟨p, drawn, ?_⟩
  simp only [Rectangle.contains, Bool.and_eq_true, decide_eq_true_eq]
  exact ⟨⟨⟨north, south⟩, west⟩, east⟩

/-- Of a polygon's trials only one that the polygon holds is returned. -/
theorem Polygon.contains_of_sampleWithin {polygon : Polygon} {box : Box} {trials : ℕ}
    (returned : (polygon.sampleWithin box trials g).1 = .ok p) : polygon.contains p := by
  induction trials generalizing g with
  | zero => cases returned
  | succ trials ih =>
    obtain ⟨q, tried, rest⟩ := bind_fst_eq_ok.mp returned
    split at rest
    · rename_i held
      cases rest
      exact held
    · exact ih rest

/-! ### Circles -/

namespace LocalFrame

theorem wrapLongitude_of_endless {x : Float} (endless : number? x = none) :
    wrapLongitude x = Binary64.undefined := by
  have invalid : ¬ ValidLongitude x := by
    intro valid
    obtain ⟨a, exact, _⟩ := valid.exists_number
    rw [endless] at exact
    cases exact
  have far : Binary64.parts? (x + 180.0) = none := by
    rw [← Option.map_eq_none_iff]
    exact Binary64.number?_add_of_left endless
  have turned : Binary64.wrapTurn (x + 180.0) = Binary64.undefined := by
    simp [Binary64.wrapTurn, Binary64.remainder, far]
  rw [wrapLongitude, if_neg invalid, turned, Binary64.undefined_sub]

/-- A point that is endlessly far to one side, or nowhere, has no position. -/
theorem toPosition_of_endless (frame : LocalFrame) {point : PlanarPoint}
    (endless : number? point.x = none) :
    ∃ fault, frame.toPosition point = .error (.argument fault) := by
  rw [toPosition, wrapLongitude_of_endless
    (Binary64.number?_add_of_right (Binary64.number?_div_of_left endless)), Position.make]
  split
  · exact ⟨_, rfl⟩
  · exact ⟨_, rfl⟩

end LocalFrame

section
variable [Trigonometry] {c : Circle}
open Trigonometry (sin cos)

namespace Circle

/-- How far from the center a draw lies in the plane. -/
def drawnDistance (c : Circle) (g : Generator) : Float := c.radius * (double g).1.sqrt

/-- The direction of a draw, in radians from east. -/
def drawnAngle (g : Generator) : Float := (double (double g).2).1 * (2.0 * pi)

theorem sample_fst (c : Circle) (g : Generator) :
    (c.sample g).1 = (LocalFrame.anchored c.center).toPosition
      ⟨c.drawnDistance g * cos (drawnAngle g), c.drawnDistance g * sin (drawnAngle g)⟩ := by
  have root : (liftM double : Attempt Float) g = (.ok (double g).1, (double g).2) := rfl
  have turn : (doubleBelow (2.0 * pi) (double g).2).1 = .ok (drawnAngle g) :=
    Generator.doubleBelow_fst_eq_ok.mpr ⟨by decide +kernel, rfl⟩
  unfold sample
  rw [bind_apply, root]
  dsimp only
  rw [bind_apply, turn]
  rfl

/-- From a circle without end nothing is drawn. -/
theorem sample_of_endless (endless : number? c.radius = none) (g : Generator) :
    ∃ fault, (c.sample g).1 = .error (.argument fault) := by
  rw [sample_fst]
  exact LocalFrame.toPosition_of_endless _
    (Binary64.number?_mul_of_left (Binary64.number?_mul_of_left endless))

/-- Whether the plane at the center of a circle puts a position within the radius, which is not
infinite. -/
def Reaches (c : Circle) (p : Position) : Prop :=
  c.radius.isFinite ∧ ∃ distance angle : Float, 0.0 ≤ distance ∧ distance ≤ c.radius ∧
    0.0 ≤ angle ∧ angle ≤ 2.0 * pi ∧
    (LocalFrame.anchored c.center).toPosition ⟨distance * cos angle, distance * sin angle⟩ = .ok p

/-- Whether a position is within the radius in the plane and not on the globe. -/
def Overshoots (c : Circle) (p : Position) : Prop := c.Reaches p ∧ ¬ c.contains p

omit [Trigonometry] in
theorem drawnDistance_range {r : ℚ} (exact : number? c.radius = some r) (g : Generator) :
    0.0 ≤ c.drawnDistance g ∧ c.drawnDistance g ≤ c.radius := by
  have positive : 0 < r := Generator.number?_zero_of_pos exact c.positive
  obtain ⟨u, unit, nonneg, less⟩ := Generator.double_range g
  obtain ⟨s, root, above, below⟩ := (Binary64.besideRoot_sqrt unit nonneg).between
    number?_nothing number?_one (le_refl 0) zero_le_one (by linarith) (by linarith)
  obtain ⟨d, reached, start, short⟩ := (Binary64.beside_mul exact root).between
    number?_nothing exact (mul_nonneg positive.le above)
    (mul_le_of_le_one_right positive.le below)
  exact ⟨(Binary64.le_iff_of_number? number?_nothing reached).mpr start,
    (Binary64.le_iff_of_number? reached exact).mpr short⟩

omit [Trigonometry] in
theorem drawnAngle_range (g : Generator) : 0.0 ≤ drawnAngle g ∧ drawnAngle g ≤ 2.0 * pi := by
  have turn : (doubleBelow (2.0 * pi) (double g).2).1 = .ok (drawnAngle g) :=
    Generator.doubleBelow_fst_eq_ok.mpr ⟨by decide +kernel, rfl⟩
  obtain ⟨b, exact⟩ : ∃ b, number? (2.0 * pi) = some b :=
    Option.isSome_iff_exists.mp (by decide +kernel)
  obtain ⟨a, drawn, start, short⟩ := Generator.doubleBelow_range exact turn
  exact ⟨(Binary64.le_iff_of_number? number?_nothing drawn).mpr start,
    (Binary64.le_iff_of_number? drawn exact).mpr short⟩

theorem reaches_of_sample (returned : (c.sample g).1 = .ok p) : c.Reaches p := by
  cases exact : number? c.radius with
  | none =>
    obtain ⟨fault, refused⟩ := sample_of_endless exact g
    rw [returned] at refused
    cases refused
  | some r =>
    obtain ⟨start, short⟩ := drawnDistance_range exact g
    obtain ⟨start', short'⟩ := drawnAngle_range g
    have finite : c.radius.isFinite := by
      rw [Binary64.isFinite_eq_isSome, exact]
      rfl
    exact ⟨finite, _, _, start, short, start', short', sample_fst c g ▸ returned⟩

end Circle

/-! ### Areas -/

theorem Shape.contains_of_sample {s : Shape} (returned : (s.sample g).1 = .ok p) :
    s.contains p ∨ ∃ c, s = .circle c ∧ c.Overshoots p := by
  cases s with
  | circle c =>
    by_cases held : c.contains p
    · exact .inl held
    · exact .inr ⟨c, rfl, Circle.reaches_of_sample returned, held⟩
  | rectangle r =>
    obtain ⟨q, drawn, held⟩ := r.sample_spec g
    obtain rfl : p = q := Except.ok.inj (returned.symm.trans drawn)
    exact .inl held
  | polygon polygon => exact .inl (Polygon.contains_of_sampleWithin returned)

namespace Area

mutual

/-- What is drawn from an area is drawn from one of its leaves. -/
theorem leaf_of_sample (a : Area) {g : Generator} (returned : (a.sample g).1 = .ok p) :
    ∃ s ∈ a.leaves, ∃ h, (s.sample h).1 = .ok p := by
  match a with
  | .shape s => exact ⟨s, by simp [leaves], g, returned⟩
  | .union [] => cases returned
  | .union (a :: rest) =>
    obtain ⟨index, _, drawn⟩ := bind_fst_eq_ok.mp returned
    exact leaf_of_sampleMember (a :: rest) _ drawn

theorem leaf_of_sampleMember (members : List Area) (n : ℕ) {g : Generator}
    (returned : (sampleMember members n g).1 = .ok p) :
    ∃ s ∈ (union members).leaves, ∃ h, (s.sample h).1 = .ok p := by
  match members, n with
  | [], _ => cases returned
  | a :: rest, 0 =>
    obtain ⟨s, leaf, drawn⟩ := leaf_of_sample a returned
    exact ⟨s, mem_leaves_cons.mpr (.inl leaf), drawn⟩
  | a :: rest, n + 1 =>
    obtain ⟨s, leaf, drawn⟩ := leaf_of_sampleMember rest n returned
    exact ⟨s, mem_leaves_cons.mpr (.inr leaf), drawn⟩

end

/-- A random position is held by the area that it is drawn from, unless a circle in the area has
overshot. -/
theorem holds_sample {a : Area} {g : Generator} (returned : (a.sample g).1 = .ok p) :
    a.contains p ∨ ∃ c, .circle c ∈ a.leaves ∧ c.Overshoots p := by
  obtain ⟨s, leaf, h, drawn⟩ := leaf_of_sample a returned
  rcases Shape.contains_of_sample drawn with held | ⟨c, rfl, overshoots⟩
  · exact .inl (a.contains_iff p |>.mpr ⟨s, leaf, held⟩)
  · exact .inr ⟨c, leaf, overshoots⟩

omit [Trigonometry] in
/-- Of a rectangle and a circle the rectangle is drawn first, and it holds what is drawn from it. -/
theorem holds_sample_of_square :
    let _ : Trigonometry := ⟨fun _ => 0.0, fun _ => 1.0, fun _ => 1.0, fun _ _ => 0.0, fun _ => 0.0⟩
    let corner : Position := ⟨3.0, 5.0, by decide +kernel, by decide +kernel⟩
    let square : Rectangle :=
      ⟨⟨11.0, 5.0, by decide +kernel, by decide +kernel⟩,
        ⟨3.0, 13.0, by decide +kernel, by decide +kernel⟩, by decide +kernel, by decide +kernel⟩
    let circle : Circle := ⟨corner, 1.0, .geodesic, by decide +kernel⟩
    let a : Area := .union [.shape (.rectangle square), .shape (.circle circle)]
    let g : Generator := ⟨fun _ => .zero, .zero, [0, 0, 0, 0], none⟩
    (a.sample g).1 = .ok corner ∧
      (a.contains corner ∨ ∃ c, .circle c ∈ a.leaves ∧ c.Overshoots corner) := by
  intro _ corner square circle a g
  have returned : (a.sample g).1 = .ok corner := by decide +kernel
  exact ⟨returned, holds_sample returned⟩

end Area
end

/-! ### A draw outside -/

/-- The functions as far as one draw at the mouth of a harbour asks for them: the cosine is that of
the latitude and of the direction, the tangent that of the two latitudes on the chart. -/
@[reducible]
def offHarbour : Trigonometry where
  sin x := if x == 3.543037204743042 then -0.39074845526199575 else 0.0
  cos x := if x == 3.543037204743042 then -0.920497498481318 else 0.563641388525554
  tan x := if x == 1.270789234487522 then 3.2326469349405036 else 3.239683317331173
  atan2 _ _ := 0.0
  log _ := -0.002174297320592254

/-- A generator with three words of a block left, and the fourth at the head of the next block. -/
def outward : Generator where
  encrypt _ := ⟨[0xcc, 0xf3, 0x6e, 0xf7, 0, 0, 0, 0, 0, 0, 0, 0, 0, 0, 0, 0], rfl⟩
  counter := .zero
  unread := [4294810970, 100282846, 2421897184]
  spare := none

/-- Twenty kilometres around a harbour. -/
def roads : Circle where
  center := ⟨55.692, 12.601, by decide +kernel, by decide +kernel⟩
  radius := 20000
  model := .cartesian
  positive := by decide +kernel

/-- Within twenty kilometres of the harbour in the plane, and fifteen metres beyond them on the line
of constant bearing. -/
def offing : Position where
  latitude := 55.62171957359145
  longitude := 12.30726421778465
  validLatitude := by decide +kernel
  validLongitude := by decide +kernel

theorem Area.drawn_outside :
    let _ := offHarbour
    ((Area.shape (.circle roads)).sample outward).1 = .ok offing ∧
      ¬ (Area.shape (.circle roads)).contains offing := by
  intro _
  exact ⟨by decide +kernel, by decide +kernel⟩

end VesselRelay
