import VesselRelay.Proofs.Binary64.Undefined
import VesselRelay.Proofs.Geo.Landing
import VesselRelay.Proofs.Geo.Lattice

/-!
The box of a circle is made from corners like any other. They are reckoned from the center and the
radius, and a box never turns them down, whatever the radius: what a circle reaches is not negative,
so that its corners stand on both sides of its center.
-/
namespace VesselRelay

namespace Binary64
open Float.Model (UnpackedFloat)

variable {x y d : Float} {a : ℚ}

/-! ### Infinity among what is not negative -/

theorem place_infinity : place (packed (.infinity .positive)) = some (2, 0, 0) := by decide +kernel

theorem place_neg_infinity : place (packed (.infinity .negative)) = some (-2, 0, 0) := by
  decide +kernel

theorem number?_or_infinity (nonneg : 0.0 ≤ d) :
    (∃ r, number? d = some r ∧ 0 ≤ r) ∨ d.toModel.unpack = .infinity .positive := by
  cases exact : number? d with
  | some r => exact .inl ⟨r, rfl, (le_iff_of_number? number?_nothing exact).mp nonneg⟩
  | none =>
    have origin : place 0.0 = some (0, 0, 0) := by decide
    obtain ⟨m, b, placed, above, le⟩ := le_iff.mp nonneg
    cases origin.symm.trans placed
    rw [number?_eq, worth_eq_none_iff] at exact
    obtain nothing | ⟨_ | _, wide⟩ := exact
    · rw [place, nothing] at above
      cases above
    · rw [place, wide] at above
      cases above
      exact absurd (.inl (by decide)) le
    · exact .inr wide

theorem le_of_place_infinity (exact : number? x = some a) (top : place y = some (2, 0, 0)) :
    x ≤ y := by
  obtain ⟨m, placed, _, below⟩ := isSome_number?_iff.mp (Option.isSome_of_eq_some exact)
  refine le_iff.mpr ⟨m, _, placed, top, ?_⟩
  simp only [RankLt]
  omega

theorem le_of_place_neg_infinity (exact : number? x = some a)
    (bottom : place y = some (-2, 0, 0)) : y ≤ x := by
  obtain ⟨m, placed, above, _⟩ := isSome_number?_iff.mp (Option.isSome_of_eq_some exact)
  refine le_iff.mpr ⟨_, m, bottom, placed, ?_⟩
  simp only [RankLt]
  omega

theorem place_add_infinity (exact : number? x = some a)
    (wide : d.toModel.unpack = .infinity .positive) : place (x + d) = some (2, 0, 0) := by
  change place (packed (UnpackedFloat.add .binary64 x.toModel.unpack d.toModel.unpack)) = _
  rw [number?_eq] at exact
  rw [wide]
  cases unpacked : x.toModel.unpack with
  | notANumber | infinity => rw [unpacked] at exact; cases exact
  | zero | finite => exact place_infinity

theorem place_sub_infinity (exact : number? x = some a)
    (wide : d.toModel.unpack = .infinity .positive) : place (x - d) = some (-2, 0, 0) := by
  change place (packed (UnpackedFloat.sub .binary64 x.toModel.unpack d.toModel.unpack)) = _
  rw [number?_eq] at exact
  rw [wide]
  cases unpacked : x.toModel.unpack with
  | notANumber | infinity => rw [unpacked] at exact; cases exact
  | zero | finite => exact place_neg_infinity

theorem le_add_of_nonneg (exact : number? x = some a) (nonneg : 0.0 ≤ d) : x ≤ x + d := by
  obtain ⟨r, right, level⟩ | wide := number?_or_infinity nonneg
  · exact (beside_add exact right).below exact (le_add_of_nonneg_right level)
  · exact le_of_place_infinity exact (place_add_infinity exact wide)

theorem sub_le_of_nonneg (exact : number? x = some a) (nonneg : 0.0 ≤ d) : x - d ≤ x := by
  obtain ⟨r, right, level⟩ | wide := number?_or_infinity nonneg
  · exact (beside_sub exact right).above exact (sub_le_self a level)
  · exact le_of_place_neg_infinity exact (place_sub_infinity exact wide)

/-- The quotient of two doubles above zero is not negative, unless both are infinite. -/
theorem div_nonneg_of_pos (pos : 0.0 < x) (pos' : 0.0 < y)
    (exact : (number? x).isSome ∨ (number? y).isSome) : 0.0 ≤ x / y := by
  have quotient : x / y =
      packed (UnpackedFloat.div .binary64 x.toModel.unpack y.toModel.unpack) := rfl
  rcases unpack_of_pos pos with wide | ⟨m, e, _, finite⟩ <;>
    rcases unpack_of_pos pos' with wide' | ⟨n, f, _, finite'⟩
  · rw [number?_eq, number?_eq, wide, wide'] at exact
    rcases exact with some | some <;> cases some
  · rw [quotient, wide, finite']
    exact le_of_place_infinity number?_nothing place_infinity
  · rw [quotient, finite, wide']
    exact (by decide +kernel : 0.0 ≤ packed (.zero .positive))
  · have left : number? x = some _ := (number?_eq x).trans (congrArg worth finite)
    have right : number? y = some _ := (number?_eq y).trans (congrArg worth finite')
    have above := (lt_iff_of_number? number?_nothing left).mp pos
    have above' := (lt_iff_of_number? number?_nothing right).mp pos'
    exact (beside_div left right above'.ne').below number?_nothing (div_nonneg above.le above'.le)

/-- A double above zero is not made less by a factor that is not below one. -/
theorem mul_pos_of_one_le (factor : number? x = some a) (large : 1 ≤ a) (pos : 0.0 < y) :
    0.0 < x * y := by
  rcases unpack_of_pos pos with wide | ⟨m, e, _, finite⟩
  · have positive : 0.0 < x := (lt_iff_of_number? number?_nothing factor).mpr (by linarith)
    rcases unpack_of_pos positive with wide' | ⟨n, f, _, finite'⟩
    · rw [number?_eq, wide'] at factor
      cases factor
    · have product : x * y =
          packed (UnpackedFloat.mul .binary64 x.toModel.unpack y.toModel.unpack) := rfl
      rw [product, finite', wide]
      exact (by decide +kernel : 0.0 < packed (.infinity .positive))
  · have exact : number? y = some _ := (number?_eq y).trans (congrArg worth finite)
    have above := (lt_iff_of_number? number?_nothing exact).mp pos
    exact lt_of_lt_of_le pos
      ((beside_mul factor exact).below exact (le_mul_of_one_le_left above.le large))

end Binary64

namespace Circle
open Binary64 (least greatest number?)
open Trigonometry (cos)

variable [Trigonometry] {c : Circle}

/-- The box of the corners that are reckoned for a circle, if they can be those of a box. -/
def bounds (c : Circle) : Except Failure Box :=
  let south := greatest (-90.0) (c.center.latitude - c.reach)
  let north := least 90.0 (c.center.latitude + c.reach)
  let west := c.center.longitude - c.halfSpan
  let east := c.center.longitude + c.halfSpan
  if south ≤ -90.0 ∨ 90.0 ≤ north ∨ cos (c.center.latitude * pi / 180.0) ≤ 0.0 then
    Box.make south north (-180.0) 180.0
  else if west < -180.0 ∨ 180.0 < east then Box.make south north (-180.0) 180.0
  else Box.make south north west east

/-! ### What a circle reaches -/

omit [Trigonometry] in
theorem reach_nonneg : 0.0 ≤ c.reach := by
  refine Binary64.div_nonneg_of_pos c.positive ?_ (.inr ?_)
  · decide +kernel
  · rw [number?_metresPerDegree]
    rfl

omit [Trigonometry] in
theorem southern_reach : southern c.center.latitude c.reach =
    greatest (-90.0) (c.center.latitude - c.reach) := by
  obtain ⟨a, exact, _⟩ := c.center.number?_latitude
  have below := Binary64.sub_le_of_nonneg exact (reach_nonneg (c := c))
  exact if_neg (Binary64.not_lt_of_le (Binary64.greatest_le c.center.validLatitude.1 below))

omit [Trigonometry] in
theorem northern_reach : northern c.center.latitude c.reach =
    least 90.0 (c.center.latitude + c.reach) := by
  obtain ⟨a, exact, _⟩ := c.center.number?_latitude
  have above := Binary64.le_add_of_nonneg exact (reach_nonneg (c := c))
  exact if_neg (Binary64.not_lt_of_le (Binary64.le_least c.center.validLatitude.2 above))

omit [Trigonometry] in
/-- A circle that is infinite reaches the poles. -/
theorem southern_of_infinite (endless : number? c.radius = none) :
    southern c.center.latitude c.reach ≤ -90.0 := by
  obtain ⟨a, exact, _⟩ := c.center.number?_latitude
  have pole : (-90.0 : Float) ≤ -90.0 := by decide +kernel
  have reached : number? c.reach = none := Binary64.number?_div_of_left endless
  obtain ⟨r, finite, _⟩ | wide := Binary64.number?_or_infinity (reach_nonneg (c := c))
  · rw [reached] at finite
    cases finite
  · rw [southern_reach]
    exact Binary64.greatest_le pole (Binary64.le_of_place_neg_infinity
      (Binary64.number?_neg number?_quarterTurn) (Binary64.place_sub_infinity exact wide))

theorem halfSpan_nonneg (finite : (number? c.radius).isSome)
    (forward : 0.0 < cos (c.center.latitude * pi / 180.0)) : 0.0 ≤ c.halfSpan :=
  Binary64.div_nonneg_of_pos c.positive
    (Binary64.mul_pos_of_one_le number?_metresPerDegree (by norm_num) forward) (.inl finite)

/-! ### Corners -/

/-- A circle that reaches a pole, or the date line, is bounded by all longitudes. -/
theorem box_around (around : c.box.south ≤ -90.0 ∨ 90.0 ≤ c.box.north ∨
      cos (c.center.latitude * pi / 180.0) ≤ 0.0 ∨
      c.center.longitude - c.halfSpan < -180.0 ∨ 180.0 < c.center.longitude + c.halfSpan) :
    c.box.west = -180.0 ∧ c.box.east = 180.0 := by
  rw [c.box_latitudes.1, c.box_latitudes.2] at around
  simp only [box]
  split
  · exact ⟨rfl, rfl⟩
  · rename_i clear
    split
    · rename_i inside
      rcases around with pole | pole | pole | beyond | beyond
      · exact absurd (.inl pole) clear
      · exact absurd (.inr (.inl pole)) clear
      · exact absurd (.inr (.inr pole)) clear
      · exact absurd beyond (Binary64.not_lt_of_le inside.1.1)
      · exact absurd beyond (Binary64.not_lt_of_le inside.2.2)
    · exact ⟨rfl, rfl⟩

/-- Any other circle is bounded by what it reaches. -/
theorem box_beside (clear : ¬ (c.box.south ≤ -90.0 ∨ 90.0 ≤ c.box.north ∨
      cos (c.center.latitude * pi / 180.0) ≤ 0.0))
    (west : -180.0 ≤ c.center.longitude - c.halfSpan ∧
      c.center.longitude - c.halfSpan ≤ c.center.longitude)
    (east : c.center.longitude ≤ c.center.longitude + c.halfSpan ∧
      c.center.longitude + c.halfSpan ≤ 180.0) :
    c.box.west = c.center.longitude - c.halfSpan ∧
      c.box.east = c.center.longitude + c.halfSpan := by
  rw [c.box_latitudes.1, c.box_latitudes.2] at clear
  simp only [box]
  split
  · rename_i pole
    exact absurd pole clear
  · split
    · exact ⟨rfl, rfl⟩
    · rename_i outside
      exact absurd ⟨west, east⟩ outside

/-- The box of a circle is the one that is made of its corners. It asks of the cosine only that it
is a number. -/
theorem bounds_eq (number : cos (c.center.latitude * pi / 180.0) ≤
    cos (c.center.latitude * pi / 180.0)) : c.bounds = .ok c.box := by
  have made := Box.make_self c.box
  have south := c.box_latitudes.1.trans southern_reach
  have north := c.box_latitudes.2.trans northern_reach
  simp only [bounds, ← south, ← north]
  split
  · rename_i pole
    obtain ⟨west, east⟩ := box_around
      (pole.imp_right fun pole => pole.imp_right fun pole => .inl pole)
    rwa [west, east] at made
  rename_i clear
  split
  · rename_i beyond
    obtain ⟨west, east⟩ := box_around (.inr (.inr (.inr beyond)))
    rwa [west, east] at made
  rename_i within
  obtain ⟨a, exact, _⟩ := c.center.number?_longitude
  have finite : (number? c.radius).isSome := by
    by_contra endless
    have pole := southern_of_infinite (by simpa using endless)
    exact clear (.inl (c.box_latitudes.1 ▸ pole))
  have forward : 0.0 < cos (c.center.latitude * pi / 180.0) := by
    by_contra back
    have origin : (0.0 : Float) ≤ 0.0 := by decide +kernel
    exact clear (.inr (.inr (Binary64.le_of_not_lt number origin back)))
  have nonneg := halfSpan_nonneg finite forward
  have before := Binary64.sub_le_of_nonneg exact nonneg
  have behind := Binary64.le_add_of_nonneg exact nonneg
  obtain ⟨notWest, notEast⟩ := not_or.mp within
  obtain ⟨west, east⟩ := box_beside clear
    ⟨Binary64.le_of_not_lt validLongitude_west.1 (Binary64.le_refl_of_le_left before) notWest,
      before⟩
    ⟨behind, Binary64.le_of_not_lt (Binary64.le_refl_of_le_right behind)
      (Binary64.le_refl_of_le_left validLongitude_east.2) notEast⟩
  rwa [west, east] at made

end Circle
end VesselRelay
