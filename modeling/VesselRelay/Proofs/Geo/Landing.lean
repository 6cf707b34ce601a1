import VesselRelay.Proofs.Binary64.Sum
import VesselRelay.Proofs.Binary64.Turn
import VesselRelay.Proofs.Geo.Haversine
import VesselRelay.Proofs.Geo.Sampled

/-!
Which points of a plane have a position. However far away a finite point is, its latitude stops at a
pole and its longitude goes round, so that it has one; only where the plane is laid out so close to
a pole that a degree of longitude is no longer than a few metres may the division overflow. From a
circle elsewhere that is not infinite a position is drawn whatever the generator comes up with.
-/
namespace VesselRelay
open Binary64 (number? number?_one number?_nothing)

variable {x y : Float} {a b r s : ℚ}

/-! ### Points of the plane -/

namespace Binary64

theorem abs_le_of_number? (exact : number? x = some a) : |a| ≤ 2 ^ 1024 :=
  (abs_lt_limit exact).le.trans (sub_le_self _ (by positivity))

/-- A quotient by eight or more is far from any overflow. -/
theorem number?_div_of_eight_le (left : number? x = some a) (right : number? y = some b)
    (wide : 8 ≤ b) : ∃ v, number? (x / y) = some v ∧ |v| ≤ 2 ^ 1021 := by
  refine (beside_div left right (by linarith)).exists_le_two_pow (by decide) ?_
  rw [abs_div, abs_of_pos (by linarith : 0 < b), div_le_iff₀ (by linarith)]
  calc |a| ≤ 2 ^ 1024 := abs_le_of_number? left
    _ = 2 ^ 1021 * 8 := pow_add 2 1021 3
    _ ≤ 2 ^ 1021 * b := by gcongr

/-- A sum with up to a turn in degrees. -/
theorem number?_add_of_le_turn (left : number? x = some a) (right : number? y = some b) {k : ℕ}
    (large : 8 < k) (small : k < 1023) (short : |a| ≤ 2 ^ k) (turn : |b| ≤ 360) :
    ∃ v, number? (x + y) = some v ∧ |v| ≤ 2 ^ (k + 1) := by
  refine (beside_add left right).exists_le_two_pow small ?_
  have room : (2 : ℚ) ^ 9 ≤ 2 ^ k := pow_le_pow_right₀ (by norm_num) large
  calc |a + b| ≤ |a| + |b| := abs_add_le a b
    _ ≤ 2 ^ k + 2 ^ k := by linarith
    _ = 2 ^ (k + 1) := by ring

/-- A product with a number from minus one to one. -/
theorem number?_mul_of_unit (left : number? x = some a) (right : number? y = some b)
    (unit : |b| ≤ 1) : ∃ v, number? (x * y) = some v := by
  have bound : |a * b| ≤ |a| := by
    rw [abs_mul]
    exact mul_le_of_le_one_right (abs_nonneg a) unit
  have size : ∃ z, number? z = some |a| := by
    rcases abs_choice a with same | opposite
    · exact ⟨x, left.trans (congrArg some same.symm)⟩
    · exact ⟨-x, (number?_neg left).trans (congrArg some opposite.symm)⟩
  obtain ⟨z, exact⟩ := size
  obtain ⟨low, high⟩ := abs_le.mp bound
  obtain ⟨v, product, _⟩ :=
    (beside_mul left right).between (number?_neg exact) exact low high
  exact ⟨v, product⟩

end Binary64

theorem validLatitude_clamp (exact : number? x = some a) :
    ValidLatitude (Binary64.clamp x (-90.0) 90.0) := by
  have south := Binary64.number?_neg number?_quarterTurn
  rw [Binary64.clamp]
  split_ifs with low high
  · decide +kernel
  · decide +kernel
  · rw [Binary64.lt_iff_of_number? exact south] at low
    rw [Binary64.lt_iff_of_number? number?_quarterTurn exact] at high
    exact (validLatitude_iff exact).mpr ⟨not_lt.mp low, not_lt.mp high⟩

theorem number?_metresPerDegree :
    number? metresPerDegree = some (1910314293677995 / 2 ^ 34) := by
  decide +kernel

namespace LocalFrame

theorem validLongitude_wrapLongitude (exact : number? x = some a) (short : |a| ≤ 2 ^ 1022) :
    ValidLongitude (wrapLongitude x) := by
  rw [wrapLongitude]
  split
  · assumption
  · obtain ⟨v, shifted, _⟩ := Binary64.number?_add_of_le_turn exact number?_halfTurn
      (by decide) (by decide) short (by norm_num)
    obtain ⟨c, turned, start, whole⟩ := Binary64.number?_wrapTurn shifted
    obtain ⟨d, back, low, high⟩ := (Binary64.beside_sub turned number?_halfTurn).between
      (Binary64.number?_neg number?_halfTurn) number?_halfTurn (by linarith) (by linarith)
    exact (validLongitude_iff back).mpr ⟨low, high⟩

/-- A finite point has a position, if degrees of longitude are not too short. -/
theorem exists_toPosition {anchor : Position} [Trigonometry] {point : PlanarPoint}
    (scale : number? (anchored anchor).metresPerDegreeLongitude = some s) (wide : 8 ≤ s)
    (exact : number? point.x = some a) (exact' : number? point.y = some b) :
    ∃ p, (anchored anchor).toPosition point = .ok p := by
  obtain ⟨lat, latitude, low, high⟩ := anchor.number?_latitude
  obtain ⟨lon, longitude, west, east⟩ := anchor.number?_longitude
  obtain ⟨rise, risen, little⟩ := Binary64.number?_div_of_eight_le exact' number?_metresPerDegree
    (by norm_num)
  obtain ⟨run, gone, little'⟩ := Binary64.number?_div_of_eight_le exact scale wide
  obtain ⟨_, there, _⟩ := Binary64.number?_add_of_le_turn risen latitude (by decide) (by decide)
    little (abs_le.mpr ⟨by linarith, by linarith⟩)
  obtain ⟨_, there', short⟩ := Binary64.number?_add_of_le_turn gone longitude (by decide)
    (by decide) little' (abs_le.mpr ⟨by linarith, by linarith⟩)
  rw [Binary64.add_comm] at there there'
  have valid := validLatitude_clamp there
  have valid' := validLongitude_wrapLongitude there' short
  exact ⟨⟨_, _, valid, valid'⟩, (dif_pos valid).trans (dif_pos valid')⟩

end LocalFrame

/-! ### Draws from circles -/

/-- What is known of the functions that positions are drawn with. -/
structure Trigonometry.Circular (lib : Trigonometry) : Prop where
  sin : ∀ {x a}, number? x = some a → ∃ b, number? (lib.sin x) = some b ∧ |b| ≤ 1
  cos : ∀ {x a}, number? x = some a → ∃ b, number? (lib.cos x) = some b ∧ |b| ≤ 1
  /-- Up to a radian, where the cosine is more than `0.54`. -/
  half_le_cos : ∀ {x}, 0.0 ≤ x → x ≤ 1.0 → 0.5 ≤ lib.cos x

section
variable [lib : Trigonometry]
open Trigonometry (sin cos)

/-- Within a radian of the equator to the north a degree of longitude is long enough. -/
theorem LocalFrame.exists_scale (known : lib.Circular) (anchor : Position)
    (north : 0.0 ≤ radians anchor.latitude) (temperate : radians anchor.latitude ≤ 1.0) :
    ∃ s, number? (anchored anchor).metresPerDegreeLongitude = some s ∧ 8 ≤ s := by
  have half : number? 0.5 = some (1 / 2) := by decide +kernel
  have eight : number? 8.0 = some 8 := by decide +kernel
  obtain ⟨a, exact, _⟩ := Binary64.number?_of_between number?_nothing number?_one north temperate
  obtain ⟨c, cosine, unit⟩ := known.cos exact
  have steep := known.half_le_cos north temperate
  have wide : 1 / 2 ≤ c := (Binary64.le_iff_of_number? half cosine).mp steep
  have chosen : Binary64.greatest (cos (radians anchor.latitude)) leastParallelScale =
      cos (radians anchor.latitude) :=
    if_neg (Binary64.not_lt_of_le (Binary64.le_trans (by decide +kernel) steep))
  obtain ⟨s, scale, long, _⟩ := (Binary64.beside_mul number?_metresPerDegree cosine).between eight
    number?_metresPerDegree (by linarith) (by linarith [le_of_abs_le unit])
  refine ⟨s, ?_, long⟩
  change number? (metresPerDegree * Binary64.greatest (cos (radians anchor.latitude)) _) = some s
  rw [chosen, scale]

namespace Circle

/-- From a circle that is not infinite a position is drawn, if at its center degrees of longitude
are not too short. -/
theorem exists_sample (known : lib.Circular) {c : Circle} (exact : number? c.radius = some r)
    (scale : number? (LocalFrame.anchored c.center).metresPerDegreeLongitude = some s)
    (wide : 8 ≤ s) (g : Generator) : ∃ p, (c.sample g).1 = .ok p := by
  obtain ⟨start, short⟩ := c.drawnDistance_range exact g
  obtain ⟨start', short'⟩ := drawnAngle_range g
  obtain ⟨t, turn⟩ : ∃ t, number? (2.0 * pi) = some t :=
    Option.isSome_iff_exists.mp (by decide +kernel)
  obtain ⟨d, distance, _⟩ :=
    Binary64.number?_of_between number?_nothing exact start short
  obtain ⟨e, angle, _⟩ :=
    Binary64.number?_of_between number?_nothing turn start' short'
  obtain ⟨u, cosine, unit⟩ := known.cos angle
  obtain ⟨v, sine, unit'⟩ := known.sin angle
  obtain ⟨_, east⟩ := Binary64.number?_mul_of_unit distance cosine unit
  obtain ⟨_, north⟩ := Binary64.number?_mul_of_unit distance sine unit'
  rw [sample_fst]
  exact LocalFrame.exists_toPosition scale wide east north

end Circle

end
end VesselRelay
