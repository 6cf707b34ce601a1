import VesselRelay.Proofs.Binary64.Fraction
import VesselRelay.Proofs.Binary64.Undefined
import VesselRelay.Proofs.Geo.Grid

/-!
When the great-circle distance of two positions is a number. It is reckoned from the haversine of
the angle between them, and takes the roots of the haversine and of what it leaves of one. The
haversine is rounded, and near the antipode it may come out above one: then the second root is not a
number, and neither is the distance. Wherever it does not, the distance is a finite number.
-/
namespace VesselRelay
open Binary64 (number? Beside undefined number?_one number?_two number?_nothing)

/-! ### Ranges -/

namespace Binary64
variable {x y : Float} {a b : ℚ}

theorem number?_two_pow (k : ℕ) (small : k ≤ 1023) : ∃ y, number? y = some ((2 : ℚ) ^ k) := by
  have short : 2 ^ min k 52 < 2 ^ 53 := Nat.pow_lt_pow_right (by decide) (by omega)
  obtain ⟨y, exact⟩ := exists_magnitude (e := (k - min k 52 : ℕ)) short (by omega) (by omega)
  rw [Nat.cast_pow, Nat.cast_ofNat, zpow_natCast, ← pow_add,
    Nat.add_sub_of_le (Nat.min_le_left k 52)] at exact
  exact ⟨y, exact⟩

/-- What is rounded from within a power of two stays within it. -/
theorem Beside.exists_le_two_pow (beside : Beside x a) {k : ℕ} (small : k ≤ 1023)
    (bound : |a| ≤ 2 ^ k) : ∃ v, number? x = some v ∧ |v| ≤ 2 ^ k := by
  obtain ⟨y, exact⟩ := number?_two_pow k small
  obtain ⟨low, high⟩ := abs_le.mp bound
  obtain ⟨v, rounded, low', high'⟩ := beside.between (number?_neg exact) exact low high
  exact ⟨v, rounded, abs_le.mpr ⟨low', high'⟩⟩

theorem Beside.exists_unit (beside : Beside x a) (nonneg : 0 ≤ a) (le : a ≤ 1) :
    ∃ v, number? x = some v ∧ 0 ≤ v ∧ v ≤ 1 := by
  obtain ⟨y, exact⟩ := number?_two_pow 0 (by decide)
  rw [pow_zero] at exact
  exact beside.between number?_nothing exact nonneg le

end Binary64

theorem number?_pi : ∃ c, number? pi = some c ∧ 1 ≤ c ∧ c ≤ 4 :=
  ⟨884279719003555 / 2 ^ 48, by decide +kernel, by norm_num, by norm_num⟩

/-- What is known of the functions that distances on the sphere are reckoned with. -/
structure Trigonometry.Bounded (lib : Trigonometry) : Prop where
  sin : ∀ {x a}, number? x = some a → ∃ b, number? (lib.sin x) = some b ∧ |b| ≤ 1
  cos : ∀ {x a}, number? x = some a → ∃ b, number? (lib.cos x) = some b ∧ |b| ≤ 1
  /-- Up to a quarter turn. -/
  cos_nonneg : ∀ {x}, -(pi / 2.0) ≤ x → x ≤ pi / 2.0 → 0.0 ≤ lib.cos x
  /-- In the first quadrant. -/
  atan2 : ∀ {y x b a}, number? y = some b → number? x = some a → 0 ≤ b → 0 ≤ a →
    ∃ c, number? (lib.atan2 y x) = some c ∧ 0 ≤ c ∧ c ≤ 2
  atan2_undefined : ∀ y, lib.atan2 y undefined = undefined

/-! ### Angles -/

section
variable {x : Float} {a : ℚ}

theorem number?_radians (exact : number? x = some a) (small : |a| ≤ 2 ^ 9) :
    ∃ v, number? (radians x) = some v ∧ |v| ≤ 2 ^ 11 := by
  obtain ⟨c, circle, low, high⟩ := number?_pi
  have product : |a * c| ≤ 2 ^ 11 := by
    rw [abs_mul, abs_of_nonneg (by linarith : 0 ≤ c)]
    calc |a| * c ≤ 2 ^ 9 * 4 := by gcongr
      _ = 2 ^ 11 := by norm_num
  obtain ⟨b, turned, bound⟩ :=
    (Binary64.beside_mul exact circle).exists_le_two_pow (by decide) product
  refine (Binary64.beside_div turned number?_halfTurn (by norm_num)).exists_le_two_pow
    (by decide) ?_
  rw [abs_div, abs_of_pos (by norm_num : (0 : ℚ) < 180)]
  exact (div_le_self (abs_nonneg b) (by norm_num)).trans bound

/-- A latitude is at most a quarter turn. -/
theorem radians_le_quarter (valid : ValidLatitude x) : radians x ≤ pi / 2.0 := by
  obtain ⟨c, circle, low, high⟩ := number?_pi
  obtain ⟨a, exact, above, below⟩ := valid.exists_number
  obtain ⟨b, turned, _⟩ := (Binary64.beside_mul exact circle).exists_le_two_pow (k := 9) (by decide)
    (by rw [abs_le]; constructor <;> nlinarith)
  rcases le_or_gt a 0 with south | north
  · have side : b ≤ 0 := (Binary64.le_iff_of_number? turned number?_nothing).mp
      ((Binary64.beside_mul exact circle).above number?_nothing
        (mul_nonpos_of_nonpos_of_nonneg south (by linarith)))
    exact Binary64.le_trans ((Binary64.beside_div turned number?_halfTurn (by norm_num)).above
      number?_nothing (div_nonpos_of_nonpos_of_nonneg side (by norm_num)))
      (by decide +kernel)
  · have side : a ≤ b := (Binary64.le_iff_of_number? exact turned).mp
      ((Binary64.beside_mul exact circle).below exact (le_mul_of_one_le_right north.le low))
    obtain ⟨d, quarter⟩ : ∃ d, number? (90.0 * pi) = some d :=
      Option.isSome_iff_exists.mp (by decide +kernel)
    have scaled : x * pi ≤ 90.0 * pi :=
      Binary64.mul_le_mul_right exact number?_quarterTurn circle north valid.2 (by linarith)
    exact Binary64.le_trans (Binary64.div_le_div_right turned quarter number?_halfTurn
      (by linarith) scaled (by norm_num)) (by decide +kernel)

theorem neg_quarter_le_radians (valid : ValidLatitude x) : -(pi / 2.0) ≤ radians x := by
  have opposite : ValidLatitude (-x) :=
    ⟨Binary64.neg_le_neg valid.2, Binary64.neg_neg 90.0 ▸ Binary64.neg_le_neg valid.1⟩
  have turned : radians (-x) = -radians x := by
    rw [radians, radians, Binary64.neg_mul, Binary64.neg_div]
  have le := Binary64.neg_le_neg (radians_le_quarter opposite)
  rwa [turned, Binary64.neg_neg] at le

end

/-! ### The haversine -/

namespace Position
variable [lib : Trigonometry] {a b : Position}
open Trigonometry (sin cos atan2)

/-- The haversine of the angle between two positions as it is reckoned. -/
def haversine (a b : Position) : Float :=
  square (sin ((radians b.latitude - radians a.latitude) / 2.0)) +
    cos (radians a.latitude) * cos (radians b.latitude) *
      square (sin (radians (b.longitude - a.longitude) / 2.0))

theorem geodesicDistance_eq (a b : Position) :
    a.geodesicDistance b =
      earthRadius * (2.0 * atan2 (a.haversine b).sqrt (1.0 - a.haversine b).sqrt) := rfl

omit lib in
theorem square_range {x : Float} {v : ℚ} (exact : number? x = some v) (unit : |v| ≤ 1) :
    ∃ w, number? (square x) = some w ∧ 0 ≤ w ∧ w ≤ 1 :=
  (Binary64.beside_mul exact exact).exists_unit (mul_self_nonneg v) (by
    rw [← abs_mul_abs_self]
    exact mul_le_one₀ unit (abs_nonneg v) unit)

theorem sin_half_range (known : lib.Bounded) {x : Float} {v : ℚ} (exact : number? x = some v)
    (small : |v| ≤ 2 ^ 12) : ∃ w, number? (square (sin (x / 2.0))) = some w ∧ 0 ≤ w ∧ w ≤ 1 := by
  obtain ⟨h, half, _⟩ := (Binary64.beside_div exact number?_two (by norm_num)).exists_le_two_pow
    (k := 12) (by decide) (by
      rw [abs_div, abs_of_pos (by norm_num : (0 : ℚ) < 2)]
      exact (div_le_self (abs_nonneg v) (by norm_num)).trans small)
  obtain ⟨s, sine, unit⟩ := known.sin half
  exact square_range sine unit

theorem cos_latitude_range (known : lib.Bounded) (p : Position) :
    ∃ v, number? (cos (radians p.latitude)) = some v ∧ 0 ≤ v ∧ v ≤ 1 := by
  obtain ⟨a, exact, low, high⟩ := p.number?_latitude
  obtain ⟨r, turned, _⟩ := number?_radians exact (by rw [abs_le]; constructor <;> linarith)
  obtain ⟨v, cosine, unit⟩ := known.cos turned
  have nonneg := known.cos_nonneg (neg_quarter_le_radians p.validLatitude)
    (radians_le_quarter p.validLatitude)
  exact ⟨v, cosine, (Binary64.le_iff_of_number? number?_nothing cosine).mp nonneg,
    (abs_le.mp unit).2⟩

/-- The haversine comes out as a number that is not negative. -/
theorem haversine_range (known : lib.Bounded) (a b : Position) :
    ∃ h, number? (a.haversine b) = some h ∧ 0 ≤ h ∧ h ≤ 2 := by
  obtain ⟨φ, lat, lowA, highA⟩ := a.number?_latitude
  obtain ⟨ψ, lat', lowB, highB⟩ := b.number?_latitude
  obtain ⟨l, lon, westA, eastA⟩ := a.number?_longitude
  obtain ⟨m, lon', westB, eastB⟩ := b.number?_longitude
  obtain ⟨r, turned, small⟩ := number?_radians lat (by rw [abs_le]; constructor <;> linarith)
  obtain ⟨r', turned', small'⟩ := number?_radians lat' (by rw [abs_le]; constructor <;> linarith)
  -- The two differences are far from the largest doubles.
  obtain ⟨d, rise, far⟩ := (Binary64.beside_sub turned' turned).exists_le_two_pow (k := 12)
    (by decide) ((abs_sub _ _).trans (by linarith))
  obtain ⟨e, apart, wide⟩ := (Binary64.beside_sub lon' lon).exists_le_two_pow (k := 9)
    (by decide) (by rw [abs_le]; constructor <;> linarith)
  obtain ⟨f, angle, wide'⟩ := number?_radians apart wide
  obtain ⟨s, sine, startS, endS⟩ := sin_half_range known rise far
  obtain ⟨t, sine', startT, endT⟩ := sin_half_range known angle (by linarith)
  obtain ⟨c, cosine, startC, endC⟩ := cos_latitude_range known a
  obtain ⟨c', cosine', startC', endC'⟩ := cos_latitude_range known b
  obtain ⟨p, parallel, startP, endP⟩ := (Binary64.beside_mul cosine cosine').exists_unit
    (mul_nonneg startC startC') (mul_le_one₀ endC startC' endC')
  obtain ⟨q, second, startQ, endQ⟩ := (Binary64.beside_mul parallel sine').exists_unit
    (mul_nonneg startP startT) (mul_le_one₀ endP startT endT)
  exact (Binary64.beside_add sine second).between number?_nothing number?_two
    (add_nonneg startS startQ) (by linarith)

/-- Where the haversine is at most one, the distance is a finite number. -/
theorem isFinite_geodesicDistance (known : lib.Bounded) (within : a.haversine b ≤ 1.0) :
    (a.geodesicDistance b).isFinite := by
  have radius : number? earthRadius = some 6371000 := by decide +kernel
  obtain ⟨h, exact, nonneg, _⟩ := haversine_range known a b
  have le : h ≤ 1 := (Binary64.le_iff_of_number? exact number?_one).mp within
  obtain ⟨k, rest, startK, endK⟩ :=
    (Binary64.beside_sub number?_one exact).exists_unit (by linarith) (by linarith)
  obtain ⟨s, root, startS, _⟩ := (Binary64.besideRoot_sqrt exact nonneg).between
    number?_nothing number?_one (le_refl 0) zero_le_one (by linarith) (by linarith)
  obtain ⟨t, root', startT, _⟩ := (Binary64.besideRoot_sqrt rest startK).between
    number?_nothing number?_one (le_refl 0) zero_le_one (by linarith) (by linarith)
  obtain ⟨c, arc, startC, endC⟩ := known.atan2 root root' startS startT
  obtain ⟨d, angle, short⟩ := (Binary64.beside_mul number?_two arc).exists_le_two_pow (k := 2)
    (by decide) (by rw [abs_le]; constructor <;> linarith)
  obtain ⟨e, distance, _⟩ := (Binary64.beside_mul radius angle).exists_le_two_pow (k := 25)
    (by decide) (by
      rw [abs_mul, abs_of_pos (by norm_num : (0 : ℚ) < 6371000)]
      linarith)
  rw [geodesicDistance_eq, Binary64.isFinite_eq_isSome, distance]
  rfl

/-- Where the haversine is above one, the distance is not a number. -/
theorem geodesicDistance_of_one_lt (known : lib.Bounded) (beyond : ¬ a.haversine b ≤ 1.0) :
    a.geodesicDistance b = undefined := by
  obtain ⟨h, exact, nonneg, short⟩ := haversine_range known a b
  have above : 1 < h :=
    not_le.mp fun le => beyond ((Binary64.le_iff_of_number? exact number?_one).mpr le)
  obtain ⟨k, rest, _⟩ := (Binary64.beside_sub number?_one exact).exists_le_two_pow (k := 0)
    (by decide) (by rw [abs_le]; constructor <;> linarith)
  have negative : k < 0 := (Binary64.lt_iff_of_number? rest number?_nothing).mp
    (Binary64.sub_neg_of_lt number?_one exact above)
  rw [geodesicDistance_eq, Binary64.sqrt_of_neg rest negative, known.atan2_undefined,
    Binary64.mul_undefined, Binary64.mul_undefined]

end Position

end VesselRelay
