import VesselRelay.Proofs.Binary64.Arithmetic
import VesselRelay.Proofs.Binary64.Nearest

/-!
A sum of two doubles is rounded to the double nearest to it, and so it grows with its parts. That a
sum is beside its exact value would not be enough for this: of two sums between the same neighbours
the lesser could be rounded up and the greater down.
-/
namespace VesselRelay.Binary64

open Float.Model (UnpackedFloat)
open Float.Model.UnpackedFloat (Sign roundWithAccuracy)

variable {x y z : Float} {a b c q r : ℚ}

/-! ### The nearest double -/

theorem NearestTo.neg (nearest : NearestTo x q) : NearestTo (-x) (-q) := by
  obtain ⟨⟨a, exact, least⟩, p, a', parts, exact', even⟩ := nearest
  obtain rfl : a = a' := Option.some.inj (exact.symm.trans exact')
  have turned (b : ℚ) : |b - -q| = |-b - q| := by
    rw [abs_sub_comm, show -q - b = -b - q by ring]
  have same : |-a - -q| = |a - q| := by rw [neg_sub_neg, abs_sub_comm]
  refine ⟨⟨-a, number?_neg exact, fun y b other => ?_⟩, p, -a, (parts?_neg x).trans parts,
    number?_neg exact, fun y b other apart level => ?_⟩
  · rw [same, turned]
    exact least _ _ (number?_neg other)
  · rw [same, turned] at level
    exact even _ _ (number?_neg other) (fun equal => apart (neg_eq_iff_eq_neg.mp equal)) level

/-- What is nearest to a number is below what is nearest to a greater one. -/
theorem NearestTo.le_of_lt (low : NearestTo x q) (high : NearestTo y r) (less : q < r) : x ≤ y := by
  obtain ⟨a, exact, least⟩ := low.near
  obtain ⟨b, exact', least'⟩ := high.near
  rw [le_iff_of_number? exact exact']
  by_contra more
  -- Else the first number is not below the middle of the two doubles, nor the second above it.
  have down := not_le.mp more
  have first : a + b ≤ 2 * q := by nlinarith only [down, sq_le_sq.mpr (least y b exact')]
  have second : 2 * r ≤ a + b := by nlinarith only [down, sq_le_sq.mpr (least' x a exact)]
  linarith

/-! ### Rounding -/

theorem nearestTo_dyadic {m : ℕ} {e : ℤ} (s : Sign) (nonzero : 0 < m)
    (wide : 2 ^ 52 ≤ m ∨ e ≤ -1074) (within : (m * 2 ^ e : ℚ) < limit) :
    NearestTo (packed (roundWithAccuracy .binary64 s m e .exact)) ((s.apply m : ℤ) * 2 ^ e) := by
  have positive : (0 : ℚ) < m * 2 ^ e := by positivity
  have upper : NearestTo (packed (roundWithAccuracy .binary64 .positive m e .exact))
      (m * 2 ^ e) := by
    have exact : Stands (.ofMantissaAndAccuracy m .exact) (m * 2 ^ e / 2 ^ e) :=
      mul_div_cancel_right₀ _ (zpow_pos (by norm_num) e).ne'
    rw [packed_roundWithAccuracy_eq positive exact wide]
    rw [← toNat_num_div_den positive] at within
    have nearest := nearestTo_nearest (Rat.den_pos _) within
    rwa [toNat_num_div_den positive] at nearest
  cases s with
  | positive => exact upper
  | negative =>
    have opposite := upper.neg
    rw [← packed_neg, ← roundWithAccuracy_neg] at opposite
    have turned : ((Sign.negative.apply m : ℤ) * 2 ^ e : ℚ) = -(m * 2 ^ e) := by simp [Sign.apply]
    rw [turned]
    exact opposite

theorem nearestTo_normalize {n e : ℤ} (s : Sign) (within : |(n * 2 ^ e : ℚ)| < limit) :
    NearestTo (packed (UnpackedFloat.normalize .binary64 n e s)) (n * 2 ^ e) := by
  by_cases zero : n = 0
  · rw [zero, Int.cast_zero, zero_mul]
    exact nearestTo_of_eq (number?_packed_zero s)
  · obtain ⟨t, m, f, positive, wide, value, rounded⟩ := exists_dyadic_normalize zero e s
    rw [rounded, ← value]
    refine nearestTo_dyadic t positive wide ?_
    have size : |((t.apply m : ℤ) * 2 ^ f : ℚ)| = m * 2 ^ f := by
      rw [abs_mul, abs_of_pos (zpow_pos (by norm_num : (0 : ℚ) < 2) f)]
      cases t <;> simp [Sign.apply]
    rwa [← size, value]

/-! ### Sums -/

theorem abs_lt_limit (exact : number? x = some a) : |a| < limit := by
  obtain ⟨p, finite, rfl⟩ := Option.map_eq_some_iff.mp exact
  have canonical := canonical_of_parts? finite
  have most : (p.significand : ℚ) ≤ 2 ^ 53 - 1 := by
    have short := canonical.short
    have whole : p.significand + 1 ≤ 2 ^ 53 := by omega
    rw [le_sub_iff_add_le]
    exact_mod_cast whole
  have step : (0 : ℚ) < 2 ^ (971 : ℤ) := zpow_pos (by norm_num) _
  have low : (2 : ℚ) ^ p.exponent ≤ 2 ^ (971 : ℤ) :=
    zpow_le_zpow_right₀ (by norm_num) canonical.greatest
  rw [abs_signed p.value_nonneg, limit_eq]
  calc p.value ≤ (2 ^ 53 - 1) * 2 ^ (971 : ℤ) :=
        mul_le_mul most low (zpow_pos (by norm_num) _).le (by norm_num)
    _ < (2 ^ 53 - 1 / 2) * 2 ^ (971 : ℤ) := mul_lt_mul_of_pos_right (by norm_num) step

theorem nearestTo_add (left : number? x = some a) (right : number? y = some b)
    (within : |a + b| < limit) : NearestTo (x + y) (a + b) := by
  obtain exact | ⟨n, e, sum, value⟩ := add_cases left right
  · exact nearestTo_of_eq exact
  · rw [← value] at within ⊢
    rw [sum]
    exact nearestTo_normalize .positive within

/-- Doubles of one number are the same, but for the sign of zero. -/
theorem eq_of_number? (left : number? x = some a) (right : number? y = some a) (nonzero : a ≠ 0) :
    x = y := by
  have upper {x y : Float} {a : ℚ} (left : number? x = some a) (right : number? y = some a)
      (positive : 0 < a) : x = y := by
    obtain ⟨p, canonical, rfl, rfl⟩ := exists_bits_of_pos left positive
    obtain ⟨q, canonical', rfl, same⟩ := exists_bits_of_pos right positive
    have less := canonical.bits_lt_iff canonical'
    have more := canonical'.bits_lt_iff canonical
    rw [same, lt_self_iff_false, iff_false, not_lt] at less more
    rw [le_antisymm more less]
  rcases lt_or_gt_of_ne nonzero with below | above
  · have turned := upper (number?_neg left) (number?_neg right) (neg_pos.mpr below)
    rw [← neg_neg x, turned, neg_neg]
  · exact upper left right above

theorem number?_add_congr (left : number? x = some a) (right : number? y = some a)
    (addend : number? z = some c) : number? (x + z) = number? (y + z) := by
  by_cases zero : a = 0
  · have kept {x : Float} (exact : number? x = some a) : number? (x + z) = some c := by
      have beside := beside_add exact addend
      rw [zero, zero_add] at beside
      exact beside.exact addend
    rw [kept left, kept right]
  · rw [eq_of_number? left right zero]

theorem add_le_add_right (left : number? x = some a) (right : number? y = some b)
    (addend : number? z = some c) (le : a ≤ b) (low : |a + c| < limit) (high : |b + c| < limit) :
    x + z ≤ y + z := by
  have nearest := nearestTo_add left addend low
  rcases le.lt_or_eq with less | rfl
  · exact nearest.le_of_lt (nearestTo_add right addend high) (add_lt_add_left less c)
  · obtain ⟨d, exact, -⟩ := nearest.near
    exact (le_iff_of_number? exact ((number?_add_congr left right addend).symm.trans exact)).mpr
      le_rfl

/-! ### Room below a double -/

theorem Parts.Canonical.exponent_le {p p' : Parts} (canonical : p.Canonical)
    (canonical' : p'.Canonical) (le : p.value ≤ p'.value) : p.exponent ≤ p'.exponent := by
  by_contra more
  exact not_lt.mpr le ((canonical'.value_lt_iff canonical).mpr (.inl (not_le.mp more)))

/-- Doubles from a positive one on are not closer to each other than one that is below it. -/
theorem exists_below (exact : number? x = some a) (positive : 0 < a) (low : number? y = some b)
    (high : number? z = some c) (ab : a ≤ b) (bc : b < c) :
    ∃ w d, number? w = some d ∧ d < a ∧ a - d ≤ c - b := by
  obtain ⟨p, canonical, -, rfl⟩ := exists_bits_of_pos exact positive
  obtain ⟨q, canonical', -, rfl⟩ := exists_bits_of_pos low (positive.trans_le ab)
  obtain ⟨t, canonical'', -, rfl⟩ := exists_bits_of_pos high (positive.trans_le (ab.trans bc.le))
  obtain ⟨j, stepsJ⟩ := q.exists_steps (canonical.exponent_le canonical' ab)
  obtain ⟨k, stepsK⟩ := t.exists_steps (canonical.exponent_le canonical'' (ab.trans bc.le))
  have step : (0 : ℚ) < 2 ^ p.exponent := zpow_pos (by norm_num) _
  have short := canonical.short
  obtain ⟨n, whole⟩ := Nat.exists_eq_succ_of_ne_zero (Parts.value_pos_iff.mp positive).ne'
  obtain ⟨w, below⟩ := exists_magnitude (m := n) (by omega) canonical.least canonical.greatest
  have apart : p.value = n * 2 ^ p.exponent + 2 ^ p.exponent := by
    rw [Parts.value, whole]
    push_cast
    ring
  refine ⟨w, _, below, by linarith, ?_⟩
  rw [stepsJ, stepsK] at bc ⊢
  have order : (j : ℚ) + 1 ≤ k := by
    exact_mod_cast (mul_lt_mul_iff_left₀ step).mp bc
  calc p.value - n * 2 ^ p.exponent = 1 * 2 ^ p.exponent := by rw [apart]; ring
    _ ≤ (k - j) * 2 ^ p.exponent := mul_le_mul_of_nonneg_right (by linarith) step.le
    _ = k * 2 ^ p.exponent - j * 2 ^ p.exponent := by ring

end VesselRelay.Binary64
