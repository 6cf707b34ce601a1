import VesselRelay.Proofs.Binary64.Monotone
import VesselRelay.Proofs.Binary64.Nearest

/-!
A double scaled by a fraction of 53 bits below one. The product never exceeds the double, and where
the double is above the least normal one it stays strictly below: the fraction takes away more than
the half of a unit that rounding could give back. Up to there the greatest of these fractions gives
the double itself. Differences are exact where they are small.
-/
namespace VesselRelay.Binary64

variable {x y : Float} {a b c : ℚ} {p : Parts}

/-! ### Whole numbers -/

theorem beside_toFloat (n : UInt64) : Beside n.toFloat n.toNat := by
  have beside := beside_normalize n.toNat 0 .positive
  rw [zpow_zero, mul_one, Int.cast_natCast] at beside
  exact beside

theorem number?_toFloat {n : UInt64} (short : n.toNat < 2 ^ 53) :
    number? n.toFloat = some (n.toNat : ℚ) := by
  obtain ⟨y, exact⟩ := exists_magnitude (e := 0) short (by decide) (by decide)
  rw [zpow_zero, mul_one] at exact
  exact (beside_toFloat n).exact exact

/-! ### Fractions of a double -/

/-- Above the least normal number a significand has 53 bits, and there is one that is less. -/
theorem normal_of_lt (canonical : p.Canonical) (normal : 2 ^ (-1022 : ℤ) < p.value) :
    -1073 ≤ p.exponent ∨ 2 ^ 52 < p.significand := by
  by_contra least
  obtain ⟨lowest, small⟩ := not_or.mp least
  have low := canonical.least
  have few : (p.significand : ℚ) ≤ 2 ^ 52 := by exact_mod_cast not_lt.mp small
  have below : p.value ≤ 2 ^ (-1022 : ℤ) := by
    rw [Parts.value, show p.exponent = -1074 by omega, show (-1022 : ℤ) = 52 + -1074 by norm_num,
      zpow_add₀ (by norm_num)]
    exact mul_le_mul_of_nonneg_right few (zpow_pos (by norm_num) _).le
  exact absurd normal (not_lt.mpr below)

/-- What is a fraction of 53 bits of a magnitude is rounded to less than the magnitude. -/
theorem nearestBits_lt_bits {n d : Nat} (canonical : p.Canonical)
    (normal : -1073 ≤ p.exponent ∨ 2 ^ 52 < p.significand) (nonzero : 0 < n) (pos : 0 < d)
    (less : (n / d : ℚ) ≤ p.value * (1 - 2 ^ (-53 : ℤ))) : nearestBits n d < p.bits := by
  have leading := canonical.leading
  have full : 2 ^ 52 ≤ p.significand := by omega
  have fits := canonical.bits_lt
  have positive : (0 : ℚ) < n / d := by positivity
  obtain ⟨m, rounds, bits⟩ := nearestBits_spec nonzero pos
  rw [bits]
  generalize (n / d : ℚ) = a at *
  have short := rounds.le_of_ge (div_lastOf_lt a).le
  have least : -1074 ≤ lastOf a := by unfold lastOf; omega
  have step : (0 : ℚ) < 2 ^ p.exponent := zpow_pos (by norm_num) _
  have scaled : a / 2 ^ p.exponent ≤ p.significand - p.significand * 2 ^ (-53 : ℤ) := by
    rw [div_le_iff₀ step]
    exact less.trans_eq (by unfold Parts.value; ring)
  have part : (0 : ℚ) < p.significand * 2 ^ (-53 : ℤ) :=
    mul_pos (by exact_mod_cast full.trans_lt' (by decide)) (zpow_pos (by norm_num) _)
  rcases lt_trichotomy (lastOf a) p.exponent with lower | same | higher
  · by_cases edge : lastOf a = p.exponent - 1 ∧ p.significand = 2 ^ 52
    · have kept : m ≤ 2 ^ 53 - 1 := by
        refine rounds.le_of_ge ?_
        rw [edge.1, zpow_sub_one₀ (by norm_num), ← div_div, div_inv_eq_mul]
        rw [edge.2] at scaled
        norm_num at scaled ⊢
        linarith
      unfold Parts.bits
      omega
    · unfold Parts.bits
      omega
  · have beyond : (2 ^ 52 : ℚ) < p.significand := by
      rcases normal with normal | more
      · have reached : (2 ^ 52 : ℕ) ≤ a / 2 ^ lastOf a := le_div_lastOf positive (by
          unfold lastOf at same
          omega)
        rw [same] at reached
        push_cast at reached
        linarith
      · exact_mod_cast more
    rw [same] at rounds
    have half : (1 / 2 : ℚ) < p.significand * 2 ^ (-53 : ℤ) := by
      calc (1 / 2 : ℚ) = 2 ^ 52 * 2 ^ (-53 : ℤ) := by norm_num
        _ < p.significand * 2 ^ (-53 : ℤ) :=
          mul_lt_mul_of_pos_right beyond (zpow_pos (by norm_num) _)
    have kept : m < p.significand := by
      have low := rounds.1
      exact_mod_cast (by linarith : (m : ℚ) < p.significand)
    unfold Parts.bits at fits ⊢
    omega
  · have above := canonical.lt_of_exponent_lt positive higher
    have below : p.value * (1 - 2 ^ (-53 : ℤ)) ≤ p.value :=
      mul_le_of_le_one_right p.value_nonneg (by norm_num)
    linarith

/-- A fraction of 53 bits of a double above the least normal one is rounded to less than the
double. -/
theorem mul_lt_of_fraction {n : ℕ} (fraction : number? x = some (n * 2 ^ (-53 : ℤ) : ℚ))
    (short : n < 2 ^ 53) (exact : number? y = some b) (normal : 2 ^ (-1022 : ℤ) < b) :
    ∃ r, number? (x * y) = some r ∧ r < b := by
  have step : (0 : ℚ) < 2 ^ (-53 : ℤ) := zpow_pos (by norm_num) _
  have positive : 0 < b := normal.trans' (zpow_pos (by norm_num) _)
  rcases Nat.eq_zero_or_pos n with rfl | nonzero
  · rw [Nat.cast_zero, zero_mul] at fraction
    have product := beside_mul fraction exact
    rw [zero_mul] at product
    exact ⟨0, product.exact number?_nothing, positive⟩
  · have above : (0 : ℚ) < n * 2 ^ (-53 : ℤ) := by positivity
    obtain ⟨p, canonical, rfl, rfl⟩ := exists_bits_of_pos exact positive
    have product := mul_pos above positive
    have part : n * 2 ^ (-53 : ℤ) * p.value ≤ p.value * (1 - 2 ^ (-53 : ℤ)) := by
      have most : (n : ℚ) + 1 ≤ 2 ^ 53 := by exact_mod_cast short
      rw [Rat.mul_comm]
      refine mul_le_mul_of_nonneg_left ?_ positive.le
      norm_num at most ⊢
      linarith
    rw [← toNat_num_div_den product] at part
    have less := nearestBits_lt_bits canonical (normal_of_lt canonical normal)
      (toNat_num_pos product) (Rat.den_pos _) part
    obtain ⟨q, canonical', bits⟩ := exists_bits (less.trans canonical.bits_lt)
    rw [mul_eq_nearest fraction exact above positive, nearest, ← bits]
    exact ⟨q.value, number?_ofBits canonical',
      (canonical'.bits_lt_iff canonical).mp (bits.trans_lt less)⟩

theorem Parts.Canonical.least_of_le (canonical : p.Canonical) (least : p.value ≤ 2 ^ (-1022 : ℤ)) :
    p.exponent = -1074 ∧ p.significand ≤ 2 ^ 52 := by
  have step : (0 : ℚ) < 2 ^ (-1074 : ℤ) := zpow_pos (by norm_num) _
  have scale : (2 : ℚ) ^ (-1022 : ℤ) = 2 ^ 52 * 2 ^ (-1074 : ℤ) := by
    rw [show (-1022 : ℤ) = 52 + -1074 by norm_num, zpow_add₀ (by norm_num)]
    rfl
  have lowest : p.exponent = -1074 := by
    by_contra higher
    have low := canonical.least
    have normal : (⟨2 ^ 52, -1074⟩ : Parts).Canonical := ⟨by decide, by decide, by decide, .inl rfl⟩
    have above : (⟨2 ^ 52, -1074⟩ : Parts).value < p.value :=
      (normal.value_lt_iff canonical).mpr (.inl (by dsimp only; omega))
    have under := above.trans_le least
    rw [scale, Parts.value] at under
    norm_num at under
  refine ⟨lowest, ?_⟩
  rw [Parts.value, lowest, scale, mul_le_mul_iff_left₀ step] at least
  exact_mod_cast least

/-- What is taken away from 52 bits is rounded back. -/
theorem rounds_of_few {s : ℕ} (few : s ≤ 2 ^ 52) : Rounds (s - s * 2 ^ (-53 : ℤ)) s := by
  have scale : (0 : ℚ) < 2 ^ (-53 : ℤ) := zpow_pos (by norm_num) _
  have half : (2 : ℚ) ^ 52 * 2 ^ (-53 : ℤ) = 1 / 2 := by norm_num
  have part : (s : ℚ) * 2 ^ (-53 : ℤ) ≤ 1 / 2 := by
    rw [← half]
    exact mul_le_mul_of_nonneg_right (by exact_mod_cast few) scale.le
  have nonneg : (0 : ℚ) ≤ s * 2 ^ (-53 : ℤ) := by positivity
  refine ⟨by linarith, by linarith, fun odd => ⟨?_, by linarith⟩⟩
  have fewer : (s : ℚ) < 2 ^ 52 := by exact_mod_cast (by omega : s < 2 ^ 52)
  have less : (s : ℚ) * 2 ^ (-53 : ℤ) < 1 / 2 := by
    rw [← half]
    exact mul_lt_mul_of_pos_right fewer scale
  linarith

/-- Up to the least normal double, what the greatest fraction takes away is not more than half of
the least step, and is given back. -/
theorem mul_eq_self_of_le (fraction : number? x = some (1 - 2 ^ (-53 : ℤ)))
    (exact : number? y = some b) (positive : 0 < b) (least : b ≤ 2 ^ (-1022 : ℤ)) : x * y = y := by
  have above : (0 : ℚ) < 1 - 2 ^ (-53 : ℤ) := by norm_num
  obtain ⟨p, canonical, rfl, rfl⟩ := exists_bits_of_pos exact positive
  obtain ⟨lowest, few⟩ := canonical.least_of_le least
  have product := mul_pos above positive
  have step : (0 : ℚ) < 2 ^ (-1074 : ℤ) := zpow_pos (by norm_num) _
  have scaled : (1 - 2 ^ (-53 : ℤ)) * p.value / 2 ^ (-1074 : ℤ) =
      p.significand - p.significand * 2 ^ (-53 : ℤ) := by
    rw [Parts.value, lowest, div_eq_iff step.ne']
    ring
  have small : (1 - 2 ^ (-53 : ℤ)) * p.value < 2 ^ (-1022 : ℤ) :=
    (mul_lt_of_lt_one_left positive (by norm_num)).trans_le least
  have last : lastOf ((1 - 2 ^ (-53 : ℤ)) * p.value) = -1074 := by
    have log : Int.log 2 ((1 - 2 ^ (-53 : ℤ)) * p.value) < -1022 :=
      (Int.lt_zpow_iff_log_lt (by norm_num) product).mp small
    unfold lastOf
    omega
  have rounds : Rounds ((1 - 2 ^ (-53 : ℤ)) * p.value / 2 ^ (-1074 : ℤ)) p.significand := by
    rw [scaled]
    exact rounds_of_few few
  rw [mul_eq_nearest fraction exact above positive, nearest]
  rw [← toNat_num_div_den product] at last rounds
  rw [nearestBits_eq (toNat_num_pos product) (Rat.den_pos _) (by rw [last]; exact rounds), last]
  have bits := canonical.bits_lt
  rw [Nat.min_eq_left (by unfold Parts.bits at bits; omega), Parts.bits, lowest]

/-! ### Small differences -/

/-- A difference that is small is exact. -/
theorem number?_sub_of_small (left : number? x = some a) (right : number? y = some b)
    (small : |a - b| < 2 ^ (-1021 : ℤ)) : number? (x - y) = some (a - b) := by
  obtain ⟨k, rfl⟩ := exists_multiple left
  obtain ⟨l, rfl⟩ := exists_multiple right
  have steps : (k * 2 ^ (-1074 : ℤ) - l * 2 ^ (-1074 : ℤ) : ℚ) = (k - l : ℤ) * 2 ^ (-1074 : ℤ) := by
    rw [Int.cast_sub, sub_mul]
  have short : (k - l).natAbs < 2 ^ 53 := by
    rw [steps, abs_mul, abs_of_pos (zpow_pos (by norm_num : (0 : ℚ) < 2) _),
      ← lt_div_iff₀ (zpow_pos (by norm_num) _), ← zpow_sub₀ (by norm_num),
      show (-1021 - -1074 : ℤ) = (53 : ℕ) by norm_num, zpow_natCast] at small
    have whole : |k - l| < 2 ^ 53 := by exact_mod_cast small
    rw [Int.abs_eq_natAbs] at whole
    omega
  obtain ⟨z, exact⟩ := exists_number (e := -1074) short (by decide) (by decide)
  have beside := beside_sub left right
  rw [steps] at beside ⊢
  exact beside.exact exact

/-- A difference that does not vanish does not vanish when it is rounded. -/
theorem sub_neg_of_lt (left : number? x = some a) (right : number? y = some b) (less : a < b) :
    x - y < 0.0 := by
  obtain ⟨k, rfl⟩ := exists_multiple left
  obtain ⟨l, rfl⟩ := exists_multiple right
  have step : (0 : ℚ) < 2 ^ (-1074 : ℤ) := zpow_pos (by norm_num) _
  have order : k < l := by exact_mod_cast (mul_lt_mul_iff_left₀ step).mp less
  obtain ⟨z, exact⟩ := exists_number (n := -1) (e := -1074) (by decide) (by decide) (by decide)
  refine lt_of_le_of_lt ((beside_sub left right).above exact ?_)
    ((lt_iff_of_number? exact number?_nothing).mpr ?_)
  · rw [← sub_mul, ← Int.cast_sub]
    exact mul_le_mul_of_nonneg_right (by exact_mod_cast (by omega : k - l ≤ -1)) step.le
  · exact mul_neg_of_neg_of_pos (by norm_num) step

theorem ne_zero_of_sub (left : number? x = some a) (right : number? y = some b) (apart : a ≠ b)
    (rounded : number? (x - y) = some c) : c ≠ 0 := by
  have below {z : Float} {d : ℚ} (exact : number? z = some d) (less : z < 0.0) : d < 0 :=
    (lt_iff_of_number? exact number?_nothing).mp less
  rcases lt_or_gt_of_ne apart with less | more
  · exact (below rounded (sub_neg_of_lt left right less)).ne
  · have negative := sub_neg_of_lt right left more
    rcases sub_swap (x := x) (y := y) with turned | same
    · rw [turned] at negative
      have opposite := below (number?_neg rounded) negative
      exact (neg_neg_iff_pos.mp opposite).ne'
    · rw [same] at negative
      exact (below rounded negative).ne

end VesselRelay.Binary64
