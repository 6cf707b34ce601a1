import VesselRelay.Proofs.Binary64.Error

/-!
How far rounding moves a number in proportion to its size, down to where doubles are evenly spaced.
Whole numbers are rounded like any other, and what is above zero does not get below it.
-/
namespace VesselRelay.Binary64

variable {x y : Float} {a b c : ℚ}

/-- The part of a number by which rounding may move it. -/
def grain : ℚ := 2 ^ (-51 : ℤ)

theorem grain_pos : 0 < grain := by norm_num [grain]

/-- The least double above zero. -/
def tiny : ℚ := 2 ^ (-1074 : ℤ)

theorem tiny_le : tiny ≤ grain * (1 / 2 ^ 100) := by
  unfold tiny grain
  rw [one_div, ← zpow_natCast, ← zpow_neg, ← zpow_add₀ (by norm_num)]
  exact zpow_le_zpow_right₀ (by norm_num) (by norm_num)

/-- A number is moved by a grain of it at most, or by the least double where it is too small. -/
theorem Beside.exists_relative (beside : Beside x a) (bound : |a| ≤ 2 ^ (970 : ℤ)) :
    ∃ b, number? x = some b ∧ |b - a| ≤ max (grain * |a|) tiny := by
  rcases le_or_gt |a| (2 ^ (-1022 : ℤ)) with small | large
  · obtain ⟨b, exact, close⟩ := beside.exists_within le_rfl (by norm_num) small
    exact ⟨b, exact, close.trans (le_max_right _ _)⟩
  · have above : 0 < |a| := (zpow_pos (by norm_num) _).trans large
    have low : (2 : ℚ) ^ Int.log 2 |a| ≤ |a| := Int.zpow_log_le_self (by norm_num) above
    have high : |a| < (2 : ℚ) ^ (Int.log 2 |a| + 1) := Int.lt_zpow_succ_log_self (by norm_num) _
    have least : -1022 ≤ Int.log 2 |a| := (Int.zpow_le_iff_le_log (by norm_num) above).mp large.le
    have greatest : Int.log 2 |a| ≤ 970 :=
      (zpow_le_zpow_iff_right₀ (by norm_num : (1 : ℚ) < 2)).mp (low.trans bound)
    obtain ⟨b, exact, close⟩ := beside.exists_within (by omega) (by omega) high.le
    refine ⟨b, exact, (close.trans ?_).trans (le_max_left _ _)⟩
    have spaced : (2 : ℚ) ^ (Int.log 2 |a| + 1 - 52) = grain * 2 ^ Int.log 2 |a| := by
      rw [grain, ← zpow_add₀ (by norm_num)]
      exact congrArg _ (by ring)
    exact spaced.trans_le (mul_le_mul_of_nonneg_left low grain_pos.le)

theorem Beside.exists_moved (beside : Beside x a) (bound : |a| ≤ 2 ^ 100) :
    ∃ b, number? x = some b ∧ |b - a| ≤ grain * |a| + tiny := by
  have wide : |a| ≤ 2 ^ (970 : ℤ) := by
    refine (bound.trans_eq (zpow_natCast 2 100).symm).trans ?_
    exact zpow_le_zpow_right₀ (by norm_num) (by norm_num)
  obtain ⟨b, exact, close⟩ := beside.exists_relative wide
  exact ⟨b, exact, close.trans (max_le_add_of_nonneg
    (mul_nonneg grain_pos.le (abs_nonneg a)) (zpow_pos (by norm_num) _).le)⟩

/-! ### Whole numbers -/

theorem beside_ofInt (n : ℤ) : Beside (ofInt n) n := by
  have beside := beside_nearest (n := n.natAbs) Nat.one_pos
  rw [Nat.cast_one, div_one, Nat.cast_natAbs] at beside
  unfold ofInt withSign
  split
  · rename_i below
    rw [abs_of_neg (of_decide_eq_true below), Int.cast_neg] at beside
    simpa using beside.neg
  · rename_i above
    rwa [abs_of_nonneg (by simpa using above)] at beside

theorem exists_ofInt {n : ℤ} (bound : |n| ≤ 2 ^ 64) :
    ∃ N, number? (ofInt n) = some N ∧ |N - n| ≤ grain * |(n : ℚ)| := by
  have wide : |(n : ℚ)| ≤ 2 ^ (970 : ℤ) := by
    have fits : |(n : ℚ)| ≤ 2 ^ (64 : ℤ) := by exact_mod_cast bound
    exact fits.trans (zpow_le_zpow_right₀ (by norm_num) (by norm_num))
  obtain ⟨N, exact, close⟩ := (beside_ofInt n).exists_relative wide
  refine ⟨N, exact, ?_⟩
  rcases eq_or_ne n 0 with rfl | nonzero
  · have same := (beside_ofInt 0).exact (y := 0.0) (by rw [Int.cast_zero]; exact number?_nothing)
    obtain rfl : N = 0 := by simpa [same] using exact.symm
    simp
  · have one : (1 : ℚ) ≤ |(n : ℚ)| := by exact_mod_cast Int.one_le_abs nonzero
    have coarse : tiny ≤ grain * |(n : ℚ)| := by
      refine tiny_le.trans (mul_le_mul_of_nonneg_left ?_ grain_pos.le)
      have part : (1 : ℚ) / 2 ^ 100 ≤ 1 := by norm_num
      exact part.trans one
    exact close.trans (max_eq_left coarse).le

/-! ### Sides of zero -/

/-- Whether a number is not across zero from another. -/
structure Sided (a b : ℚ) : Prop where
  above : 0 ≤ a → 0 ≤ b
  below : a ≤ 0 → b ≤ 0

theorem Sided.trans (first : Sided a b) (second : Sided b c) : Sided a c :=
  ⟨second.above ∘ first.above, second.below ∘ first.below⟩

theorem sided_div (a : ℚ) (nonneg : 0 ≤ b) : Sided a (a / b) :=
  ⟨fun above => div_nonneg above nonneg, fun below => div_nonpos_of_nonpos_of_nonneg below nonneg⟩

theorem sided_mul (a : ℚ) (nonneg : 0 ≤ b) : Sided a (a * b) :=
  ⟨fun above => mul_nonneg above nonneg, fun below => mul_nonpos_of_nonpos_of_nonneg below nonneg⟩

theorem Beside.sided (beside : Beside x a) (exact : number? x = some b) : Sided a b where
  above start := (le_iff_of_number? number?_nothing exact).mp (beside.below number?_nothing start)
  below finish := (le_iff_of_number? exact number?_nothing).mp (beside.above number?_nothing finish)

end VesselRelay.Binary64
