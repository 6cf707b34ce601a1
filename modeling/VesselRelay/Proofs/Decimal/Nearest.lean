import VesselRelay.Decimal.Numeral
import VesselRelay.Proofs.Binary64.Rounding

/-!
The double nearest to a decimal number. The ratio that stands for a number far beyond the range of
doubles has the same fate, so the number itself decides: there is a nearest double unless the number
is beyond all of them, and it is the one as which the number reads back.
-/
namespace VesselRelay.Decimal
open Binary64

/-- The exact number that digits with an exponent are. -/
def Scientific.value (x : Scientific) : ℚ := x.digits * 10 ^ x.exponent

theorem perTen_pos {n d : Nat} (pos : 0 < d) (k : Int) : 0 < (perTen n d k).2 := by
  cases k with
  | ofNat k => exact Nat.mul_pos pos (Nat.pow_pos (by decide))
  | negSucc k => exact pos

theorem perTen_ratio (n d : Nat) (k : Int) :
    ((perTen n d k).1 : ℚ) / (perTen n d k).2 = n / d / 10 ^ k := by
  cases k with
  | ofNat k =>
    rw [perTen, Int.ofNat_eq_natCast, zpow_natCast]
    push_cast
    rw [div_mul_eq_div_div]
  | negSucc k =>
    rw [perTen, zpow_negSucc]
    push_cast
    rw [div_inv_eq_mul]
    ring

theorem limit_le_ten_pow : limit ≤ 10 ^ (400 : Int) := by
  calc limit ≤ 2 ^ 1024 := sub_le_self _ (by positivity)
    _ = (2 ^ 128) ^ 8 := by rw [← pow_mul]
    _ ≤ (10 ^ 50) ^ 8 := pow_le_pow_left₀ (by norm_num) (by norm_num) 8
    _ = 10 ^ (400 : Int) := by
      rw [← pow_mul]
      exact (zpow_natCast 10 400).symm

variable {x : Scientific}

theorem value_nonneg (x : Scientific) : 0 ≤ x.value :=
  mul_nonneg (Nat.cast_nonneg _) (zpow_pos (by norm_num) _).le

theorem ten_zpow_le_value (nonzero : x.digits ≠ 0) : (10 : ℚ) ^ x.exponent ≤ x.value := by
  have one : (1 : ℚ) ≤ x.digits := by exact_mod_cast Nat.one_le_iff_ne_zero.mpr nonzero
  have power : (0 : ℚ) < 10 ^ x.exponent := zpow_pos (by norm_num) _
  exact le_mul_of_one_le_left power.le one

theorem value_lt_ten_zpow (x : Scientific) :
    x.value < 10 ^ (x.exponent + (Nat.log2 x.digits + 1)) := by
  have power : (0 : ℚ) < 10 ^ x.exponent := zpow_pos (by norm_num) _
  have digits : (x.digits : ℚ) < 10 ^ (Nat.log2 x.digits + 1) := by
    calc (x.digits : ℚ) < (2 ^ (Nat.log2 x.digits + 1) : Nat) := by exact_mod_cast Nat.lt_log2_self
      _ ≤ 10 ^ (Nat.log2 x.digits + 1) := by
        push_cast
        gcongr
        norm_num
  rw [add_comm x.exponent, zpow_add₀ (by norm_num), Scientific.value]
  gcongr
  exact_mod_cast digits

theorem ratio_pos (x : Scientific) : 0 < x.ratio.2 := by
  unfold Scientific.ratio
  split_ifs
  · exact Nat.one_pos
  · exact Nat.one_pos
  · positivity
  · exact perTen_pos Nat.one_pos _

/-- Within the range that matters the ratio is the number. -/
theorem ratio_eq (nonzero : x.digits ≠ 0) (high : x.exponent ≤ 400)
    (low : -400 ≤ x.exponent + (Nat.log2 x.digits + 1)) :
    (x.ratio.1 : ℚ) / x.ratio.2 = x.value := by
  unfold Scientific.ratio
  rw [if_neg nonzero, if_neg (by omega), if_neg (by omega), perTen_ratio, Nat.cast_one, div_one,
    zpow_neg, div_inv_eq_mul, Scientific.value]

theorem one_lt_limit : 1 < limit := by
  rw [limit_eq]
  have power : (1 : ℚ) ≤ 2 ^ (971 : Int) := one_le_zpow₀ (by norm_num) (by norm_num)
  calc (1 : ℚ) < 2 ^ 53 - 1 / 2 := by norm_num
    _ ≤ (2 ^ 53 - 1 / 2) * 2 ^ (971 : Int) := le_mul_of_one_le_right (by norm_num) power

/-- The ratio is beyond every double where the number is. -/
theorem limit_le_ratio_iff (x : Scientific) :
    limit ≤ (x.ratio.1 : ℚ) / x.ratio.2 ↔ limit ≤ x.value := by
  have power : ((10 ^ 400 : Nat) : ℚ) = 10 ^ (400 : Int) := by
    rw [Nat.cast_pow]
    exact (zpow_natCast 10 400).symm
  by_cases nothing : x.digits = 0
  · have zero : x.value = 0 := by rw [Scientific.value, nothing, Nat.cast_zero, zero_mul]
    rw [Scientific.ratio, if_pos nothing, zero, Nat.cast_zero, zero_div]
  by_cases high : x.exponent ≤ 400
  · by_cases low : -400 ≤ x.exponent + (Nat.log2 x.digits + 1)
    · rw [ratio_eq nothing high low]
    · have below : x.value < 1 := by
        calc x.value < 10 ^ (x.exponent + (Nat.log2 x.digits + 1)) := value_lt_ten_zpow x
          _ ≤ 1 := zpow_le_one_of_nonpos₀ (by norm_num) (by omega)
      have ratio : (x.ratio.1 : ℚ) / x.ratio.2 ≤ 1 := by
        rw [Scientific.ratio, if_neg nothing, if_neg (by omega), if_pos (by omega), power,
          Nat.cast_one]
        exact div_le_one_of_le₀ (one_le_zpow₀ (by norm_num) (by norm_num)) (by positivity)
      have above := one_lt_limit
      constructor <;> intro beyond <;> linarith
  · have beyond : limit ≤ x.value := by
      calc limit ≤ 10 ^ (400 : Int) := limit_le_ten_pow
        _ ≤ 10 ^ x.exponent := zpow_le_zpow_right₀ (by norm_num) (by omega)
        _ ≤ x.value := ten_zpow_le_value nothing
    have ratio : (x.ratio.1 : ℚ) / x.ratio.2 = 10 ^ (400 : Int) := by
      rw [Scientific.ratio, if_neg nothing, if_pos (by omega), power, Nat.cast_one, div_one]
    rw [ratio]
    exact ⟨fun _ => beyond, fun _ => limit_le_ten_pow⟩

theorem nearestBits_le (n d : Nat) : nearestBits n d ≤ 2047 * 2 ^ 52 := by
  unfold nearestBits
  split
  · exact Nat.zero_le _
  · exact Nat.min_le_right _ _

/-- A decimal number has a nearest double unless it is beyond all of them. -/
theorem isFinite_nearest_iff (x : Scientific) : x.nearest.isFinite = true ↔ x.value < limit := by
  unfold Scientific.nearest Binary64.nearest
  dsimp only
  rw [isFinite_ofBits (nearestBits_le _ _), ne_eq, nearestBits_eq_infinity_iff (ratio_pos x),
    limit_le_ratio_iff, not_le]

theorem ten_zpow_le_of_near {p : Parts} {q : ℚ} (canonical : p.Canonical)
    (nonzero : 0 < p.significand) (near : p.Near q) : (10 : ℚ) ^ (-400 : Int) ≤ q := by
  have quarters : (quartersBelow p : ℚ) ≤ 2 := by exact_mod_cast quartersBelow_le p
  have one : (1 : ℚ) ≤ p.significand := by exact_mod_cast nonzero
  have low := near.low
  have half : (1 : ℚ) / 2 ≤ q / 2 ^ p.exponent := by linarith
  rw [le_div_iff₀ (zpow_pos (by norm_num) _)] at half
  have power : (2 : ℚ) ^ (1075 : Int) ≤ 10 ^ (400 : Int) := by
    calc (2 : ℚ) ^ (1075 : Int) = (2 ^ (43 : Int)) ^ (25 : Int) := zpow_mul 2 43 25
      _ ≤ (10 ^ (16 : Int)) ^ (25 : Int) :=
        zpow_le_zpow_left₀ (by norm_num) (by norm_num) (by norm_num)
      _ = 10 ^ (400 : Int) := (zpow_mul 10 16 25).symm
  calc (10 : ℚ) ^ (-400 : Int) = (10 ^ (400 : Int))⁻¹ := zpow_neg 10 400
    _ ≤ (2 ^ (1075 : Int))⁻¹ := inv_anti₀ (zpow_pos (by norm_num) _) power
    _ = 2 ^ (-1 : Int) * 2 ^ (-1074 : Int) := by rw [← zpow_neg, ← zpow_add₀ (by norm_num)]; rfl
    _ ≤ 1 / 2 * 2 ^ p.exponent := by
      have least := zpow_le_zpow_right₀ (by norm_num : (1 : ℚ) ≤ 2) canonical.least
      rw [zpow_neg_one, one_div]
      gcongr
    _ ≤ q := half

theorem lt_ten_zpow_of_near {p : Parts} {q : ℚ} (canonical : p.Canonical) (pos : 0 < q)
    (near : p.Near q) : q < 10 ^ (400 : Int) := by
  have log := log_le_of_near canonical pos near
  have greatest := canonical.greatest
  calc q < 2 ^ (Int.log 2 q + 1) := Int.lt_zpow_succ_log_self (by norm_num) q
    _ ≤ 2 ^ (1024 : Int) := zpow_le_zpow_right₀ (by norm_num) (by omega)
    _ = (2 ^ (128 : Int)) ^ (8 : Int) := zpow_mul 2 128 8
    _ ≤ (10 ^ (50 : Int)) ^ (8 : Int) :=
      zpow_le_zpow_left₀ (by norm_num) (by norm_num) (by norm_num)
    _ = 10 ^ (400 : Int) := (zpow_mul 10 50 8).symm

/-- A decimal number that reads back as a magnitude has its double for the nearest. -/
theorem nearest_of_near {p : Parts} (canonical : p.Canonical) (nonzero : 0 < p.significand)
    (near : p.Near x.value) : x.nearest = Float.ofBits p.bits.toUInt64 := by
  have positive : 0 < x.value := near.pos nonzero
  have digits : x.digits ≠ 0 := by
    intro nothing
    rw [Scientific.value, nothing, Nat.cast_zero, zero_mul] at positive
    exact lt_irrefl 0 positive
  have high : x.exponent < 400 := by
    have power := (ten_zpow_le_value digits).trans_lt (lt_ten_zpow_of_near canonical positive near)
    exact (zpow_lt_zpow_iff_right₀ (by norm_num)).mp power
  have low : -400 < x.exponent + (Nat.log2 x.digits + 1) := by
    have power := (ten_zpow_le_of_near canonical nonzero near).trans_lt (value_lt_ten_zpow x)
    exact (zpow_lt_zpow_iff_right₀ (by norm_num)).mp power
  have ratio := ratio_eq digits high.le low.le
  have numerator : 0 < x.ratio.1 := by
    apply Nat.pos_of_ne_zero
    intro nothing
    rw [nothing, Nat.cast_zero, zero_div] at ratio
    exact positive.ne ratio
  unfold Scientific.nearest Binary64.nearest
  dsimp only
  rw [nearestBits_of_near canonical numerator (ratio_pos x) (ratio ▸ near)]

end VesselRelay.Decimal
