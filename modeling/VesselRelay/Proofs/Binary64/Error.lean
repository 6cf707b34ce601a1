import VesselRelay.Proofs.Binary64.Root

/-!
How far a double may be from the real number that it is meant to be. Each operation adds what its
rounding may do, which is one unit in the last of 53 bits at most, to what its operands bring along.
-/
namespace VesselRelay.Binary64

variable {x y : Float} {a : ℚ} {v w m n e f : ℝ}

/-- A unit in the last place of the doubles from one up to two. -/
def unit : ℚ := 2 ^ (-52 : ℤ)

/-- The double is a number within `error` of a real one, which is of magnitude `size` at most. -/
structure Near (x : Float) (v size error : ℝ) : Prop where
  close : ∃ a : ℚ, number? x = some a ∧ |(a : ℝ) - v| ≤ error
  small : |v| ≤ size

theorem abs_le_of_close {a : ℝ} (close : |a - v| ≤ e) (small : |v| ≤ m) : |a| ≤ m + e := by
  have split := abs_add_le v (a - v)
  rw [add_sub_cancel] at split
  linarith

/-- Below a power of two, rounding moves a number by less than a unit of its binade. -/
theorem Beside.exists_within (beside : Beside x a) {k : ℤ} (least : -1022 ≤ k) (small : k ≤ 971)
    (bound : |a| ≤ 2 ^ k) : ∃ b : ℚ, number? x = some b ∧ |b - a| ≤ 2 ^ (k - 52) := by
  have step : (0 : ℚ) < 2 ^ (k - 52) := zpow_pos (by norm_num) _
  have grid (j : ℤ) (inside : |j| ≤ 2 ^ 52) :
      ∃ y, number? y = some (j * 2 ^ (k - 52) : ℚ) := by
    refine exists_number ?_ (by omega) (by omega)
    rw [Int.abs_eq_natAbs] at inside
    omega
  have scaled : |a / 2 ^ (k - 52)| ≤ 2 ^ 52 := by
    rw [abs_div, abs_of_pos step, div_le_iff₀ step, zpow_sub₀ (by norm_num)]
    exact bound.trans_eq (by norm_num; ring)
  obtain ⟨low, high⟩ := abs_le.mp scaled
  have whole : a / 2 ^ (k - 52) * 2 ^ (k - 52) = a := div_mul_cancel₀ _ step.ne'
  generalize a / 2 ^ (k - 52) = q at *
  have below : -2 ^ 52 ≤ ⌊q⌋ ∧ ⌊q⌋ ≤ 2 ^ 52 := by
    refine ⟨Int.le_floor.mpr (by push_cast; exact low), ?_⟩
    exact_mod_cast (Int.floor_le q).trans high
  have above : -2 ^ 52 ≤ ⌈q⌉ ∧ ⌈q⌉ ≤ 2 ^ 52 := by
    refine ⟨?_, Int.ceil_le.mpr (by push_cast; exact high)⟩
    exact_mod_cast low.trans (Int.le_ceil q)
  obtain ⟨y, floor⟩ := grid ⌊q⌋ (abs_le.mpr below)
  obtain ⟨z, ceil⟩ := grid ⌈q⌉ (abs_le.mpr above)
  obtain ⟨b, exact, left, right⟩ := beside.between floor ceil
    ((mul_le_mul_of_nonneg_right (Int.floor_le q) step.le).trans_eq whole)
    (whole.symm.trans_le (mul_le_mul_of_nonneg_right (Int.le_ceil q) step.le))
  have down : q - 1 ≤ ⌊q⌋ := (Int.sub_one_lt_floor q).le
  have up : ⌈q⌉ ≤ q + 1 := (Int.ceil_lt_add_one q).le
  refine ⟨b, exact, ?_⟩
  rw [← whole, abs_le]
  constructor <;> nlinarith

theorem Beside.exists_close (beside : Beside x a) {k : ℕ} (small : k ≤ 971) (bound : |a| ≤ 2 ^ k) :
    ∃ b : ℚ, number? x = some b ∧ |(b : ℝ) - a| ≤ 2 ^ k * unit := by
  obtain ⟨b, exact, close⟩ := beside.exists_within (k := k) (by omega) (by omega)
    (bound.trans_eq (zpow_natCast 2 k).symm)
  have shift : (2 : ℝ) ^ k * unit = ((2 ^ ((k : ℤ) - 52) : ℚ) : ℝ) := by
    push_cast [unit]
    rw [← zpow_natCast, ← zpow_add₀ (by norm_num)]
    rfl
  refine ⟨b, exact, ?_⟩
  rw [shift]
  exact_mod_cast close

/-! ### Operations -/

theorem Beside.near (beside : Beside x a) {k : ℕ} (close : |(a : ℝ) - v| ≤ e) (small : |v| ≤ m)
    (fits : k ≤ 971) (bound : m + e ≤ 2 ^ k) : Near x v m (e + 2 ^ k * unit) := by
  have within : |a| ≤ 2 ^ k := by exact_mod_cast (abs_le_of_close close small).trans bound
  obtain ⟨b, exact, rounded⟩ := beside.exists_close fits within
  refine ⟨⟨b, exact, ?_⟩, small⟩
  have far := abs_sub_le (b : ℝ) a v
  linarith

theorem Near.add (left : Near x v m e) (right : Near y w n f) {k : ℕ} (fits : k ≤ 971)
    (bound : m + n + (e + f) ≤ 2 ^ k) : Near (x + y) (v + w) (m + n) (e + f + 2 ^ k * unit) := by
  obtain ⟨⟨a, exact, close⟩, small⟩ := left
  obtain ⟨⟨b, exact', close'⟩, small'⟩ := right
  refine (beside_add exact exact').near ?_ ((abs_add_le v w).trans (by linarith)) fits bound
  rw [Rat.cast_add, add_sub_add_comm]
  exact (abs_add_le _ _).trans (by linarith)

theorem Near.sub (left : Near x v m e) (right : Near y w n f) {k : ℕ} (fits : k ≤ 971)
    (bound : m + n + (e + f) ≤ 2 ^ k) : Near (x - y) (v - w) (m + n) (e + f + 2 ^ k * unit) := by
  obtain ⟨⟨a, exact, close⟩, small⟩ := left
  obtain ⟨⟨b, exact', close'⟩, small'⟩ := right
  refine (beside_sub exact exact').near ?_ ((abs_sub v w).trans (by linarith)) fits bound
  rw [Rat.cast_sub, sub_sub_sub_comm]
  exact (abs_sub _ _).trans (by linarith)

theorem Near.mul (left : Near x v m e) (right : Near y w n f) {k : ℕ} (fits : k ≤ 971)
    (bound : m * n + (e * (n + f) + m * f) ≤ 2 ^ k) :
    Near (x * y) (v * w) (m * n) (e * (n + f) + m * f + 2 ^ k * unit) := by
  obtain ⟨⟨a, exact, close⟩, small⟩ := left
  obtain ⟨⟨b, exact', close'⟩, small'⟩ := right
  refine (beside_mul exact exact').near ?_ ?_ fits bound
  · have parted : (a * b : ℝ) - v * w = (a - v) * b + v * (b - w) := by ring
    rw [Rat.cast_mul, parted]
    refine (abs_add_le _ _).trans ?_
    rw [abs_mul, abs_mul]
    exact add_le_add (mul_le_mul close (abs_le_of_close close' small') (abs_nonneg _)
      ((abs_nonneg _).trans close)) (mul_le_mul small close' (abs_nonneg _)
        ((abs_nonneg _).trans small))
  · rw [abs_mul]
    exact mul_le_mul small small' (abs_nonneg _) ((abs_nonneg _).trans small)

theorem Near.div (left : Near x v m e) {c : ℚ} (exact' : number? y = some c) (positive : 0 < c)
    {k : ℕ} (fits : k ≤ 971) (bound : m / c + e / c ≤ 2 ^ k) :
    Near (x / y) (v / c) (m / c) (e / c + 2 ^ k * unit) := by
  obtain ⟨⟨a, exact, close⟩, small⟩ := left
  have positive' : (0 : ℝ) < c := by exact_mod_cast positive
  refine (beside_div exact exact' positive.ne').near ?_ ?_ fits bound
  · rw [Rat.cast_div, ← sub_div, abs_div, abs_of_pos positive']
    exact div_le_div_of_nonneg_right close positive'.le
  · rw [abs_div, abs_of_pos positive']
    exact div_le_div_of_nonneg_right small positive'.le

end VesselRelay.Binary64
