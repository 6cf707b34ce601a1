import VesselRelay.Proofs.Binary64.Arithmetic

/-!
Square roots of doubles. A root is as a rule no ratio, so it is told by squares: the doubles whose
squares are at most the number are at most its rounded root, and those whose squares are at least
the number are at least that.
-/
namespace VesselRelay.Binary64

open Float.Model (UnpackedFloat Format totalExponent)
open Float.Model.UnpackedFloat (Sign Accuracy ExtendedMantissa roundWithAccuracy sqrtCore)

variable {x y z : Float} {a b c : ℚ}

/-- No double lies strictly between a double that is not negative and the root of a number. -/
structure BesideRoot (x : Float) (a : ℚ) : Prop where
  below : ∀ {y b}, number? y = some b → 0 ≤ b → b * b ≤ a → y ≤ x
  above : ∀ {y b}, number? y = some b → 0 ≤ b → a ≤ b * b → x ≤ y

theorem BesideRoot.between (beside : BesideRoot x a) (low : number? y = some b)
    (high : number? z = some c) (nonneg : 0 ≤ b) (nonneg' : 0 ≤ c) (ba : b * b ≤ a)
    (ac : a ≤ c * c) : ∃ d, number? x = some d ∧ b ≤ d ∧ d ≤ c :=
  number?_of_between low high (beside.below low nonneg ba) (beside.above high nonneg' ac)

/-! ### The whole root and what is left -/

/-- How the root of a whole number compares with its whole part and a half. -/
def rootAccuracy (n : ℕ) : Accuracy :=
  if n - n.sqrt * n.sqrt = 0 then .exact
  else .inexact (if n - n.sqrt * n.sqrt ≤ n.sqrt then .lt else .gt)

/-- On either side of a root there are numbers as close to it as one likes. -/
theorem exists_near_root (low high : ℚ) (nonneg : 0 ≤ b) (start : 0 ≤ low) (wide : low < high)
    (above : low * low < a) (below : a < high * high) :
    (b * b ≤ a → ∃ c, (low < c ∧ c < high) ∧ b ≤ c) ∧
    (a ≤ b * b → ∃ c, (low < c ∧ c < high) ∧ c ≤ b) := by
  have reached : low < (low + high) / 2 := by linarith
  have short : (low + high) / 2 < high := by linarith
  constructor
  · intro le
    have less : b < high := lt_of_mul_self_lt_mul_self₀ (by linarith) (le.trans_lt below)
    exact ⟨max b ((low + high) / 2), ⟨lt_max_of_lt_right reached, max_lt less short⟩,
      le_max_left _ _⟩
  · intro ge
    have more : low < b := lt_of_mul_self_lt_mul_self₀ nonneg (above.trans_le ge)
    exact ⟨min b ((low + high) / 2), ⟨lt_min more reached, min_lt_of_right_lt short⟩,
      min_le_left _ _⟩

/-- A whole root with its residual bits stands for such numbers. -/
theorem exists_stands_root (n : ℕ) (nonneg : 0 ≤ b) :
    (b * b ≤ n → ∃ c, Stands (.ofMantissaAndAccuracy n.sqrt (rootAccuracy n)) c ∧ b ≤ c) ∧
    ((n : ℚ) ≤ b * b →
      ∃ c, Stands (.ofMantissaAndAccuracy n.sqrt (rootAccuracy n)) c ∧ c ≤ b) := by
  have low : n.sqrt * n.sqrt ≤ n := Nat.sqrt_le n
  have high : n < (n.sqrt + 1) * (n.sqrt + 1) := Nat.lt_succ_sqrt n
  unfold rootAccuracy
  generalize n.sqrt = r at *
  have start : (0 : ℚ) ≤ r := Nat.cast_nonneg r
  split_ifs with whole less
  · have square : (n : ℚ) = r * r := by exact_mod_cast (by omega : n = r * r)
    rw [square]
    exact ⟨fun le => ⟨r, rfl, (mul_self_le_mul_self_iff nonneg start).mpr le⟩,
      fun ge => ⟨r, rfl, (mul_self_le_mul_self_iff start nonneg).mpr ge⟩⟩
  · have above : (r : ℚ) * r < n := by exact_mod_cast (by omega : r * r < n)
    have below : (n : ℚ) ≤ r * r + r := by exact_mod_cast (by omega : n ≤ r * r + r)
    exact exists_near_root r (r + 1 / 2) nonneg start (by linarith) above (by linarith)
  · have above : (r : ℚ) * r + r + 1 ≤ n := by exact_mod_cast (by omega : r * r + r + 1 ≤ n)
    have below : (n : ℚ) < (r + 1) * (r + 1) := by exact_mod_cast high
    exact exists_near_root (r + 1 / 2) (r + 1) nonneg (by linarith) (by linarith) (by linarith)
      below

/-- A number is widened until its whole root keeps as many bits as are rounded. -/
theorem wide_root {m k : ℕ} {e target : ℤ} (positive : 0 < m) (widened : e = 2 * target + k)
    (chosen : target ≤ max (-1074) ((m.log2 + 1 + e + 1) / 2 - 53)) :
    2 ^ 52 ≤ (m * 2 ^ k).sqrt ∨ target ≤ -1074 := by
  rcases le_or_gt target (-1074) with least | normal
  · exact .inr least
  · left
    have reached : 104 ≤ m.log2 + k := by omega
    rw [Nat.le_sqrt]
    calc 2 ^ 52 * 2 ^ 52 = 2 ^ 104 := by norm_num
      _ ≤ 2 ^ (m.log2 + k) := Nat.pow_le_pow_right (by decide) reached
      _ = 2 ^ m.log2 * 2 ^ k := Nat.pow_add _ _ _
      _ ≤ m * 2 ^ k := Nat.mul_le_mul_right _ (Nat.log2_self_le positive.ne')

/-! ### Rounded roots -/

theorem besideRoot_unpacked {m : ℕ} {e : ℤ} (positive : 0 < m) :
    BesideRoot (packed (UnpackedFloat.sqrt .binary64 (.finite .positive m e positive)))
      (m * 2 ^ e) := by
  simp only [UnpackedFloat.sqrt, sqrtCore]
  generalize chosen : min (e.ediv 2)
    (Format.binary64.targetExponent ((totalExponent m e + 1).ediv 2)) = target
  have half : target ≤ e / 2 := chosen ▸ min_le_left _ _
  have bound : target ≤ max (-1074) ((m.log2 + 1 + e + 1) / 2 - 53) := by
    rw [← chosen]
    simp only [Format.targetExponent, totalExponent, Format.mantissaBits, Format.minExponent]
    change min _ (max ((_ : ℤ) / 2 - _) _) ≤ _
    omega
  generalize shift : (e - 2 * target).toNat = k
  have widened : e = 2 * target + k := by omega
  rw [Nat.shiftLeft_eq]
  have wide := wide_root positive widened bound
  have step : (0 : ℚ) < 2 ^ target := zpow_pos (by norm_num) _
  have root : 0 < (m * 2 ^ k).sqrt := Nat.sqrt_pos.mpr (by positivity)
  have scale : (m * 2 ^ e : ℚ) = (m * 2 ^ k : ℕ) * (2 ^ target * 2 ^ target) := by
    rw [widened, two_mul, zpow_add₀ (by norm_num), zpow_add₀ (by norm_num), zpow_natCast]
    push_cast
    ring
  -- A double is compared with the root through a number on its own side that the bits stand for.
  have rounded {c : ℚ} (stands : Stands (.ofMantissaAndAccuracy (m * 2 ^ k).sqrt
      (rootAccuracy (m * 2 ^ k))) c) :
      Beside (packed (roundWithAccuracy .binary64 .positive
        (m * 2 ^ k).sqrt target (rootAccuracy (m * 2 ^ k)))) (c * 2 ^ target) := by
    have low := stands.bounds.1
    rw [ofMantissaAndAccuracy_mantissa] at low
    have one : (1 : ℚ) ≤ (m * 2 ^ k).sqrt := by exact_mod_cast root
    have bits : c * 2 ^ target / 2 ^ target = c := mul_div_cancel_right₀ _ step.ne'
    exact beside_roundWithAccuracy (mul_pos (by linarith) step) (by rwa [bits]) wide
  have scaled (b : ℚ) : b / 2 ^ target * (b / 2 ^ target) * (2 ^ target * 2 ^ target) = b * b := by
    field_simp
  have area : (0 : ℚ) < 2 ^ target * 2 ^ target := mul_pos step step
  constructor
  · intro y b exact nonneg le
    rw [scale, ← scaled b, mul_le_mul_iff_left₀ area] at le
    obtain ⟨c, stands, bc⟩ :=
      (exists_stands_root (m * 2 ^ k) (div_nonneg nonneg step.le)).1 le
    exact (rounded stands).below exact ((div_le_iff₀ step).mp bc)
  · intro y b exact nonneg ge
    rw [scale, ← scaled b, mul_le_mul_iff_left₀ area] at ge
    obtain ⟨c, stands, cb⟩ :=
      (exists_stands_root (m * 2 ^ k) (div_nonneg nonneg step.le)).2 ge
    exact (rounded stands).above exact ((le_div_iff₀ step).mp cb)

theorem besideRoot_zero (s : Sign) : BesideRoot (packed (.zero s)) 0 where
  below exact _ square := (beside_zero s).below exact
    (mul_self_eq_zero.mp (le_antisymm square (mul_self_nonneg _))).le
  above exact nonneg _ := (beside_zero s).above exact nonneg

/-- The root of a number that is not negative is rounded to a double beside it. -/
theorem besideRoot_sqrt (exact : number? x = some a) (nonneg : 0 ≤ a) : BesideRoot x.sqrt a := by
  change BesideRoot (packed (UnpackedFloat.sqrt .binary64 x.toModel.unpack)) a
  rw [number?_eq] at exact
  generalize x.toModel.unpack = u at *
  rcases u with _ | _ | s | ⟨_ | _, m, e, positive⟩
  · cases exact
  · cases exact
  · cases exact
    exact besideRoot_zero s
  · cases exact
    have below : (m : ℚ) * 2 ^ e > 0 := by positivity
    simp only [Sign.apply, Int.cast_neg, Int.cast_natCast] at nonneg
    linarith
  · cases exact
    exact besideRoot_unpacked positive

/-- A number that is below zero has no root. -/
theorem place_sqrt_of_neg (exact : number? x = some a) (negative : a < 0) :
    place x.sqrt = none := by
  change place (packed (UnpackedFloat.sqrt .binary64 x.toModel.unpack)) = none
  rw [number?_eq] at exact
  generalize x.toModel.unpack = u at *
  rcases u with _ | _ | s | ⟨_ | _, m, e, positive⟩
  · cases exact
  · cases exact
  · cases exact
    exact absurd negative (lt_irrefl 0)
  · change place (packed .notANumber) = none
    decide +kernel
  · cases exact
    have above : (m : ℚ) * 2 ^ e > 0 := by positivity
    simp only [Sign.apply, Int.cast_natCast] at negative
    linarith

end VesselRelay.Binary64
