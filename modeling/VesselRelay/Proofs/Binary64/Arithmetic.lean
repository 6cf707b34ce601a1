import VesselRelay.Proofs.Binary64.Number

/-!
Sums, differences, products and quotients of doubles. Each is the exact result rounded, so that it
stands beside it; an operation whose exact result is a double gives that double.
-/
namespace VesselRelay.Binary64

open Float.Model (UnpackedFloat Format totalExponent)
open Float.Model.UnpackedFloat (Sign Accuracy ExtendedMantissa pack roundWithAccuracy
  shiftToTargetExponent shiftToExponent decreaseExponent accuracyOfFraction divCore)

variable {x y : Float} {a b : ℚ}

/-! ### Residual bits -/

/-- The numbers that a significand with its round bit and its sticky bit stands for. -/
def Stands (em : ExtendedMantissa) (a : ℚ) : Prop :=
  match em.roundBit, em.stickyBit with
  | false, false => a = em.mantissa
  | false, true => em.mantissa < a ∧ a < em.mantissa + 1 / 2
  | true, false => a = em.mantissa + 1 / 2
  | true, true => em.mantissa + 1 / 2 < a ∧ a < em.mantissa + 1

theorem Stands.bounds {em : ExtendedMantissa} (stands : Stands em a) :
    em.mantissa ≤ a ∧ a < em.mantissa + 1 := by
  obtain ⟨m, _ | _, _ | _⟩ := em <;> simp only [Stands] at stands ⊢ <;>
    constructor <;> linarith

theorem ofMantissaAndAccuracy_mantissa (m : Nat) (accuracy : Accuracy) :
    (ExtendedMantissa.ofMantissaAndAccuracy m accuracy).mantissa = m := by
  rcases accuracy with _ | (_ | _ | _) <;> rfl

theorem Stands.rounds {em : ExtendedMantissa} (stands : Stands em a) :
    Rounds a em.roundedMantissa := by
  obtain ⟨m, _ | _, _ | _⟩ := em <;> simp only [Stands] at stands <;>
    simp only [ExtendedMantissa.roundedMantissa, ExtendedMantissa.accuracy,
      Accuracy.roundToNearestEven, Rounds]
  · refine ⟨by linarith, by linarith, fun _ => ⟨by linarith, by linarith⟩⟩
  · refine ⟨by linarith, by linarith, fun _ => ⟨by linarith, by linarith⟩⟩
  · rcases Nat.mod_two_eq_zero_or_one m with even | odd
    · rw [even]
      push_cast
      refine ⟨by linarith, by linarith, fun odd => ?_⟩
      omega
    · rw [odd]
      push_cast
      refine ⟨by linarith, by linarith, fun odd => ?_⟩
      omega
  · push_cast
    refine ⟨by linarith, by linarith, fun _ => ⟨by linarith, by linarith⟩⟩

theorem Stands.shiftRightOne {em : ExtendedMantissa} (stands : Stands em a) :
    Stands em.shiftRightOne (a / 2) := by
  obtain ⟨m, round, sticky⟩ := em
  have halves : (m : ℚ) = 2 * (m / 2 : Nat) + (m % 2 : Nat) := by
    exact_mod_cast (Nat.div_add_mod m 2).symm
  rcases Nat.mod_two_eq_zero_or_one m with bit | bit
  · have flag : (m % 2 != 0) = false := by rw [bit]; rfl
    rw [bit, Nat.cast_zero] at halves
    cases round <;> cases sticky <;>
      simp only [Stands, ExtendedMantissa.shiftRightOne, flag, Bool.or_false, Bool.or_true,
        Bool.or_self] at stands ⊢ <;>
      first | linarith | constructor <;> linarith
  · have flag : (m % 2 != 0) = true := by rw [bit]; rfl
    rw [bit, Nat.cast_one] at halves
    cases round <;> cases sticky <;>
      simp only [Stands, ExtendedMantissa.shiftRightOne, flag, Bool.or_false, Bool.or_true,
        Bool.or_self] at stands ⊢ <;>
      first | linarith | constructor <;> linarith

/-- Bits that are shifted out keep their account. -/
theorem Stands.shiftRight {em : ExtendedMantissa} (stands : Stands em a) (n : Nat) :
    Stands (em >>> n) (a / 2 ^ n) := by
  change Stands (n.repeat ExtendedMantissa.shiftRightOne em) _
  induction n with
  | zero => simpa [Nat.repeat] using stands
  | succ n ih =>
    rw [Nat.repeat, pow_succ, ← div_div]
    exact ih.shiftRightOne

/-! ### Rounding -/

theorem targetExponent_eq (m : Nat) (e : Int) :
    Format.binary64.targetExponent (totalExponent m e) = max (-1074) (m.log2 + e - 52) := by
  simp only [Format.targetExponent, totalExponent, Format.mantissaBits, Format.minExponent]
  omega

/-- A significand that is wide enough leads to the last bit that the number keeps. -/
theorem target_eq_lastOf {m : Nat} {e : Int} (positive : 0 < a) (low : m ≤ a / 2 ^ e)
    (high : a / 2 ^ e < m + 1) (wide : 2 ^ 52 ≤ m ∨ e ≤ -1074) :
    Format.binary64.targetExponent (totalExponent m e) = lastOf a ∧ e ≤ lastOf a := by
  have step : (0 : ℚ) < 2 ^ e := zpow_pos (by norm_num) _
  rw [le_div_iff₀ step] at low
  rw [div_lt_iff₀ step] at high
  rw [targetExponent_eq]
  unfold lastOf
  rcases Nat.eq_zero_or_pos m with rfl | nonzero
  · have below : Int.log 2 a < e := by
      rw [← Int.lt_zpow_iff_log_lt (by norm_num) positive]
      simpa using high
    rw [Nat.log2_zero]
    omega
  · have bounds := log2_bounds nonzero
    have log : Int.log 2 a = m.log2 + e := by
      apply log_eq
      · rw [zpow_add₀ (by norm_num)]
        exact (mul_le_mul_of_nonneg_right bounds.1 step.le).trans low
      · rw [show (m.log2 : Int) + e + 1 = m.log2 + 1 + e by ring, zpow_add₀ (by norm_num)]
        refine high.trans_le (mul_le_mul_of_nonneg_right ?_ step.le)
        have next : m + 1 ≤ 2 ^ (m.log2 + 1) := Nat.lt_log2_self
        rw [← Nat.cast_succ, ← Nat.cast_succ, zpow_natCast]
        exact_mod_cast next
    have wideLog : 2 ^ 52 ≤ m → 52 ≤ m.log2 := fun wide => (Nat.le_log2 nonzero.ne').mpr wide
    omega

/-- A significand is kept in its binade, or takes the double beyond the finite ones. -/
theorem packed_finite {m : Nat} {e : Int} (positive : 0 < m) (short : m < 2 ^ 53)
    (least : -1074 ≤ e) (leading : e = -1074 ∨ 2 ^ 52 ≤ m) :
    packed (.finite .positive m e positive) =
      Float.ofBits (min ((e + 1074).toNat * 2 ^ 52 + m) (2047 * 2 ^ 52)).toUInt64 := by
  rcases le_or_gt e 971 with fits | beyond
  · have canonical : (Parts.mk m e).Canonical := ⟨short, least, fits, leading⟩
    have small := canonical.bits_lt
    obtain ⟨finite, sign⟩ := parts?_ofBits canonical
    rw [Nat.min_eq_left (by unfold Parts.bits at small; exact small.le)]
    change _ = Float.ofBits (Parts.bits ⟨m, e⟩).toUInt64
    rw [parts?_eq] at finite
    rw [negative_eq] at sign
    rw [← packed_unpack (Float.ofBits _)]
    generalize (Float.ofBits (Parts.bits ⟨m, e⟩).toUInt64).toModel.unpack = u at *
    rcases u with _ | _ | _ | ⟨_ | _, m', e', _⟩
    all_goals cases finite
    · omega
    · cases sign
    · rfl
  · have full : 2 ^ 52 ≤ m := leading.resolve_left (by omega)
    have infinite : packed (.infinity .positive) =
        Float.ofBits (2047 * 2 ^ 52 : Nat).toUInt64 := by decide +kernel
    rw [Nat.min_eq_right (by omega), ← infinite]
    have same : pack .binary64 (.finite .positive m e positive) =
        pack .binary64 (.infinity .positive) := by
      have bias : (Format.exponentBias .binary64 : Int) = 1023 := rfl
      simp only [pack, bias]
      rw [if_pos (by omega)]
    unfold packed Float.Model.pack
    simp only [same]

theorem packed_zero : packed (.zero .positive) = Float.ofBits (0 : Nat).toUInt64 := by
  decide +kernel

theorem shift_of_short {r : Nat} {e : Int} (short : r < 2 ^ 53) (least : -1074 ≤ e) :
    shiftToTargetExponent .binary64 r e .exact = (⟨r, false, false⟩, e) := by
  have width : r.log2 ≤ 52 := by
    rcases Nat.eq_zero_or_pos r with rfl | nonzero
    · decide
    · exact Nat.lt_succ_iff.mp ((Nat.log2_lt nonzero.ne').mpr short)
  have stays : (Format.binary64.targetExponent (totalExponent r e) - e).toNat = 0 := by
    rw [targetExponent_eq]
    omega
  simp only [shiftToTargetExponent, shiftToExponent, stays]
  exact Prod.ext rfl (Int.add_zero e)

theorem shift_of_carry {e : Int} (least : -1074 ≤ e) :
    shiftToTargetExponent .binary64 (2 ^ 53) e .exact = (⟨2 ^ 52, false, false⟩, e + 1) := by
  have width : (2 ^ 53).log2 = 53 := by decide +kernel
  have one : (Format.binary64.targetExponent (totalExponent (2 ^ 53) e) - e).toNat = 1 := by
    rw [targetExponent_eq, width]
    omega
  simp only [shiftToTargetExponent, shiftToExponent, one]
  rfl

/-- What rounding makes of a significand, once it is known which one it is rounded to. -/
theorem packed_roundWithAccuracy {m r : Nat} {e last : Int} {accuracy : Accuracy}
    (first : (shiftToTargetExponent .binary64 m e accuracy).1.roundedMantissa = r)
    (exponent : (shiftToTargetExponent .binary64 m e accuracy).2 = last) (small : r ≤ 2 ^ 53)
    (least : -1074 ≤ last) (leading : last = -1074 ∨ 2 ^ 52 ≤ r) :
    packed (roundWithAccuracy .binary64 .positive m e accuracy) =
      Float.ofBits (min ((last + 1074).toNat * 2 ^ 52 + r) (2047 * 2 ^ 52)).toUInt64 := by
  simp only [roundWithAccuracy, first, exponent]
  rcases Nat.lt_or_eq_of_le small with short | rfl
  · simp only [shift_of_short short least]
    split
    · rename_i zero
      obtain rfl : r = 0 := zero
      obtain rfl : last = -1074 := leading.resolve_right (by omega)
      exact packed_zero
    · exact packed_finite _ short least leading
  · simp only [shift_of_carry least]
    have carried := packed_finite (m := 2 ^ 52) (e := last + 1) (by decide) (by decide) (by omega)
      (.inr (Nat.le_refl _))
    rw [show (last + 1074).toNat * 2 ^ 52 + 2 ^ 53 = (last + 1 + 1074).toNat * 2 ^ 52 + 2 ^ 52 by
      omega]
    exact carried

theorem toNat_num_div_den (positive : 0 < a) : (a.num.toNat : ℚ) / a.den = a := by
  have same : ((a.num.toNat : Int) : ℚ) = a.num := by
    rw [Int.toNat_of_nonneg (Rat.num_nonneg.mpr positive.le)]
  rw [← Int.cast_natCast, same, Rat.num_div_den]

theorem toNat_num_pos (positive : 0 < a) : 0 < a.num.toNat := by
  have := Rat.num_pos.mpr positive
  omega

/-- Rounding what a significand and its residual bits stand for gives the nearest double. -/
theorem packed_roundWithAccuracy_eq {m : Nat} {e : Int} {accuracy : Accuracy} (positive : 0 < a)
    (stands : Stands (.ofMantissaAndAccuracy m accuracy) (a / 2 ^ e))
    (wide : 2 ^ 52 ≤ m ∨ e ≤ -1074) :
    packed (roundWithAccuracy .binary64 .positive m e accuracy) = nearest a.num.toNat a.den := by
  obtain ⟨low, high⟩ := stands.bounds
  rw [ofMantissaAndAccuracy_mantissa] at low high
  obtain ⟨target, reached⟩ := target_eq_lastOf positive low high wide
  have distance : e + ((lastOf a - e).toNat : Int) = lastOf a := by omega
  have rounds := (stands.shiftRight (lastOf a - e).toNat).rounds
  rw [div_div, ← zpow_natCast, ← zpow_add₀ (by norm_num), distance] at rounds
  have leading : lastOf a = -1074 ∨ 2 ^ 52 ≤
      (ExtendedMantissa.ofMantissaAndAccuracy m accuracy >>>
        (lastOf a - e).toNat).roundedMantissa := by
    by_cases normal : -1022 ≤ Int.log 2 a
    · exact .inr (rounds.le_of_le (le_div_lastOf positive normal))
    · left
      unfold lastOf
      omega
  have first : shiftToTargetExponent .binary64 m e accuracy =
      (ExtendedMantissa.ofMantissaAndAccuracy m accuracy >>> (lastOf a - e).toNat, lastOf a) := by
    simp only [shiftToTargetExponent, shiftToExponent, target, distance]
  have bits := packed_roundWithAccuracy (congrArg (·.1.roundedMantissa) first)
    (congrArg (·.2) first) (rounds.le_of_ge (div_lastOf_lt a).le) (by unfold lastOf; omega) leading
  rw [bits, nearest, nearestBits_eq (toNat_num_pos positive) a.den_pos
    (by rw [toNat_num_div_den positive]; exact rounds), toNat_num_div_den positive]

theorem beside_roundWithAccuracy {m : Nat} {e : Int} {accuracy : Accuracy} (positive : 0 < a)
    (stands : Stands (.ofMantissaAndAccuracy m accuracy) (a / 2 ^ e))
    (wide : 2 ^ 52 ≤ m ∨ e ≤ -1074) :
    Beside (packed (roundWithAccuracy .binary64 .positive m e accuracy)) a := by
  have beside := beside_nearest (n := a.num.toNat) a.den_pos
  rw [toNat_num_div_den positive] at beside
  rw [packed_roundWithAccuracy_eq positive stands wide]
  exact beside

/-! ### Signs -/

/-- The number that something unpacked stands for. -/
def worth : UnpackedFloat → Option ℚ
  | .zero _ => some 0
  | .finite s m e _ => some (s.apply m * 2 ^ e)
  | _ => none

theorem number?_eq (x : Float) : number? x = worth x.toModel.unpack := by
  rw [number?, parts?_eq, negative_eq]
  rcases x.toModel.unpack with _ | _ | (_ | _) | ⟨_ | _, m, e, _⟩
  all_goals simp [magnitude, worth, minus, Parts.value, Sign.apply]

/-- The form in which doubles are unpacked. -/
def Kept : UnpackedFloat → Prop
  | .finite _ m e _ => (Parts.mk m e).Canonical
  | _ => True

theorem kept_unpack (x : Float) : Kept x.toModel.unpack := by
  unfold Kept
  split
  · rename_i unpacked
    exact canonical_of_parts? (by rw [parts?_eq, unpacked]; rfl)
  · trivial

theorem beside_of_exact (exact : number? x = some a) : Beside x a where
  below low le := (le_iff_of_number? low exact).mpr le
  above high ge := (le_iff_of_number? exact high).mpr ge

theorem number?_packed_zero (s : Sign) : number? (packed (.zero s)) = some 0 := by
  cases s <;> decide +kernel

theorem beside_zero (s : Sign) : Beside (packed (.zero s)) 0 :=
  beside_of_exact (number?_packed_zero s)

theorem apply_eq (s : Sign) (m : Int) : ((s.apply m : Int) : ℚ) = (s.apply 1 : Int) * m := by
  cases s <;> simp [Sign.apply]

theorem beside_signed {m : Nat} {e : Int} {accuracy : Accuracy} (s : Sign) (positive : 0 < a)
    (stands : Stands (.ofMantissaAndAccuracy m accuracy) (a / 2 ^ e))
    (wide : 2 ^ 52 ≤ m ∨ e ≤ -1074) :
    Beside (packed (roundWithAccuracy .binary64 s m e accuracy)) ((s.apply 1 : Int) * a) := by
  have upper := beside_roundWithAccuracy positive stands wide
  cases s with
  | positive => simpa [Sign.apply] using upper
  | negative =>
    have opposite := upper.neg
    rw [← packed_neg, ← roundWithAccuracy_neg] at opposite
    rw [show (((Sign.negative).apply 1 : Int) : ℚ) * a = -a by simp [Sign.apply]]
    exact opposite

theorem beside_dyadic {m : Nat} {e : Int} (s : Sign) (nonzero : 0 < m)
    (wide : 2 ^ 52 ≤ m ∨ e ≤ -1074) :
    Beside (packed (roundWithAccuracy .binary64 s m e .exact)) ((s.apply m : Int) * 2 ^ e) := by
  have positive : (0 : ℚ) < m * 2 ^ e := by positivity
  have exact : Stands (.ofMantissaAndAccuracy m .exact) (m * 2 ^ e / 2 ^ e) :=
    mul_div_cancel_right₀ _ (zpow_pos (by norm_num) e).ne'
  rw [apply_eq, mul_assoc]
  exact beside_signed s positive exact wide

/-! ### Products -/

section
variable {u v : UnpackedFloat}

theorem apply_mul (s t : Sign) (m n : Int) : (s * t).apply (m * n) = s.apply m * t.apply n := by
  have turned : -(m * n) = -m * n := (Int.neg_mul m n).symm
  have turned' : -(m * n) = m * -n := (Int.mul_neg m n).symm
  cases s <;> cases t
  · exact (Int.neg_mul_neg m n).symm
  · exact turned
  · exact turned'
  · rfl

/-- The product of two significands is wide enough, unless both are below the normal doubles. -/
theorem wide_mul {p q : Parts} (left : p.Canonical) (right : q.Canonical)
    (nonzero : 0 < p.significand) (nonzero' : 0 < q.significand) :
    2 ^ 52 ≤ p.significand * q.significand ∨ p.exponent + q.exponent ≤ -1074 := by
  rcases left.leading with small | wide
  · rcases right.leading with small' | wide
    · omega
    · exact .inl (wide.trans (Nat.le_mul_of_pos_left _ nonzero))
  · exact .inl (wide.trans (Nat.le_mul_of_pos_right _ nonzero'))

theorem beside_mul_unpacked (keptU : Kept u) (keptV : Kept v) (left : worth u = some a)
    (right : worth v = some b) : Beside (packed (UnpackedFloat.mul .binary64 u v)) (a * b) := by
  cases u with
  | notANumber | infinity => cases left
  | zero s =>
    cases left
    rw [zero_mul]
    cases v with
    | notANumber | infinity => cases right
    | zero t | finite t => exact beside_zero _
  | finite s m e positive =>
    cases left
    cases v with
    | notANumber | infinity => cases right
    | zero t =>
      cases right
      rw [mul_zero]
      exact beside_zero _
    | finite t n f positive' =>
      cases right
      have beside := beside_dyadic (s * t) (Nat.mul_pos positive positive')
        (wide_mul keptU keptV positive positive')
      rw [Int.natCast_mul, apply_mul, zpow_add₀ (by norm_num), Int.cast_mul,
        mul_mul_mul_comm] at beside
      exact beside

theorem beside_mul (left : number? x = some a) (right : number? y = some b) :
    Beside (x * y) (a * b) := by
  rw [number?_eq] at left right
  exact beside_mul_unpacked (kept_unpack x) (kept_unpack y) left right

/-! ### Sums and differences -/

theorem decreased_value (m : Nat) (e target : Int) :
    ((decreaseExponent m e target).1 : ℚ) * 2 ^ (decreaseExponent m e target).2 = m * 2 ^ e := by
  simp only [decreaseExponent, Nat.shiftLeft_eq]
  push_cast
  rw [mul_assoc, ← zpow_natCast, ← zpow_add₀ (by norm_num)]
  congr 2
  omega

/-- A significand is widened until its exponent is the one to which it is rounded. -/
theorem wide_decreased {m : Nat} {e : Int} (nonzero : 0 < m) :
    2 ^ 52 ≤ (decreaseExponent m e (max (-1074) (m.log2 + e - 52))).1 ∨
      (decreaseExponent m e (max (-1074) (m.log2 + e - 52))).2 ≤ -1074 := by
  simp only [decreaseExponent, Nat.shiftLeft_eq]
  rcases le_or_gt (-1074) (m.log2 + e - 52) with normal | subnormal
  · left
    have full : 2 ^ m.log2 ≤ m := Nat.log2_self_le nonzero.ne'
    calc 2 ^ 52 ≤ 2 ^ m.log2 * 2 ^ (e - max (-1074) (m.log2 + e - 52)).toNat := by
          rw [← Nat.pow_add]
          exact Nat.pow_le_pow_right (by decide) (by omega)
      _ ≤ m * 2 ^ (e - max (-1074) (m.log2 + e - 52)).toNat := Nat.mul_le_mul_right _ full
  · right
    omega

/-- Brought to a lower exponent, a significand stands for the same number. -/
theorem aligned_value (s : Sign) (m : Nat) {e target : Int} (below : target ≤ e) :
    ((s.apply (decreaseExponent m e target).1 : Int) : ℚ) * 2 ^ target =
      (s.apply m : Int) * 2 ^ e := by
  have same := decreased_value m e target
  have reached : (decreaseExponent m e target).2 = target := by
    simp only [decreaseExponent]
    omega
  rw [reached] at same
  rw [apply_eq, apply_eq s m, mul_assoc, mul_assoc, Int.cast_natCast, Int.cast_natCast, same]

theorem exists_dyadic_round {m : Nat} (nonzero : 0 < m) (e : Int) :
    ∃ (n : Nat) (f : Int), 0 < n ∧ (2 ^ 52 ≤ n ∨ f ≤ -1074) ∧ (n * 2 ^ f : ℚ) = m * 2 ^ e ∧
      ∀ s, UnpackedFloat.round .binary64 s m e = roundWithAccuracy .binary64 s n f .exact := by
  have wide := wide_decreased (e := e) nonzero
  have same := decreased_value m e (max (-1074) (m.log2 + e - 52))
  simp only [UnpackedFloat.round, targetExponent_eq]
  generalize decreaseExponent m e (max (-1074) (m.log2 + e - 52)) = widened at *
  obtain ⟨n, f⟩ := widened
  have positive : 0 < n := by
    have step : (0 : ℚ) < 2 ^ f := zpow_pos (by norm_num) f
    have value : (0 : ℚ) < n * 2 ^ f := by
      rw [same]
      positivity
    rw [mul_pos_iff_of_pos_right step] at value
    exact_mod_cast value
  exact ⟨n, f, positive, wide, same, fun _ => rfl⟩

/-- What is normalized is rounded from a significand that is wide enough. -/
theorem exists_dyadic_normalize {n : Int} (nonzero : n ≠ 0) (e : Int) (s : Sign) :
    ∃ (t : Sign) (m : Nat) (f : Int), 0 < m ∧ (2 ^ 52 ≤ m ∨ f ≤ -1074) ∧
      ((t.apply m : Int) * 2 ^ f : ℚ) = n * 2 ^ e ∧
      UnpackedFloat.normalize .binary64 n e s = roundWithAccuracy .binary64 t m f .exact := by
  obtain ⟨m, f, positive, wide, value, rounded⟩ :=
    exists_dyadic_round (m := n.natAbs) (Int.natAbs_pos.mpr nonzero) e
  rcases Int.lt_or_gt_of_ne nonzero with below | above
  · have turned : (n.natAbs : ℚ) = -n := by
      rw [Nat.cast_natAbs, abs_of_neg below, Int.cast_neg]
    have magnitude : n.natAbs = (-n).toNat := by omega
    rw [turned] at value
    refine ⟨.negative, m, f, positive, wide, ?_, ?_⟩
    · simp only [Sign.apply, Int.cast_neg, Int.cast_natCast]
      linarith
    · rw [← rounded, magnitude]
      simp only [UnpackedFloat.normalize, Int.compare_eq_lt.mpr below]
  · have kept : (n.natAbs : ℚ) = n := by rw [Nat.cast_natAbs, abs_of_pos above]
    have magnitude : n.natAbs = n.toNat := by omega
    rw [kept] at value
    refine ⟨.positive, m, f, positive, wide, value, ?_⟩
    rw [← rounded, magnitude]
    simp only [UnpackedFloat.normalize, Int.compare_eq_gt.mpr above]

theorem beside_normalize (n e : Int) (s : Sign) :
    Beside (packed (UnpackedFloat.normalize .binary64 n e s)) (n * 2 ^ e) := by
  by_cases zero : n = 0
  · rw [zero, Int.cast_zero, zero_mul]
    exact beside_zero s
  · obtain ⟨t, m, f, positive, wide, value, rounded⟩ := exists_dyadic_normalize zero e s
    rw [rounded, ← value]
    exact beside_dyadic t positive wide

/-- Unless one of them is zero, two doubles are added as significands of one exponent. -/
theorem add_cases (left : number? x = some a) (right : number? y = some b) :
    number? (x + y) = some (a + b) ∨
      ∃ n e, x + y = packed (UnpackedFloat.normalize .binary64 n e .positive) ∧
        (n * 2 ^ e : ℚ) = a + b := by
  have wholeX := packed_unpack x
  have wholeY := packed_unpack y
  have worthX := (number?_eq x).symm.trans left
  have worthY := (number?_eq y).symm.trans right
  have sum : x + y = packed (UnpackedFloat.add .binary64 x.toModel.unpack y.toModel.unpack) := rfl
  rw [sum]
  generalize x.toModel.unpack = u at *
  generalize y.toModel.unpack = v at *
  cases u with
  | notANumber | infinity => cases worthX
  | zero s =>
    cases worthX
    rw [zero_add]
    left
    cases v with
    | notANumber | infinity => cases worthY
    | zero t =>
      cases worthY
      simp only [UnpackedFloat.add]
      split <;> exact number?_packed_zero _
    | finite t n f positive => exact (congrArg number? wholeY).trans right
  | finite s m e positive =>
    cases v with
    | notANumber | infinity => cases worthY
    | zero t =>
      cases worthY
      rw [add_zero]
      exact .inl ((congrArg number? wholeX).trans left)
    | finite t n f positive' =>
      cases worthX
      cases worthY
      refine .inr ⟨s.apply (decreaseExponent m e (min e f)).1 +
        t.apply (decreaseExponent n f (min e f)).1, min e f, rfl, ?_⟩
      rw [Int.cast_add, add_mul, aligned_value s m (min_le_left e f),
        aligned_value t n (min_le_right e f)]

theorem beside_add (left : number? x = some a) (right : number? y = some b) :
    Beside (x + y) (a + b) := by
  obtain exact | ⟨n, e, sum, value⟩ := add_cases left right
  · exact beside_of_exact exact
  · rw [sum, ← value]
    exact beside_normalize n e .positive

theorem beside_sub (left : number? x = some a) (right : number? y = some b) :
    Beside (x - y) (a - b) := by
  rw [sub_eq_add_neg, show a - b = a + -b by ring]
  exact beside_add left (number?_neg right)

/-- What is within the sum of two doubles above zero is within their sum rounded, which may be
infinite. -/
theorem le_add_of_pos {z : Float} (pos : 0.0 < x) (pos' : 0.0 < y) (exact : number? z = some a)
    (within : ∀ b c, number? x = some b → number? y = some c → a ≤ b + c) : z ≤ x + y := by
  have infinite (sum : x + y = packed (.infinity .positive)) : z ≤ x + y := by
    have top : place (packed (.infinity .positive)) = some (2, 0, 0) := by decide +kernel
    obtain ⟨m, placed, _, below⟩ := isSome_number?_iff.mp (Option.isSome_of_eq_some exact)
    refine le_iff.mpr ⟨m, _, placed, sum ▸ top, ?_⟩
    simp only [RankLt]
    omega
  have unpacked : x + y =
      packed (UnpackedFloat.add .binary64 x.toModel.unpack y.toModel.unpack) := rfl
  rcases unpack_of_pos pos with wide | ⟨m, e, _, finite⟩ <;>
    rcases unpack_of_pos pos' with wide' | ⟨n, f, _, finite'⟩
  · exact infinite (by rw [unpacked, wide, wide']; rfl)
  · exact infinite (by rw [unpacked, wide, finite']; rfl)
  · exact infinite (by rw [unpacked, finite, wide']; rfl)
  · have left : number? x = some _ := (number?_eq x).trans (congrArg worth finite)
    have right : number? y = some _ := (number?_eq y).trans (congrArg worth finite')
    exact (beside_add left right).below exact (within _ _ left right)

/-! ### Quotients -/

/-- What is left of a division is accounted for by its half. -/
theorem stands_fraction {n d : Nat} (pos : 0 < d) :
    Stands (.ofMantissaAndAccuracy (n / d) (accuracyOfFraction (n % d) d)) (n / d) := by
  have posQ : (0 : ℚ) < d := by exact_mod_cast pos
  have divided : (n : ℚ) = d * (n / d : Nat) + (n % d : Nat) := by
    exact_mod_cast (Nat.div_add_mod n d).symm
  have ratio : (n : ℚ) / d = (n / d : Nat) + ((n % d : Nat) : ℚ) / d := by
    rw [divided]
    field_simp
  have below : ((n % d : Nat) : ℚ) / d < 1 := by
    rw [div_lt_one posQ]
    exact_mod_cast Nat.mod_lt n pos
  rw [ratio]
  unfold accuracyOfFraction
  generalize n % d = rest at *
  split
  · rename_i none
    simp [none, Stands, ExtendedMantissa.ofMantissaAndAccuracy]
  · rename_i some
    have start : (0 : ℚ) < rest / d := div_pos (by exact_mod_cast Nat.pos_of_ne_zero some) posQ
    rcases lt_trichotomy (2 * rest) d with less | same | more
    · have half : (rest : ℚ) / d < 1 / 2 := by
        rw [div_lt_div_iff₀ posQ (by norm_num)]
        exact_mod_cast (by omega : rest * 2 < 1 * d)
      rw [Nat.compare_eq_lt.mpr less]
      change ((n / d : Nat) : ℚ) < _ ∧ _ < ((n / d : Nat) : ℚ) + 1 / 2
      constructor <;> linarith
    · have half : (rest : ℚ) / d = 1 / 2 := by
        rw [div_eq_div_iff posQ.ne' (by norm_num)]
        exact_mod_cast (by omega : rest * 2 = 1 * d)
      rw [Nat.compare_eq_eq.mpr same]
      exact congrArg _ half
    · have half : (1 : ℚ) / 2 < rest / d := by
        rw [div_lt_div_iff₀ (by norm_num) posQ]
        exact_mod_cast (by omega : 1 * d < rest * 2)
      rw [Nat.compare_eq_gt.mpr more]
      change ((n / d : Nat) : ℚ) + 1 / 2 < _ ∧ _ < ((n / d : Nat) : ℚ) + 1
      constructor <;> linarith

theorem apply_div (s t : Sign) : (((s / t).apply 1 : Int) : ℚ) =
    (s.apply 1 : Int) / (t.apply 1 : Int) := by
  have same : s / t = s * t := by cases s <;> cases t <;> rfl
  have product := congrArg (Int.cast (R := ℚ)) (apply_mul s t 1 1)
  rw [Int.mul_one, Int.cast_mul] at product
  rw [same, product, div_eq_mul_inv]
  congr 1
  cases t <;> norm_num [Sign.apply]

/-- A dividend is widened until the quotient keeps as many bits as are rounded. -/
theorem wide_div {m n k : Nat} {e f target : Int} (positive : 0 < m) (positive' : 0 < n)
    (widened : target = e - f - k)
    (chosen : target ≤ max (-1074) ((m.log2 + 1 + e) - (n.log2 + 1 + f) - 53)) :
    2 ^ 52 ≤ m * 2 ^ k / n ∨ target ≤ -1074 := by
  rcases le_or_gt target (-1074) with least | normal
  · exact .inr least
  · left
    have reached : n.log2 + 1 + 52 ≤ m.log2 + k := by omega
    have full : 2 ^ m.log2 ≤ m := Nat.log2_self_le positive.ne'
    have short : n < 2 ^ (n.log2 + 1) := Nat.lt_log2_self
    rw [Nat.le_div_iff_mul_le positive']
    calc 2 ^ 52 * n ≤ 2 ^ 52 * 2 ^ (n.log2 + 1) := Nat.mul_le_mul_left _ short.le
      _ = 2 ^ (n.log2 + 1 + 52) := by ring
      _ ≤ 2 ^ (m.log2 + k) := Nat.pow_le_pow_right (by decide) reached
      _ = 2 ^ m.log2 * 2 ^ k := Nat.pow_add _ _ _
      _ ≤ m * 2 ^ k := Nat.mul_le_mul_right _ full

/-- What a division leads to stands for the quotient, and is wide enough to be rounded. -/
theorem stands_divCore {m n : Nat} (e f : Int) (positive : 0 < m) (positive' : 0 < n) :
    Stands (.ofMantissaAndAccuracy (divCore .binary64 m e n f).1 (divCore .binary64 m e n f).2.2)
      (m * 2 ^ e / (n * 2 ^ f) / 2 ^ (divCore .binary64 m e n f).2.1) ∧
    (2 ^ 52 ≤ (divCore .binary64 m e n f).1 ∨ (divCore .binary64 m e n f).2.1 ≤ -1074) := by
  simp only [divCore]
  generalize chosen : min (e - f) (Format.binary64.targetExponent
    (totalExponent m e - totalExponent n f)) = target
  have bound : target ≤ max (-1074) ((m.log2 + 1 + e) - (n.log2 + 1 + f) - 53) := by
    rw [← chosen]
    simp only [Format.targetExponent, totalExponent, Format.mantissaBits, Format.minExponent]
    omega
  generalize shift : (e - f - target).toNat = k
  have widened : target = e - f - k := by omega
  rw [Nat.shiftLeft_eq]
  refine ⟨?_, wide_div positive positive' widened bound⟩
  have quotient : (m * 2 ^ e / (n * 2 ^ f) / 2 ^ target : ℚ) = (m * 2 ^ k : Nat) / n := by
    rw [widened, zpow_sub₀ (by norm_num), zpow_sub₀ (by norm_num), zpow_natCast]
    push_cast
    field_simp
  rw [quotient]
  exact stands_fraction positive'

theorem beside_div_unpacked (left : worth u = some a) (right : worth v = some b) (nonzero : b ≠ 0) :
    Beside (packed (UnpackedFloat.div .binary64 u v)) (a / b) := by
  cases v with
  | notANumber | infinity => cases right
  | zero t =>
    cases right
    exact absurd rfl nonzero
  | finite t n f positive' =>
    cases right
    cases u with
    | notANumber | infinity => cases left
    | zero s =>
      cases left
      rw [zero_div]
      exact beside_zero _
    | finite s m e positive =>
      cases left
      have quotient : (0 : ℚ) < m * 2 ^ e / (n * 2 ^ f) := by positivity
      obtain ⟨stands, wide⟩ := stands_divCore e f positive positive'
      have beside := beside_signed (s / t) quotient stands wide
      have same : ((s.apply m : Int) : ℚ) * 2 ^ e / ((t.apply n : Int) * 2 ^ f) =
          ((s / t).apply 1 : Int) * (m * 2 ^ e / (n * 2 ^ f)) := by
        rw [apply_eq s, apply_eq t, apply_div]
        push_cast
        field_simp
      rw [same]
      exact beside

theorem beside_div (left : number? x = some a) (right : number? y = some b) (nonzero : b ≠ 0) :
    Beside (x / y) (a / b) := by
  rw [number?_eq] at left right
  exact beside_div_unpacked left right nonzero

end

/-! ### Exact results -/

/-- A number of 53 bits is a double, unless it is too small or too large. -/
theorem exists_magnitude {m : Nat} {e : Int} (short : m < 2 ^ 53) (least : -1074 ≤ e)
    (greatest : e ≤ 971) : ∃ y, number? y = some (m * 2 ^ e : ℚ) := by
  rcases Nat.eq_zero_or_pos m with rfl | positive
  · exact ⟨_, by rw [Nat.cast_zero, zero_mul]; exact number?_zero⟩
  generalize widened : min (52 - m.log2) (e + 1074).toNat = k
  have narrow : m.log2 < 53 := (Nat.log2_lt positive.ne').mpr short
  have full : 2 ^ m.log2 ≤ m := Nat.log2_self_le positive.ne'
  have canonical : (Parts.mk (m * 2 ^ k) (e - k)).Canonical := by
    refine ⟨?_, by dsimp only; omega, by dsimp only; omega, ?_⟩
    · calc m * 2 ^ k < 2 ^ (m.log2 + 1) * 2 ^ k :=
            Nat.mul_lt_mul_of_pos_right Nat.lt_log2_self (Nat.two_pow_pos k)
        _ = 2 ^ (m.log2 + 1 + k) := (Nat.pow_add _ _ _).symm
        _ ≤ 2 ^ 53 := Nat.pow_le_pow_right (by decide) (by omega)
    · rcases le_or_gt (52 - m.log2) (e + 1074).toNat with normal | subnormal
      · right
        calc 2 ^ 52 = 2 ^ (m.log2 + k) := by congr 1; omega
          _ = 2 ^ m.log2 * 2 ^ k := Nat.pow_add _ _ _
          _ ≤ m * 2 ^ k := Nat.mul_le_mul_right _ full
      · left
        dsimp only
        omega
  refine ⟨_, (number?_ofBits canonical).trans ?_⟩
  rw [Parts.value, zpow_sub₀ (by norm_num), zpow_natCast]
  push_cast
  field_simp

theorem exists_number {n e : Int} (short : n.natAbs < 2 ^ 53) (least : -1074 ≤ e)
    (greatest : e ≤ 971) : ∃ y, number? y = some (n * 2 ^ e : ℚ) := by
  obtain ⟨y, exact⟩ := exists_magnitude short least greatest
  rcases Int.natAbs_eq n with same | same
  · exact ⟨y, by rw [exact, same, Int.cast_natCast]; rfl⟩
  · refine ⟨-y, ?_⟩
    rw [number?_neg exact, same]
    simp

end VesselRelay.Binary64
