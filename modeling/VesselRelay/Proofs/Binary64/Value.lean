import Mathlib
import VesselRelay.Binary64.Parts
import VesselRelay.Proofs.Binary64.Sign

/-!
A finite double is known by its sign and its magnitude, and the magnitude is an exact number. The
two readings of a double, by its bits and by what it unpacks to, give the same magnitude and sign,
and the bits of a magnitude make the double again. A product of positive doubles is not negative,
and what is left of it when it is cut to 64 bits is told by its magnitude.
-/
namespace VesselRelay.Binary64

open Float.Model (UnpackedFloat Format)
open Float.Model.UnpackedFloat (Sign pack unpack packComponents packedNaN unpackSign unpackExponent
  unpackMantissa roundWithAccuracy)

/-- The magnitude of what a double unpacks to. -/
def magnitude : UnpackedFloat → Option Parts
  | .zero _ => some ⟨0, -1074⟩
  | .finite _ m e _ => some ⟨m, e⟩
  | _ => none

/-- The sign of what a double unpacks to; not-a-number is never below zero. -/
def minus : UnpackedFloat → Bool
  | .notANumber => false
  | .infinity s | .zero s | .finite s .. => s == .negative

theorem toNat_unpackExponent (b : BitVec 64) :
    (@unpackExponent .binary64 b).toNat = b.toNat / 2 ^ 52 % 2 ^ 11 := by
  change (b.extractLsb' 52 11).toNat = _
  rw [BitVec.extractLsb'_toNat, Nat.shiftRight_eq_div_pow]

theorem toNat_unpackMantissa (b : BitVec 64) :
    (@unpackMantissa .binary64 b).toNat = b.toNat % 2 ^ 52 := by
  change (b.extractLsb' 0 52).toNat = _
  rw [BitVec.extractLsb'_toNat, Nat.shiftRight_zero]

theorem toNat_unpackSign (b : BitVec 64) :
    (@unpackSign .binary64 b).toNat = b.toNat / 2 ^ 63 := by
  change (b.extractLsb' 63 1).toNat = _
  have fits := b.isLt
  rw [BitVec.extractLsb'_toNat, Nat.shiftRight_eq_div_pow]
  omega

theorem ofBitVec_beq_negative (b : BitVec 1) :
    (Sign.ofBitVec b == .negative) = decide (1 ≤ b.toNat) := by
  revert b
  decide

theorem ofBitVec_unpackSign (b : BitVec 64) :
    (Sign.ofBitVec (@unpackSign .binary64 b) == .negative) =
      decide (2 ^ 63 ≤ b.toNat) := by
  rw [ofBitVec_beq_negative, toNat_unpackSign, decide_eq_decide]
  omega

theorem magnitude_unpack (b : BitVec 64) :
    magnitude (unpack .binary64 b) =
      if b.toNat / 2 ^ 52 % 2 ^ 11 = 2047 then none
      else if b.toNat / 2 ^ 52 % 2 ^ 11 = 0 then some ⟨b.toNat % 2 ^ 52, -1074⟩
      else some ⟨2 ^ 52 + b.toNat % 2 ^ 52, ((b.toNat / 2 ^ 52 % 2 ^ 11 : Nat) : Int) - 1075⟩ := by
  have bias : (Format.exponentBias .binary64 : Int) = 1023 := rfl
  have atTop : @unpackExponent .binary64 b = -1#11 ↔
      (@unpackExponent .binary64 b).toNat = 2047 :=
    BitVec.toNat_inj.symm
  have atLeast : @unpackExponent .binary64 b = 0#11 ↔
      (@unpackExponent .binary64 b).toNat = 0 :=
    BitVec.toNat_inj.symm
  rw [← toNat_unpackExponent, ← toNat_unpackMantissa]
  by_cases top : @unpackExponent .binary64 b = -1#11
  · rw [if_pos (atTop.mp top), unpack]
    dsimp only
    rw [if_pos top]
    split <;> rfl
  rw [if_neg (mt atTop.mpr top)]
  by_cases least : @unpackExponent .binary64 b = 0#11
  · rw [if_pos (atLeast.mp least), unpack]
    dsimp only
    rw [if_neg top, if_pos least]
    split
    · rename_i zero
      rw [zero]
      rfl
    · rw [least, bias]
      rfl
  · rw [if_neg (mt atLeast.mpr least), unpack]
    dsimp only
    rw [if_neg top, if_neg least, magnitude, toNat_leadingOne, bias]
    simp only [Option.some.injEq, Parts.mk.injEq, true_and]
    omega

theorem parts?_eq (x : Float) : parts? x = magnitude x.toModel.unpack :=
  (magnitude_unpack x.toBits.toBitVec).symm

theorem negative_eq (x : Float) : negative x = minus x.toModel.unpack := by
  have sign := ofBitVec_unpackSign x.toBits.toBitVec
  have valid := x.toModel.valid
  change negative x = minus (unpack .binary64 x.toBits.toBitVec)
  change _ = negative x at sign
  unfold unpack
  dsimp only
  split_ifs with top infinite
  · exact sign.symm
  · have canonical := valid.eq_packedNaN top infinite
    change decide (2 ^ 63 ≤ x.toModel.toBits.toBitVec.toNat) = false
    rw [canonical]
    rfl
  all_goals exact sign.symm

/-- A finite double is known by its magnitude and its sign. -/
theorem eq_of_parts? {x y : Float} {p : Parts} (left : parts? x = some p)
    (right : parts? y = some p) (sign : negative x = negative y) : x = y := by
  rw [parts?_eq] at left right
  rw [negative_eq, negative_eq] at sign
  apply eq_of_unpack
  generalize x.toModel.unpack = u at *
  generalize y.toModel.unpack = v at *
  have signs (s t : Sign) (same : (s == Sign.negative) = (t == Sign.negative)) : s = t := by
    cases s <;> cases t <;> first | rfl | cases same
  cases u with
  | notANumber | infinity => cases left
  | zero s =>
    cases left
    cases v with
    | notANumber | infinity => cases right
    | zero t => rw [signs s t sign]
    | finite t m e positive =>
      cases right
      omega
  | finite s m e positive =>
    cases left
    cases v with
    | notANumber | infinity => cases right
    | zero t =>
      cases right
      omega
    | finite t n f positive' =>
      cases right
      cases signs s t sign
      rfl

theorem parts?_neg (x : Float) : parts? (-x) = parts? x := by
  rw [parts?_eq, parts?_eq, unpack_neg]
  cases x.toModel.unpack <;> rfl

theorem negative_neg {x : Float} {p : Parts} (finite : parts? x = some p) :
    negative (-x) = !negative x := by
  rw [parts?_eq] at finite
  rw [negative_eq, negative_eq, unpack_neg]
  generalize x.toModel.unpack = u at finite ⊢
  rcases u with (_ | _) | _ | (_ | _) | ⟨_ | _, m, e, _⟩
  case notANumber => cases finite
  all_goals rfl

theorem isFinite_eq (x : Float) : x.isFinite = (parts? x).isSome := by
  rw [parts?_eq]
  change x.toModel.unpack.isFinite = _
  cases x.toModel.unpack <;> rfl

/-- Bits that are not those of a not-a-number are kept. -/
theorem toBits_ofBits {b : UInt64} (number : b.toNat % 2 ^ 63 ≤ 2047 * 2 ^ 52) :
    (Float.ofBits b).toBits = b := by
  have whole : pack .binary64 (unpack .binary64 b.toBitVec) = b.toBitVec := by
    have parts := packComponents_unpack b.toBitVec
    rw [← parts]
    apply pack_unpack_packComponents
    intro top some
    exfalso
    apply some
    apply BitVec.eq_of_toNat_eq
    have exponent := toNat_unpackExponent b.toBitVec
    have mantissa := toNat_unpackMantissa b.toBitVec
    rw [top] at exponent
    change 2047 = b.toNat / 2 ^ 52 % 2 ^ 11 at exponent
    change _ = b.toNat % 2 ^ 52 at mantissa
    rw [mantissa]
    change _ = 0
    omega
  change UInt64.ofBitVec (pack .binary64 (unpack .binary64 b.toBitVec)) = b
  rw [whole]

theorem toBits_ofBits_toUInt64 {bits : Nat} (small : bits ≤ 2047 * 2 ^ 52) :
    (Float.ofBits bits.toUInt64).toBits.toNat = bits := by
  have word : bits.toUInt64.toNat = bits := by
    rw [Nat.toUInt64, UInt64.toNat_ofNat']
    omega
  rw [toBits_ofBits, word]
  omega

/-- Infinity stands right above the finite doubles. -/
theorem isFinite_ofBits {bits : Nat} (small : bits ≤ 2047 * 2 ^ 52) :
    (Float.ofBits bits.toUInt64).isFinite = true ↔ bits ≠ 2047 * 2 ^ 52 := by
  rw [isFinite_eq, parts?, toBits_ofBits_toUInt64 small]
  split
  · rename_i top
    simp only [Option.isSome_none, Bool.false_eq_true, false_iff]
    omega
  · rename_i below
    have finite : bits ≠ 2047 * 2 ^ 52 := by omega
    split <;> simpa using finite

/-! ### Exact values -/

/-- The exact number that a magnitude is. -/
def Parts.value (p : Parts) : ℚ := p.significand * 2 ^ p.exponent

theorem scaled_pos {n d : Nat} (pos : 0 < d) (e : Int) : 0 < (scaled n d e).2 := by
  cases e with
  | ofNat k => exact pos
  | negSucc k => exact Nat.mul_pos pos (Nat.two_pow_pos (k + 1))

theorem scaled_ratio (n d : Nat) (e : Int) :
    ((scaled n d e).1 : ℚ) / (scaled n d e).2 = n / d * 2 ^ e := by
  cases e with
  | ofNat k =>
    rw [scaled, Int.ofNat_eq_natCast, zpow_natCast]
    push_cast
    ring
  | negSucc k =>
    rw [scaled, zpow_negSucc]
    push_cast
    rw [div_mul_eq_div_div, div_eq_mul_inv _ (2 ^ (k + 1) : ℚ)]

theorem Parts.floor_eq (p : Parts) : p.floor = ⌊p.value⌋₊ := by
  have ratio := scaled_ratio p.significand 1 p.exponent
  rw [Nat.cast_one, div_one] at ratio
  rw [Parts.value, ← ratio, Nat.floor_div_eq_div]
  rfl

/-- The form in which the magnitudes of doubles are kept: 53 bits at most, and all of them unless
the exponent is the least. -/
structure Parts.Canonical (p : Parts) : Prop where
  short : p.significand < 2 ^ 53
  least : -1074 ≤ p.exponent
  greatest : p.exponent ≤ 971
  leading : p.exponent = -1074 ∨ 2 ^ 52 ≤ p.significand

theorem canonical_of_parts? {x : Float} {p : Parts} (finite : parts? x = some p) :
    p.Canonical := by
  have fits := x.toBits.toNat_lt
  unfold parts? at finite
  dsimp only at finite
  split at finite
  · cases finite
  · split at finite
    all_goals
      cases finite
      constructor <;> dsimp only <;> omega

/-- The bits of a magnitude. -/
def Parts.bits (p : Parts) : Nat := (p.exponent + 1074).toNat * 2 ^ 52 + p.significand

theorem Parts.Canonical.bits_lt {p : Parts} (canonical : p.Canonical) :
    p.bits < 2047 * 2 ^ 52 := by
  have := canonical.short
  have := canonical.least
  have := canonical.greatest
  unfold Parts.bits
  omega

theorem parts?_ofBits {p : Parts} (canonical : p.Canonical) :
    parts? (Float.ofBits p.bits.toUInt64) = some p ∧
      negative (Float.ofBits p.bits.toUInt64) = false := by
  have small := canonical.bits_lt
  obtain ⟨short, least, greatest, leading⟩ := canonical
  generalize same : p.bits = bits at *
  unfold Parts.bits at same
  have kept := toBits_ofBits_toUInt64 small.le
  constructor
  · rw [parts?, kept]
    obtain ⟨significand, exponent⟩ := p
    dsimp only at *
    split
    · omega
    · split <;> simp only [Option.some.injEq, Parts.mk.injEq] <;> omega
  · rw [negative, kept, decide_eq_false_iff_not]
    omega

/-- A finite double is made again from its sign and the bits of its magnitude. -/
theorem withSign_ofBits {x : Float} {p : Parts} (finite : parts? x = some p) :
    withSign (negative x) (Float.ofBits p.bits.toUInt64) = x := by
  obtain ⟨kept, positive⟩ := parts?_ofBits (canonical_of_parts? finite)
  unfold withSign
  split
  · rename_i below
    apply eq_of_parts? ((parts?_neg _).trans kept) finite
    rw [negative_neg kept, positive, below, Bool.not_false]
  · rename_i above
    apply eq_of_parts? kept finite
    rw [positive, Bool.eq_false_of_not_eq_true above]

/-! ### Products of positive doubles -/

theorem negative_packed (u : UnpackedFloat) : negative (packed u) = minus u := by
  have components (s : Sign) (e : BitVec 11) (m : BitVec 52) :
      decide (2 ^ 63 ≤ (packComponents .binary64 s e m).toNat) = (s == .negative) := by
    rw [← ofBitVec_unpackSign, unpackSign_packComponents, ofBitVec_toBitVec]
  change decide (2 ^ 63 ≤ (pack .binary64 u).toNat) = minus u
  cases u with
  | notANumber => rfl
  | infinity s => exact components s _ _
  | zero s => exact components s _ _
  | finite s m e positive =>
    simp only [pack]
    split_ifs <;> exact components s _ _

theorem unpack_of_pos {x : Float} (pos : 0.0 < x) :
    x.toModel.unpack = .infinity .positive ∨
      ∃ m e positive, x.toModel.unpack = .finite .positive m e positive := by
  have zero : place 0.0 = some (0, 0, 0) := by decide
  obtain ⟨_, a, origin, placed, above⟩ := lt_iff.mp pos
  cases zero.symm.trans origin
  unfold place at placed
  generalize x.toModel.unpack = u at placed ⊢
  rcases u with (_ | _) | _ | _ | ⟨_ | _, m, e, positive⟩
  all_goals simp only [rank, Option.some.injEq, reduceCtorEq] at placed
  all_goals try subst placed
  all_goals simp [RankLt] at above ⊢
  exact positive

theorem minus_roundWithAccuracy (s : Sign) (m : Nat) (e : Int) :
    minus (roundWithAccuracy .binary64 s m e .exact) = (s == .negative) := by
  simp only [roundWithAccuracy]
  split <;> rfl

/-- Rounding keeps a product of positive doubles from being negative. -/
theorem negative_mul {x y : Float} (posX : 0.0 < x) (posY : 0.0 < y) :
    negative (x * y) = false := by
  change negative (packed (UnpackedFloat.mul .binary64 x.toModel.unpack y.toModel.unpack)) = false
  rw [negative_packed]
  rcases unpack_of_pos posX with same | ⟨m, e, _, same⟩ <;>
    rcases unpack_of_pos posY with same' | ⟨m', e', _, same'⟩ <;>
    rw [same, same']
  · rfl
  · rfl
  · rfl
  · exact minus_roundWithAccuracy _ _ _

/-! ### Cutting to 64 bits -/

/-- Whether a double is a number below the end of 64 signed bits. -/
def FitsWord (x : Float) : Prop := ∃ p, parts? x = some p ∧ p.value < 2 ^ 63

theorem Parts.value_nonneg (p : Parts) : 0 ≤ p.value :=
  mul_nonneg (Nat.cast_nonneg _) (zpow_nonneg (by norm_num) _)

theorem Parts.floor_lt_iff (p : Parts) : p.floor < 2 ^ 63 ↔ p.value < 2 ^ 63 := by
  rw [p.floor_eq, Nat.floor_lt p.value_nonneg]
  norm_num

/-- A whole number is above what is left of a double exactly where it is above the double. -/
theorem toInt_truncate_lt {x : Float} {p : Parts} (finite : parts? x = some p)
    (sign : negative x = false) (fits : p.value < 2 ^ 63) (n : Int) :
    (truncate x).toInt < n ↔ p.value < n := by
  have small := p.floor_lt_iff.mpr fits
  have cut : (truncate x).toInt = p.floor := by
    simp only [truncate, finite, small, sign, if_true, Bool.false_eq_true, if_false]
    exact Int64.toInt_ofNat_of_lt small
  rw [cut, p.floor_eq, Int.natCast_floor_eq_floor p.value_nonneg, Int.floor_lt]

theorem truncate_of_not_fitsWord {x : Float} (wide : ¬ FitsWord x) :
    truncate x = Int64.minValue := by
  unfold truncate
  cases finite : parts? x with
  | none => rfl
  | some p =>
    have beyond : ¬ p.floor < 2 ^ 63 := fun small =>
      wide ⟨p, finite, p.floor_lt_iff.mp small⟩
    exact if_neg beyond

end VesselRelay.Binary64
