import Mathlib
import VesselRelay.Binary64.Order
import VesselRelay.Power

/-!
Rounding treats a double and its opposite alike: the sign passes through products, quotients and
differences, and squares and magnitudes do not see it. Only a difference that vanishes is the same
zero from both sides. A double is known by what it unpacks to, so all of this is read off its sign,
significand and exponent.
-/
namespace VesselRelay.Binary64

open Float.Model (UnpackedFloat Format)
open Float.Model.UnpackedFloat (Sign Accuracy pack unpack packComponents packedNaN unpackSign
  unpackExponent unpackMantissa unpackExponent_packComponents unpackMantissa_packComponents
  decreaseExponent roundWithAccuracy)

/-! ### Packing -/

theorem ofBitVec_toBitVec (s : Sign) : Sign.ofBitVec s.toBitVec = s := by
  cases s <;> rfl

theorem toBitVec_ofBitVec (b : BitVec 1) : (Sign.ofBitVec b).toBitVec = b := by
  revert b
  decide

theorem unpackSign_packComponents (s : Sign) (e : BitVec 11) (m : BitVec 52) :
    unpackSign (packComponents .binary64 s e m) = s.toBitVec := by
  change (s.toBitVec ++ e ++ m : BitVec 64).extractLsb' 63 1 = s.toBitVec
  ext i inside
  obtain rfl : i = 0 := by omega
  rw [BitVec.getElem_extractLsb', BitVec.getLsbD_append, BitVec.getLsbD_append]
  simp

theorem packComponents_unpack (b : BitVec Format.binary64.numBits) :
    packComponents .binary64 (Sign.ofBitVec (unpackSign b)) (unpackExponent b) (unpackMantissa b) =
      b := by
  change (Sign.ofBitVec (b.extractLsb' 63 1)).toBitVec ++ b.extractLsb' 52 11 ++
    b.extractLsb' 0 52 = b
  rw [toBitVec_ofBitVec]
  apply BitVec.eq_of_getLsbD_eq
  intro i inside
  simp only [BitVec.getLsbD_append, BitVec.getLsbD_extractLsb']
  grind

theorem toNat_leadingOne (m : BitVec 52) : (1#1 ++ m).toNat = 2 ^ 52 + m.toNat := by
  rw [BitVec.toNat_append, ← Nat.shiftLeft_add_eq_or_of_lt m.isLt]
  rfl

theorem log2_leadingOne (m : BitVec 52) : (2 ^ 52 + m.toNat).log2 = 52 := by
  have small := m.isLt
  rw [Nat.log2_eq_iff (by omega)]
  omega

theorem pack_unpack_packComponents {s : Sign} {e : BitVec 11} {m : BitVec 52}
    (valid : e = -1 → m ≠ 0 → packComponents .binary64 s e m = packedNaN .binary64) :
    pack .binary64 (unpack .binary64 (packComponents .binary64 s e m)) =
      packComponents .binary64 s e m := by
  have fraction := m.isLt
  have biased := e.isLt
  have bias : (Format.exponentBias .binary64 : Int) = 1023 := rfl
  have width : Format.mantissaBits .binary64 = 53 := rfl
  unfold unpack
  simp only [unpackSign_packComponents, unpackExponent_packComponents,
    unpackMantissa_packComponents, ofBitVec_toBitVec]
  split_ifs with top infinite least zero
  · subst top infinite
    rfl
  · exact (valid top infinite).symm
  · subst least zero
    rfl
  · have nonzero : m.toNat ≠ 0 := fun none => zero (BitVec.eq_of_toNat_eq none)
    have short : m.toNat.log2 < 52 := (Nat.log2_lt nonzero).mpr fraction
    subst least
    rw [pack]
    dsimp only
    rw [if_neg (by decide), if_neg (by omega), BitVec.ofNat_toNat, BitVec.setWidth_eq]
  · have below : e.toNat ≠ 2047 := fun last => top (BitVec.eq_of_toNat_eq last)
    have exponent :
        ((e.toNat : Int) - (1023 + (52 : Nat)) + 1023 + (52 : Nat)).toNat = e.toNat := by
      omega
    simp only [pack, toNat_leadingOne, log2_leadingOne, bias, exponent]
    rw [if_neg (by omega), if_pos width.symm, BitVec.ofNat_toNat, BitVec.setWidth_eq]
    congr 1
    apply BitVec.eq_of_toNat_eq
    rw [BitVec.toNat_ofNat]
    omega

/-- The double that something unpacked rounds to. -/
def packed (u : UnpackedFloat) : Float := .ofModel (.pack u)

theorem packed_unpack (x : Float) : packed x.toModel.unpack = x := by
  obtain ⟨⟨⟨b⟩, valid⟩⟩ := x
  have whole : pack .binary64 (unpack .binary64 b) = b := by
    have parts := packComponents_unpack b
    rw [← parts]
    exact pack_unpack_packComponents fun top some => parts.trans (valid.eq_packedNaN top some)
  unfold packed Float.Model.pack Float.Model.unpack
  simp only [whole]

theorem eq_of_unpack {x y : Float} (same : x.toModel.unpack = y.toModel.unpack) : x = y := by
  rw [← packed_unpack x, ← packed_unpack y, same]

theorem unpack_packComponents_neg (s : Sign) (e : BitVec 11) (m : BitVec 52) :
    unpack .binary64 (packComponents .binary64 (-s) e m) =
      (unpack .binary64 (packComponents .binary64 s e m)).neg := by
  unfold unpack
  simp only [unpackSign_packComponents, unpackExponent_packComponents,
    unpackMantissa_packComponents, ofBitVec_toBitVec]
  split_ifs <;> rfl

theorem unpack_packed_neg (u : UnpackedFloat) :
    (packed u.neg).toModel.unpack = (packed u).toModel.unpack.neg := by
  cases u with
  | notANumber => rfl
  | infinity s => exact unpack_packComponents_neg s _ _
  | zero s => exact unpack_packComponents_neg s _ _
  | finite s m e positive =>
    change unpack .binary64 (pack .binary64 (.finite (-s) m e positive)) =
      (unpack .binary64 (pack .binary64 (.finite s m e positive))).neg
    simp only [pack]
    split_ifs
    · exact unpack_packComponents_neg s _ _
    · exact unpack_packComponents_neg s _ _
    · exact unpack_packComponents_neg s _ _

theorem unpack_neg (x : Float) : (-x).toModel.unpack = x.toModel.unpack.neg := by
  have opposite := unpack_packed_neg x.toModel.unpack
  rw [packed_unpack] at opposite
  exact opposite

theorem packed_neg (u : UnpackedFloat) : packed u.neg = -packed u :=
  eq_of_unpack ((unpack_packed_neg u).trans (unpack_neg _).symm)

/-! ### What an operation makes of a sign -/

theorem neg_mul_sign (s t : Sign) : -s * t = -(s * t) := by
  cases s <;> cases t <;> rfl

theorem mul_comm_sign (s t : Sign) : s * t = t * s := by
  cases s <;> cases t <;> rfl

theorem neg_div_sign (s t : Sign) : -s / t = -(s / t) := by
  cases s <;> cases t <;> rfl

theorem eq_or_eq_neg (s t : Sign) : t = s ∨ t = -s := by
  cases s with
  | negative =>
    cases t with
    | negative => exact .inl rfl
    | positive => exact .inr rfl
  | positive =>
    cases t with
    | negative => exact .inr rfl
    | positive => exact .inl rfl

theorem neg_neg_sign (s : Sign) : - -s = s := by
  cases s <;> rfl

theorem roundWithAccuracy_neg (s : Sign) (m : Nat) (e : Int) (accuracy : Accuracy) :
    roundWithAccuracy .binary64 (-s) m e accuracy =
      (roundWithAccuracy .binary64 s m e accuracy).neg := by
  simp only [roundWithAccuracy]
  split <;> rfl

theorem mul_neg_unpacked (u v : UnpackedFloat) :
    UnpackedFloat.mul .binary64 u.neg v = (UnpackedFloat.mul .binary64 u v).neg := by
  cases u <;> cases v <;>
    simp only [UnpackedFloat.neg, UnpackedFloat.mul, neg_mul_sign, roundWithAccuracy_neg]

theorem mul_comm_unpacked (u v : UnpackedFloat) :
    UnpackedFloat.mul .binary64 u v = UnpackedFloat.mul .binary64 v u := by
  cases u <;> cases v <;>
    simp only [UnpackedFloat.mul, mul_comm_sign, Nat.mul_comm, Int.add_comm]

theorem div_neg_unpacked (u v : UnpackedFloat) :
    UnpackedFloat.div .binary64 u.neg v = (UnpackedFloat.div .binary64 u v).neg := by
  cases u <;> cases v <;>
    simp only [UnpackedFloat.neg, UnpackedFloat.div, neg_div_sign, roundWithAccuracy_neg]

theorem add_comm_unpacked (u v : UnpackedFloat) :
    UnpackedFloat.add .binary64 u v = UnpackedFloat.add .binary64 v u := by
  have zeros (s t : Sign) : (if s == t then UnpackedFloat.zero s else .zero .positive) =
      if t == s then .zero t else .zero .positive := by
    cases s <;> cases t <;> rfl
  have infinities (s t : Sign) : (if s == t then UnpackedFloat.infinity s else .notANumber) =
      if t == s then .infinity t else .notANumber := by
    cases s <;> cases t <;> rfl
  cases u <;> cases v <;>
    simp only [UnpackedFloat.add, Int.add_comm, Int.min_comm, zeros, infinities]

theorem apply_neg (s : Sign) (n : Int) : (-s).apply n = -s.apply n := by
  cases s with
  | negative => exact (Int.neg_neg n).symm
  | positive => rfl

theorem sub_eq_add_neg_unpacked (u v : UnpackedFloat) :
    UnpackedFloat.sub .binary64 u v = UnpackedFloat.add .binary64 u v.neg := by
  cases u <;> cases v <;>
    simp only [UnpackedFloat.add, UnpackedFloat.sub, UnpackedFloat.neg, apply_neg,
      Int.sub_eq_add_neg]

theorem normalize_neg {n : Int} (nonzero : n ≠ 0) (e : Int) (s : Sign) :
    UnpackedFloat.normalize .binary64 (-n) e s = (UnpackedFloat.normalize .binary64 n e s).neg := by
  have round_neg (s : Sign) (m : Nat) :
      UnpackedFloat.round .binary64 (-s) m e = (UnpackedFloat.round .binary64 s m e).neg :=
    roundWithAccuracy_neg ..
  rcases Int.lt_or_gt_of_ne nonzero with below | above
  · have turned : compare (-n) 0 = .gt := Int.compare_eq_gt.mpr (by omega)
    simp only [UnpackedFloat.normalize, turned, Int.compare_eq_lt.mpr below]
    exact round_neg .negative _
  · have turned : compare (-n) 0 = .lt := Int.compare_eq_lt.mpr (by omega)
    simp only [UnpackedFloat.normalize, turned, Int.compare_eq_gt.mpr above, Int.neg_neg]
    exact round_neg .positive _

/-- Only where it vanishes is a difference not the opposite of the reverse one. -/
theorem sub_swap_unpacked (u v : UnpackedFloat) :
    UnpackedFloat.sub .binary64 v u = (UnpackedFloat.sub .binary64 u v).neg ∨
      UnpackedFloat.sub .binary64 v u = UnpackedFloat.sub .binary64 u v := by
  cases u with
  | notANumber => cases v <;> exact .inr rfl
  | infinity s =>
    cases v with
    | notANumber => exact .inr rfl
    | infinity t =>
      obtain rfl | rfl := eq_or_eq_neg s t
      · exact .inr rfl
      · cases s <;> exact .inl rfl
    | zero t => exact .inl rfl
    | finite t m e positive => exact .inl rfl
  | zero s =>
    cases v with
    | notANumber => exact .inr rfl
    | infinity t => cases t <;> exact .inl rfl
    | zero t =>
      obtain rfl | rfl := eq_or_eq_neg s t
      · exact .inr rfl
      · cases s <;> exact .inl rfl
    | finite t m e positive => cases t <;> exact .inl rfl
  | finite s m e positive =>
    cases v with
    | notANumber => exact .inr rfl
    | infinity t => cases t <;> exact .inl rfl
    | zero t => exact .inl rfl
    | finite t n f positive' =>
      simp only [UnpackedFloat.sub, Int.min_comm f e]
      generalize s.apply (decreaseExponent m e (min e f)).1 = a
      generalize t.apply (decreaseExponent n f (min e f)).1 = b
      by_cases same : a = b
      · rw [same]
        exact .inr rfl
      · rw [← Int.neg_sub a b]
        exact .inl (normalize_neg (by omega) _ _)

/-! ### Doubles -/

variable (x y : Float)

theorem neg_mul : -x * y = -(x * y) := by
  change packed (UnpackedFloat.mul .binary64 (-x).toModel.unpack y.toModel.unpack) = _
  rw [unpack_neg, mul_neg_unpacked, packed_neg]
  rfl

theorem mul_comm : x * y = y * x :=
  congrArg packed (mul_comm_unpacked x.toModel.unpack y.toModel.unpack)

theorem mul_neg : x * -y = -(x * y) := by
  rw [mul_comm, neg_mul, mul_comm]

theorem neg_div : -x / y = -(x / y) := by
  change packed (UnpackedFloat.div .binary64 (-x).toModel.unpack y.toModel.unpack) = _
  rw [unpack_neg, div_neg_unpacked, packed_neg]
  rfl

theorem add_comm : x + y = y + x :=
  congrArg packed (add_comm_unpacked x.toModel.unpack y.toModel.unpack)

theorem sub_eq_add_neg : x - y = x + -y := by
  change packed (UnpackedFloat.sub .binary64 x.toModel.unpack y.toModel.unpack) =
    packed (UnpackedFloat.add .binary64 x.toModel.unpack (-y).toModel.unpack)
  rw [unpack_neg, sub_eq_add_neg_unpacked]

theorem sub_swap : y - x = -(x - y) ∨ y - x = x - y := by
  rcases sub_swap_unpacked x.toModel.unpack y.toModel.unpack with turned | same
  · exact .inl ((congrArg packed turned).trans (packed_neg _))
  · exact .inr (congrArg packed same)

theorem neg_neg : - -x = x := by
  apply eq_of_unpack
  rw [unpack_neg, unpack_neg]
  cases x.toModel.unpack <;> simp only [UnpackedFloat.neg, neg_neg_sign]

theorem abs_neg : (-x).abs = x.abs := by
  change packed (-x).toModel.unpack.abs = packed x.toModel.unpack.abs
  rw [unpack_neg]
  cases x.toModel.unpack <;> rfl

theorem abs_eq : x.abs = x ∨ x.abs = -x := by
  have whole := packed_unpack x
  change packed x.toModel.unpack.abs = x ∨
    packed x.toModel.unpack.abs = packed x.toModel.unpack.neg
  cases unpacked : x.toModel.unpack with
  | notANumber => exact .inl (unpacked ▸ whole :)
  | infinity s | zero s | finite s =>
    rw [unpacked] at whole
    cases s with
    | negative => exact .inr rfl
    | positive => exact .inl whole

/-- Opposites stand in line at opposite places. -/
theorem place_neg : place (-x) = (place x).map fun a => (-a.1, -a.2.1, -a.2.2) := by
  rw [place, place, unpack_neg]
  rcases x.toModel.unpack with (_ | _) | _ | (_ | _) | ⟨_ | _, m, e, _⟩
  case finite.negative =>
    change some ((1 : Int), e, (m : Int)) = some (- -1, - -e, - -(m : Int))
    simp only [Int.neg_neg]
  all_goals rfl

variable {x} {bound : Float}

theorem not_pos_neg (pos : 0.0 < x) : ¬ 0.0 < -x := by
  have zero : place 0.0 = some (0, 0, 0) := by decide
  simp only [lt_iff, place_neg, zero, Option.some.injEq] at pos ⊢
  obtain ⟨_, a, rfl, placed, above⟩ := pos
  rw [placed]
  rintro ⟨_, _, rfl, ⟨⟩, below⟩
  simp only [RankLt] at above below
  omega

/-- A double above a positive bound in magnitude is on one side of zero. -/
theorem pos_neg_iff (positive : 0.0 < bound) (far : bound < x.abs) : 0.0 < -x ↔ ¬ 0.0 < x := by
  have side : 0.0 < x.abs := lt_of_lt_of_le positive (le_of_lt far)
  refine ⟨fun west east => not_pos_neg east west, fun notEast => ?_⟩
  rcases abs_eq x with same | turned
  · exact absurd (same ▸ side) notEast
  · exact turned ▸ side

end VesselRelay.Binary64
