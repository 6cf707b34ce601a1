import Mathlib.Algebra.Order.Floor.Div
import VesselRelay.Proofs.Identifier.Residue
import VesselRelay.Proofs.Random.Trials

/-!
Identifiers drawn below a bound. As many bytes are drawn as hold the bits of the bound, and under
the mask they come to their number modulo a power of two, so each candidate is that of equally many
byte strings; those below the bound are accepted, which is at least half of them. A draw between two
limits is one below their difference, moved up by the lower limit without going round.
-/
namespace VesselRelay

open scoped Finset

/-! ### Byte strings -/

namespace Identifier

/-- All rows of so many bytes. -/
def byteStrings (k : ℕ) : Finset (List UInt8) := (Finset.range (256 ^ k)).image (bytesOf k)

variable {k : ℕ}

theorem mem_byteStrings {bytes : List UInt8} : bytes ∈ byteStrings k ↔ bytes.length = k := by
  rw [byteStrings, Finset.mem_image]
  constructor
  · rintro ⟨n, -, rfl⟩
    exact length_bytesOf k n
  · rintro rfl
    have small := value_lt bytes
    refine ⟨value bytes, Finset.mem_range.mpr small, ?_⟩
    apply value_inj (length_bytesOf ..)
    rw [value_bytesOf, Nat.mod_eq_of_lt small]

/-- Byte strings are counted by their numbers. -/
theorem card_filter_byteStrings (p : ℕ → Prop) [DecidablePred p] :
    #{bytes ∈ byteStrings k | p (value bytes)} = #{n ∈ Finset.range (256 ^ k) | p n} := by
  have number : ∀ n ∈ Finset.range (256 ^ k), value (bytesOf k n) = n := by
    intro n member
    rw [value_bytesOf, Nat.mod_eq_of_lt (Finset.mem_range.mp member)]
  have apart : Set.InjOn (bytesOf k) ({n ∈ Finset.range (256 ^ k) | p (value (bytesOf k n))}) := by
    intro m left n right same
    have values := congrArg value same
    rwa [number m left.1, number n right.1] at values
  rw [byteStrings, Finset.filter_image, Finset.card_image_of_injOn (by simpa using apart)]
  congr 1
  apply Finset.filter_congr
  intro n member
  rw [number n member]

theorem card_byteStrings (k : ℕ) : (byteStrings k).card = 2 ^ (8 * k) := by
  have all := card_filter_byteStrings (k := k) fun _ => True
  rw [Finset.filter_true, Finset.filter_true, Finset.card_range] at all
  rw [all, Nat.pow_mul]

theorem byteStrings_nonempty (k : ℕ) : (byteStrings k).Nonempty :=
  Finset.card_pos.mp (by rw [card_byteStrings]; exact Nat.two_pow_pos _)

theorem value_zeros (k : ℕ) (bytes : List UInt8) :
    value (List.replicate k 0 ++ bytes) = value bytes := by
  induction k with
  | zero => rfl
  | succ k ih =>
    rw [List.replicate_succ, List.cons_append, value_cons, ih]
    simp

end Identifier

/-! ### Candidates -/

namespace Generator

open Identifier (value byteStrings mem_byteStrings card_filter_byteStrings card_byteStrings
  byteStrings_nonempty)

variable {bitLength : ℕ} {drawn : List UInt8}

theorem bytesFor_eq_ceilDiv (bitLength : ℕ) : bytesFor bitLength = bitLength ⌈/⌉ 8 :=
  (Nat.ceilDiv_eq_add_pred_div bitLength 8).symm

/-- The bits that a leading byte keeps. -/
theorem toNat_and_leadingMask (b : UInt8) (bitLength : ℕ) :
    (b &&& leadingMask bitLength).toNat =
      b.toNat % 2 ^ (if bitLength % 8 = 0 then 8 else bitLength % 8) := by
  have width : (if bitLength % 8 = 0 then 8 else bitLength % 8) ≤ 8 := by
    split <;> omega
  rw [leadingMask]
  generalize (if bitLength % 8 = 0 then 8 else bitLength % 8) = t at *
  have most : 2 ^ t ≤ 2 ^ 8 := Nat.pow_le_pow_right (by decide) width
  have mask : (UInt8.ofNat (2 ^ t - 1)).toNat = 2 ^ t - 1 := by
    rw [UInt8.toNat_ofNat', Nat.mod_eq_of_lt (by omega)]
  rw [UInt8.toNat_and, mask, Nat.and_two_pow_sub_one_eq_mod]

/-- The mask leaves the lowest bits, as many as the number may have. -/
theorem value_maskFirst (positive : 0 < bitLength) (size : drawn.length = bytesFor bitLength) :
    value (maskFirst (leadingMask bitLength) drawn) = value drawn % 2 ^ bitLength := by
  unfold bytesFor at size
  cases drawn with
  | nil =>
    rw [List.length_nil] at size
    omega
  | cons b rest =>
    rw [List.length_cons] at size
    have bits : bitLength =
        8 * rest.length + (if bitLength % 8 = 0 then 8 else bitLength % 8) := by
      split <;> omega
    have places : 2 ^ bitLength =
        256 ^ rest.length * 2 ^ (if bitLength % 8 = 0 then 8 else bitLength % 8) := by
      conv_lhs => rw [bits, Nat.pow_add, Nat.pow_mul]
    have low := Identifier.value_lt rest
    have above : 0 < 256 ^ rest.length := Nat.pow_pos (by decide)
    rw [maskFirst, Identifier.value_cons, Identifier.value_cons, toNat_and_leadingMask, places,
      Nat.mod_mul, Nat.mul_add_mod, Nat.mod_eq_of_lt low, Nat.mul_add_div above,
      Nat.div_eq_of_lt low, Nat.add_zero, Nat.add_comm]

theorem exists_candidate (positive : 0 < bitLength) (fits : bitLength ≤ 160)
    (size : drawn.length = bytesFor bitLength) :
    ∃ id, candidate? bitLength drawn = some id ∧
      id.bytes = List.replicate (20 - bytesFor bitLength) 0 ++
        maskFirst (leadingMask bitLength) drawn ∧
      id.toNat = value drawn % 2 ^ bitLength := by
  have whole : (List.replicate (20 - bytesFor bitLength) 0 ++
      maskFirst (leadingMask bitLength) drawn).length = 20 := by
    rw [List.length_append, List.length_replicate, length_maskFirst, size]
    unfold bytesFor
    omega
  refine ⟨⟨_, whole⟩, dif_pos whole, rfl, ?_⟩
  rw [Identifier.toNat, Identifier.value_zeros, value_maskFirst positive size]

/-- The number that drawn bytes come to. -/
def candidateValue (bitLength : ℕ) (drawn : List UInt8) : Option ℕ :=
  (candidate? bitLength drawn).map Identifier.toNat

theorem candidateValue_eq (positive : 0 < bitLength) (fits : bitLength ≤ 160)
    (size : drawn.length = bytesFor bitLength) :
    candidateValue bitLength drawn = some (value drawn % 2 ^ bitLength) := by
  obtain ⟨id, made, -, number⟩ := exists_candidate positive fits size
  rw [candidateValue, made, Option.map_some, number]

theorem evenly_candidateValue (positive : 0 < bitLength) (fits : bitLength ≤ 160) :
    Evenly (byteStrings (bytesFor bitLength)) (candidateValue bitLength) (2 ^ bitLength)
      (2 ^ (8 * bytesFor bitLength - bitLength)) where
  each v within := by
    have number : ∀ drawn ∈ byteStrings (bytesFor bitLength),
        candidateValue bitLength drawn = some v ↔ value drawn % 2 ^ bitLength = v := by
      intro drawn member
      rw [candidateValue_eq positive fits (mem_byteStrings.mp member), Option.some.injEq]
    have above : 0 < 2 ^ bitLength := Nat.two_pow_pos bitLength
    have apart : Function.Injective fun j => 2 ^ bitLength * j + v := by
      intro i j same
      exact Nat.eq_of_mul_eq_mul_left above (Nat.add_right_cancel same)
    have room : bitLength ≤ 8 * bytesFor bitLength := by
      unfold bytesFor
      omega
    have rows : 256 ^ bytesFor bitLength =
        2 ^ bitLength * 2 ^ (8 * bytesFor bitLength - bitLength) := by
      rw [← Nat.pow_add, Nat.add_sub_cancel' room, Nat.pow_mul]
    rw [Finset.filter_congr number, card_filter_byteStrings (· % 2 ^ bitLength = v), rows]
    generalize 2 ^ (8 * bytesFor bitLength - bitLength) = share
    refine card_filter_range apart fun n => ?_
    constructor
    · rintro ⟨small, rfl⟩
      exact ⟨n / 2 ^ bitLength, Nat.div_lt_of_lt_mul small, Nat.div_add_mod ..⟩
    · rintro ⟨j, small, rfl⟩
      have inside := Nat.mul_le_mul_left (2 ^ bitLength) (Nat.succ_le_of_lt small)
      rw [Nat.mul_succ] at inside
      exact ⟨by omega, by rw [Nat.mul_add_mod, Nat.mod_eq_of_lt within]⟩
  below drawn member v same := by
    rw [candidateValue_eq positive fits (mem_byteStrings.mp member)] at same
    cases same
    exact Nat.mod_lt _ (Nat.two_pow_pos bitLength)

/-! ### In place -/

/-- Writes bytes over a row from a place on, and stops where there is no such place. -/
def writeFrom (place : ℕ) : List UInt8 → List UInt8 → Option (List UInt8)
  | [], row => some row
  | b :: rest, row =>
    if place < row.length then writeFrom (place + 1) rest (row.set place b) else none

/-- Puts the byte at a place under a mask, and stops where there is no such place. -/
def maskAt (place : ℕ) (mask : UInt8) (row : List UInt8) : Option (List UInt8) :=
  row[place]?.map fun b => row.set place (b &&& mask)

/-- The candidate as a row of twenty zeros comes to it: the drawn bytes are written over its end,
and the first of them is masked. -/
def inPlace (bitLength : ℕ) (drawn : List UInt8) : Option (List UInt8) := do
  guard (bytesFor bitLength ≤ 20)
  let row ← writeFrom (20 - bytesFor bitLength) drawn (List.replicate 20 0)
  maskAt (20 - bytesFor bitLength) (leadingMask bitLength) row

theorem writeFrom_append (before bytes after : List UInt8) (same : bytes.length = after.length) :
    writeFrom before.length bytes (before ++ after) = some (before ++ bytes) := by
  induction bytes generalizing before after with
  | nil =>
    obtain rfl := List.length_eq_zero_iff.mp same.symm
    rfl
  | cons b rest ih =>
    obtain _ | ⟨old, after⟩ := after
    · simp at same
    · have written : (before ++ old :: after).set before.length b = (before ++ [b]) ++ after := by
        simp
      have next : before.length + 1 = (before ++ [b]).length := by simp
      rw [writeFrom, if_pos (by simp), written, next, ih _ _ (by simpa using same)]
      simp

theorem maskAt_append (before : List UInt8) (mask : UInt8) {bytes : List UInt8}
    (some : bytes ≠ []) :
    maskAt before.length mask (before ++ bytes) = .some (before ++ maskFirst mask bytes) := by
  cases bytes with
  | nil => exact absurd rfl some
  | cons b rest => simp [maskAt, maskFirst]

/-- Nothing is written or masked outside the row, and the row becomes the candidate. -/
theorem inPlace_eq (positive : 0 < bitLength) (fits : bitLength ≤ 160)
    (size : drawn.length = bytesFor bitLength) :
    ∃ id, candidate? bitLength drawn = some id ∧ inPlace bitLength drawn = some id.bytes := by
  obtain ⟨id, made, spelled, -⟩ := exists_candidate positive fits size
  have held : 0 < bytesFor bitLength ∧ bytesFor bitLength ≤ 20 := by
    unfold bytesFor
    omega
  have drawnSome : drawn ≠ [] := List.ne_nil_of_length_pos (by omega)
  have row : List.replicate 20 (0 : UInt8) =
      List.replicate (20 - bytesFor bitLength) 0 ++ List.replicate (bytesFor bitLength) 0 := by
    rw [List.replicate_append_replicate, Nat.sub_add_cancel held.2]
  have wrote := writeFrom_append (List.replicate (20 - bytesFor bitLength) 0) drawn
    (List.replicate (bytesFor bitLength) 0) (by simpa using size)
  have masked := maskAt_append (List.replicate (20 - bytesFor bitLength) 0)
    (leadingMask bitLength) drawnSome
  rw [← row, List.length_replicate] at wrote
  rw [List.length_replicate] at masked
  refine ⟨id, made, ?_⟩
  rw [inPlace, guard, if_pos held.2, spelled, ← masked]
  change (writeFrom _ drawn _).bind _ = _
  rw [wrote]
  rfl

/-! ### Candidates below a bound -/

variable {bound least : Identifier}

/-- The number of a candidate below the bound. -/
def acceptedValue (bound : Identifier) (drawn : List UInt8) : Option ℕ :=
  ((candidate? bound.bitLength drawn).filter (· < bound)).map Identifier.toNat

/-- The candidates that are accepted are those below the bound. -/
theorem acceptedValue_eq_some_iff {v : ℕ} :
    acceptedValue bound drawn = some v ↔
      v < bound.toNat ∧ candidateValue bound.bitLength drawn = some v := by
  rw [acceptedValue, candidateValue]
  cases candidate? bound.bitLength drawn with
  | none => simp
  | some id =>
    by_cases less : id < bound
    · have number := Identifier.lt_iff_toNat_lt.mp less
      simp only [Option.filter_some, less, decide_true, if_true, Option.map_some,
        Option.some.injEq]
      constructor
      · rintro rfl
        exact ⟨number, rfl⟩
      · exact And.right
    · have number := Identifier.not_lt_iff.mp less
      simp [Option.filter_some, less]
      omega

theorem bitLength_pos (nonzero : bound ≠ .zero) : 0 < bound.bitLength := by
  have positive : 0 < bound.toNat :=
    Nat.pos_of_ne_zero fun zero => nonzero (Identifier.eq_zero_iff.mpr zero)
  rw [Identifier.bitLength, Identifier.significantBits_eq_size]
  exact Nat.size_pos.mpr positive

/-- A bound has its highest bit set and none above it. -/
theorem toNat_between (nonzero : bound ≠ .zero) :
    2 ^ (bound.bitLength - 1) ≤ bound.toNat ∧ bound.toNat < 2 ^ bound.bitLength := by
  have positive := bitLength_pos nonzero
  have size : bound.bitLength = bound.toNat.size := Identifier.significantBits_eq_size bound.bytes
  exact ⟨Nat.lt_size.mp (by omega), Nat.size_le.mp size.ge⟩

theorem evenly_acceptedValue (nonzero : bound ≠ .zero) :
    Evenly (byteStrings (bytesFor bound.bitLength)) (acceptedValue bound) bound.toNat
      (2 ^ (8 * bytesFor bound.bitLength - bound.bitLength)) := by
  have all := evenly_candidateValue (bitLength_pos nonzero) bound.bitLength_le
  constructor
  · intro v within
    rw [← all.each v (within.trans (toNat_between nonzero).2)]
    congr 1
    apply Finset.filter_congr
    intro drawn _
    rw [acceptedValue_eq_some_iff, and_iff_right within]
  · intro drawn _ v accepted
    exact (acceptedValue_eq_some_iff.mp accepted).1

theorem card_byteStrings_le (nonzero : bound ≠ .zero) :
    (byteStrings (bytesFor bound.bitLength)).card ≤ 2 *
      #{drawn ∈ byteStrings (bytesFor bound.bitLength) | (acceptedValue bound drawn).isSome} := by
  have positive := bitLength_pos nonzero
  have held : 8 * bytesFor bound.bitLength =
      1 + (bound.bitLength - 1) + (8 * bytesFor bound.bitLength - bound.bitLength) := by
    unfold bytesFor
    omega
  rw [(evenly_acceptedValue nonzero).card_accepted, card_byteStrings]
  generalize 8 * bytesFor bound.bitLength - bound.bitLength = rest at *
  rw [held, Nat.pow_add, Nat.pow_add, Nat.pow_one, Nat.mul_assoc]
  exact Nat.mul_le_mul_left 2 (Nat.mul_le_mul_right _ (toNat_between nonzero).1)

/-- What is rejected is the part of the candidates that the bound leaves out. -/
theorem rejected_share (nonzero : bound ≠ .zero) :
    (#{drawn ∈ byteStrings (bytesFor bound.bitLength) | acceptedValue bound drawn = none} /
        (byteStrings (bytesFor bound.bitLength)).card : ℝ) =
      1 - bound.toNat / 2 ^ bound.bitLength := by
  have total := (evenly_acceptedValue nonzero).card_rejected
  have rows : (byteStrings (bytesFor bound.bitLength)).card =
      2 ^ bound.bitLength * 2 ^ (8 * bytesFor bound.bitLength - bound.bitLength) := by
    have room : bound.bitLength ≤ 8 * bytesFor bound.bitLength := by
      unfold bytesFor
      omega
    rw [card_byteStrings, ← Nat.pow_add, Nat.add_sub_cancel' room]
  have above := Nat.two_pow_pos (8 * bytesFor bound.bitLength - bound.bitLength)
  rw [rows] at total ⊢
  generalize 2 ^ (8 * bytesFor bound.bitLength - bound.bitLength) = share at *
  have numbers : (#{drawn ∈ byteStrings (bytesFor bound.bitLength) |
      acceptedValue bound drawn = none} : ℝ) + bound.toNat * share =
        2 ^ bound.bitLength * share := by
    exact_mod_cast total
  push_cast
  field_simp
  linarith

/-! ### The draws -/

/-- What a draw below a bound comes to where the bytes are equally likely. -/
noncomputable def identifierChance (bound : Identifier) (rounds : ℕ) : PMF (Option ℕ) :=
  retry (Evenly.chance (byteStrings (bytesFor bound.bitLength)) (byteStrings_nonempty _)
    (acceptedValue bound)) rounds

/-- How a draw below a bound treats the bytes that it is made from. -/
structure EvenBelow (bound : Identifier) : Prop where
  /-- A trial draws the bytes that hold the bits of the bound, and masks and places them in the
  row. -/
  trial : ∀ g, identifierTrial bound g =
    ((candidate? bound.bitLength (bytes (bound.bitLength ⌈/⌉ 8) g).1).filter (· < bound),
      (bytes (bound.bitLength ⌈/⌉ 8) g).2)
  drawn : ∀ g, (bytes (bound.bitLength ⌈/⌉ 8) g).1 ∈ byteStrings (bytesFor bound.bitLength)
  inPlace : ∀ drawn ∈ byteStrings (bytesFor bound.bitLength),
    ∃ id, candidate? bound.bitLength drawn = some id ∧
      inPlace bound.bitLength drawn = some id.bytes
  strings : ∀ drawn, drawn ∈ byteStrings (bytesFor bound.bitLength) ↔
    drawn.length = bound.bitLength ⌈/⌉ 8
  /-- Each number of so many bits is the candidate of as many byte strings. -/
  candidates : Evenly (byteStrings (bytesFor bound.bitLength)) (candidateValue bound.bitLength)
    (2 ^ bound.bitLength) (2 ^ (8 * bytesFor bound.bitLength - bound.bitLength))
  /-- Those below the bound are accepted, each from as many byte strings. -/
  accepted : ∀ drawn v, acceptedValue bound drawn = some v ↔
    v < bound.toNat ∧ candidateValue bound.bitLength drawn = some v
  evenly : Evenly (byteStrings (bytesFor bound.bitLength)) (acceptedValue bound) bound.toNat
    (2 ^ (8 * bytesFor bound.bitLength - bound.bitLength))
  /-- At least half of the byte strings are. -/
  most : (byteStrings (bytesFor bound.bitLength)).card ≤
    2 * #{drawn ∈ byteStrings (bytesFor bound.bitLength) | (acceptedValue bound drawn).isSome}
  /-- A draw repeats the trial, and repeated trials have the law of one that is accepted. -/
  repeated : ∀ g, identifierBelow bound g =
    ((match (retry (identifierTrial bound) period g).1 with
      | some id => .ok id
      | none => .error .endless), (retry (identifierTrial bound) period g).2)
  law : ∀ rounds, ∀ v < bound.toNat, (identifierChance bound rounds (some v)).toReal =
    (1 - (1 - bound.toNat / 2 ^ bound.bitLength : ℝ) ^ rounds) / bound.toNat

theorem evenBelow (nonzero : bound ≠ .zero) : EvenBelow bound where
  trial g := by
    rw [← bytesFor_eq_ceilDiv]
    rfl
  drawn g := by
    rw [← bytesFor_eq_ceilDiv, mem_byteStrings]
    exact length_bytes ..
  inPlace drawn member :=
    inPlace_eq (bitLength_pos nonzero) bound.bitLength_le (mem_byteStrings.mp member)
  strings drawn := by rw [← bytesFor_eq_ceilDiv, mem_byteStrings]
  candidates := evenly_candidateValue (bitLength_pos nonzero) bound.bitLength_le
  accepted _ _ := acceptedValue_eq_some_iff
  evenly := evenly_acceptedValue nonzero
  most := card_byteStrings_le nonzero
  repeated g := by
    have passed : ¬ bound.isZero := fun zero => nonzero (Identifier.isZero_iff_eq.mp zero)
    rw [identifierBelow, if_neg passed]
    dsimp only
    rw [untilAccepted_eq_retry]
    cases (retry (identifierTrial bound) period g).1 <;> rfl
  law rounds := by
    rw [← rejected_share nonzero]
    exact ((evenly_acceptedValue nonzero).retry_law (byteStrings_nonempty _) rounds).1

/-- How a draw between two limits moves one below their difference. -/
structure EvenBetween (least bound : Identifier) : Prop where
  span : (bound.subtract least).toNat = bound.toNat - least.toNat
  below : EvenBelow (bound.subtract least)
  moved : ∀ g, identifierBetween least bound g =
    ((identifierBelow (bound.subtract least) g).1.map least.add,
      (identifierBelow (bound.subtract least) g).2)
  sum : ∀ v < bound.subtract least, (least.add v).toNat = least.toNat + v.toNat
  onto : Set.BijOn least.add {v | v < bound.subtract least} {id | ¬ id < least ∧ id < bound}
  law : ∀ rounds, ∀ n, least.toNat ≤ n → n < bound.toNat →
    (((identifierChance (bound.subtract least) rounds).map (Option.map (least.toNat + ·)))
      (some n)).toReal =
      (1 - (1 - (bound.toNat - least.toNat) / 2 ^ (bound.subtract least).bitLength : ℝ) ^ rounds) /
        (bound.toNat - least.toNat)

theorem toNat_add_of_lt (less : least < bound) {v : Identifier} (below : v < bound.subtract least) :
    (least.add v).toNat = least.toNat + v.toNat := by
  rw [Identifier.lt_iff_toNat_lt] at less below
  rw [Identifier.toNat_subtract less.le] at below
  have limit := bound.toNat_lt
  exact Identifier.toNat_add (by omega)

theorem bijOn_add (less : least < bound) :
    Set.BijOn least.add {v | v < bound.subtract least} {id | ¬ id < least ∧ id < bound} := by
  have span := Identifier.toNat_subtract (Identifier.lt_iff_toNat_lt.mp less).le
  have order := Identifier.lt_iff_toNat_lt.mp less
  refine ⟨fun v below => ?_, fun v left w right same => ?_, fun id inside => ?_⟩
  · have sum := toNat_add_of_lt less below
    have within := Identifier.lt_iff_toNat_lt.mp below
    exact ⟨Identifier.not_lt_iff.mpr (by omega), Identifier.lt_iff_toNat_lt.mpr (by omega)⟩
  · have numbers := congrArg Identifier.toNat same
    rw [toNat_add_of_lt less left, toNat_add_of_lt less right] at numbers
    exact Identifier.toNat_inj.mp (Nat.add_left_cancel numbers)
  · obtain ⟨above, below⟩ := inside
    have above := Identifier.not_lt_iff.mp above
    have below := Identifier.lt_iff_toNat_lt.mp below
    have difference := Identifier.toNat_subtract above
    have within : id.subtract least < bound.subtract least :=
      Identifier.lt_iff_toNat_lt.mpr (by omega)
    refine ⟨id.subtract least, within, Identifier.toNat_inj.mp ?_⟩
    rw [toNat_add_of_lt less within]
    omega

theorem subtract_ne_zero (less : least < bound) : bound.subtract least ≠ .zero := by
  have order := Identifier.lt_iff_toNat_lt.mp less
  rw [ne_eq, Identifier.eq_zero_iff, Identifier.toNat_subtract order.le]
  omega

/-- A number moved up is drawn where the number itself is. -/
theorem map_add_apply_some (p : PMF (Option ℕ)) (start v : ℕ) :
    (p.map (Option.map (start + ·))) (some (start + v)) = p (some v) := by
  have origin : Set.preimage (Option.map (start + ·)) {some (start + v)} = {some v} := by
    ext x
    cases x <;> simp
  rw [← PMF.toOuterMeasure_apply_singleton, PMF.toOuterMeasure_map_apply, origin,
    PMF.toOuterMeasure_apply_singleton]

theorem evenBetween (less : least < bound) : EvenBetween least bound where
  span := Identifier.toNat_subtract (Identifier.lt_iff_toNat_lt.mp less).le
  below := evenBelow (subtract_ne_zero less)
  moved g := by
    have passed : ¬ ¬ least < bound := fun refused => refused less
    rw [identifierBetween, if_neg passed]
    dsimp only
    rw [bind_apply]
    cases (identifierBelow (bound.subtract least) g).1 <;> rfl
  sum _ := toNat_add_of_lt less
  onto := bijOn_add less
  law rounds n above below := by
    have span := Identifier.toNat_subtract (Identifier.lt_iff_toNat_lt.mp less).le
    have order := (Identifier.lt_iff_toNat_lt.mp less).le
    obtain ⟨v, rfl⟩ := Nat.exists_eq_add_of_le above
    have within : v < (bound.subtract least).toNat := by omega
    rw [map_add_apply_some, (evenBelow (subtract_ne_zero less)).law rounds v within, span,
      Nat.cast_sub order]

/-- Bounded draws of identifiers are even. -/
structure EvenIdentifiers : Prop where
  below : ∀ bound : Identifier, bound ≠ .zero → EvenBelow bound
  between : ∀ least bound : Identifier, least < bound → EvenBetween least bound

theorem evenIdentifiers : EvenIdentifiers where
  below _ := evenBelow
  between _ _ := evenBetween

end Generator
end VesselRelay
