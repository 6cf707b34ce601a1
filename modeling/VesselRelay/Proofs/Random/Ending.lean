import Mathlib.Data.Fintype.EquivFin
import VesselRelay.Proofs.Random.Drawing
import VesselRelay.Proofs.Random.Range

/-!
Draws by trial end. A cipher permutes the blocks, so within a period of the key stream the words of
every block come up once, wherever the stream is read from. No bound rejects zero, and so every
bounded draw of a generator in the course of its stream returns. Which number is drawn is up to the
words: for every number of the range there is a word that leads to it.
-/
namespace VesselRelay

namespace Block

theorem toNat_lt (block : Block) : block.toNat < 2 ^ 128 := by
  have small := littleEndian_lt block.bytes
  rw [block.size] at small
  exact small

instance : Finite Block := by
  refine Finite.of_injective (fun block => (⟨block.toNat, block.toNat_lt⟩ : Fin (2 ^ 128))) ?_
  intro a b same
  rw [← ofNat_toNat a, ← ofNat_toNat b, Fin.mk.inj same]

/-- Each count is counted to from the one before it, zero from the last. -/
theorem increment_surjective : Function.Surjective increment := by
  intro block
  have round : (ofNat (block.toNat + 2 ^ 128)).toNat = block.toNat := by
    rw [toNat_ofNat, Nat.add_mod_right, Nat.mod_eq_of_lt block.toNat_lt]
  refine ⟨ofNat (block.toNat + 2 ^ 128 - 1), ?_⟩
  rw [increment_ofNat, Nat.sub_add_cancel (by omega), ← ofNat_toNat (ofNat _), round, ofNat_toNat]

theorem wordAt_zero {i : Nat} (inside : i < 4) : zero.wordAt i = 0 := by
  decide +revert

end Block

namespace Generator

variable {α : Type} {g : Generator} {encrypt : Block → Block} {counter : Block} {n bound : Nat}

/-! ### In the course of a key stream -/

/-- Whether a generator has come to some place of the key stream of a cipher that permutes the
blocks. -/
structure Running (g : Generator) : Prop where
  permutes : Function.Injective g.encrypt
  underway : ∃ counter n spare, g = (Reader.after g.encrypt counter spare n).generator

theorem running_start (permutes : Function.Injective encrypt) (counter : Block) :
    (start encrypt counter).Running :=
  ⟨permutes, counter, 0, none, congrArg Reader.generator (Reader.after_zero encrypt counter).symm⟩

/-- Whatever is drawn, the generator is left further on in the stream. -/
theorem Running.draw {m : Draw α} (running : g.Running) (asks : Asks m) : (m g).2.Running := by
  obtain ⟨permutes, counter, n, spare, here⟩ := running
  obtain ⟨p, rfl⟩ := asks
  obtain ⟨later, left⟩ := (p.answered g.encrypt counter spare n).left
  rw [← here] at left
  rw [left]
  exact ⟨permutes, _, _, _, rfl⟩

/-- Within a period there is a word of the block of zeros. -/
theorem exists_keyWord_eq_zero (permutes : Function.Injective encrypt) (counter : Block) (n : Nat) :
    ∃ k < period, keyWord encrypt counter (n + k) = 0 := by
  obtain ⟨count, zeros⟩ := Finite.surjective_of_injective permutes .zero
  have small := count.toNat_lt
  have start := counter.toNat_lt
  -- The first word of that count, told from the counter on, and then from word `n` on.
  let first := 4 * ((count.toNat + 2 ^ 128 - 1 - counter.toNat) % 2 ^ 128)
  let k := (first + 2 ^ 130 - n % 2 ^ 130) % 2 ^ 130
  refine ⟨k, Nat.mod_lt _ (by decide), ?_⟩
  have reached : (counter.toNat + (n + k) / 4 + 1) % 2 ^ 128 = count.toNat := by omega
  have same : Block.ofNat (counter.toNat + (n + k) / 4 + 1) = count := by
    rw [← Block.ofNat_toNat (.ofNat _), Block.toNat_ofNat, reached, Block.ofNat_toNat]
  rw [keyWord, same, zeros, Block.wordAt_zero (Nat.mod_lt _ (by decide))]

/-! ### Draws below a bound -/

theorem accept_zero (positive : 0 < bound) (fits : bound ≤ 2 ^ 31) : accept bound 0 = some 0 := by
  unfold accept
  split
  · simp
  · rw [Nat.zero_mod]
    exact if_pos (by omega)

theorem trial_apply (bound : Nat) (g : Generator) :
    trial bound g = (accept bound (top 31 g).1.toNat, (top 31 g).2) := rfl

/-- A trial that some word on the way passes is not repeated beyond it. -/
theorem exists_untilAccepted {rounds : Nat} {spare : Option Float}
    (passes : ∃ k < rounds, (accept bound (keyWord encrypt counter (n + k) / 2)).isSome) :
    ∃ v, (untilAccepted (trial bound) rounds (Reader.after encrypt counter spare n).generator).1 =
      .ok v := by
  induction rounds generalizing n with
  | zero => simp at passes
  | succ rounds ih =>
    obtain ⟨k, within, passed⟩ := passes
    obtain ⟨w, _, asked, number⟩ :=
      Reader.top_after encrypt counter spare n ⟨31, by decide, by decide⟩
    dsimp only at asked
    replace number : w.toNat = keyWord encrypt counter n / 2 := number
    rw [untilAccepted_succ, trial_apply, asked]
    dsimp only
    cases accepted : accept bound w.toNat with
    | some v => exact ⟨v, rfl⟩
    | none =>
      cases k with
      | zero =>
        rw [number] at accepted
        rw [Nat.add_zero, accepted] at passed
        cases passed
      | succ k =>
        refine ih ⟨k, by omega, ?_⟩
        rwa [Nat.add_assoc, Nat.add_comm 1 k]

theorem Running.exists_below (running : g.Running) (positive : 0 < bound) (fits : bound ≤ 2 ^ 31) :
    ∃ v, (below bound g).1 = .ok v := by
  obtain ⟨permutes, counter, n, spare, here⟩ := running
  obtain ⟨k, within, zero⟩ := exists_keyWord_eq_zero permutes counter n
  rw [here]
  refine exists_untilAccepted ⟨k, within, ?_⟩
  rw [zero, Nat.zero_div, accept_zero positive fits]
  rfl

theorem Running.exists_intBelow (running : g.Running) (positive : 0 < n) (fits : n < 2 ^ 31) :
    ∃ v < n, (intBelow (Int32.ofNat n) g).1 = .ok (Int32.ofNat v) := by
  obtain ⟨v, drawn⟩ := running.exists_below positive fits.le
  rw [intBelow_ofNat positive fits]
  exact ⟨v, below_lt positive drawn, bind_fst_eq_ok.mpr ⟨v, drawn, rfl⟩⟩

/-! ### Words that lead to a number -/

/-- Whether these words are the next to be handed out. -/
def Deals : List UInt32 → Generator → Prop
  | [], _ => True
  | w :: rest, g => (word g).1 = w ∧ Deals rest (word g).2

theorem deals_unread (encrypt : Block → Block) (counter : Block) (spare : Option Float)
    (words : List UInt32) : Deals words ⟨encrypt, counter, words, spare⟩ := by
  induction words with
  | nil => trivial
  | cons w rest ih => exact ⟨rfl, ih⟩

/-- Bits that lead to a number below a bound. -/
def bitsFor (bound v : Nat) : Nat :=
  if isPowerOfTwo bound then (v * 2 ^ 31 + (bound - 1)) / bound else v

theorem accept_bitsFor {v : Nat} (within : v < bound) (fits : bound ≤ 2 ^ 31) :
    accept bound (bitsFor bound v) = some v ∧ bitsFor bound v < 2 ^ 31 := by
  unfold accept bitsFor
  split
  · have low := Nat.div_mul_le_self (v * 2 ^ 31 + (bound - 1)) bound
    have high := Nat.lt_div_mul_add (a := v * 2 ^ 31 + (bound - 1)) (b := bound) (by omega)
    generalize (v * 2 ^ 31 + (bound - 1)) / bound = bits at *
    constructor
    · rw [Nat.shiftRight_eq_div_pow, Nat.mul_comm]
      congr 1
      omega
    · refine Nat.lt_of_mul_lt_mul_right (a := bound) ?_
      omega
  · dsimp only
    rw [Nat.mod_eq_of_lt within]
    exact ⟨if_pos (by omega), by omega⟩

/-- A word that leads to a number below a bound. -/
def wordFor (bound v : Nat) : UInt32 := UInt32.ofNat (2 * bitsFor bound v)

theorem intBelow_of_deals {v : Nat} {words : List UInt32} (within : v < n) (fits : n < 2 ^ 31)
    (deals : Deals (wordFor n v :: words) g) :
    ∃ h, intBelow (Int32.ofNat n) g = (.ok (Int32.ofNat v), h) ∧ Deals words h := by
  obtain ⟨dealt, rest⟩ := deals
  obtain ⟨accepted, small⟩ := accept_bitsFor within fits.le
  have bits : (top 31 g).1.toNat = bitsFor n v := by
    change ((word g).1 >>> UInt32.ofNat 1).toNat = _
    rw [dealt, wordFor, UInt32.toNat_shiftRight, UInt32.toNat_ofNat', Nat.shiftRight_eq_div_pow]
    change 2 * bitsFor n v % 2 ^ 32 / 2 = _
    omega
  have tried : (trial n g).1 = some v := by
    rw [trial_apply, bits, accepted]
  have drawn : below n g = (.ok v, (word g).2) := untilAccepted_of_some tried
  refine ⟨(word g).2, ?_, rest⟩
  rw [intBelow_ofNat (by omega) fits, bind_apply, drawn]
  rfl

end Generator
end VesselRelay
