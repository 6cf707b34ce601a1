import VesselRelay.Proofs.Random.Trials

/-!
A draw below a bound that 31 bits hold. The bits of one trial fall into rows as long as the bound,
and each number has one place in each whole row; the last row is rejected where it is cut short.
Where the bound is a power of two the rows lie the other way, and nothing is left over. So all
numbers are equally likely, and less than half of the bits are rejected.
-/
namespace VesselRelay.Generator

open scoped Finset

variable {n : ℕ}

/-- All that 31 bits can be. -/
def thirtyOneBits : Finset ℕ := Finset.range (2 ^ 31)

/-- The same 31 bits are those of two words. -/
theorem evenly_words : Evenly (Finset.range (2 ^ 32)) (fun w => some (w / 2)) (2 ^ 31) 2 where
  each v within := by
    have apart : Function.Injective fun j => 2 * v + j := add_right_injective _
    refine card_filter_range apart fun w => ?_
    simp only [Option.some.injEq]
    constructor
    · rintro ⟨-, rfl⟩
      exact ⟨w % 2, by omega, by omega⟩
    · rintro ⟨j, small, rfl⟩
      omega
  below w member v same := by
    have small := Finset.mem_range.mp member
    cases same
    omega

/-! ### Rows -/

/-- A row is whole where the bits reach to its end. -/
theorem whole_row_iff (positive : 0 < n) (bits : ℕ) :
    bits - bits % n + (n - 1) ≤ 2 ^ 31 - 1 ↔ bits / n < 2 ^ 31 / n := by
  rw [← Nat.div_mul_self_eq_mod_sub_self, ← Nat.succ_le_iff, Nat.le_div_iff_mul_le positive,
    Nat.succ_mul]
  omega

theorem accept_of_ordinary (ordinary : ¬ isPowerOfTwo n) (positive : 0 < n) (bits v : ℕ) :
    accept n bits = some v ↔ bits / n < 2 ^ 31 / n ∧ bits % n = v := by
  rw [accept, if_neg ordinary]
  dsimp only
  rw [if_congr (whole_row_iff positive bits) rfl rfl]
  simp

theorem evenly_of_ordinary (ordinary : ¬ isPowerOfTwo n) (positive : 0 < n) :
    Evenly thirtyOneBits (accept n) n (2 ^ 31 / n) where
  each v within := by
    have apart : Function.Injective fun j => n * j + v := by
      intro j k same
      exact Nat.eq_of_mul_eq_mul_left positive (Nat.add_right_cancel same)
    refine card_filter_range apart fun bits => ?_
    rw [accept_of_ordinary ordinary positive]
    constructor
    · rintro ⟨-, whole, rfl⟩
      exact ⟨bits / n, whole, Nat.div_add_mod bits n⟩
    · rintro ⟨j, whole, rfl⟩
      have row : (n * j + v) / n = j := by
        rw [Nat.mul_add_div positive, Nat.div_eq_of_lt within, Nat.add_zero]
      have place : (n * j + v) % n = v := by rw [Nat.mul_add_mod, Nat.mod_eq_of_lt within]
      have inside := (Nat.le_div_iff_mul_le positive).mp (Nat.succ_le_of_lt whole)
      rw [Nat.succ_mul, Nat.mul_comm] at inside
      exact ⟨by omega, row.symm ▸ whole, place⟩
  below bits _ v accepted := by
    obtain ⟨-, rfl⟩ := (accept_of_ordinary ordinary positive bits v).mp accepted
    exact Nat.mod_lt _ positive

/-- A power of two goes into all the bits without a remainder. -/
theorem mul_div_of_power (power : isPowerOfTwo n) (fits : n < 2 ^ 31) :
    n * (2 ^ 31 / n) = 2 ^ 31 := by
  obtain ⟨positive, lowest⟩ : n ≠ 0 ∧ n &&& (n - 1) = 0 := by simpa [isPowerOfTwo] using power
  obtain ⟨k, rfl⟩ := (Nat.and_sub_one_eq_zero_iff_isPowerOfTwo positive).mp lowest
  have small : k < 31 := (Nat.pow_lt_pow_iff_right (by decide)).mp fits
  exact Nat.mul_div_cancel' (Nat.pow_dvd_pow 2 small.le)

theorem accept_of_power (power : isPowerOfTwo n) (positive : 0 < n) (fits : n < 2 ^ 31)
    (bits : ℕ) : accept n bits = some (bits / (2 ^ 31 / n)) := by
  have whole := mul_div_of_power power fits
  rw [accept, if_pos power, Nat.shiftRight_eq_div_pow, ← Nat.mul_div_mul_left bits _ positive,
    whole]

theorem evenly_of_power (power : isPowerOfTwo n) (positive : 0 < n) (fits : n < 2 ^ 31) :
    Evenly thirtyOneBits (accept n) n (2 ^ 31 / n) := by
  have whole := mul_div_of_power power fits
  have long : 0 < 2 ^ 31 / n := Nat.div_pos fits.le positive
  constructor
  · intro v within
    have apart : Function.Injective fun j => 2 ^ 31 / n * v + j := add_right_injective _
    refine card_filter_range apart fun bits => ?_
    rw [accept_of_power power positive fits, Option.some.injEq]
    generalize 2 ^ 31 / n = q at *
    constructor
    · rintro ⟨-, rfl⟩
      exact ⟨bits % q, Nat.mod_lt _ long, Nat.div_add_mod bits q⟩
    · rintro ⟨j, small, rfl⟩
      have inside : q * v + q ≤ n * q := by
        rw [← Nat.mul_succ, Nat.mul_comm]
        exact Nat.mul_le_mul_right q within
      refine ⟨by omega, ?_⟩
      rw [Nat.mul_add_div long, Nat.div_eq_of_lt small, Nat.add_zero]
  · intro bits member v accepted
    rw [accept_of_power power positive fits] at accepted
    cases accepted
    rw [Nat.div_lt_iff_lt_mul long, whole]
    exact Finset.mem_range.mp member

/-- On either path. -/
theorem evenly_accept (positive : 0 < n) (fits : n < 2 ^ 31) :
    Evenly thirtyOneBits (accept n) n (2 ^ 31 / n) := by
  by_cases power : isPowerOfTwo n
  · exact evenly_of_power power positive fits
  · exact evenly_of_ordinary power positive

/-! ### The draw -/

theorem card_thirtyOneBits : thirtyOneBits.card = 2 ^ 31 := Finset.card_range _

theorem thirtyOneBits_nonempty : thirtyOneBits.Nonempty :=
  Finset.card_pos.mp (by simp [card_thirtyOneBits])

theorem card_rejected (positive : 0 < n) (fits : n < 2 ^ 31) :
    #{bits ∈ thirtyOneBits | accept n bits = none} = 2 ^ 31 % n := by
  have total := (evenly_accept positive fits).card_rejected
  have rows := Nat.mod_add_div (2 ^ 31) n
  rw [card_thirtyOneBits] at total
  omega

theorem card_accepted_above (positive : 0 < n) (fits : n < 2 ^ 31) :
    2 ^ 31 < 2 * #{bits ∈ thirtyOneBits | (accept n bits).isSome} := by
  have rest := Nat.mod_lt (2 ^ 31) positive
  have rows := Nat.mod_add_div (2 ^ 31) n
  have one : n ≤ n * (2 ^ 31 / n) := Nat.le_mul_of_pos_right n (Nat.div_pos fits.le positive)
  rw [(evenly_accept positive fits).card_accepted]
  omega

theorem top_thirtyOne (g : Generator) : (top 31 g).1.toNat = (word g).1.toNat / 2 := by
  change ((word g).1 >>> UInt32.ofNat 1).toNat = _
  rw [UInt32.toNat_shiftRight, Nat.shiftRight_eq_div_pow]
  rfl

/-- How a draw below a bound treats the bits that it is made from. -/
structure DrawsEvenly (n : ℕ) : Prop where
  /-- A trial takes one word, and has 31 of its bits. -/
  trial : ∀ g, trial n g = (accept n ((word g).1.toNat / 2), (word g).2)
  words : Evenly (Finset.range (2 ^ 32)) (fun w => some (w / 2)) (2 ^ 31) 2
  /-- Each number comes from as many of all the bits. -/
  evenly : Evenly thirtyOneBits (accept n) n (2 ^ 31 / n)
  rejected : #{bits ∈ thirtyOneBits | accept n bits = none} = 2 ^ 31 % n
  /-- More than half of them are accepted. -/
  most : 2 ^ 31 < 2 * #{bits ∈ thirtyOneBits | (accept n bits).isSome}
  /-- A draw repeats the trial, and repeated trials have the law of one that is accepted. -/
  drawn : ∀ g, intBelow (Int32.ofNat n) g =
    ((match (retry (Generator.trial n) period g).1 with
      | some v => .ok (Int32.ofNat v)
      | none => .error .endless), (retry (Generator.trial n) period g).2)
  law : ∀ rounds, ∀ v < n,
    (retry (Evenly.chance thirtyOneBits thirtyOneBits_nonempty (accept n)) rounds (some v)).toReal =
      (1 - ((2 ^ 31 % n : ℕ) / 2 ^ 31 : ℝ) ^ rounds) / n
  unlucky : ∀ rounds,
    (retry (Evenly.chance thirtyOneBits thirtyOneBits_nonempty (accept n)) rounds none).toReal =
      ((2 ^ 31 % n : ℕ) / 2 ^ 31 : ℝ) ^ rounds

theorem drawsEvenly (positive : 0 < n) (fits : n < 2 ^ 31) : DrawsEvenly n := by
  have evenly := evenly_accept positive fits
  have share : (#{bits ∈ thirtyOneBits | accept n bits = none} / thirtyOneBits.card : ℝ) =
      (2 ^ 31 % n : ℕ) / 2 ^ 31 := by
    rw [card_rejected positive fits, card_thirtyOneBits]
    norm_cast
  have law := evenly.retry_law thirtyOneBits_nonempty
  rw [share] at law
  refine
    { trial := fun g => ?_
      words := evenly_words
      evenly := evenly
      rejected := card_rejected positive fits
      most := card_accepted_above positive fits
      drawn := fun g => ?_
      law := fun rounds => (law rounds).1
      unlucky := fun rounds => (law rounds).2 }
  · rw [← top_thirtyOne]
    rfl
  · rw [intBelow_ofNat positive fits, bind_apply, below, untilAccepted_eq_retry]
    dsimp only
    cases (retry (Generator.trial n) period g).1 <;> rfl

/-- Below ten, of more than two thousand million bits eight are rejected. -/
theorem drawsEvenly_ten : 0 < 10 ∧ 10 < 2 ^ 31 ∧ DrawsEvenly 10 :=
  ⟨by decide, by decide, drawsEvenly (by decide) (by decide)⟩

end VesselRelay.Generator
