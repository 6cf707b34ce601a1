import Mathlib.Tactic.Ring
import VesselRelay.Identifier.Arithmetic
import VesselRelay.Power

/-!
Identifiers as numbers: the order of the bytes is the order of the numbers, and a sum or a
difference is that of the numbers wherever it stays among them.
-/
namespace VesselRelay.Identifier

variable {a b : Identifier}

theorem foldl_value (bytes : List UInt8) (n : Nat) :
    bytes.foldl (fun n b => 256 * n + b.toNat) n = 256 ^ bytes.length * n + value bytes := by
  induction bytes generalizing n with
  | nil => simp [value]
  | cons x rest ih =>
    simp only [value, List.foldl_cons, List.length_cons] at ih ⊢
    rw [ih, ih (256 * 0 + x.toNat)]
    ring

theorem value_cons (x : UInt8) (rest : List UInt8) :
    value (x :: rest) = 256 ^ rest.length * x.toNat + value rest := by
  rw [value, List.foldl_cons, foldl_value, Nat.mul_zero, Nat.zero_add]

theorem value_lt (bytes : List UInt8) : value bytes < 256 ^ bytes.length := by
  induction bytes with
  | nil => exact Nat.one_pos
  | cons x rest ih =>
    have byte : x.toNat + 1 ≤ 256 := x.toNat_lt
    rw [value_cons, List.length_cons, Nat.pow_succ]
    calc 256 ^ rest.length * x.toNat + value rest
        < 256 ^ rest.length * x.toNat + 256 ^ rest.length := by omega
      _ = 256 ^ rest.length * (x.toNat + 1) := by ring
      _ ≤ 256 ^ rest.length * 256 := Nat.mul_le_mul_left _ byte

/-- The first bytes decide, and the rest where they are equal. -/
theorem value_lt_value {as bs : List UInt8} (same : as.length = bs.length) :
    value as < value bs ↔ as < bs := by
  induction as generalizing bs with
  | nil =>
    obtain rfl := List.length_eq_zero_iff.mp same.symm
    simp
  | cons x as ih =>
    obtain _ | ⟨y, bs⟩ := bs
    · simp at same
    · have tails : as.length = bs.length := by simpa using same
      rw [value_cons, value_cons, tails, List.cons_lt_cons_iff, ← ih tails]
      have left := value_lt as
      have right := value_lt bs
      rw [tails] at left
      rcases Nat.lt_trichotomy x.toNat y.toNat with less | equal | more
      · have step := Nat.mul_le_mul_left (256 ^ bs.length) (Nat.succ_le_of_lt less)
        have first : x < y := UInt8.lt_iff_toNat_lt.mpr less
        rw [Nat.mul_succ] at step
        simp only [first, true_or, iff_true]
        omega
      · obtain rfl := UInt8.toNat_inj.mp equal
        simp
      · have step := Nat.mul_le_mul_left (256 ^ bs.length) (Nat.succ_le_of_lt more)
        have second : ¬ x < y := fun first => by
          have := UInt8.lt_iff_toNat_lt.mp first
          omega
        have apart : x ≠ y := by
          rintro rfl
          omega
        rw [Nat.mul_succ] at step
        simp only [second, apart, false_and, or_self, iff_false]
        omega

theorem lt_iff_toNat_lt : a < b ↔ a.toNat < b.toNat :=
  (value_lt_value (a.size.trans b.size.symm)).symm

theorem toNat_lt (a : Identifier) : a.toNat < 2 ^ 160 := by
  have bound := value_lt a.bytes
  rw [a.size] at bound
  exact bound

theorem significantBits_le (bytes : List UInt8) : significantBits bytes ≤ 8 * bytes.length := by
  induction bytes with
  | nil => exact Nat.le_refl 0
  | cons x rest ih =>
    rw [significantBits, List.length_cons]
    split
    · omega
    · rename_i nonzero
      have bits : Nat.log2 x.toNat < 8 := by
        rw [Nat.log2_lt fun none => nonzero (UInt8.toNat_inj.mp none)]
        exact x.toNat_lt
      omega

theorem bitLength_le (a : Identifier) : a.bitLength ≤ 160 := by
  have bound := significantBits_le a.bytes
  rw [a.size] at bound
  exact bound

/-! ### Sums and differences -/

/-- The sum of the bytes, with the carry counted at its place. -/
theorem addBytes_value {as bs : List UInt8} (same : as.length = bs.length) :
    256 ^ as.length * (addBytes as bs).2 + value (addBytes as bs).1 = value as + value bs := by
  induction as generalizing bs with
  | nil =>
    obtain rfl := List.length_eq_zero_iff.mp same.symm
    rfl
  | cons x as ih =>
    obtain _ | ⟨y, bs⟩ := bs
    · simp at same
    · have tails : as.length = bs.length := by simpa using same
      have length : (addBytes as bs).1.length = as.length := by
        rw [length_addBytes, ← tails]
        exact Nat.min_self _
      have rest := ih tails
      simp only [addBytes, value_cons, List.length_cons, length, UInt8.toNat_ofNat', ← tails,
        Nat.reducePow]
      generalize (addBytes as bs).2 = carry at *
      have split := Nat.mod_add_div (x.toNat + y.toNat + carry) 256
      calc 256 ^ (as.length + 1) * ((x.toNat + y.toNat + carry) / 256) +
            (256 ^ as.length * ((x.toNat + y.toNat + carry) % 256) + value (addBytes as bs).1)
          = 256 ^ as.length * ((x.toNat + y.toNat + carry) % 256 +
              256 * ((x.toNat + y.toNat + carry) / 256)) + value (addBytes as bs).1 := by ring
        _ = 256 ^ as.length * (x.toNat + y.toNat) +
              (256 ^ as.length * carry + value (addBytes as bs).1) := by rw [split]; ring
        _ = 256 ^ as.length * x.toNat + value as + (256 ^ as.length * y.toNat + value bs) := by
          rw [rest]; ring

theorem borrow_le (as bs : List UInt8) : (subtractBytes as bs).2 ≤ 1 := by
  unfold subtractBytes
  split
  · dsimp only
    split <;> omega
  · exact Nat.zero_le 1

/-- The difference of the bytes, with the borrow counted at its place. -/
theorem subtractBytes_value {as bs : List UInt8} (same : as.length = bs.length) :
    value (subtractBytes as bs).1 + value bs =
      value as + 256 ^ as.length * (subtractBytes as bs).2 := by
  induction as generalizing bs with
  | nil =>
    obtain rfl := List.length_eq_zero_iff.mp same.symm
    rfl
  | cons x as ih =>
    obtain _ | ⟨y, bs⟩ := bs
    · simp at same
    · have tails : as.length = bs.length := by simpa using same
      have length : (subtractBytes as bs).1.length = as.length := by
        rw [length_subtractBytes, ← tails]
        exact Nat.min_self _
      have rest := ih tails
      have small := borrow_le as bs
      simp only [subtractBytes, value_cons, List.length_cons, length, UInt8.toNat_ofNat', ← tails,
        Nat.reducePow]
      generalize (subtractBytes as bs).2 = borrow at *
      generalize lent : (if x.toNat < y.toNat + borrow then 1 else 0) = next
      have byteX : x.toNat < 256 := x.toNat_lt
      have byteY : y.toNat < 256 := y.toNat_lt
      have digit : (256 + x.toNat - (y.toNat + borrow)) % 256 + (y.toNat + borrow) =
          x.toNat + 256 * next := by
        split at lent <;> omega
      generalize (256 + x.toNat - (y.toNat + borrow)) % 256 = left at digit
      calc 256 ^ as.length * left + value (subtractBytes as bs).1 +
            (256 ^ as.length * y.toNat + value bs)
          = 256 ^ as.length * (left + y.toNat) +
              (value (subtractBytes as bs).1 + value bs) := by ring
        _ = 256 ^ as.length * (left + (y.toNat + borrow)) + value as := by rw [rest]; ring
        _ = 256 ^ as.length * x.toNat + value as + 256 ^ (as.length + 1) * next := by
          rw [digit]; ring

theorem toNat_add (fits : a.toNat + b.toNat < 2 ^ 160) : (a.add b).toNat = a.toNat + b.toNat := by
  have whole := addBytes_value (a.size.trans b.size.symm)
  rw [a.size] at whole
  change _ * _ + (a.add b).toNat = a.toNat + b.toNat at whole
  omega

theorem toNat_subtract (covered : b.toNat ≤ a.toNat) :
    (a.subtract b).toNat = a.toNat - b.toNat := by
  have whole := subtractBytes_value (a.size.trans b.size.symm)
  rw [a.size] at whole
  change (a.subtract b).toNat + b.toNat = a.toNat + _ * _ at whole
  have bound := (a.subtract b).toNat_lt
  have bound' := a.toNat_lt
  omega

end VesselRelay.Identifier
