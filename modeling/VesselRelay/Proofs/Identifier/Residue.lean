import Mathlib.Data.Nat.Bits
import Mathlib.Data.Nat.Digits.Lemmas
import Mathlib.Data.Nat.Size
import Mathlib.Data.Set.Function
import VesselRelay.Proofs.Identifier.Value

/-!
Identifiers as the integers modulo `2 ^ 160`. Twenty bytes spell each number below `2 ^ 160` in one
way and no other number; sums and differences go round at `2 ^ 160`, and the bits that are counted
are the binary digits of the number.
-/
namespace VesselRelay.Identifier

variable {a b : Identifier}

/-! ### The number of an identifier -/

/-- So many bytes of a number, the most significant first. -/
def bytesOf : Nat → Nat → List UInt8
  | 0, _ => []
  | k + 1, n => UInt8.ofNat (n / 256 ^ k) :: bytesOf k n

theorem length_bytesOf (k n : Nat) : (bytesOf k n).length = k := by
  induction k with
  | zero => rfl
  | succ k ih => rw [bytesOf, List.length_cons, ih]

theorem value_bytesOf (k n : Nat) : value (bytesOf k n) = n % 256 ^ k := by
  induction k with
  | zero => rw [Nat.pow_zero, Nat.mod_one]; rfl
  | succ k ih =>
    have byte : (UInt8.ofNat (n / 256 ^ k)).toNat = n / 256 ^ k % 256 := UInt8.toNat_ofNat'
    rw [bytesOf, value_cons, length_bytesOf, byte, ih, Nat.mod_pow_succ, Nat.add_comm]

/-- The number is read from the bytes as digits to the base 256, the last byte the lowest. -/
theorem value_eq_ofDigits (bytes : List UInt8) :
    value bytes = Nat.ofDigits 256 (bytes.map UInt8.toNat).reverse := by
  induction bytes with
  | nil => rfl
  | cons x rest ih =>
    rw [value_cons, ih, List.map_cons, List.reverse_cons, Nat.ofDigits_append, List.length_reverse,
      List.length_map, Nat.ofDigits_singleton, Nat.add_comm]

/-- As many bytes spell one number only. -/
theorem value_inj {as bs : List UInt8} (same : as.length = bs.length)
    (equal : value as = value bs) : as = bs := by
  have small (bytes : List UInt8) : ∀ digit ∈ (bytes.map UInt8.toNat).reverse, digit < 256 := by
    intro digit held
    obtain ⟨byte, _, rfl⟩ := List.mem_map.mp (List.mem_reverse.mp held)
    exact byte.toNat_lt
  rw [value_eq_ofDigits, value_eq_ofDigits] at equal
  have digits := Nat.ofDigits_inj_of_len_eq (by decide) (by simpa using same) (small as) (small bs)
    equal
  exact List.map_injective_iff.mpr (fun _ _ => UInt8.toNat_inj.mp) (List.reverse_injective digits)

theorem toNat_inj : a.toNat = b.toNat ↔ a = b := by
  constructor
  · intro equal
    obtain ⟨as, size⟩ := a
    obtain ⟨bs, size'⟩ := b
    rw [mk.injEq]
    exact value_inj (size.trans size'.symm) equal
  · exact congrArg toNat

/-- The identifier of a number, of which the lowest 160 bits matter. -/
def ofNat (n : Nat) : Identifier := ⟨bytesOf 20 n, length_bytesOf 20 n⟩

theorem toNat_ofNat (n : Nat) : (ofNat n).toNat = n % 2 ^ 160 := value_bytesOf 20 n

theorem bijOn_toNat : Set.BijOn toNat Set.univ (Set.Iio (2 ^ 160)) := by
  refine ⟨fun a _ => a.toNat_lt, fun a _ b _ => toNat_inj.mp, fun n below => ?_⟩
  exact ⟨ofNat n, trivial, (toNat_ofNat n).trans (Nat.mod_eq_of_lt below)⟩

/-- The bytes are compared like the numbers. -/
theorem compare_toNat (a b : Identifier) : compareOfLessAndEq a b = compare a.toNat b.toNat := by
  change _ = compareOfLessAndEq a.toNat b.toNat
  simp only [compareOfLessAndEq, lt_iff_toNat_lt, toNat_inj]

theorem not_lt_iff : ¬ a < b ↔ b.toNat ≤ a.toNat := by
  rw [lt_iff_toNat_lt, Nat.not_lt]

theorem toNat_zero : zero.toNat = 0 := rfl

theorem eq_zero_iff : a = zero ↔ a.toNat = 0 := by
  rw [← toNat_zero, toNat_inj]

theorem isZero_iff_eq : a.isZero = true ↔ a = zero := by
  rw [isZero, List.all_eq_true]
  constructor
  · intro zeros
    obtain ⟨bytes, size⟩ := a
    rw [zero, mk.injEq]
    exact List.eq_replicate_iff.mpr ⟨size, fun byte held => eq_of_beq (zeros byte held)⟩
  · rintro rfl byte held
    exact beq_of_eq (List.eq_of_mem_replicate held)

/-- A number with so many bits below it is that much longer. -/
theorem size_raised {k x low : Nat} (nonzero : x ≠ 0) (below : low < 2 ^ k) :
    (2 ^ k * x + low).size = k + (Nat.log2 x + 1) := by
  have least : 2 ^ Nat.log2 x ≤ x := Nat.log2_self_le nonzero
  have greatest : x < 2 ^ (Nat.log2 x + 1) := Nat.lt_log2_self
  apply Nat.le_antisymm
  · apply Nat.size_le.mpr
    calc 2 ^ k * x + low
        < 2 ^ k * (x + 1) := by rw [Nat.mul_succ]; omega
      _ ≤ 2 ^ k * 2 ^ (Nat.log2 x + 1) := Nat.mul_le_mul_left _ greatest
      _ = _ := (Nat.pow_add ..).symm
  · apply Nat.lt_size.mpr
    calc 2 ^ (k + Nat.log2 x)
        = 2 ^ k * 2 ^ Nat.log2 x := Nat.pow_add ..
      _ ≤ 2 ^ k * x := Nat.mul_le_mul_left _ least
      _ ≤ _ := Nat.le_add_right ..

/-- The bits that are counted from the first byte that is not zero are those of the number. -/
theorem significantBits_eq_size (bytes : List UInt8) :
    significantBits bytes = (value bytes).size := by
  induction bytes with
  | nil => rfl
  | cons x rest ih =>
    rw [significantBits, value_cons]
    split
    · rename_i nothing
      rw [ih, nothing]
      simp
    · rename_i other
      have nonzero : x.toNat ≠ 0 := fun zero => other (UInt8.toNat_inj.mp zero)
      have base : 256 ^ rest.length = 2 ^ (8 * rest.length) := by rw [Nat.pow_mul]
      have below : value rest < 2 ^ (8 * rest.length) := (value_lt rest).trans_eq base
      rw [base, size_raised nonzero below]

theorem bitLength_eq (a : Identifier) : a.bitLength = (Nat.digits 2 a.toNat).length := by
  rw [bitLength, significantBits_eq_size, Nat.digits_two_eq_bits, List.length_map,
    ← Nat.size_eq_bits_len]
  rfl

/-! ### Sums and differences -/

theorem toNat_add_eq (a b : Identifier) : (a.add b).toNat = (a.toNat + b.toNat) % 2 ^ 160 := by
  have whole := addBytes_value (a.size.trans b.size.symm)
  rw [a.size] at whole
  change _ * _ + (a.add b).toNat = a.toNat + b.toNat at whole
  rw [← whole]
  exact ((Nat.mul_add_mod ..).trans (Nat.mod_eq_of_lt (a.add b).toNat_lt)).symm

example : max.add (ofNat 1) = zero := by decide

theorem toNat_subtract_eq (a b : Identifier) :
    ((a.subtract b).toNat : Int) = (a.toNat - b.toNat) % 2 ^ 160 := by
  have whole := subtractBytes_value (a.size.trans b.size.symm)
  rw [a.size] at whole
  change (a.subtract b).toNat + b.toNat = a.toNat + _ * _ at whole
  have bound := (a.subtract b).toNat_lt
  omega

example : zero.subtract (ofNat 1) = max := by decide

theorem subtract_add (a b : Identifier) : (a.add b).subtract b = a := by
  apply toNat_inj.mp
  have sum := toNat_add_eq a b
  have difference := toNat_subtract_eq (a.add b) b
  have bound := a.toNat_lt
  omega

theorem add_subtract (a b : Identifier) : (a.subtract b).add b = a := by
  apply toNat_inj.mp
  have sum := toNat_add_eq (a.subtract b) b
  have difference := toNat_subtract_eq a b
  have bound := a.toNat_lt
  omega

/-- What it is for identifiers to be the integers modulo `2 ^ 160`. -/
structure Residues : Prop where
  spelled : ∀ a : Identifier, a.toNat = Nat.ofDigits 256 (a.bytes.map UInt8.toNat).reverse
  bijective : Set.BijOn toNat Set.univ (Set.Iio (2 ^ 160))
  order : ∀ a b : Identifier, compareOfLessAndEq a b = compare a.toNat b.toNat
  sum : ∀ a b : Identifier, (a.add b).toNat = (a.toNat + b.toNat) % 2 ^ 160
  difference : ∀ a b : Identifier, ((a.subtract b).toNat : Int) = (a.toNat - b.toNat) % 2 ^ 160
  undone : ∀ a b : Identifier, (a.add b).subtract b = a ∧ (a.subtract b).add b = a
  exactSum : ∀ a b : Identifier, a.toNat + b.toNat < 2 ^ 160 →
    (a.add b).toNat = a.toNat + b.toNat
  exactDifference : ∀ a b : Identifier, b.toNat ≤ a.toNat →
    (a.subtract b).toNat = a.toNat - b.toNat
  isZero : ∀ a : Identifier, (a.isZero = true ↔ a = zero) ∧ (a = zero ↔ a.toNat = 0)
  bitLength : ∀ a : Identifier, a.bitLength = (Nat.digits 2 a.toNat).length

/-- Identifiers are the integers modulo `2 ^ 160`. -/
theorem residues : Residues where
  spelled a := value_eq_ofDigits a.bytes
  bijective := bijOn_toNat
  order := compare_toNat
  sum := toNat_add_eq
  difference := toNat_subtract_eq
  undone a b := ⟨subtract_add a b, add_subtract a b⟩
  exactSum _ _ := toNat_add
  exactDifference _ _ := toNat_subtract
  isZero _ := ⟨isZero_iff_eq, eq_zero_iff⟩
  bitLength := bitLength_eq

end VesselRelay.Identifier
