import Mathlib.Algebra.Order.Floor.Div
import Mathlib.Logic.Function.Iterate
import VesselRelay.Random.Generator

/-!
Bytes drawn in a row. Byte `i` is byte `i % 4` of the word that comes after `i / 4` others, the
lowest byte of a word first, and as many words are taken as are begun. So a row that is cut behind
whole words may be drawn in two parts. Filled in place, a row is written from its first byte to its
last, and what stands before and behind it is left as it is.
-/
namespace VesselRelay.Generator

/-! ### Words ahead -/

/-- The generator after so many words. -/
def ahead (n : ℕ) (g : Generator) : Generator := (fun g => (word g).2)^[n] g

theorem ahead_add (m n : ℕ) (g : Generator) : ahead (m + n) g = ahead n (ahead m g) := by
  rw [ahead, Nat.add_comm, Function.iterate_add_apply]
  rfl

/-- The word that comes after so many others. -/
def wordAhead (n : ℕ) (g : Generator) : UInt32 := (word (ahead n g)).1

/-- The byte that comes after so many others, four to a word and the lowest of them first. -/
def byteAhead (g : Generator) (i : ℕ) : UInt8 :=
  UInt8.ofNat ((wordAhead (i / 4) g).toNat / 256 ^ (i % 4))

theorem byteAhead_ahead (g : Generator) (k i : ℕ) :
    byteAhead (ahead k g) i = byteAhead g (4 * k + i) := by
  have words : (4 * k + i) / 4 = k + i / 4 := by omega
  rw [byteAhead, byteAhead, wordAhead, wordAhead, ← ahead_add, words, Nat.mul_add_mod]

theorem bytesOf_eq (w : UInt32) :
    bytesOf w = (List.range 4).map fun k => UInt8.ofNat (w.toNat / 256 ^ k) := by
  have shifted (k : UInt32) (e : ℕ) (amount : 2 ^ (k.toNat % 32) = e) :
      (w >>> k).toUInt8 = UInt8.ofNat (w.toNat / e) := by
    rw [← UInt8.toNat_inj, UInt32.toNat_toUInt8, UInt32.toNat_shiftRight, UInt8.toNat_ofNat',
      Nat.shiftRight_eq_div_pow, amount]
  have lowest : w.toUInt8 = UInt8.ofNat (w.toNat / 256 ^ 0) := by
    rw [← UInt8.toNat_inj, UInt32.toNat_toUInt8, UInt8.toNat_ofNat', Nat.pow_zero, Nat.div_one]
  rw [bytesOf, lowest, shifted 8 (256 ^ 1) rfl, shifted 16 (256 ^ 2) rfl, shifted 24 (256 ^ 3) rfl]
  rfl

/-! ### Rows of bytes -/

/-- A row that is not empty begins with bytes of the next word. -/
theorem bytes_of_pos {n : ℕ} (positive : 0 < n) (g : Generator) :
    bytes n g = ((bytesOf (word g).1).take n ++ (bytes (n - 4) (word g).2).1,
      (bytes (n - 4) (word g).2).2) := by
  match n with
  | 1 | 2 | 3 => rfl
  | n + 4 =>
    have whole : (bytesOf (word g).1).take (n + 4) = bytesOf (word g).1 :=
      List.take_of_length_le (Nat.le_add_left 4 n)
    rw [whole]
    rfl

theorem bytes_eq (n : ℕ) (g : Generator) :
    bytes n g = ((List.range n).map (byteAhead g), ahead (n ⌈/⌉ 4) g) := by
  induction n using Nat.strong_induction_on generalizing g with
  | _ n ih =>
    rcases Nat.eq_zero_or_pos n with rfl | positive
    · rfl
    · have first : (bytesOf (word g).1).take n = (List.range (min n 4)).map (byteAhead g) := by
        rw [bytesOf_eq, ← List.map_take, List.take_range]
        refine List.map_congr_left fun i member => ?_
        have within : i < 4 := (List.mem_range.mp member).trans_le (Nat.min_le_right n 4)
        rw [byteAhead, Nat.div_eq_of_lt within, Nat.mod_eq_of_lt within]
        rfl
      have later : (List.range (n - 4)).map (byteAhead (word g).2) =
          ((List.range (n - 4)).map (min n 4 + ·)).map (byteAhead g) := by
        rw [List.map_map]
        refine List.map_congr_left fun i member => ?_
        have full : min n 4 = 4 * 1 := by
          have inside := List.mem_range.mp member
          omega
        rw [Function.comp_apply, full, ← byteAhead_ahead]
        rfl
      have parted : n = min n 4 + (n - 4) := by omega
      have begun : n ⌈/⌉ 4 = 1 + (n - 4) ⌈/⌉ 4 := by
        rw [Nat.ceilDiv_eq_add_pred_div, Nat.ceilDiv_eq_add_pred_div]
        omega
      rw [bytes_of_pos positive, ih (n - 4) (by omega), first, later, ← List.map_append,
        ← List.range_add, ← parted, begun, ahead_add]
      rfl

/-- Behind whole words a row may be cut. -/
theorem bytes_add {a : ℕ} (whole : 4 ∣ a) (b : ℕ) (g : Generator) :
    bytes (a + b) g = ((bytes a g).1 ++ (bytes b (bytes a g).2).1, (bytes b (bytes a g).2).2) := by
  obtain ⟨k, rfl⟩ := whole
  have words : (4 * k) ⌈/⌉ 4 = k := by
    rw [Nat.ceilDiv_eq_add_pred_div]
    omega
  have all : (4 * k + b) ⌈/⌉ 4 = k + b ⌈/⌉ 4 := by
    rw [Nat.ceilDiv_eq_add_pred_div, Nat.ceilDiv_eq_add_pred_div]
    omega
  have second : (List.range b).map (byteAhead (ahead k g)) =
      ((List.range b).map (4 * k + ·)).map (byteAhead g) := by
    rw [List.map_map]
    exact List.map_congr_left fun i _ => byteAhead_ahead g k i
  rw [bytes_eq (4 * k + b), bytes_eq (4 * k), bytes_eq b, words, all, second, List.range_add,
    List.map_append, ahead_add]

/-! ### In place -/

/-- A row that is written over, and the place where it is written next. -/
structure Filling where
  place : ℕ
  row : List UInt8

namespace Filling

/-- Writes a byte and goes on to the next place, and stops where there is no such place. -/
def put (b : UInt8) (f : Filling) : Option Filling :=
  if f.place < f.row.length then some ⟨f.place + 1, f.row.set f.place b⟩ else none

/-- Writes so many bytes of a word, the lowest first, or as many as there is room for. -/
def pour (stop : ℕ) : ℕ → UInt32 → Filling → Option Filling
  | 0, _, f => some f
  | remaining + 1, w, f =>
    if f.place < stop then (f.put w.toUInt8).bind (pour stop remaining (w >>> 8)) else some f

theorem place_le_of_pour {stop remaining : ℕ} {w : UInt32} {f f' : Filling}
    (poured : f.pour stop remaining w = some f') : f.place ≤ f'.place := by
  induction remaining generalizing w f with
  | zero =>
    cases poured
    exact Nat.le_refl _
  | succ remaining ih =>
    rw [pour] at poured
    split at poured
    · obtain ⟨next, written, rest⟩ := Option.bind_eq_some_iff.mp poured
      unfold put at written
      split at written
      · cases written
        exact (Nat.le_succ _).trans (ih rest)
      · cases written
    · cases poured
      exact Nat.le_refl _

/-- A word fills at least one place. -/
theorem place_lt_of_pour {stop remaining : ℕ} {w : UInt32} {f f' : Filling}
    (room : f.place < stop) (poured : f.pour stop (remaining + 1) w = some f') :
    f.place < f'.place := by
  rw [pour, if_pos room] at poured
  obtain ⟨next, written, rest⟩ := Option.bind_eq_some_iff.mp poured
  unfold put at written
  split at written
  · cases written
    exact place_le_of_pour rest
  · cases written

/-- Writes words up to an end, each from its lowest byte on; what is left of the last is lost. -/
def fill (stop : ℕ) (f : Filling) (g : Generator) : Option (Filling × Generator) :=
  if _room : f.place < stop then
    match _poured : f.pour stop 4 (word g).1 with
    | none => none
    | some f' => f'.fill stop (word g).2
  else some (f, g)
termination_by stop - f.place
decreasing_by
  have further := place_lt_of_pour _room _poured
  omega

theorem fill_of_full {stop : ℕ} {f : Filling} (full : stop ≤ f.place) (g : Generator) :
    f.fill stop g = some (f, g) := by
  rw [fill, dif_neg (Nat.not_lt.mpr full)]

theorem fill_of_pour {stop : ℕ} {f f' : Filling} {g : Generator} (room : f.place < stop)
    (poured : f.pour stop 4 (word g).1 = some f') :
    f.fill stop g = f'.fill stop (word g).2 := by
  rw [fill, dif_pos room]
  split
  · rename_i stopped
    rw [poured] at stopped
    cases stopped
  · rename_i next went
    rw [poured] at went
    cases went
    rfl

/-- The bytes of a word that come up as it is shifted. -/
def lowBytes : ℕ → UInt32 → List UInt8
  | 0, _ => []
  | k + 1, w => w.toUInt8 :: lowBytes k (w >>> 8)

theorem lowBytes_four (w : UInt32) : lowBytes 4 w = bytesOf w := by
  have twice : w >>> 8 >>> 8 = w >>> 16 := by
    rw [← UInt32.toNat_inj]
    simp only [UInt32.toNat_shiftRight, ← Nat.shiftRight_add]
    rfl
  have thrice : w >>> 16 >>> 8 = w >>> 24 := by
    rw [← UInt32.toNat_inj]
    simp only [UInt32.toNat_shiftRight, ← Nat.shiftRight_add]
    rfl
  simp only [lowBytes, twice, thrice, bytesOf]

theorem pour_append (before row after : List UInt8) (k : ℕ) (w : UInt32) :
    pour (before.length + row.length) k w ⟨before.length, before ++ row ++ after⟩ =
      some ⟨before.length + min k row.length,
        before ++ (lowBytes k w).take row.length ++ row.drop k ++ after⟩ := by
  induction k generalizing before row w with
  | zero => simp [pour, lowBytes]
  | succ k ih =>
    cases row with
    | nil => simp [pour]
    | cons old row =>
      have room : before.length < before.length + (old :: row).length := by simp
      have written : put w.toUInt8 ⟨before.length, before ++ old :: row ++ after⟩ =
          some ⟨(before ++ [w.toUInt8]).length, before ++ [w.toUInt8] ++ row ++ after⟩ := by
        simp [put]
      have stop : before.length + (old :: row).length =
          (before ++ [w.toUInt8]).length + row.length := by
        simp
        omega
      rw [pour, if_pos room, written, Option.bind_some, stop, ih]
      simp [lowBytes]
      omega

/-- A row is filled with its bytes, and only that row. -/
theorem fill_append (before row after : List UInt8) (g : Generator) :
    fill (before.length + row.length) ⟨before.length, before ++ row ++ after⟩ g =
      some (⟨before.length + row.length, before ++ (bytes row.length g).1 ++ after⟩,
        (bytes row.length g).2) := by
  induction size : row.length using Nat.strong_induction_on generalizing before row g with
  | _ n ih =>
    subst size
    rcases Nat.eq_zero_or_pos row.length with empty | positive
    · obtain rfl := List.length_eq_zero_iff.mp empty
      have full : before.length + ([] : List UInt8).length ≤ before.length := Nat.le_refl _
      have none : bytes 0 g = ([], g) := rfl
      rw [fill_of_full full]
      simp [none]
    · have poured := pour_append before row after 4 (word g).1
      rw [lowBytes_four] at poured
      have next : (before ++ (bytesOf (word g).1).take row.length).length =
          before.length + min 4 row.length := by
        simp [bytesOf, Nat.min_comm]
      have stop : (before ++ (bytesOf (word g).1).take row.length).length + (row.length - 4) =
          before.length + row.length := by
        omega
      have rest := ih (row.length - 4) (by omega)
        (before ++ (bytesOf (word g).1).take row.length) (row.drop 4) (word g).2 List.length_drop
      rw [stop, next] at rest
      rw [fill_of_pour (Nat.lt_add_of_pos_right positive) poured, rest, bytes_of_pos positive,
        List.append_assoc before]

end Filling

/-! ### Filling -/

/-- How a row of so many bytes is drawn. -/
structure Filled (n : ℕ) (g : Generator) : Prop where
  /-- Each byte is the one that is next in the words ahead. -/
  written : (bytes n g).1 = (List.range n).map (byteAhead g)
  /-- As many words are taken as are begun. -/
  consumed : (bytes n g).2 = ahead (n ⌈/⌉ 4) g
  /-- Between two other rows, both of which stay as they are. -/
  inPlace : ∀ before row after : List UInt8, row.length = n →
    Filling.fill (before.length + n) ⟨before.length, before ++ row ++ after⟩ g =
      some (⟨before.length + n, before ++ (bytes n g).1 ++ after⟩, (bytes n g).2)
  /-- Where no word is divided, a row is drawn in two as in one. -/
  split : ∀ a b, n = a + b → 4 ∣ a →
    bytes n g = ((bytes a g).1 ++ (bytes b (bytes a g).2).1, (bytes b (bytes a g).2).2)

/-- Every row is drawn so, whatever its length and whatever state the generator is in. -/
theorem bytes_filled (n : ℕ) (g : Generator) : Filled n g where
  written := congrArg Prod.fst (bytes_eq n g)
  consumed := congrArg Prod.snd (bytes_eq n g)
  inPlace := by
    rintro before row after rfl
    exact Filling.fill_append before row after g
  split := by
    rintro a b rfl whole
    exact bytes_add whole b g

end VesselRelay.Generator
