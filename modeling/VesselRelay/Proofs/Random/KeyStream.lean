import Mathlib.Tactic.Ring
import VesselRelay.Proofs.Identifier.Value
import VesselRelay.Random.Generator

/-!
The key stream: the words of the encryptions of the counts after a counter. A counter is a number of
128 bits, the first byte the least significant, and goes round after the last. A reader reads the
stream byte by byte out of one block, which it fills again when it comes to the end; its cursor
never leaves the block, and the generator hands out what such a reader reads.
-/
namespace VesselRelay

namespace Block
open Identifier (value value_cons value_lt)

/-! ### Counts -/

/-- The number of a row of bytes, the first the least significant. -/
def littleEndian (bytes : List UInt8) : Nat := value bytes.reverse

theorem littleEndian_cons (b : UInt8) (rest : List UInt8) :
    littleEndian (b :: rest) = 256 * littleEndian rest + b.toNat := by
  rw [littleEndian, List.reverse_cons, value, List.foldl_append]
  rfl

theorem littleEndian_lt (bytes : List UInt8) : littleEndian bytes < 256 ^ bytes.length := by
  simpa [littleEndian] using value_lt bytes.reverse

theorem littleEndian_incrementBytes (bytes : List UInt8) :
    littleEndian (incrementBytes bytes) = (littleEndian bytes + 1) % 256 ^ bytes.length := by
  induction bytes with
  | nil => rfl
  | cons b rest ih =>
    have tail := littleEndian_lt rest
    have byte := b.toNat_lt
    have successor : (b + 1).toNat = (b.toNat + 1) % 256 := UInt8.toNat_add b 1
    rw [incrementBytes, List.length_cons, Nat.pow_succ, Nat.mul_comm _ 256]
    split
    · rename_i carries
      rw [carries] at successor
      have last : b.toNat = 255 := by
        change 0 = _ at successor
        omega
      rw [littleEndian_cons, littleEndian_cons, ih, last, ← Nat.mul_mod_mul_left]
      rfl
    · rename_i stays
      have fits : b.toNat + 1 < 256 := by
        by_contra full
        refine stays (UInt8.toNat_inj.mp ?_)
        change _ = 0
        omega
      rw [littleEndian_cons, littleEndian_cons, successor, Nat.mod_eq_of_lt fits,
        Nat.mod_eq_of_lt (by omega), Nat.add_assoc]

/-- So many bytes of a number, the least significant first. -/
def littleBytes : Nat → Nat → List UInt8
  | 0, _ => []
  | k + 1, n => UInt8.ofNat n :: littleBytes k (n / 256)

theorem length_littleBytes (k n : Nat) : (littleBytes k n).length = k := by
  induction k generalizing n with
  | zero => rfl
  | succ k ih => rw [littleBytes, List.length_cons, ih]

theorem littleEndian_littleBytes (k n : Nat) : littleEndian (littleBytes k n) = n % 256 ^ k := by
  induction k generalizing n with
  | zero => rw [Nat.pow_zero, Nat.mod_one]; rfl
  | succ k ih =>
    have byte : (UInt8.ofNat n).toNat = n % 256 := UInt8.toNat_ofNat'
    rw [littleBytes, littleEndian_cons, ih, byte, Nat.pow_succ', Nat.mod_mul, Nat.add_comm]

theorem littleBytes_littleEndian (bytes : List UInt8) :
    littleBytes bytes.length (littleEndian bytes) = bytes := by
  induction bytes with
  | nil => rfl
  | cons b rest ih =>
    have byte := b.toNat_lt
    have above : (256 * littleEndian rest + b.toNat) / 256 = littleEndian rest := by omega
    have first : UInt8.ofNat (256 * littleEndian rest + b.toNat) = b := by
      refine UInt8.toNat_inj.mp ?_
      rw [UInt8.toNat_ofNat']
      omega
    rw [List.length_cons, littleBytes, littleEndian_cons, above, first, ih]

def toNat (block : Block) : Nat := littleEndian block.bytes

/-- The count of a number, of which the lowest 128 bits matter. -/
def ofNat (n : Nat) : Block := ⟨littleBytes 16 n, length_littleBytes 16 n⟩

theorem toNat_ofNat (n : Nat) : (ofNat n).toNat = n % 2 ^ 128 := littleEndian_littleBytes 16 n

theorem ofNat_toNat (block : Block) : ofNat block.toNat = block := by
  have bytes := littleBytes_littleEndian block.bytes
  rw [block.size] at bytes
  rw [ofNat, mk.injEq]
  exact bytes

theorem toNat_increment (block : Block) : block.increment.toNat = (block.toNat + 1) % 2 ^ 128 := by
  have counted := littleEndian_incrementBytes block.bytes
  rw [block.size] at counted
  exact counted

theorem increment_ofNat (n : Nat) : (ofNat n).increment = ofNat (n + 1) := by
  have count : (ofNat n).increment.toNat = (ofNat (n + 1)).toNat := by
    rw [toNat_increment, toNat_ofNat, toNat_ofNat, Nat.mod_add_mod]
  rw [← ofNat_toNat (ofNat n).increment, count, ofNat_toNat]

example : (ofNat (2 ^ 128 - 1)).increment = zero := by decide

theorem increment_eq (block : Block) : block.increment = ofNat (block.toNat + 1) := by
  rw [← increment_ofNat, ofNat_toNat]

/-! ### Words -/

theorem toNat_shifted (b : UInt8) {k : UInt32} (high : k.toNat ≤ 24) :
    (b.toUInt32 <<< k).toNat = 2 ^ k.toNat * b.toNat := by
  have small : 2 ^ k.toNat * b.toNat < 2 ^ 32 :=
    calc 2 ^ k.toNat * b.toNat < 2 ^ k.toNat * 2 ^ 8 :=
          Nat.mul_lt_mul_of_pos_left b.toNat_lt (Nat.two_pow_pos _)
      _ = 2 ^ (k.toNat + 8) := (Nat.pow_add ..).symm
      _ ≤ 2 ^ 32 := Nat.pow_le_pow_right (by decide) (by omega)
  rw [UInt32.toNat_shiftLeft, UInt8.toNat_toUInt32, Nat.mod_eq_of_lt (by omega : k.toNat < 32),
    Nat.shiftLeft_eq, Nat.mul_comm, Nat.mod_eq_of_lt small]

theorem toNat_word (a b c d : UInt8) : (word a b c d).toNat = value [a, b, c, d] := by
  have hb := b.toNat_lt
  have hc := c.toNat_lt
  have shifted : (word a b c d).toNat =
      2 ^ 24 * a.toNat ||| 2 ^ 16 * b.toNat ||| 2 ^ 8 * c.toNat ||| d.toNat := by
    rw [word, UInt32.toNat_or, UInt32.toNat_or, UInt32.toNat_or,
      toNat_shifted a (k := 24) (by decide), toNat_shifted b (k := 16) (by decide),
      toNat_shifted c (k := 8) (by decide), UInt8.toNat_toUInt32]
    rfl
  have two : 2 ^ 24 * a.toNat ||| 2 ^ 16 * b.toNat = 2 ^ 16 * (2 ^ 8 * a.toNat + b.toNat) := by
    rw [← Nat.two_pow_add_eq_or_of_lt (by omega)]
    ring
  have three : 2 ^ 16 * (2 ^ 8 * a.toNat + b.toNat) ||| 2 ^ 8 * c.toNat =
      2 ^ 8 * (2 ^ 8 * (2 ^ 8 * a.toNat + b.toNat) + c.toNat) := by
    rw [← Nat.two_pow_add_eq_or_of_lt (by omega)]
    ring
  rw [shifted, two, three, ← Nat.two_pow_add_eq_or_of_lt d.toNat_lt]
  simp only [value, List.foldl_cons, List.foldl_nil]
  ring

theorem wordsOf_of_short {bytes : List UInt8} (short : bytes.length < 4) : wordsOf bytes = [] := by
  match bytes with
  | [] | [_] | [_, _] | [_, _, _] => rfl
  | _ :: _ :: _ :: _ :: _ =>
    simp only [List.length_cons] at short
    omega

/-- The number of word `i` of a block, its first byte the most significant. -/
def wordAt (block : Block) (i : Nat) : Nat := value ((block.bytes.drop (4 * i)).take 4)

end Block

namespace Generator

/-- Word `n` of the key stream: four words to each of the counts that come after the counter. -/
def keyWord (encrypt : Block → Block) (counter : Block) (n : Nat) : Nat :=
  (encrypt (.ofNat (counter.toNat + n / 4 + 1))).wordAt (n % 4)

end Generator

/-- A generator that keeps its block whole, with a cursor of where it reads on. -/
structure Reader where
  encrypt : Block → Block
  counter : Block
  block : Block
  cursor : Nat
  spare : Option Float

namespace Reader

def refill (r : Reader) : Reader :=
  let counter := r.counter.increment
  { r with counter, block := r.encrypt counter, cursor := 0 }

def start (encrypt : Block → Block) (counter : Block) : Reader :=
  refill ⟨encrypt, counter, counter, 0, none⟩

/-- The word of the four bytes from the cursor on, if they are all in the block. -/
def read (r : Reader) : Option (UInt32 × Reader) :=
  match r.block.bytes.drop r.cursor with
  | a :: b :: c :: d :: _ => some (Block.word a b c d, { r with cursor := r.cursor + 4 })
  | _ => none

/-- With a new block where less than a word is left of the last. A cursor that has left the block
is not put back. -/
def ready (r : Reader) : Reader :=
  if r.cursor ≤ 16 ∧ 16 - r.cursor < 4 then r.refill else r

def word (r : Reader) : Option (UInt32 × Reader) := r.ready.read

/-- The generator that hands out what is read. -/
def generator (r : Reader) : Generator :=
  ⟨r.encrypt, r.counter, Block.wordsOf (r.block.bytes.drop r.cursor), r.spare⟩

/-! ### Reading on -/

theorem read_of_inside (r : Reader) {i : Nat} (inside : i < 4) (here : r.cursor = 4 * i) :
    ∃ w, r.read = some (w, { r with cursor := r.cursor + 4 }) ∧ w.toNat = r.block.wordAt i := by
  have left : (r.block.bytes.drop r.cursor).length = 16 - r.cursor := by
    rw [List.length_drop, r.block.size]
  rw [read, Block.wordAt, ← here]
  match unread : r.block.bytes.drop r.cursor with
  | a :: b :: c :: d :: _ => exact ⟨_, rfl, Block.toNat_word a b c d⟩
  | [] | [_] | [_, _] | [_, _, _] =>
    rw [unread] at left
    simp only [List.length_cons, List.length_nil] at left
    omega

theorem read_eq_some {r r' : Reader} {w : UInt32} (given : r.read = some (w, r')) :
    r.generator.unread = w :: r'.generator.unread ∧ r' = { r with cursor := r'.cursor } := by
  rw [read] at given
  split at given
  · rename_i a b c d rest unread
    cases given
    have later : r.block.bytes.drop (r.cursor + 4) = rest := by
      rw [← List.drop_drop, unread]
      rfl
    refine ⟨?_, rfl⟩
    rw [generator, generator, unread, later]
    rfl
  · cases given

theorem take_generator {r r' : Reader} {w : UInt32} (given : r.read = some (w, r')) :
    r.generator.take = (w, r'.generator) := by
  obtain ⟨unread, same⟩ := read_eq_some given
  rw [Generator.take, unread, same]
  rfl

/-- The generator hands out what the reader reads. -/
theorem word_generator {r r' : Reader} {w : UInt32} (given : r.word = some (w, r')) :
    Generator.word r.generator = (w, r'.generator) := by
  rw [word, ready] at given
  rw [Generator.word]
  split at given
  · rename_i full
    have short : (r.block.bytes.drop r.cursor).length < 4 := by
      rw [List.length_drop, r.block.size]
      exact full.2
    have used : r.generator.unread = [] := Block.wordsOf_of_short short
    rw [used]
    exact take_generator given
  · rw [(read_eq_some given).1]
    exact take_generator given

/-! ### The stream -/

/-- The reader by which `n` words of the stream have been read. It fills its block when it is asked
for a word, and not before. -/
def after (encrypt : Block → Block) (counter : Block) (spare : Option Float) (n : Nat) : Reader :=
  let filled := (n - 1) / 4
  let counter := .ofNat (counter.toNat + filled + 1)
  ⟨encrypt, counter, encrypt counter, 4 * (n - 4 * filled), spare⟩

variable (encrypt : Block → Block) (counter : Block) (spare : Option Float) (n : Nat)

theorem after_zero : after encrypt counter none 0 = start encrypt counter := by
  rw [start, refill, Block.increment_eq]
  rfl

/-- The cursor never leaves the block. -/
theorem cursor_after : (after encrypt counter spare n).cursor ≤ 16 := by
  change 4 * (n - 4 * ((n - 1) / 4)) ≤ 16
  omega

/-- Where its words are used up, the block is filled with the encryption of the next count. -/
theorem ready_after : (after encrypt counter spare n).ready =
    { after encrypt counter spare (n + 1) with cursor := 4 * (n % 4) } := by
  have inside := cursor_after encrypt counter spare n
  have here : (after encrypt counter spare n).cursor = 4 * (n - 4 * ((n - 1) / 4)) := rfl
  rw [ready]
  split
  · have next : n / 4 = (n - 1) / 4 + 1 := by omega
    have first : n % 4 = 0 := by omega
    rw [after, refill, after, Block.increment_ofNat, Nat.add_sub_cancel, next, first, Nat.add_assoc]
  · have same : n / 4 = (n - 1) / 4 := by omega
    have later : n - 4 * ((n - 1) / 4) = n % 4 := by omega
    rw [after, after, Nat.add_sub_cancel, same, later]

/-- Word after word of the stream is read, each of them once. -/
theorem word_after : ∃ w,
    (after encrypt counter spare n).word = some (w, after encrypt counter spare (n + 1)) ∧
      w.toNat = Generator.keyWord encrypt counter n := by
  have cursor : (after encrypt counter spare (n + 1)).cursor = 4 * (n % 4) + 4 := by
    change 4 * (n + 1 - 4 * ((n + 1 - 1) / 4)) = 4 * (n % 4) + 4
    omega
  have ahead : { after encrypt counter spare (n + 1) with cursor := 4 * (n % 4) + 4 } =
      after encrypt counter spare (n + 1) := by rw [← cursor]
  have inside : n % 4 < 4 := Nat.mod_lt n (by decide)
  obtain ⟨w, given, number⟩ := read_of_inside
    { after encrypt counter spare (n + 1) with cursor := 4 * (n % 4) } inside rfl
  rw [word, ready_after]
  exact ⟨w, ahead ▸ given, number⟩

end Reader
end VesselRelay
