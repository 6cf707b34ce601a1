/-!
Blocks of sixteen bytes: keys, counters and what a cipher makes of them. A counter counts from its
first byte, the least significant, and goes round after the last.
-/
namespace VesselRelay

structure Block where
  bytes : List UInt8
  size : bytes.length = 16
  deriving DecidableEq

namespace Block

def ofBytes? (bytes : List UInt8) : Option Block :=
  if size : bytes.length = 16 then some ⟨bytes, size⟩ else none

def zero : Block := ⟨List.replicate 16 0, by simp⟩

instance : Inhabited Block := ⟨zero⟩

/-- One more: a byte that comes round to zero carries into the next. -/
def incrementBytes : List UInt8 → List UInt8
  | [] => []
  | b :: rest => if b + 1 = 0 then 0 :: incrementBytes rest else (b + 1) :: rest

theorem length_incrementBytes (bytes : List UInt8) :
    (incrementBytes bytes).length = bytes.length := by
  induction bytes with
  | nil => rfl
  | cons b rest ih => simp only [incrementBytes]; split <;> simp [ih]

def increment (block : Block) : Block :=
  ⟨incrementBytes block.bytes, by rw [length_incrementBytes, block.size]⟩

/-- The word of four bytes, the first the most significant. -/
def word (a b c d : UInt8) : UInt32 :=
  (a.toUInt32 <<< 24) ||| (b.toUInt32 <<< 16) ||| (c.toUInt32 <<< 8) ||| d.toUInt32

/-- The bytes of a word, the most significant first. -/
def wordBytes (w : UInt32) : List UInt8 :=
  [(w >>> 24).toUInt8, (w >>> 16).toUInt8, (w >>> 8).toUInt8, w.toUInt8]

/-- Bytes taken four at a time. -/
def wordsOf : List UInt8 → List UInt32
  | a :: b :: c :: d :: rest => word a b c d :: wordsOf rest
  | _ => []

/-- The four words of a block. -/
def words (block : Block) : List UInt32 := wordsOf block.bytes

end Block
end VesselRelay
