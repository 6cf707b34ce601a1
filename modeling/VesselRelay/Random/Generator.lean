import VesselRelay.Failure
import VesselRelay.Random.Block

/-!
A generator counts, encrypts each count, and hands out the four words of the result in order before
it counts on. Whatever the cipher, the words handed out are those of the encryptions of the counts
after the first counter, none left out and none twice.
-/
namespace VesselRelay

structure Generator where
  encrypt : Block → Block
  counter : Block
  /-- Words of the last encryption that are still to be handed out. -/
  unread : List UInt32
  /-- A normal deviate drawn along with the last one. -/
  spare : Option Float

namespace Generator

/-- A draw from a generator, which always succeeds. -/
abbrev Draw := StateM Generator

/-- A draw that may be refused. It hands the generator on in either case. -/
abbrev Attempt := ExceptT Failure (StateM Generator)

/-- Counts on and encrypts the count. -/
def refill (g : Generator) : Generator :=
  let counter := g.counter.increment
  { g with counter, unread := (g.encrypt counter).words }

/-- A generator whose first block is the encryption of the counter after the given one. -/
def start (encrypt : Block → Block) (counter : Block) : Generator :=
  refill ⟨encrypt, counter, [], none⟩

/-- Hands out a word of what is left of a block; blocks hold four. -/
def take (g : Generator) : UInt32 × Generator :=
  match g.unread with
  | w :: rest => (w, { g with unread := rest })
  | [] => (0, g)

/-- The next word, out of a new block where the last is used up. -/
def word : Draw UInt32 := fun g =>
  if g.unread.isEmpty then g.refill.take else g.take

/-- The highest bits of the next word, as many as asked for, from 1 to 32. -/
def top (bits : Nat) : Draw UInt32 := do
  return (← word) >>> UInt32.ofNat (32 - bits)

def next (bits : Int) : Attempt UInt32 := do
  if bits < 1 ∨ 32 < bits then throw (.argument (.drawWidth bits))
  top bits.toNat

def boolean : Draw Bool := do
  return (← top 1) != 0

/-- The bytes of a word, the least significant first. -/
def bytesOf (w : UInt32) : List UInt8 :=
  [w.toUInt8, (w >>> 8).toUInt8, (w >>> 16).toUInt8, (w >>> 24).toUInt8]

/-- A row of bytes, four to a word; what is left of the last word is lost. -/
def bytes : Nat → Draw (List UInt8)
  | n + 4 => do
    let w ← word
    let rest ← bytes n
    return bytesOf w ++ rest
  | 0 => return []
  | n => do
    return (bytesOf (← word)).take n

theorem length_bytes : ∀ (n : Nat) (g : Generator), ((bytes n g).1).length = n
  | n + 4, g => by
    have rest := length_bytes n (word g).2
    change (bytesOf (word g).1 ++ (bytes n (word g).2).1).length = n + 4
    simp [bytesOf, rest]
  | 0, _ => rfl
  | 1, _ => rfl
  | 2, _ => rfl
  | 3, _ => rfl

/-- The period of any generator in words: that many counts, four words each. -/
def period : Nat := 2 ^ 130

/-- Repeats a trial until it accepts. A trial takes words only from the generator, so one that has
not accepted within the period never will. -/
def untilAccepted {α : Type} (trial : Draw (Option α)) : Nat → Attempt α
  | 0 => throw .endless
  | rounds + 1 => do
    match ← (trial : Attempt (Option α)) with
    | some a => return a
    | none => untilAccepted trial rounds

/-- A generator keeps the key that it was made with. -/
def setSeed (_seed : UInt64) : Attempt Unit := throw .reseed

end Generator
end VesselRelay
