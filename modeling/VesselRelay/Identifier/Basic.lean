/-!
Identifiers of targets: 160-bit numbers held as twenty bytes, the most significant first, so that
the order of the bytes is the order of the numbers.
-/
namespace VesselRelay

structure Identifier where
  bytes : List UInt8
  size : bytes.length = 20
  deriving DecidableEq

namespace Identifier

instance : LT Identifier := ⟨fun a b => a.bytes < b.bytes⟩

instance (a b : Identifier) : Decidable (a < b) :=
  inferInstanceAs (Decidable (a.bytes < b.bytes))

def zero : Identifier := ⟨List.replicate 20 0, by simp⟩

def max : Identifier := ⟨List.replicate 20 255, by simp⟩

instance : Inhabited Identifier := ⟨zero⟩

/-- The number that bytes spell, the most significant first. -/
def value (bytes : List UInt8) : Nat :=
  bytes.foldl (fun n b => 256 * n + b.toNat) 0

def toNat (id : Identifier) : Nat := value id.bytes

def isZero (id : Identifier) : Bool := id.bytes.all (· == 0)

/-- The number of binary digits of the leading byte and all after it. -/
def significantBits : List UInt8 → Nat
  | [] => 0
  | b :: rest => if b = 0 then significantBits rest else 8 * rest.length + (Nat.log2 b.toNat + 1)

def bitLength (id : Identifier) : Nat := significantBits id.bytes

end Identifier
end VesselRelay
