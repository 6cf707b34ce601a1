import VesselRelay.Identifier.Arithmetic
import VesselRelay.Random.Generator

/-!
Identifiers drawn uniformly. Below a bound only as many bits are drawn as the bound has, and what is
not below it is rejected, which happens less than half of the time.
-/
namespace VesselRelay.Generator

def identifier : Draw Identifier := fun g =>
  let drawn := bytes 20 g
  (⟨drawn.1, length_bytes 20 g⟩, drawn.2)

/-- The bytes that hold a number of so many bits. -/
def bytesFor (bitLength : Nat) : Nat := (bitLength + 7) / 8

/-- The mask of the bits that the leading byte of such a number may have. -/
def leadingMask (bitLength : Nat) : UInt8 :=
  UInt8.ofNat (2 ^ (if bitLength % 8 = 0 then 8 else bitLength % 8) - 1)

/-- The first byte put under a mask. -/
def maskFirst (mask : UInt8) : List UInt8 → List UInt8
  | [] => []
  | b :: rest => (b &&& mask) :: rest

theorem length_maskFirst (mask : UInt8) (bytes : List UInt8) :
    (maskFirst mask bytes).length = bytes.length := by
  cases bytes <;> simp [maskFirst]

/-- The identifier of so many bits that drawn bytes make. -/
def candidate? (bitLength : Nat) (bytes : List UInt8) : Option Identifier :=
  let padded :=
    List.replicate (20 - bytesFor bitLength) 0 ++ maskFirst (leadingMask bitLength) bytes
  if size : padded.length = 20 then some ⟨padded, size⟩ else none

def identifierTrial (bound : Identifier) : Draw (Option Identifier) := do
  let drawn ← bytes (bytesFor bound.bitLength)
  return (candidate? bound.bitLength drawn).filter (· < bound)

def identifierBelow (bound : Identifier) : Attempt Identifier := do
  if bound.isZero then throw (.argument .identifierBound)
  untilAccepted (identifierTrial bound) period

def identifierBetween (least bound : Identifier) : Attempt Identifier := do
  if ¬ least < bound then throw (.argument .identifierRange)
  return least.add (← identifierBelow (bound.subtract least))

end VesselRelay.Generator
