import VesselRelay.Random.Generator
import VesselRelay.Text.Hex

/-!
Random digits, and random universally unique identifiers of version 4 in their canonical form.
-/
namespace VesselRelay.Generator

/-- A row of upper-case hexadecimal digits, one to a word. -/
def hex : Nat → Draw (List Char)
  | 0 => return []
  | n + 1 => do
    let digit ← top 4
    return Hex.upper digit.toNat :: (← hex n)

/-- Sixteen bytes with the version and the variant put in. -/
def stamped (bytes : List UInt8) : List UInt8 :=
  bytes.mapIdx fun i b =>
    if i = 6 then (b &&& 0x0f) ||| 0x40 else if i = 8 then (b &&& 0x3f) ||| 0x80 else b

/-- The digits of a universally unique identifier in groups of 8, 4, 4, 4 and 12. -/
def grouped (bytes : List UInt8) : List Char :=
  let part (start count : Nat) := Hex.chars ((bytes.drop start).take count)
  part 0 4 ++ '-' :: part 4 2 ++ '-' :: part 6 2 ++ '-' :: part 8 2 ++ '-' :: part 10 6

def uuid : Draw String := do
  return String.ofList (grouped (stamped (← bytes 16)))

end VesselRelay.Generator
