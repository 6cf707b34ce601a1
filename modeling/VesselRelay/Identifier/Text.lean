import VesselRelay.Failure
import VesselRelay.Identifier.Basic
import VesselRelay.Text.Hex

/-!
The written form of an identifier: forty hexadecimal digits. Lower case is written and either case
is read.
-/
namespace VesselRelay.Identifier

def chars (id : Identifier) : List Char := Hex.chars id.bytes

def text (id : Identifier) : String := String.ofList id.chars

/-- Why bytes are no written identifier. The length is looked at first. -/
inductive TextFault where
  | length (given : Nat)
  | digit
  deriving DecidableEq, Repr

theorem length_of_bytes? : ∀ {codes bytes : List UInt8},
    Hex.bytes? codes = some bytes → codes.length = 2 * bytes.length
  | [], _, h => by cases h; rfl
  | [_], _, h => by simp [Hex.bytes?] at h
  | _ :: _ :: rest, _, h => by
    simp only [Hex.bytes?] at h
    split at h
    · rename_i bs _ found
      cases h
      have := length_of_bytes? found
      simp; omega
    · cases h

/-- Reads the codes of a text. -/
def ofCodes (codes : List UInt8) : Except TextFault Identifier :=
  if forty : codes.length = 40 then
    match found : Hex.bytes? codes with
    | some bytes => .ok ⟨bytes, by have := length_of_bytes? found; omega⟩
    | none => .error .digit
  else .error (.length codes.length)

def parse (s : String) : Except Failure Identifier :=
  match ofCodes s.toUTF8.data.toList with
  | .ok id => .ok id
  | .error (.length n) => .error (.argument (.identifierLength n))
  | .error .digit => .error (.argument (.identifierDigit s))

end VesselRelay.Identifier
