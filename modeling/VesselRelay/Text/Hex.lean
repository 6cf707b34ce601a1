/-!
Bytes as pairs of hexadecimal digits. Either case is read and lower case is written.
-/
namespace VesselRelay.Hex

/-- The value of the ASCII code of a hexadecimal digit. -/
def digit? (code : UInt8) : Option Nat :=
  let n := code.toNat
  if 48 ≤ n ∧ n ≤ 57 then some (n - 48)
  else if 97 ≤ n ∧ n ≤ 102 then some (n - 87)
  else if 65 ≤ n ∧ n ≤ 70 then some (n - 55)
  else none

def lowerDigits : List Char := "0123456789abcdef".toList

def upperDigits : List Char := "0123456789ABCDEF".toList

def lower (value : Nat) : Char := lowerDigits.getD value '0'

def upper (value : Nat) : Char := upperDigits.getD value '0'

/-- The byte of two digits, the high one first. -/
def byte? (high low : UInt8) : Option UInt8 :=
  match digit? high, digit? low with
  | some h, some l => some (UInt8.ofNat (16 * h + l))
  | _, _ => none

/-- The bytes that a row of digits spells; an odd digit or a foreign code spells nothing. -/
def bytes? : List UInt8 → Option (List UInt8)
  | [] => some []
  | [_] => none
  | high :: low :: rest =>
    match byte? high low, bytes? rest with
    | some b, some bs => some (b :: bs)
    | _, _ => none

def byteText (b : UInt8) : List Char :=
  [lower (b.toNat / 16), lower (b.toNat % 16)]

def chars (bytes : List UInt8) : List Char := bytes.flatMap byteText

def text (bytes : List UInt8) : String := String.ofList (chars bytes)

end VesselRelay.Hex
