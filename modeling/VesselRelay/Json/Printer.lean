import VesselRelay.Decimal.Layout
import VesselRelay.Json.Basic

/-!
Compact JSON text: no blanks, members in their order, and every character of a string as itself but
for the quote, the backslash and the controls below blank. A double that is no finite number is
written `null`.
-/
namespace VesselRelay.Json

def escape (c : Char) : List Char :=
  if c = '"' then ['\\', '"']
  else if c = '\\' then ['\\', '\\']
  else if c = '\x08' then ['\\', 'b']
  else if c = '\x0c' then ['\\', 'f']
  else if c = '\n' then ['\\', 'n']
  else if c = '\r' then ['\\', 'r']
  else if c = '\t' then ['\\', 't']
  else if c.toNat < 32 then
    let digits := Nat.toDigits 16 c.toNat
    '\\' :: 'u' :: (List.replicate (4 - digits.length) '0' ++ digits)
  else [c]

def quoted (s : String) : List Char :=
  '"' :: (s.toList.flatMap escape ++ ['"'])

def intText (n : Int) : List Char :=
  (if n < 0 then ['-'] else []) ++ Nat.toDigits 10 n.natAbs

def floatText (x : Float) : List Char :=
  (Decimal.Layout.json.finite? x).getD "null".toList

mutual

/-- The text of a value, before `rest`. -/
def printOnto (rest : List Char) : Json → List Char
  | .null => "null".toList ++ rest
  | .bool b => (if b then "true" else "false").toList ++ rest
  | .int n => intText n ++ rest
  | .float x => floatText x ++ rest
  | .string s => quoted s ++ rest
  | .array items => '[' :: printItems (']' :: rest) false items
  | .object members => '{' :: printMembers ('}' :: rest) false members

/-- Items parted by commas; the flag says that one stands before them. -/
def printItems (rest : List Char) (follows : Bool) : List Json → List Char
  | [] => rest
  | item :: items =>
    (if follows then [','] else []) ++ printOnto (printItems rest true items) item

def printMembers (rest : List Char) (follows : Bool) : List (String × Json) → List Char
  | [] => rest
  | (name, value) :: members =>
    (if follows then [','] else []) ++ quoted name ++
      ':' :: printOnto (printMembers rest true members) value

end

def print (value : Json) : String := String.ofList (printOnto [] value)

end VesselRelay.Json
