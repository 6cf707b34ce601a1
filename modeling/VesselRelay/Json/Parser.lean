import VesselRelay.Decimal.Numeral
import VesselRelay.Failure
import VesselRelay.Text.Hex
import VesselRelay.Json.Basic

/-!
Reading JSON text, strictly: one value between blanks, no comments, no trailing commas, surrogate
escapes only in pairs. The first fault from the left decides; a number beyond every double is a
fault of its own kind. Texts are rows of Unicode characters: bytes that are no UTF-8 are not texts
here.
-/
namespace VesselRelay.Json

/-- What a step of reading gives: a value and the text after it. -/
abbrev Taken (α : Type) := α × List Char

/-- A step of reading, which may fail. -/
abbrev Step := Except Failure

def malformed {α : Type} : Except Failure α := .error (.decode .malformed)

def isBlank (c : Char) : Bool := c = ' ' || c = '\t' || c = '\n' || c = '\r'

def skipBlanks (cs : List Char) : List Char := cs.dropWhile isBlank

def isDigit (c : Char) : Bool := decide ('0' ≤ c ∧ c ≤ '9')

/-! ### Numbers -/

/-- The parts of a number as it is written. -/
structure Numeral where
  negative : Bool
  whole : List Char
  fraction : Option (List Char)
  exponent : Option (Bool × List Char)
  deriving DecidableEq, Repr

/-- A nonempty row of digits. -/
def digits (cs : List Char) : Step (Taken (List Char)) :=
  match cs.takeWhile isDigit with
  | [] => malformed
  | ds => .ok (ds, cs.dropWhile isDigit)

/-- Digits before the point: a zero stands alone. -/
def wholePart : List Char → Step (Taken (List Char))
  | '0' :: rest => .ok (['0'], rest)
  | cs => digits cs

def fractionPart : List Char → Step (Taken (Option (List Char)))
  | '.' :: rest => (digits rest).map fun (ds, rest) => (some ds, rest)
  | cs => .ok (none, cs)

/-- An exponent mark, a sign that may be left out, and digits. -/
def exponentPart : List Char → Step (Taken (Option (Bool × List Char)))
  | c :: rest =>
    if c = 'e' || c = 'E' then
      match rest with
      | '-' :: rest => (digits rest).map fun (ds, rest) => (some (true, ds), rest)
      | '+' :: rest => (digits rest).map fun (ds, rest) => (some (false, ds), rest)
      | rest => (digits rest).map fun (ds, rest) => (some (false, ds), rest)
    else .ok (none, c :: rest)
  | [] => .ok (none, [])

def numeral (cs : List Char) : Step (Taken Numeral) := do
  let (minus, cs) := match cs with
    | '-' :: rest => (true, rest)
    | cs => (false, cs)
  let (whole, cs) ← wholePart cs
  let (fraction, cs) ← fractionPart cs
  let (exponent, cs) ← exponentPart cs
  return (⟨minus, whole, fraction, exponent⟩, cs)

/-- The magnitude that a numeral denotes. -/
def Numeral.magnitude (n : Numeral) : Decimal.Scientific :=
  let fraction := n.fraction.getD []
  let exponent : Int := match n.exponent with
    | none => 0
    | some (true, ds) => -(Decimal.ofDigits ds : Int)
    | some (false, ds) => Decimal.ofDigits ds
  ⟨Decimal.ofDigits (n.whole ++ fraction), exponent - fraction.length⟩

def Numeral.float (n : Numeral) : Except Failure Json :=
  let x := n.magnitude.nearest
  if x.isFinite then .ok (.float (Binary64.withSign n.negative x)) else .error .numberRange

/-- Without fraction and exponent a numeral is a whole number as long as 64 bits hold it, and a
double otherwise. -/
def Numeral.value (n : Numeral) : Except Failure Json :=
  if n.fraction.isNone && n.exponent.isNone then
    let m := Decimal.ofDigits n.whole
    if n.negative then
      if m ≤ 2 ^ 63 then .ok (.int (-(m : Int))) else n.float
    else if m < 2 ^ 64 then .ok (.int m) else n.float
  else n.float

def number (cs : List Char) : Step (Taken Json) := do
  let (n, rest) ← numeral cs
  return (← n.value, rest)

/-! ### Strings -/

def hexDigit? (c : Char) : Option Nat :=
  if c.toNat < 128 then Hex.digit? (UInt8.ofNat c.toNat) else none

/-- The unit of a four-digit escape. -/
def unit? : List Char → Option (Nat × List Char)
  | a :: b :: c :: d :: rest =>
    match hexDigit? a, hexDigit? b, hexDigit? c, hexDigit? d with
    | some a, some b, some c, some d => some (4096 * a + 256 * b + 16 * c + d, rest)
    | _, _, _, _ => none
  | _ => none

/-- The character of an escape, after its backslash. A high surrogate needs a low one right behind
it, and a low one never comes first. -/
def escape? : List Char → Option (Char × List Char)
  | '"' :: rest => some ('"', rest)
  | '\\' :: rest => some ('\\', rest)
  | '/' :: rest => some ('/', rest)
  | 'b' :: rest => some ('\x08', rest)
  | 'f' :: rest => some ('\x0c', rest)
  | 'n' :: rest => some ('\n', rest)
  | 'r' :: rest => some ('\r', rest)
  | 't' :: rest => some ('\t', rest)
  | 'u' :: rest =>
    match unit? rest with
    | none => none
    | some (high, rest) =>
      if 0xD800 ≤ high ∧ high < 0xDC00 then
        match rest with
        | '\\' :: 'u' :: rest =>
          match unit? rest with
          | some (low, rest) =>
            if 0xDC00 ≤ low ∧ low < 0xE000 then
              some (Char.ofNat (0x10000 + (high - 0xD800) * 1024 + (low - 0xDC00)), rest)
            else none
          | none => none
        | _ => none
      else if 0xDC00 ≤ high ∧ high < 0xE000 then none
      else some (Char.ofNat high, rest)
  | _ => none

/-- The rest of a string, after its opening quote. Each round takes a character or an escape. -/
def stringBody : Nat → List Char → Step (Taken (List Char))
  | 0, _ => malformed
  | _ + 1, [] => malformed
  | fuel + 1, c :: cs =>
    if c = '"' then .ok ([], cs)
    else if c = '\\' then
      match escape? cs with
      | none => malformed
      | some (c, rest) => (stringBody fuel rest).map fun (body, rest) => (c :: body, rest)
    else if c.toNat < 32 then malformed
    else (stringBody fuel cs).map fun (body, rest) => (c :: body, rest)

def stringToken (cs : List Char) : Step (Taken String) :=
  (stringBody cs.length cs).map fun (body, rest) => (String.ofList body, rest)

/-! ### Values -/

/-- Takes a keyword off the front of the text. -/
def keyword (word : List Char) (value : Json) (cs : List Char) : Step (Taken Json) :=
  if word.isPrefixOf cs then .ok (value, cs.drop word.length) else malformed

mutual

/-- A value, with blanks before it. Every call hands on less fuel; two units for each character are
enough. -/
def value : Nat → List Char → Step (Taken Json)
  | 0, _ => malformed
  | fuel + 1, cs =>
    match skipBlanks cs with
    | [] => malformed
    | '"' :: rest => (stringToken rest).map fun (s, rest) => (.string s, rest)
    | '[' :: rest =>
      match skipBlanks rest with
      | ']' :: rest => .ok (.array [], rest)
      | rest => (items fuel rest).map fun (items, rest) => (.array items, rest)
    | '{' :: rest =>
      match skipBlanks rest with
      | '}' :: rest => .ok (.object [], rest)
      | rest => (members fuel rest).map fun (pairs, rest) => (record pairs, rest)
    | 't' :: rest => keyword ['t', 'r', 'u', 'e'] (.bool true) ('t' :: rest)
    | 'f' :: rest => keyword ['f', 'a', 'l', 's', 'e'] (.bool false) ('f' :: rest)
    | 'n' :: rest => keyword ['n', 'u', 'l', 'l'] .null ('n' :: rest)
    | cs => number cs

/-- The items of a list that is not empty, up to its bracket. -/
def items : Nat → List Char → Step (Taken (List Json))
  | 0, _ => malformed
  | fuel + 1, cs => do
    let (item, rest) ← value fuel cs
    match skipBlanks rest with
    | ',' :: rest => (items fuel rest).map fun (others, rest) => (item :: others, rest)
    | ']' :: rest => return ([item], rest)
    | _ => malformed

/-- The members of an object that is not empty, up to its brace. -/
def members : Nat → List Char → Step (Taken (List (String × Json)))
  | 0, _ => malformed
  | fuel + 1, cs =>
    match skipBlanks cs with
    | '"' :: rest => do
      let (name, rest) ← stringToken rest
      match skipBlanks rest with
      | ':' :: rest =>
        let (held, rest) ← value fuel rest
        match skipBlanks rest with
        | ',' :: rest =>
          (members fuel rest).map fun (others, rest) => ((name, held) :: others, rest)
        | '}' :: rest => return ([(name, held)], rest)
        | _ => malformed
      | _ => malformed
    | _ => malformed

end

/-- Whether nothing but blanks is left of a text. A null character ends the text, whatever stands
behind it. -/
def ended (cs : List Char) : Bool :=
  match skipBlanks cs with
  | [] => true
  | c :: _ => c = '\x00'

/-- The value that a text holds. A byte order mark in front of it is passed over. -/
def parse (text : String) : Except Failure Json := do
  let cs := match text.toList with
    | '\uFEFF' :: rest => rest
    | cs => cs
  let (result, rest) ← value (2 * cs.length + 1) cs
  if ended rest then return result else malformed

end VesselRelay.Json
