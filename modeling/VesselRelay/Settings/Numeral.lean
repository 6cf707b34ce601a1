import VesselRelay.Decimal.Numeral
import VesselRelay.Text.Hex

/-!
Numbers at the start of a text: blanks and a sign may come first, the longest row that makes a
number counts, and what follows it is passed over. Whole numbers are decimal; doubles may be
decimal, hexadecimal, infinite or not a number. A number that its type cannot hold is none, nor is a
double that is inexact for being tiny, unless it is so by a guard bit alone.
-/
namespace VesselRelay.Settings

def isSpace (c : Char) : Bool :=
  c = ' ' || c = '\t' || c = '\n' || c = '\x0b' || c = '\x0c' || c = '\r'

def isDigit (c : Char) : Bool := decide ('0' ≤ c ∧ c ≤ '9')

def hexDigit? (c : Char) : Option Nat :=
  if c.toNat < 128 then Hex.digit? (UInt8.ofNat c.toNat) else none

/-- The text after the blanks and the sign in front of a number, and whether the sign is a minus. -/
def signed (cs : List Char) : Bool × List Char :=
  match cs.dropWhile isSpace with
  | '-' :: rest => (true, rest)
  | '+' :: rest => (false, rest)
  | rest => (false, rest)

/-- The whole number at the start of a text, if 32 bits hold it. -/
def int? (cs : List Char) : Option Int :=
  let (minus, rest) := signed cs
  match rest.takeWhile isDigit with
  | [] => none
  | ds =>
    let value : Int := if minus then -(Decimal.ofDigits ds : Int) else Decimal.ofDigits ds
    if -2 ^ 31 ≤ value ∧ value < 2 ^ 31 then some value else none

/-- An exponent after its mark, with a sign that may be left out; without digits there is none. -/
def exponent (cs : List Char) : Int :=
  let (minus, rest) : Bool × List Char := match cs with
    | '-' :: rest => (true, rest)
    | '+' :: rest => (false, rest)
    | rest => (false, rest)
  let value : Int := Decimal.ofDigits (rest.takeWhile isDigit)
  if minus then -value else value

/-- The value of a row of hexadecimal digits. -/
def ofHexDigits (ds : List Char) : Nat :=
  ds.foldl (fun value d => 16 * value + (hexDigit? d).getD 0) 0

/-- A row of digits with a point in it somewhere or not at all: the digits before and after it, and
what follows. There is at least one digit. -/
def pointed? (digit : Char → Bool) (cs : List Char) : Option (List Char × List Char × List Char) :=
  let whole := cs.takeWhile digit
  match cs.dropWhile digit with
  | '.' :: rest =>
    let fraction := rest.takeWhile digit
    if whole.isEmpty && fraction.isEmpty then none
    else some (whole, fraction, rest.dropWhile digit)
  | rest => if whole.isEmpty then none else some (whole, [], rest)

/-- The magnitude of a numeral as a ratio, and whether its digits are hexadecimal. -/
structure Magnitude where
  numerator : Nat
  denominator : Nat
  hexadecimal : Bool

def Magnitude.zero : Magnitude := ⟨0, 1, false⟩

/-- The decimal number at the start of a text. -/
def decimal? (cs : List Char) : Option Magnitude := do
  let (whole, fraction, rest) ← pointed? isDigit cs
  let power : Int := match rest with
    | c :: rest => if c = 'e' || c = 'E' then exponent rest else 0
    | [] => 0
  let digits := Decimal.ofDigits (whole ++ fraction)
  let (n, d) := (Decimal.Scientific.mk digits (power - fraction.length)).ratio
  return ⟨n, d, false⟩

/-- A significand times a power of two, as a ratio. Far beyond the range of doubles a ratio of the
same fate stands for it. -/
def binaryRatio (significand : Nat) (power : Int) : Nat × Nat :=
  if significand = 0 then (0, 1)
  else if 2000 < power then (2 ^ 2000, 1)
  else if power + (Nat.log2 significand + 1) < -2000 then (1, 2 ^ 2000)
  else Binary64.scaled significand 1 power

/-- The hexadecimal number at the start of a text, after its mark. -/
def hexadecimal? (cs : List Char) : Option Magnitude := do
  let (whole, fraction, rest) ← pointed? (fun c => (hexDigit? c).isSome) cs
  let power : Int := match rest with
    | c :: rest => if c = 'p' || c = 'P' then exponent rest else 0
    | [] => 0
  let (n, d) := binaryRatio (ofHexDigits (whole ++ fraction)) (power - 4 * fraction.length)
  return ⟨n, d, true⟩

/-- The number at the start of a text. A mark without hexadecimal digits leaves its zero. -/
def magnitude? (cs : List Char) : Option Magnitude :=
  match cs with
  | '0' :: x :: rest =>
    if x = 'x' || x = 'X' then some ((hexadecimal? rest).getD .zero) else decimal? cs
  | cs => decimal? cs

/-- Whether a ratio, rounded to 53 bits without any limit below, stays under the least normal
double. -/
def tiny (n d : Nat) : Bool := decide (n * 2 ^ 1076 < d * (2 ^ 54 - 1))

/-- Whether a double is exactly a ratio. -/
def exact (x : Float) (n d : Nat) : Bool :=
  match Binary64.parts? x with
  | none => false
  | some p =>
    let (a, b) := Binary64.scaled p.significand 1 p.exponent
    a * d == n * b

/-- A magnitude as a ratio. Where it ends with the guard bit, the 54th, that bit is left out.
Decimals are told apart up to the 1076th, so a decimal numeral keeps a last bit below
`2 ^ (-1076)`. -/
def Magnitude.withoutGuard (m : Magnitude) : Nat × Nat :=
  let guard := Binary64.leadingBit m.numerator m.denominator - 53
  let (n, d) := Binary64.scaled m.numerator m.denominator (-guard)
  if n % d = 0 ∧ n / d % 2 = 1 ∧ (m.hexadecimal ∨ -1076 ≤ guard) then
    Binary64.scaled (n / d - 1) 1 guard
  else (m.numerator, m.denominator)

/-- The double nearest to a magnitude, if it is finite. A tiny magnitude has to be exactly a double,
a guard bit at its end aside. -/
def Magnitude.held? (m : Magnitude) : Option Float :=
  if tiny m.numerator m.denominator then
    let (n, d) := m.withoutGuard
    let x := Binary64.nearest n d
    if exact x n d then some x else none
  else
    let x := Binary64.nearest m.numerator m.denominator
    if x.isFinite then some x else none

/-- Whether a text starts with a word, in either case of its letters. -/
def startsWith (word : List Char) (cs : List Char) : Bool :=
  (cs.take word.length).map Char.toLower == word

/-- The double at the start of a text. -/
def real? (cs : List Char) : Option Float :=
  let (minus, rest) := signed cs
  if startsWith ['i', 'n', 'f'] rest then some (Binary64.withSign minus (1.0 / 0.0))
  else if startsWith ['n', 'a', 'n'] rest then some (0.0 / 0.0)
  else do
    let magnitude ← magnitude? rest
    return Binary64.withSign minus (← magnitude.held?)

end VesselRelay.Settings
