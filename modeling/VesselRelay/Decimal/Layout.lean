import VesselRelay.Decimal.Shortest

/-!
How chosen digits are laid out: positional between two powers of ten, in scientific form outside
them. Two layouts share everything but the upper limit and the mark of a whole number.
-/
namespace VesselRelay.Decimal
open Binary64 (Parts parts? negative)

/-- A first digit at `10 ^ (-4)` or above and below `10 ^ positionalBelow` is written positionally;
a whole number written so ends in `.0` where `wholeMark` says so. -/
structure Layout where
  positionalBelow : Int
  wholeMark : Bool
  deriving DecidableEq, Repr

/-- The layout of messages and plain text. -/
def Layout.text : Layout := ⟨16, false⟩

/-- The layout of a number in JSON text. -/
def Layout.json : Layout := ⟨15, true⟩

def zeros (n : Nat) : List Char := List.replicate n '0'

/-- A signed exponent of at least two digits. -/
def exponentText (e : Int) : List Char :=
  let ds := Nat.toDigits 10 e.natAbs
  (if e < 0 then '-' else '+') :: (zeros (2 - ds.length) ++ ds)

def scientificText (ds : List Char) (e : Int) : List Char :=
  match ds with
  | [] => []
  | d :: [] => d :: 'e' :: exponentText e
  | d :: rest => d :: '.' :: (rest ++ 'e' :: exponentText e)

def Layout.positional (layout : Layout) (ds : List Char) : Int → List Char
  | .negSucc k => '0' :: '.' :: (zeros k ++ ds)
  | .ofNat k =>
    if ds.length ≤ k + 1 then
      ds ++ zeros (k + 1 - ds.length) ++ (if layout.wholeMark then ['.', '0'] else [])
    else ds.take (k + 1) ++ '.' :: ds.drop (k + 1)

def Layout.magnitude (layout : Layout) (x : Scientific) : List Char :=
  let ds := Nat.toDigits 10 x.digits
  let lead := x.exponent + ds.length - 1
  if -4 ≤ lead ∧ lead < layout.positionalBelow then layout.positional ds lead
  else scientificText ds lead

/-- The text of a finite double; an infinity or not-a-number has none. -/
def Layout.finite? (layout : Layout) (x : Float) : Option (List Char) :=
  (parts? x).map fun p =>
    (if negative x then ['-'] else []) ++ layout.magnitude (shortest p)

/-- A double in plain text. Not-a-number carries no sign. -/
def text (x : Float) : String :=
  match Layout.text.finite? x with
  | some cs => String.ofList cs
  | none => if x.isNaN then "nan" else if x < 0.0 then "-inf" else "inf"

end VesselRelay.Decimal
