import VesselRelay.Power

/-!
A finite double is a sign, a whole significand and a power of two. This module takes doubles apart
and rounds exact ratios back to the nearest one; whole numbers cross over in both directions through
it.
-/
namespace VesselRelay.Binary64

/-- The magnitude `significand * 2 ^ exponent` of a finite double. -/
structure Parts where
  significand : Nat
  exponent : Int
  deriving DecidableEq, Repr

/-- The sign bit; it is set for negative zero. -/
def negative (x : Float) : Bool :=
  decide (2 ^ 63 ≤ x.toBits.toNat)

/-- The magnitude of a finite double; infinities and not-a-number have none. Below the least normal
double the leading bit is no longer implied. -/
def parts? (x : Float) : Option Parts :=
  let bits : Nat := x.toBits.toNat
  let fraction : Nat := bits % 2 ^ 52
  let biased : Nat := bits / 2 ^ 52 % 2 ^ 11
  if biased = 2047 then none
  else if biased = 0 then some ⟨fraction, -1074⟩
  else some ⟨2 ^ 52 + fraction, (biased : Int) - 1075⟩

/-- The ratio `numerator / denominator` scaled by a power of two, as a new ratio. -/
def scaled (numerator denominator : Nat) : Int → Nat × Nat
  | .ofNat k => (numerator * 2 ^ k, denominator)
  | .negSucc k => (numerator, denominator * 2 ^ (k + 1))

/-- The exponent of the leading bit of a ratio above zero. -/
def leadingBit (numerator denominator : Nat) : Int :=
  let guess : Int := Nat.log2 numerator - Nat.log2 denominator
  let (n, d) := scaled numerator denominator (-guess)
  if n < d then guess - 1 else guess

/-- The exponent of the last significand bit that a double near the ratio keeps: 53 bits are kept,
and never a bit below `2 ^ (-1074)`. -/
def lastBit (numerator denominator : Nat) : Int :=
  max (-1074) (leadingBit numerator denominator - 52)

/-- A quotient rounded to a whole number; a half goes to the even neighbour. -/
def roundDiv (numerator denominator : Nat) : Nat :=
  let whole := numerator / denominator
  let rest := numerator % denominator
  if denominator < 2 * rest ∨ 2 * rest = denominator ∧ whole % 2 = 1 then whole + 1 else whole

/-- The bits of the double nearest to a ratio, a tie going to the even significand. From half a unit
above the largest finite double on the answer is infinity. -/
def nearestBits (numerator denominator : Nat) : Nat :=
  if numerator = 0 then 0
  else
    let last := lastBit numerator denominator
    let (n, d) := scaled numerator denominator (-last)
    min ((last + 1074).toNat * 2 ^ 52 + roundDiv n d) (2047 * 2 ^ 52)

def nearest (numerator denominator : Nat) : Float :=
  Float.ofBits (nearestBits numerator denominator).toUInt64

def withSign (negative : Bool) (magnitude : Float) : Float :=
  if negative then -magnitude else magnitude

/-- The double nearest to a whole number; zero is positive zero. -/
def ofInt (n : Int) : Float :=
  withSign (decide (n < 0)) (nearest n.natAbs 1)

def ofInt64 (n : Int64) : Float := ofInt n.toInt

/-- The whole part of a magnitude. -/
def Parts.floor (p : Parts) : Nat :=
  let (n, d) := scaled p.significand 1 p.exponent
  n / d

/-- A double cut toward zero to 64 signed bits. What does not fit, not-a-number included, becomes
the least of them. -/
def truncate (x : Float) : Int64 :=
  match parts? x with
  | none => Int64.minValue
  | some p =>
    if p.floor < 2 ^ 63 then
      if negative x then -Int64.ofNat p.floor else Int64.ofNat p.floor
    else Int64.minValue

end VesselRelay.Binary64
