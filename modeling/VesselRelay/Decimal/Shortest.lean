import VesselRelay.Binary64.Parts

/-!
The fewest decimal digits that read back as a given double, and among those the nearest to it.
-/
namespace VesselRelay.Decimal
open Binary64 (Parts)

/-- The number `digits * 10 ^ exponent`. -/
structure Scientific where
  digits : Nat
  exponent : Int
  deriving DecidableEq, Repr

/-- A ratio divided by a power of ten, as a new ratio. -/
def perTen (numerator denominator : Nat) : Int → Nat × Nat
  | .ofNat k => (numerator, denominator * 10 ^ k)
  | .negSucc k => (numerator * 10 ^ (k + 1), denominator)

/-- The magnitude in steps of `10 ^ k`, as a ratio. -/
def steps (p : Parts) (k : Int) : Nat × Nat :=
  let (n, d) := Binary64.scaled p.significand 1 p.exponent
  perTen n d k

/-- How far below its magnitude a double still reads back, in quarters of its last bit. The next
smaller double is half as far away where the significand is the least of its binade. -/
def quartersBelow (p : Parts) : Nat :=
  if p.significand = 2 ^ 52 ∧ -1074 < p.exponent then 1 else 2

/-- Whether `c * 10 ^ k` is rounded to this magnitude. The ends of the interval belong to it when
the significand is even. -/
def readsBack (p : Parts) (c : Nat) (k : Int) : Bool :=
  let (one, den) := perTen 1 1 (-k)
  let (a, b) := Binary64.scaled (c * one) den (2 - p.exponent)
  let low := (4 * p.significand - quartersBelow p) * b
  let high := (4 * p.significand + 2) * b
  if p.significand % 2 = 0 then decide (low ≤ a ∧ a ≤ high) else decide (low < a ∧ a < high)

/-- Of the two neighbours of a magnitude on the grid of step `10 ^ k`, the one that reads back; the
nearer if both do, and the even one if they are equally near. -/
def onGrid? (p : Parts) (k : Int) : Option Nat :=
  let (n, d) := steps p k
  let below := n / d
  let rest := n % d
  match readsBack p below k, readsBack p (below + 1) k with
  | false, false => none
  | true, false => some below
  | false, true => some (below + 1)
  | true, true =>
    if 2 * rest < d ∨ 2 * rest = d ∧ below % 2 = 0 then some below else some (below + 1)

/-- The power of ten of the first digit of a positive magnitude. -/
def leadingExponent (p : Parts) : Int :=
  let guess := ((Nat.log2 p.significand : Int) + p.exponent) * 30103 / 100000
  let (n, d) := steps p guess
  if n < d then guess - 1 else if 10 * d ≤ n then guess + 1 else guess

/-- Digits without the zeros at their end. -/
def Scientific.trim : Nat → Scientific → Scientific
  | 0, x => x
  | fuel + 1, x =>
    if x.digits ≠ 0 ∧ x.digits % 10 = 0 then trim fuel ⟨x.digits / 10, x.exponent + 1⟩ else x

/-- One digit is tried first, then two, up to seventeen, which always suffice. -/
def shortest (p : Parts) : Scientific :=
  if p.significand = 0 then ⟨0, 0⟩
  else
    let lead := leadingExponent p
    let attempt (n : Nat) : Option Scientific :=
      (onGrid? p (lead - n)).map fun c => ⟨c, lead - n⟩
    let found := ((List.range 17).findSome? attempt).getD
      ⟨(steps p (lead - 16)).1 / (steps p (lead - 16)).2, lead - 16⟩
    found.trim 17

end VesselRelay.Decimal
