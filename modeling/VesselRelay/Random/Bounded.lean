import VesselRelay.Random.Generator

/-!
Whole numbers drawn uniformly from a range. A draw of 31 bits is cut into rows as long as the bound,
and a draw from the last, incomplete row is rejected. A long range is halved at random until it
fits.
-/
namespace VesselRelay.Generator

/-! ### Up to 31 bits -/

def isPowerOfTwo (n : Nat) : Bool := n != 0 && n &&& (n - 1) == 0

/-- What 31 bits make of a bound: the high bits where the bound is a power of two, and otherwise the
remainder, unless the row that the bits fall into is cut short. -/
def accept (bound bits : Nat) : Option Nat :=
  if isPowerOfTwo bound then some ((bound * bits) >>> 31)
  else
    let value := bits % bound
    if bits - value + (bound - 1) ≤ 2 ^ 31 - 1 then some value else none

def trial (bound : Nat) : Draw (Option Nat) := do
  return accept bound (← top 31).toNat

/-- A number below a bound from 1 to `2 ^ 31 - 1`. -/
def below (bound : Nat) : Attempt Nat := untilAccepted (trial bound) period

def int : Draw Int32 := do
  return (← word).toInt32

def intBelow (bound : Int32) : Attempt Int32 := do
  if bound ≤ 0 then throw (.argument (.drawBound bound.toInt))
  return Int32.ofNat (← below bound.toInt.toNat)

/-! ### Up to 63 bits -/

/-- A range found by halving: where it begins and how long it is. -/
structure Stretch where
  offset : Nat
  length : Nat
  deriving DecidableEq, Repr

/-- One of the two halves of a stretch, by two bits. The high one chooses the shorter or the longer
half, the low one whether it is taken from the far end. -/
def Stretch.halve (s : Stretch) (bits : Nat) : Stretch :=
  let half := s.length / 2
  let kept := if bits / 2 % 2 = 0 then half else s.length - half
  ⟨if bits % 2 = 0 then s.offset + (s.length - kept) else s.offset, kept⟩

/-- Stretches shorter than this are drawn from directly. -/
def shortLength : Nat := 2 ^ 31 - 1

theorem Stretch.halve_shorter (s : Stretch) (bits : Nat) (long : ¬ s.length < shortLength) :
    (s.halve bits).length < s.length := by
  have two : 2 ≤ s.length := by unfold shortLength at long; omega
  simp only [Stretch.halve]
  split <;> omega

def shorten (s : Stretch) : Draw Stretch :=
  if _long : s.length < shortLength then pure s
  else fun g =>
    let (bits, g) := top 2 g
    shorten (s.halve bits.toNat) g
termination_by s.length
decreasing_by exact s.halve_shorter _ _long

/-- A number below any positive bound. -/
def belowLong (bound : Nat) : Attempt Nat := do
  let s ← shorten ⟨0, bound⟩
  return s.offset + (← below s.length)

def long : Draw Int64 := do
  let high ← word
  let low ← word
  return ((high.toUInt64 <<< 32) ||| low.toUInt64).toInt64

def longBelow (bound : Int64) : Attempt Int64 := do
  if bound ≤ 0 then throw (.argument (.drawBound bound.toInt))
  return Int64.ofNat (← belowLong bound.toInt.toNat)

/-! ### Between two limits -/

/-- The limit may lie further away than 31 bits reach. -/
def intBetween (least bound : Int32) : Attempt Int32 := do
  if bound ≤ least then throw (.argument (.drawRange least.toInt bound.toInt))
  let span := (bound.toInt - least.toInt).toNat
  let drawn ← if span < 2 ^ 31 then below span else belowLong span
  return Int32.ofInt (least.toInt + drawn)

/-- A whole draw of 64 bits, accepted within the limits. -/
def longTrial (least bound : Int64) : Draw (Option Int64) := do
  let candidate ← long
  return if least ≤ candidate ∧ candidate < bound then some candidate else none

/-- A range of more than 63 bits is met by more than half of all words, and is drawn by trial. -/
def longBetween (least bound : Int64) : Attempt Int64 := do
  if bound ≤ least then throw (.argument (.drawRange least.toInt bound.toInt))
  let span := (bound.toInt - least.toInt).toNat
  if span < 2 ^ 63 then return Int64.ofInt (least.toInt + (← belowLong span))
  else untilAccepted (longTrial least bound) period

end VesselRelay.Generator
