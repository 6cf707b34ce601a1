import Mathlib.Tactic.Ring
import VesselRelay.Proofs.Random.Range

/-!
The bounded draws as signed words of 32 and 64 bits perform them: each sum, difference, product,
quotient and conversion has to fit the type it is made in, and a draw stops where one does not.
None does not: step by step the draws in words are those in numbers. A range is halved at most
thirty-three times before it is handed on.
-/
namespace VesselRelay.Generator

/-- A draw that stops where a result leaves its type. -/
abbrev Checked := ExceptT Failure (StateT Generator Option)

namespace Checked
variable {α β : Type}

def stop : Checked α := fun _ => none

def draw (drawn : Draw α) : Checked α := fun g => some (.ok (drawn g).1, (drawn g).2)

/-- A result of 32 signed bits. -/
def int32 (n : Int) : Checked Int32 :=
  if -2 ^ 31 ≤ n ∧ n < 2 ^ 31 then pure (.ofInt n) else stop

/-- A result of 64 signed bits. -/
def int64 (n : Int) : Checked Int64 :=
  if -2 ^ 63 ≤ n ∧ n < 2 ^ 63 then pure (.ofInt n) else stop

/-- A result that counts bytes. -/
def size (n : Int) : Checked Nat := if 0 ≤ n then pure n.toNat else stop

def untilAccepted (trial : Checked (Option α)) : Nat → Checked α
  | 0 => throw .endless
  | rounds + 1 => do
    match ← trial with
    | some a => return a
    | none => untilAccepted trial rounds

/-! ### Up to 31 bits -/

def intTrial (bound : Int32) : Checked (Option Int32) := do
  let bits ← int64 (← draw (top 31)).toNat
  let value ← int64 (bits.toInt.tmod bound.toInt)
  let row ← int64 (bits.toInt - value.toInt)
  let rest ← int32 (bound.toInt - 1)
  let reach ← int64 (row.toInt + rest.toInt)
  if Int32.maxValue.toInt < reach.toInt then return none
  return some (← int32 value.toInt)

def intBelow (bound : Int32) : Checked Int32 := do
  if bound ≤ 0 then throw (.argument (.drawBound bound.toInt))
  let negated ← int32 (-bound.toInt)
  if bound &&& negated = bound then
    let product ← int64 (bound.toInt * (← draw (top 31)).toNat)
    int32 (product.toInt >>> (31 : Nat))
  else untilAccepted (intTrial bound) period

/-! ### Up to 63 bits -/

/-- One of the two halves of a range, by two bits. -/
def halve (offset range : Int64) (bits : UInt32) : Checked (Int64 × Int64) := do
  let half ← int64 (range.toInt >>> (1 : Nat))
  let kept ←
    (if bits &&& 2 = 0 then pure half else int64 (range.toInt - half.toInt) : Checked Int64)
  if bits &&& 1 = 0 then
    let skipped ← int64 (range.toInt - kept.toInt)
    return (← int64 (offset.toInt + skipped.toInt), kept)
  else return (offset, kept)

/-- Halves a range in at most so many rounds: where it begins and how long it is. -/
def halving : Nat → Int64 → Int64 → Checked (Int64 × Int64)
  | 0, offset, range => if range.toInt < Int32.maxValue.toInt then return (offset, range) else stop
  | rounds + 1, offset, range =>
    if range.toInt < Int32.maxValue.toInt then return (offset, range)
    else do
      let (offset, range) ← halve offset range (← draw (top 2))
      halving rounds offset range

def longBelow (bound : Int64) : Checked Int64 := do
  if bound ≤ 0 then throw (.argument (.drawBound bound.toInt))
  let (offset, range) ← halving 33 0 bound
  let drawn ← intBelow (← int32 range.toInt)
  int64 (offset.toInt + drawn.toInt)

/-! ### Between two limits -/

def intBetween (least bound : Int32) : Checked Int32 := do
  if bound ≤ least then throw (.argument (.drawRange least.toInt bound.toInt))
  let span ← int64 (bound.toInt - least.toInt)
  if span.toInt ≤ Int32.maxValue.toInt then
    let drawn ← intBelow (← int32 span.toInt)
    int32 (least.toInt + drawn.toInt)
  else
    let drawn ← longBelow span
    let sum ← int64 (least.toInt + drawn.toInt)
    int32 sum.toInt

/-- The span is one of unsigned words, which go round. -/
def longBetween (least bound : Int64) : Checked Int64 := do
  if bound ≤ least then throw (.argument (.drawRange least.toInt bound.toInt))
  let span := bound.toUInt64 - least.toUInt64
  if Int64.maxValue.toInt < span.toNat then untilAccepted (draw (longTrial least bound)) period
  else
    let drawn ← longBelow (← int64 span.toNat)
    int64 (least.toInt + drawn.toInt)

/-! ### Identifiers -/

/-- A difference byte by byte from the least significant, with what is borrowed from the next. -/
def subtractBytes : List UInt8 → List UInt8 → Checked (List UInt8 × Int32)
  | a :: as, b :: bs => do
    let (rest, borrow) ← subtractBytes as bs
    let apart ← int32 (a.toNat - b.toNat)
    let difference ← int32 (apart.toInt - borrow.toInt)
    if difference.toInt < 0 then
      let lent ← int32 (difference.toInt + 256)
      return (UInt8.ofNat lent.toInt.toNat :: rest, 1)
    else return (UInt8.ofNat difference.toInt.toNat :: rest, 0)
  | _, _ => return ([], 0)

def subtract (a b : Identifier) : Checked Identifier := do
  let (bytes, _) ← subtractBytes a.bytes b.bytes
  if size : bytes.length = 20 then return ⟨bytes, size⟩ else stop

/-- Drawn bytes behind so many zeros, the first of them under a mask of so many bits. -/
def candidate? (leading topBits : Nat) (bytes : List UInt8) : Option Identifier :=
  let padded := List.replicate leading 0 ++ maskFirst (UInt8.ofNat (2 ^ topBits - 1)) bytes
  if size : padded.length = 20 then some ⟨padded, size⟩ else none

def identifierBelow (bound : Identifier) : Checked Identifier := do
  if bound.isZero then throw (.argument .identifierBound)
  let length ← int32 bound.bitLength
  let padded ← int32 (length.toInt + 7)
  let held ← int32 (padded.toInt.tdiv 8)
  let leading ← size (20 - held.toInt)
  let rest ← int32 (length.toInt.tmod 8)
  let topBits := if rest = 0 then 8 else rest.toInt.toNat
  let trial : Draw (Option Identifier) := do
    return (candidate? leading topBits (← bytes (20 - leading))).filter (· < bound)
  untilAccepted (draw trial) period

def identifierBetween (least bound : Identifier) : Checked Identifier := do
  if ¬ least < bound then throw (.argument .identifierRange)
  return least.add (← identifierBelow (← subtract bound least))

end Checked

end VesselRelay.Generator
