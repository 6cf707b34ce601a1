import VesselRelay.Binary64.Parts
import VesselRelay.Random.Generator
import VesselRelay.Trigonometry

/-!
Doubles drawn uniformly, and normal deviates by the polar method, which gives two at a time and
keeps the second for the next draw.
-/
namespace VesselRelay.Generator

/-- `2 ^ (-53)`, the step between uniform doubles. -/
def step : Float := 1.0 / 9007199254740992.0

/-- A double from zero up to one, of 53 bits: 26 of a first word and 27 of a second. -/
def double : Draw Float := do
  let high ← top 26
  let low ← top 27
  return ((high.toUInt64 <<< 27) + low.toUInt64).toFloat * step

def doubleBelow (bound : Float) : Attempt Float := do
  if ¬ 0.0 < bound then throw (.argument (.realBound bound))
  return (← double) * bound

def doubleBetween (least bound : Float) : Attempt Float := do
  if ¬ least < bound then throw (.argument (.realRange least bound))
  return (← double) * (bound - least) + least

/-- A point of the square around the unit disc, with the square of its distance from the middle.
Points outside the disc and the middle itself are rejected. -/
def discTrial : Draw (Option (Float × Float × Float)) := do
  let v1 := 2.0 * (← double) - 1.0
  let v2 := 2.0 * (← double) - 1.0
  let s := v1 * v1 + v2 * v2
  return if 1.0 ≤ s || s == 0.0 then none else some (v1, v2, s)

def gaussian [Trigonometry] : Attempt Float := do
  let g ← get
  match g.spare with
  | some x =>
    set { g with spare := none }
    return x
  | none =>
    let (v1, v2, s) ← untilAccepted discTrial period
    let norm := (-2.0 * Trigonometry.log s / s).sqrt
    modify fun g => { g with spare := some (v2 * norm) }
    return v1 * norm

end VesselRelay.Generator
