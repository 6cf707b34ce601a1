import VesselRelay.Binary64.Order
import VesselRelay.Binary64.Remainder

/-!
The length of a planar vector without overflow or underflow on the way: the legs are scaled toward
one, the root is taken, and the square that it misses is added back to first order.
-/
namespace VesselRelay.Binary64

/-- The root of the two squares with one correction step, for legs whose squares neither overflow
nor vanish and of which the second is not the longer. -/
def correctedRoot (long short : Float) : Float :=
  let root := (long * long + short * short).sqrt
  if root ≤ 2.0 * short then
    let delta := root - short
    let t1 := long * (2.0 * delta - long)
    let t2 := (delta - 2.0 * (long - short)) * delta
    root - (t1 + t2) / (2.0 * root)
  else
    let delta := root - long
    let t1 := 2.0 * delta * (long - 2.0 * short)
    let t2 := (4.0 * delta - short) * short + delta * delta
    root - (t1 + t2) / (2.0 * root)

/-- Legs above this bound are scaled down. -/
def hugeLeg : Float := Float.ofBits 0x5FE0000000000000

/-- Short legs below this bound are scaled up. -/
def tinyLeg : Float := Float.ofBits 0x2340000000000000

/-- A short leg of at most this share of the long one does not move the root. -/
def negligibleShare : Float := Float.ofBits 0x3C90000000000000

/-- The factor that brings huge legs down, and tiny ones up when divided by. -/
def legScale : Float := Float.ofBits 0x1A70000000000000

/-- An infinite leg makes the length infinite, whatever the other leg is. -/
def hypotenuse (x y : Float) : Float :=
  if x.isFinite && y.isFinite then
    let a := x.abs
    let b := y.abs
    let long := if a < b then b else a
    let short := if a < b then a else b
    if hugeLeg < long then
      if short ≤ long * negligibleShare then long + short
      else correctedRoot (long * legScale) (short * legScale) / legScale
    else if short < tinyLeg then
      if long ≥ short / negligibleShare then long + short
      else correctedRoot (long / legScale) (short / legScale) * legScale
    else if short ≤ long * negligibleShare then long + short
    else correctedRoot long short
  else if x.isInf || y.isInf then 1.0 / 0.0
  else undefined

end VesselRelay.Binary64
