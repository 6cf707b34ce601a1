import VesselRelay.Geo.Area
import VesselRelay.Random.Bounded
import VesselRelay.Random.Real

/-!
Random positions in areas. A disc is drawn from evenly in its plane, a rectangle evenly in latitude
and in longitude, a polygon by trial in its box. A union draws a member first, each as likely as
another whatever its size.
-/
namespace VesselRelay
open Trigonometry (sin cos)
open Generator (Attempt double doubleBelow doubleBetween)

/-- A draw between two numbers; a range without width is its one number and takes no draw. -/
def uniformBetween (least bound : Float) : Attempt Float :=
  if least < bound then doubleBetween least bound else pure least

section
variable [Trigonometry]

def Circle.sample (c : Circle) : Attempt Position := do
  let distance := c.radius * (← double).sqrt
  let angle ← doubleBelow (2.0 * pi)
  ExceptT.mk (pure ((LocalFrame.anchored c.center).toPosition
    ⟨distance * cos angle, distance * sin angle⟩))

end

/-- A position between two latitudes and two longitudes, the latitude drawn first. -/
def sampleSpan (south north west east : Float) : Attempt Position := do
  let latitude ← uniformBetween south north
  let longitude ← uniformBetween west east
  ExceptT.mk (pure (Position.make latitude longitude))

def Rectangle.sample (r : Rectangle) : Attempt Position :=
  sampleSpan r.southEast.latitude r.northWest.latitude r.northWest.longitude r.southEast.longitude

/-- How often a polygon is tried before it counts as enclosing nothing. -/
def polygonTrials : Nat := 100000

def Polygon.sampleWithin (g : Polygon) (box : Box) : Nat → Attempt Position
  | 0 => throw (.argument .noInterior)
  | trials + 1 => do
    let p ← sampleSpan box.south box.north box.west box.east
    if g.contains p then return p else g.sampleWithin box trials

def Polygon.sample (g : Polygon) : Attempt Position := g.sampleWithin g.box polygonTrials

section
variable [Trigonometry]

def Shape.sample : Shape → Attempt Position
  | .circle c => c.sample
  | .rectangle r => r.sample
  | .polygon g => g.sample

namespace Area

mutual

def sample : Area → Attempt Position
  | .shape s => s.sample
  | .union [] => throw (.argument .nothingToSample)
  | .union (a :: rest) => do
    let index ← Generator.intBelow (Int32.ofNat (rest.length + 1))
    sampleMember (a :: rest) index.toInt.toNat

/-- Draws from the member at an index. -/
def sampleMember : List Area → Nat → Attempt Position
  | [], _ => throw (.argument .nothingToSample)
  | a :: _, 0 => a.sample
  | _ :: rest, n + 1 => sampleMember rest n

end

end Area
end
end VesselRelay
