import VesselRelay.Geo.LocalFrame

/-!
A fix is a position with the time at which it held, in milliseconds of the epoch. Dead reckoning
sails a constant course from a fix for whole seconds; interpolation goes straight from one fix to a
later one. Times are 64-bit words, and so is the difference of two.
-/
namespace VesselRelay
open Trigonometry (sin cos)

structure Fix where
  position : Position
  time : Int64
  deriving DecidableEq

namespace Fix

instance : BEq Fix := ⟨fun a b => a.position == b.position && a.time == b.time⟩

def text (fix : Fix) : String :=
  "(" ++ Decimal.text fix.position.latitude ++ ", " ++ Decimal.text fix.position.longitude
    ++ ", time=" ++ toString fix.time ++ ")"

/-- Metres per second in one knot. -/
def knot : Float := 0.5144

/-- The whole seconds from a fix to a time, the rest cut off. -/
def elapsedSeconds (fix : Fix) (time : Int64) : Int64 := (time - fix.time) / 1000

/-- The point that a number of seconds at a course and a speed reaches from a point of the plane. -/
def sail [Trigonometry] (start : PlanarPoint) (course knots : Float) (seconds : Int64) :
    PlanarPoint :=
  let distance := Binary64.ofInt64 seconds * knots * knot
  let angle := radians (compassToPlanar course)
  ⟨start.x + cos angle * distance, start.y + sin angle * distance⟩

/-- The fix that dead reckoning gives for a time. The time is not before the fix. -/
def extrapolate [Trigonometry] (fix : Fix) (course knots : Float) (time : Int64) :
    Except Failure Fix := do
  if time < fix.time then throw (.argument (.beforeFix time fix.time))
  let frame := LocalFrame.anchored fix.position
  let start := frame.toPlanar fix.position
  let position ← frame.toPosition (sail start course knots (fix.elapsedSeconds time))
  return ⟨position, time⟩

/-- The ordinate at `x` of the line through two points. -/
def onLine (y1 : Float) (x1 : Int64) (y2 : Float) (x2 x : Int64) : Float :=
  y1 + (y2 - y1) / Binary64.ofInt64 (x2 - x1) * Binary64.ofInt64 (x - x1)

/-- The fix at a time between two fixes. The three times are in order; fixes are never exchanged. -/
def interpolate (earlier later : Fix) (time : Int64) : Except Failure Fix := do
  if later.time < earlier.time then throw (.argument (.fixesReversed earlier.time later.time))
  if time < earlier.time then throw (.argument (.beforeEarlier time earlier.time))
  if later.time < time then throw (.argument (.afterLater time later.time))
  if later.time = earlier.time then return ⟨earlier.position, time⟩
  let position ← Position.make
    (onLine earlier.position.latitude earlier.time later.position.latitude later.time time)
    (onLine earlier.position.longitude earlier.time later.position.longitude later.time time)
  return ⟨position, time⟩

end Fix
end VesselRelay
