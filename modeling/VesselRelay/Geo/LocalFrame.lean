import VesselRelay.Geo.Distance

/-!
A plane in metres laid onto the globe at an anchor: `x` runs east and `y` north. It is faithful for
distances that are small beside the radius of the sphere.
-/
namespace VesselRelay
open Trigonometry (cos)

structure PlanarPoint where
  x : Float
  y : Float
  deriving DecidableEq, Repr

def metresPerDegree : Float := earthRadius * pi / 180.0

/-- What a degree of longitude keeps of its length at the poles, so that it never vanishes. -/
def leastParallelScale : Float := 1e-9

structure LocalFrame where
  latitude : Float
  longitude : Float
  metresPerDegreeLongitude : Float
  deriving DecidableEq, Repr

namespace LocalFrame

def anchored [Trigonometry] (anchor : Position) : LocalFrame where
  latitude := anchor.latitude
  longitude := anchor.longitude
  metresPerDegreeLongitude :=
    metresPerDegree * Binary64.greatest (cos (anchor.latitude * pi / 180.0)) leastParallelScale

def toPlanar (frame : LocalFrame) (p : Position) : PlanarPoint where
  x := (p.longitude - frame.longitude) * frame.metresPerDegreeLongitude
  y := (p.latitude - frame.latitude) * metresPerDegree

/-- A longitude brought back over the date line. One in range stays as it is. -/
def wrapLongitude (longitude : Float) : Float :=
  if ValidLongitude longitude then longitude else Binary64.wrapTurn (longitude + 180.0) - 180.0

/-- The position of a point of the plane: latitudes stop at the poles and longitudes go round. A
point without finite coordinates has no position. -/
def toPosition (frame : LocalFrame) (point : PlanarPoint) : Except Failure Position :=
  Position.make
    (Binary64.clamp (frame.latitude + point.y / metresPerDegree) (-90.0) 90.0)
    (wrapLongitude (frame.longitude + point.x / frame.metresPerDegreeLongitude))

end LocalFrame

/-- A compass course, clockwise from north, as an angle in degrees from east turning north. -/
def compassToPlanar (course : Float) : Float := Binary64.wrapTurn (90.0 - course)

end VesselRelay
