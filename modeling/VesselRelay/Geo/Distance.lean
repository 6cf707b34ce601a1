import VesselRelay.Binary64.Remainder
import VesselRelay.Geo.Position
import VesselRelay.Trigonometry

/-!
Distances and bearings on a sphere, along the great circle and along the line of constant bearing. A
line of constant bearing is straight on the chart that stretches latitudes as a Mercator chart does.
-/
namespace VesselRelay
open Trigonometry (sin cos tan atan2 log)

/-- The radius of the sphere in metres. -/
def earthRadius : Float := 6371000.0

/-- The model by which distances are measured. -/
inductive DistanceModel where
  /-- Along the line of constant bearing. -/
  | cartesian
  /-- Along the great circle. -/
  | geodesic
  deriving DecidableEq, Repr

namespace Position
variable [Trigonometry]

/-- A bearing taken into one turn from zero. -/
def normalizeBearing (bearing : Float) : Float := Binary64.remainder (bearing + 360.0) 360.0

/-- The difference of longitudes in radians, the shorter way round. -/
def shorterTurn (fromLongitude toLongitude : Float) : Float :=
  let delta := radians (toLongitude - fromLongitude)
  if pi < delta.abs then
    if 0.0 < delta then -(2.0 * pi - delta) else 2.0 * pi + delta
  else delta

/-- Latitudes in radians are kept this far from the poles, where the chart has no end. -/
def chartLimit : Float := pi / 2.0 - 1e-12

/-- The difference of two latitudes on the chart. -/
def chartRise (fromLatitude toLatitude : Float) : Float :=
  let a := Binary64.clamp fromLatitude (-chartLimit) chartLimit
  let b := Binary64.clamp toLatitude (-chartLimit) chartLimit
  log (tan (pi / 4.0 + b / 2.0) / tan (pi / 4.0 + a / 2.0))

/-- Up to this rise on the chart a line counts as running along its parallel. -/
def levelRise : Float := 1e-12

def square (x : Float) : Float := x * x

def geodesicDistance (a b : Position) : Float :=
  let lat1 := radians a.latitude
  let lat2 := radians b.latitude
  let deltaLat := lat2 - lat1
  let deltaLon := radians (b.longitude - a.longitude)
  let h := square (sin (deltaLat / 2.0)) + cos lat1 * cos lat2 * square (sin (deltaLon / 2.0))
  earthRadius * (2.0 * atan2 h.sqrt (1.0 - h).sqrt)

def rhumbDistance (a b : Position) : Float :=
  let lat1 := radians a.latitude
  let lat2 := radians b.latitude
  let deltaLat := lat2 - lat1
  let deltaLon := shorterTurn a.longitude b.longitude
  let rise := chartRise lat1 lat2
  let q := if levelRise < rise.abs then deltaLat / rise else cos lat1
  (deltaLat * deltaLat + q * q * deltaLon * deltaLon).sqrt * earthRadius

def distance (model : DistanceModel) (a b : Position) : Float :=
  match model with
  | .cartesian => a.rhumbDistance b
  | .geodesic => a.geodesicDistance b

/-- The bearing at which the great circle to `b` sets out. -/
def geodesicBearing (a b : Position) : Float :=
  let lat1 := radians a.latitude
  let lat2 := radians b.latitude
  let deltaLon := radians (b.longitude - a.longitude)
  let y := sin deltaLon * cos lat2
  let x := cos lat1 * sin lat2 - sin lat1 * cos lat2 * cos deltaLon
  normalizeBearing (degrees (atan2 y x))

def rhumbBearing (a b : Position) : Float :=
  let lat1 := radians a.latitude
  let lat2 := radians b.latitude
  let deltaLon := shorterTurn a.longitude b.longitude
  normalizeBearing (degrees (atan2 deltaLon (chartRise lat1 lat2)))

end Position
end VesselRelay
