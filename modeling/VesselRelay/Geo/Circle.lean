import VesselRelay.Geo.Box
import VesselRelay.Geo.LocalFrame

/-!
Circles: all positions within a radius of a center, measured by the circle's own distance model.
-/
namespace VesselRelay
open Binary64 (least greatest)
open Trigonometry (cos)

structure Circle where
  center : Position
  /-- Metres; infinity is a radius too. -/
  radius : Float
  model : DistanceModel
  positive : 0.0 < radius
  deriving DecidableEq

namespace Circle

instance : BEq Circle :=
  ⟨fun a b => a.center == b.center && a.radius == b.radius && a.model == b.model⟩

def make (center : Position) (radius : Float) (model : DistanceModel) : Except Failure Circle :=
  if positive : 0.0 < radius then .ok ⟨center, radius, model, positive⟩
  else .error (.argument (.circleRadius radius))

/-- The southern reach of a circle: the latitude that many degrees below its center, not beyond the
pole. -/
def southern (latitude reach : Float) : Float :=
  least (greatest (-90.0) (latitude - reach)) latitude

def northern (latitude reach : Float) : Float :=
  greatest (least 90.0 (latitude + reach)) latitude

theorem validLatitude_southern {latitude : Float} (reach : Float) (valid : ValidLatitude latitude) :
    ValidLatitude (southern latitude reach) := by
  have pole : (-90.0 : Float) ≤ -90.0 := Binary64.le_refl_of_le_left valid.1
  have reached := Binary64.left_le_greatest (b := latitude - reach) pole
  refine ⟨Box.valid_least (P := (-90.0 ≤ ·)) reached valid.1,
    Binary64.le_trans (Binary64.least_le_right ?_ ?_) valid.2⟩
  · exact Binary64.le_refl_of_le_right reached
  · exact Binary64.le_refl_of_le_right valid.1

theorem southern_le {latitude : Float} (reach : Float) (valid : ValidLatitude latitude) :
    southern latitude reach ≤ latitude :=
  Binary64.least_le_right
    (Binary64.le_refl_of_le_right
      (Binary64.left_le_greatest (b := latitude - reach) (Binary64.le_refl_of_le_left valid.1)))
    (Binary64.le_refl_of_le_right valid.1)

theorem validLatitude_northern {latitude : Float} (reach : Float) (valid : ValidLatitude latitude) :
    ValidLatitude (northern latitude reach) := by
  have pole : (90.0 : Float) ≤ 90.0 := Binary64.le_refl_of_le_right valid.2
  have reached := Binary64.least_le_left (b := latitude + reach) pole
  refine ⟨Binary64.le_trans valid.1 (Binary64.right_le_greatest ?_ ?_),
    Box.valid_greatest (P := (· ≤ 90.0)) reached valid.2⟩
  · exact Binary64.le_refl_of_le_left reached
  · exact Binary64.le_refl_of_le_right valid.1

theorem le_northern {latitude : Float} (reach : Float) (valid : ValidLatitude latitude) :
    latitude ≤ northern latitude reach :=
  Binary64.right_le_greatest
    (Binary64.le_refl_of_le_left
      (Binary64.least_le_left (b := latitude + reach) (Binary64.le_refl_of_le_right valid.2)))
    (Binary64.le_refl_of_le_right valid.1)

theorem validLongitude_west : ValidLongitude (-180.0) := by decide +kernel

theorem validLongitude_east : ValidLongitude 180.0 := by decide +kernel

variable [Trigonometry]

def contains (c : Circle) (p : Position) : Bool := decide (c.center.distance c.model p ≤ c.radius)

/-- A circle that reaches a pole or the date line is bounded by the whole span of longitudes. -/
def box (c : Circle) : Box :=
  let latitude := c.center.latitude
  let longitude := c.center.longitude
  let reach := c.radius / metresPerDegree
  let scale := cos (latitude * pi / 180.0)
  let half := c.radius / (metresPerDegree * scale)
  let west := longitude - half
  let east := longitude + half
  let span (west east : Float) (validWest : ValidLongitude west) (validEast : ValidLongitude east)
      (eastward : west ≤ east) : Box :=
    { south := southern latitude reach, north := northern latitude reach, west, east,
      validSouth := validLatitude_southern reach c.center.validLatitude,
      validNorth := validLatitude_northern reach c.center.validLatitude,
      validWest, validEast, eastward,
      upright := Binary64.le_trans (southern_le reach c.center.validLatitude)
        (le_northern reach c.center.validLatitude) }
  let around := span (-180.0) 180.0 validLongitude_west validLongitude_east
    (Binary64.le_trans c.center.validLongitude.1 c.center.validLongitude.2)
  if southern latitude reach ≤ -90.0 ∨ 90.0 ≤ northern latitude reach ∨ scale ≤ 0.0 then around
  else if inside : (-180.0 ≤ west ∧ west ≤ longitude) ∧ longitude ≤ east ∧ east ≤ 180.0 then
    span west east
      ⟨inside.1.1, Binary64.le_trans inside.1.2 c.center.validLongitude.2⟩
      ⟨Binary64.le_trans c.center.validLongitude.1 inside.2.1, inside.2.2⟩
      (Binary64.le_trans inside.1.2 inside.2.1)
  else around

end Circle
end VesselRelay
