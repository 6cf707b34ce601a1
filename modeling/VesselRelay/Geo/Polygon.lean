import VesselRelay.Geo.Box
import VesselRelay.Geo.Ring

/-!
Polygons: rings of at least three positions, the closing edge implied.
-/
namespace VesselRelay
open Binary64 (least greatest)

structure Polygon where
  points : List Position
  enough : 3 ≤ points.length
  deriving DecidableEq

namespace Polygon

instance : BEq Polygon := ⟨fun a b => a.points == b.points⟩

def make (points : List Position) : Except Failure Polygon :=
  if enough : 3 ≤ points.length then .ok ⟨points, enough⟩
  else .error (.argument (.polygonSize points.length))

def contains (polygon : Polygon) (p : Position) : Bool := Ring.contains polygon.points p

/-- The box of one position. -/
def pointBox (p : Position) : Box where
  south := p.latitude
  north := p.latitude
  west := p.longitude
  east := p.longitude
  validSouth := p.validLatitude
  validNorth := p.validLatitude
  validWest := p.validLongitude
  validEast := p.validLongitude
  upright := Binary64.le_refl_of_le_right p.validLatitude.1
  eastward := Binary64.le_refl_of_le_right p.validLongitude.1

/-- A box widened to a further position. Of equal coordinates the first stays the least and the last
becomes the greatest, which tells the two zeros apart. -/
def widen (box : Box) (p : Position) : Box where
  south := least box.south p.latitude
  north := greatest p.latitude box.north
  west := least box.west p.longitude
  east := greatest p.longitude box.east
  validSouth := Box.valid_least box.validSouth p.validLatitude
  validNorth := Box.valid_greatest p.validLatitude box.validNorth
  validWest := Box.valid_least box.validWest p.validLongitude
  validEast := Box.valid_greatest p.validLongitude box.validEast
  upright := between box.upright p.validLatitude.1
  eastward := between box.eastward p.validLongitude.1
where
  between {low high x y : Float} (order : low ≤ high) (ordered : y ≤ x) :
      least low x ≤ greatest x high :=
    have self := Binary64.le_refl_of_le_right ordered
    Binary64.le_trans
      (Binary64.least_le_right (Binary64.le_refl_of_le_left order) self)
      (Binary64.left_le_greatest self)

def box (polygon : Polygon) : Box :=
  match polygon with
  | ⟨p :: rest, _⟩ => rest.foldl widen (pointBox p)
  | ⟨[], enough⟩ => absurd enough (by decide)

end Polygon
end VesselRelay
