import VesselRelay.Geo.Box

/-!
Rectangles of latitudes and longitudes, given by their north-western and south-eastern corners.
-/
namespace VesselRelay

structure Rectangle where
  northWest : Position
  southEast : Position
  upright : southEast.latitude ≤ northWest.latitude
  eastward : northWest.longitude ≤ southEast.longitude
  deriving DecidableEq

namespace Rectangle

instance : BEq Rectangle := ⟨fun a b => a.northWest == b.northWest && a.southEast == b.southEast⟩

/-- Whether two corners are in order; they may share a latitude or a longitude. -/
def Ordered (northWest southEast : Position) : Prop :=
  southEast.latitude ≤ northWest.latitude ∧ northWest.longitude ≤ southEast.longitude

instance (a b : Position) : Decidable (Ordered a b) := inferInstanceAs (Decidable (_ ∧ _))

def make (northWest southEast : Position) : Except Failure Rectangle :=
  if order : Ordered northWest southEast then .ok ⟨northWest, southEast, order.1, order.2⟩
  else .error (.argument (.rectangleCorners northWest.latitude northWest.longitude
    southEast.latitude southEast.longitude))

/-- The corners from the north-west clockwise. -/
def corners (r : Rectangle) : List Position :=
  [r.northWest,
   ⟨r.northWest.latitude, r.southEast.longitude, r.northWest.validLatitude,
    r.southEast.validLongitude⟩,
   r.southEast,
   ⟨r.southEast.latitude, r.northWest.longitude, r.southEast.validLatitude,
    r.northWest.validLongitude⟩]

def contains (r : Rectangle) (p : Position) : Bool :=
  decide (p.latitude ≤ r.northWest.latitude) && decide (r.southEast.latitude ≤ p.latitude)
    && decide (r.northWest.longitude ≤ p.longitude) && decide (p.longitude ≤ r.southEast.longitude)

def box (r : Rectangle) : Box where
  south := r.southEast.latitude
  north := r.northWest.latitude
  west := r.northWest.longitude
  east := r.southEast.longitude
  validSouth := r.southEast.validLatitude
  validNorth := r.northWest.validLatitude
  validWest := r.northWest.validLongitude
  validEast := r.southEast.validLongitude
  upright := r.upright
  eastward := r.eastward

end Rectangle
end VesselRelay
