import VesselRelay.Binary64.Hypotenuse
import VesselRelay.Geo.Circle
import VesselRelay.Geo.Polygon
import VesselRelay.Geo.Rectangle

/-!
The shapes that areas are made of, and when two of them meet. Boxes are compared first; the shapes
themselves are looked at only where their boxes meet.
-/
namespace VesselRelay

inductive Shape where
  | circle (circle : Circle)
  | rectangle (rectangle : Rectangle)
  | polygon (polygon : Polygon)
  deriving DecidableEq

namespace Shape

/-- Shapes are equal when they are of one kind and all their parts are equal. -/
def beq : Shape → Shape → Bool
  | circle a, circle b => a == b
  | rectangle a, rectangle b => a == b
  | polygon a, polygon b => a == b
  | _, _ => false

instance : BEq Shape := ⟨beq⟩

variable [Trigonometry]

def contains : Shape → Position → Bool
  | circle c, p => c.contains p
  | rectangle r, p => r.contains p
  | polygon g, p => g.contains p

def box : Shape → Box
  | circle c => c.box
  | rectangle r => r.box
  | polygon g => g.box

/-- The distance in the plane from the anchor of a frame to a segment. -/
def anchorToSegment (frame : LocalFrame) (edge : Ring.Edge) : Float :=
  let start := frame.toPlanar edge.1
  let finish := frame.toPlanar edge.2
  let dx := finish.x - start.x
  let dy := finish.y - start.y
  let lengthSquared := dx * dx + dy * dy
  let t :=
    if 0.0 < lengthSquared then
      Binary64.clamp (-(start.x * dx + start.y * dy) / lengthSquared) 0.0 1.0
    else 0.0
  Binary64.hypotenuse (start.x + t * dx) (start.y + t * dy)

/-- Circles meet when the distance of their centers, by the model of the first, is within both
radii. -/
def circlesMeet (a b : Circle) : Bool :=
  decide (a.center.distance a.model b.center ≤ a.radius + b.radius)

/-- The position of a rectangle nearest to a position in latitude and in longitude. -/
def nearestIn (r : Rectangle) (p : Position) : Position where
  latitude := Binary64.clamp p.latitude r.southEast.latitude r.northWest.latitude
  longitude := Binary64.clamp p.longitude r.northWest.longitude r.southEast.longitude
  validLatitude := by
    rcases Binary64.clamp_eq p.latitude r.southEast.latitude r.northWest.latitude
      with h | h | h <;> rw [h]
    · exact p.validLatitude
    · exact r.southEast.validLatitude
    · exact r.northWest.validLatitude
  validLongitude := by
    rcases Binary64.clamp_eq p.longitude r.northWest.longitude r.southEast.longitude
      with h | h | h <;> rw [h]
    · exact p.validLongitude
    · exact r.northWest.validLongitude
    · exact r.southEast.validLongitude

def circleMeetsRectangle (c : Circle) (r : Rectangle) : Bool := c.contains (nearestIn r c.center)

/-- A circle meets a ring that holds its center, one with a corner in the circle, and one with an
edge that the plane at its center puts within its radius. -/
def circleMeetsRing (c : Circle) (ring : List Position) : Bool :=
  Ring.contains ring c.center
    || (Ring.edges ring).any fun edge =>
      c.contains edge.1
        || decide (anchorToSegment (LocalFrame.anchored c.center) edge ≤ c.radius)

/-- Whether two shapes meet, their boxes aside. -/
def touches : Shape → Shape → Bool
  | circle a, circle b => circlesMeet a b
  | circle a, rectangle b => circleMeetsRectangle a b
  | rectangle a, circle b => circleMeetsRectangle b a
  | circle a, polygon b => circleMeetsRing a b.points
  | polygon a, circle b => circleMeetsRing b a.points
  | rectangle a, rectangle b => a.box.intersects b.box
  | rectangle a, polygon b => Ring.meets a.corners b.points
  | polygon a, rectangle b => Ring.meets a.points b.corners
  | polygon a, polygon b => Ring.meets a.points b.points

def intersects (a b : Shape) : Bool := a.box.intersects b.box && touches a b

end Shape
end VesselRelay
