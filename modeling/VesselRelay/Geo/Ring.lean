import VesselRelay.Geo.Position

/-!
Closed rings of positions in the plane of longitude and latitude. A ring holds a position that lies
on one of its edges, or from which an odd number of its edges is met on the way east.
-/
namespace VesselRelay.Ring
open Binary64 (least greatest)

abbrev Edge := Position × Position

/-- The edges of a chain that goes on from `previous`. -/
def edgesFrom (previous : Position) : List Position → List Edge
  | [] => []
  | p :: rest => (previous, p) :: edgesFrom p rest

/-- The edges of a ring; the first one comes from its last position. -/
def edges (ring : List Position) : List Edge :=
  match ring.getLast? with
  | none => []
  | some last => edgesFrom last ring

/-- The way that a path of three positions turns. -/
inductive Turn where
  | left
  | right
  | straight
  deriving DecidableEq, Repr

def turn (a b c : Position) : Turn :=
  let cross := (b.longitude - a.longitude) * (c.latitude - a.latitude)
    - (b.latitude - a.latitude) * (c.longitude - a.longitude)
  if 0.0 < cross then .left else if cross < 0.0 then .right else .straight

/-- Whether a position lies in the box of a segment. -/
def withinBounds (a b p : Position) : Bool :=
  decide (least a.longitude b.longitude ≤ p.longitude)
    && decide (p.longitude ≤ greatest a.longitude b.longitude)
    && decide (least a.latitude b.latitude ≤ p.latitude)
    && decide (p.latitude ≤ greatest a.latitude b.latitude)

def touches (edge : Edge) (p : Position) : Bool :=
  turn edge.1 edge.2 p == .straight && withinBounds edge.1 edge.2 p

/-- Whether an edge is met east of a position. An edge holds its lower end and not its upper one, so
that an end shared by two edges counts once where the ring passes the latitude and twice or never
where it turns. -/
def crossesEast (edge : Edge) (p : Position) : Bool :=
  let (a, b) := edge
  (decide (p.latitude < b.latitude) != decide (p.latitude < a.latitude))
    && decide (p.longitude < b.longitude
      + (p.latitude - b.latitude) * (a.longitude - b.longitude) / (a.latitude - b.latitude))

/-- Walks the edges, changing sides at each one that is met, and stops at an edge that holds the
position. -/
def walk (p : Position) (inside : Bool) : List Edge → Bool
  | [] => inside
  | edge :: rest => touches edge p || walk p (inside != crossesEast edge p) rest

def contains (ring : List Position) (p : Position) : Bool := walk p false (edges ring)

/-- Segments that share a position, an end or a stretch included. -/
def segmentsMeet (p q : Edge) : Bool :=
  let o1 := turn p.1 p.2 q.1
  let o2 := turn p.1 p.2 q.2
  let o3 := turn q.1 q.2 p.1
  let o4 := turn q.1 q.2 p.2
  (o1 != o2 && o3 != o4)
    || (o1 == .straight && withinBounds p.1 p.2 q.1)
    || (o2 == .straight && withinBounds p.1 p.2 q.2)
    || (o3 == .straight && withinBounds q.1 q.2 p.1)
    || (o4 == .straight && withinBounds q.1 q.2 p.2)

/-- Rings meet when edges of theirs do, or when one holds the first position of the other. -/
def meets (a b : List Position) : Bool :=
  (edges a).any (fun e => (edges b).any (segmentsMeet e))
    || b.head?.any (contains a)
    || a.head?.any (contains b)

end VesselRelay.Ring
