import VesselRelay.Geo.Position

/-!
Closed boxes between two latitudes and two longitudes. A box never crosses the date line and is
never inverted; a line or a point is a box too. Two boxes merge into the least box around both.
-/
namespace VesselRelay
open Binary64 (least greatest)

@[ext] structure Box where
  south : Float
  north : Float
  west : Float
  east : Float
  validSouth : ValidLatitude south
  validNorth : ValidLatitude north
  validWest : ValidLongitude west
  validEast : ValidLongitude east
  upright : south ≤ north
  eastward : west ≤ east

namespace Box

instance : DecidableEq Box := fun _ _ => decidable_of_iff' _ Box.ext_iff

instance : BEq Box :=
  ⟨fun a b => a.south == b.south && a.north == b.north && a.west == b.west && a.east == b.east⟩

def make (south north west east : Float) : Except Failure Box :=
  if valid : (ValidLatitude south ∧ ValidLatitude north) ∧
      ValidLongitude west ∧ ValidLongitude east then
    if order : south ≤ north ∧ west ≤ east then
      .ok ⟨south, north, west, east, valid.1.1, valid.1.2, valid.2.1, valid.2.2, order.1, order.2⟩
    else .error (.argument (.boxInverted south north west east))
  else .error (.argument .boxCorner)

def topLeft (box : Box) : Position := ⟨box.north, box.west, box.validNorth, box.validWest⟩

def bottomRight (box : Box) : Position := ⟨box.south, box.east, box.validSouth, box.validEast⟩

/-- The edges belong to the box. -/
def contains (box : Box) (p : Position) : Bool :=
  decide (box.south ≤ p.latitude) && decide (p.latitude ≤ box.north)
    && decide (box.west ≤ p.longitude) && decide (p.longitude ≤ box.east)

/-- Boxes that only touch intersect. -/
def intersects (a b : Box) : Bool :=
  decide (a.south ≤ b.north) && decide (b.south ≤ a.north)
    && decide (a.west ≤ b.east) && decide (b.west ≤ a.east)

theorem valid_least {P : Float → Prop} {a b : Float} (ha : P a) (hb : P b) : P (least a b) := by
  rcases Binary64.least_eq a b with h | h <;> rw [h] <;> assumption

theorem valid_greatest {P : Float → Prop} {a b : Float} (ha : P a) (hb : P b) :
    P (greatest a b) := by
  rcases Binary64.greatest_eq a b with h | h <;> rw [h] <;> assumption

theorem least_le_greatest {a b c d : Float} (ab : a ≤ b) (cd : c ≤ d) : least a c ≤ greatest b d :=
  Binary64.le_trans
    (Binary64.least_le_right (Binary64.le_refl_of_le_left ab) (Binary64.le_refl_of_le_left cd))
    (Binary64.le_trans cd
      (Binary64.right_le_greatest (Binary64.le_refl_of_le_right ab)
        (Binary64.le_refl_of_le_right cd)))

def merge (a b : Box) : Box where
  south := least a.south b.south
  north := greatest a.north b.north
  west := least a.west b.west
  east := greatest a.east b.east
  validSouth := valid_least a.validSouth b.validSouth
  validNorth := valid_greatest a.validNorth b.validNorth
  validWest := valid_least a.validWest b.validWest
  validEast := valid_greatest a.validEast b.validEast
  upright := least_le_greatest a.upright b.upright
  eastward := least_le_greatest a.eastward b.eastward

end Box
end VesselRelay
