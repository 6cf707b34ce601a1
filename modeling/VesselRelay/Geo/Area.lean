import VesselRelay.Geo.Shape

/-!
Areas: shapes and unions of areas, to any depth. A union may be empty; it then holds and meets
nothing and has no box. The leaves of an area are the shapes found in it at any depth.
-/
namespace VesselRelay

inductive Area where
  | shape (shape : Shape)
  | union (members : List Area)

namespace Area

mutual

/-- The shapes at every depth, in order. -/
def leaves : Area → List Shape
  | .shape s => [s]
  | .union members => leavesOf members

def leavesOf : List Area → List Shape
  | [] => []
  | a :: rest => a.leaves ++ leavesOf rest

end

mutual

/-- Areas are equal when they are built alike from equal shapes. -/
def beq : Area → Area → Bool
  | .shape a, .shape b => a == b
  | .union as, .union bs => beqAll as bs
  | _, _ => false

def beqAll : List Area → List Area → Bool
  | [], [] => true
  | a :: as, b :: bs => beq a b && beqAll as bs
  | _, _ => false

end

instance : BEq Area := ⟨beq⟩

def unionWith (a b : Area) : Area := .union [a, b]

section
variable [Trigonometry]

mutual

/-- A union contains what any of its members contains. -/
def contains : Area → Position → Bool
  | .shape s, p => s.contains p
  | .union members, p => anyContains members p

def anyContains : List Area → Position → Bool
  | [], _ => false
  | a :: rest, p => a.contains p || anyContains rest p

end

mutual

/-- Whether any shape of an area meets a shape. -/
def metBy (s : Shape) : Area → Bool
  | .shape t => s.intersects t
  | .union members => anyMetBy s members

def anyMetBy (s : Shape) : List Area → Bool
  | [] => false
  | a :: rest => metBy s a || anyMetBy s rest

end

mutual

/-- Areas intersect when members of theirs do: the members of the first are tried in turn, and for
each the members of the second. -/
def intersects : Area → Area → Bool
  | .shape s, b => metBy s b
  | .union members, b => anyIntersects members b

def anyIntersects : List Area → Area → Bool
  | [], _ => false
  | a :: rest, b => a.intersects b || anyIntersects rest b

end

mutual

/-- The box of an area; an empty union has none, at whatever depth it stands. -/
def box : Area → Except Failure Box
  | .shape s => .ok s.box
  | .union [] => .error (.argument .noExtent)
  | .union (a :: rest) => do mergeBoxes (← a.box) rest

/-- A box merged with those of further areas. -/
def mergeBoxes (sofar : Box) : List Area → Except Failure Box
  | [] => .ok sofar
  | a :: rest => do mergeBoxes (sofar.merge (← a.box)) rest

end

end

end Area
end VesselRelay
