/-!
The transcendental functions that geography needs. They are taken as given: nothing here computes
them, so every statement about positions says which of their properties it uses.
-/
namespace VesselRelay

/-- Angles are in radians; `atan2` takes the ordinate first. -/
class Trigonometry where
  sin : Float → Float
  cos : Float → Float
  tan : Float → Float
  atan2 : Float → Float → Float
  log : Float → Float

/-- The functions of the machine's own library. -/
instance Trigonometry.machine : Trigonometry :=
  ⟨Float.sin, Float.cos, Float.tan, Float.atan2, Float.log⟩

def pi : Float := 3.141592653589793

def radians (angle : Float) : Float := angle * pi / 180.0

def degrees (angle : Float) : Float := angle * 180.0 / pi

end VesselRelay
