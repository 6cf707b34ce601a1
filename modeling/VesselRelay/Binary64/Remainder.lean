import VesselRelay.Binary64.Parts

/-!
The exact remainder of a division whose quotient is cut toward zero, and an angle brought into one
turn.
-/
namespace VesselRelay.Binary64

def undefined : Float := 0.0 / 0.0

/-- What is left of `x` after taking away whole multiples of `y`, with the sign of `x`. It is exact:
both are whole multiples of the smaller of their two last bits. -/
def remainder (x y : Float) : Float :=
  match parts? x, parts? y with
  | some a, some b =>
    if b.significand = 0 then undefined
    else
      let unit := min a.exponent b.exponent
      let whole (p : Parts) := p.significand * 2 ^ (p.exponent - unit).toNat
      let (n, d) := scaled (whole a % whole b) 1 unit
      withSign (negative x) (nearest n d)
  | some _, none => if y.isNaN then undefined else x
  | none, _ => undefined

/-- An angle in degrees taken into one turn; it comes out negative only where not a number. -/
def wrapTurn (degrees : Float) : Float :=
  let angle := remainder degrees 360.0
  if angle < 0.0 then angle + 360.0 else angle

end VesselRelay.Binary64
