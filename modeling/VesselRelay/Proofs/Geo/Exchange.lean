import VesselRelay.Proofs.Binary64.Sign
import VesselRelay.Proofs.Geo.Meeting

/-!
Two circles that change places. Boxes and the sum of the radii stay, and the distance of the centers
is measured by the model of the circle that is asked, from its own center. Great circles are as long
from both ends, lines of constant bearing are where the scale of their parallel is, and the two
lengths differ: of two circles of different models one may meet the other and not be met by it.
-/
namespace VesselRelay
open Trigonometry (sin cos)
open Binary64 (pos_neg_iff)

/-! ### Distances from both ends -/

theorem radians_neg (x : Float) : radians (-x) = -radians x := by
  rw [radians, Binary64.neg_mul, Binary64.neg_div, radians]

namespace Position

/-- Squares do not see which way round a difference is taken. -/
theorem square_swap {x y : Float} (turned : y = -x ∨ y = x) : y * y = x * x := by
  rcases turned with rfl | rfl
  · rw [Binary64.neg_mul, Binary64.mul_neg, Binary64.neg_neg]
  · rfl

theorem product_swap {x y : Float} (turned : y = -x ∨ y = x) (c : Float) :
    c * y * y = c * x * x := by
  rcases turned with rfl | rfl
  · rw [Binary64.mul_neg c, Binary64.mul_neg, Binary64.neg_mul, Binary64.neg_neg]
  · rfl

theorem shorterTurn_swap (a b : Float) :
    shorterTurn b a = -shorterTurn a b ∨ shorterTurn b a = shorterTurn a b := by
  have half : 0.0 < pi := by decide +kernel
  rcases Binary64.sub_swap b a with turned | same
  · left
    simp only [shorterTurn, turned, radians_neg, Binary64.abs_neg]
    generalize radians (b - a) = delta
    split
    · rename_i far
      by_cases east : 0.0 < delta
      · rw [if_neg (mt (pos_neg_iff half far).mp (not_not_intro east)), if_pos east,
          Binary64.neg_neg, Binary64.sub_eq_add_neg]
      · rw [if_pos ((pos_neg_iff half far).mpr east), if_neg east, Binary64.sub_eq_add_neg,
          Binary64.neg_neg]
    · rfl
  · right
    simp only [shorterTurn, same]

variable [Trigonometry]

theorem geodesicDistance_comm (odd : ∀ x, sin (-x) = -sin x) (a b : Position) :
    a.geodesicDistance b = b.geodesicDistance a := by
  have half {x y : Float} (turned : y = -x ∨ y = x) :
      sin (y / 2.0) = -sin (x / 2.0) ∨ sin (y / 2.0) = sin (x / 2.0) := by
    rcases turned with rfl | rfl
    · exact .inl (by rw [Binary64.neg_div, odd])
    · exact .inr rfl
  have rise := Binary64.sub_swap (radians b.latitude) (radians a.latitude)
  have turn : radians (a.longitude - b.longitude) = -radians (b.longitude - a.longitude) ∨
      radians (a.longitude - b.longitude) = radians (b.longitude - a.longitude) := by
    rcases Binary64.sub_swap b.longitude a.longitude with turned | same
    · exact .inl (by rw [turned, radians_neg])
    · exact .inr (by rw [same])
  simp only [geodesicDistance, square]
  rw [square_swap (half rise), square_swap (half turn),
    Binary64.mul_comm (cos (radians a.latitude))]

/-- What a line of constant bearing takes for the scale of its parallel. -/
def parallelScale (a b : Position) : Float :=
  let lat1 := radians a.latitude
  let lat2 := radians b.latitude
  let rise := chartRise lat1 lat2
  if levelRise < rise.abs then (lat2 - lat1) / rise else cos lat1

/-- From both ends of a parallel it is the same. -/
theorem parallelScale_comm {a b : Position} (level : a.latitude = b.latitude) :
    a.parallelScale b = b.parallelScale a := by
  simp only [parallelScale, level]

theorem rhumbDistance_eq (a b : Position) :
    a.rhumbDistance b =
      (let rise := radians b.latitude - radians a.latitude
      let turn := shorterTurn a.longitude b.longitude
      (rise * rise + a.parallelScale b * a.parallelScale b * turn * turn).sqrt * earthRadius) :=
  rfl

theorem rhumbDistance_comm {a b : Position} (even : a.parallelScale b = b.parallelScale a) :
    a.rhumbDistance b = b.rhumbDistance a := by
  simp only [rhumbDistance_eq, even]
  rw [square_swap (Binary64.sub_swap (radians b.latitude) (radians a.latitude)),
    product_swap (shorterTurn_swap b.longitude a.longitude)]

end Position

/-! ### Circles -/

def Circle.area (c : Circle) : Area := .shape (.circle c)

variable [Trigonometry]

/-- What two circles answer about each other. -/
structure Exchanged (a b : Circle) : Prop where
  /-- Both answers ask for boxes that meet and for a distance within both radii, which is measured
  from the circle that is asked, by its model. -/
  asked : a.area.intersects b.area = (a.box.intersects b.box &&
    decide (a.center.distance a.model b.center ≤ a.radius + b.radius))
  answered : b.area.intersects a.area = (a.box.intersects b.box &&
    decide (b.center.distance b.model a.center ≤ a.radius + b.radius))
  /-- Along great circles they are the same. -/
  geodesic : a.model = .geodesic → b.model = .geodesic →
    a.area.intersects b.area = b.area.intersects a.area
  /-- So they are along a line of constant bearing whose scale is the same from both ends, as it is
  along a parallel. -/
  cartesian : a.model = .cartesian → b.model = .cartesian →
    (a.center.parallelScale b.center = b.center.parallelScale a.center ∨
      a.center.latitude = b.center.latitude) →
    a.area.intersects b.area = b.area.intersects a.area
  /-- Of different models, they differ exactly where boxes meet and both radii reach along the one
  line and not along the other. -/
  mixed : a.model = .cartesian → b.model = .geodesic →
    (a.area.intersects b.area = b.area.intersects a.area ↔
      (a.box.intersects b.box → (a.center.rhumbDistance b.center ≤ a.radius + b.radius ↔
        a.center.geodesicDistance b.center ≤ a.radius + b.radius)))

theorem exchanged_of_odd (odd : ∀ x, sin (-x) = -sin x) (a b : Circle) : Exchanged a b := by
  have asked (a b : Circle) : a.area.intersects b.area = (a.box.intersects b.box &&
      decide (a.center.distance a.model b.center ≤ a.radius + b.radius)) := rfl
  have answered : b.area.intersects a.area = (a.box.intersects b.box &&
      decide (b.center.distance b.model a.center ≤ a.radius + b.radius)) := by
    rw [asked, Box.intersects_comm, Binary64.add_comm]
  refine ⟨asked a b, answered, fun here there => ?_, fun here there even => ?_,
    fun here there => ?_⟩
  · rw [asked a b, answered, here, there, Position.distance, Position.distance,
      Position.geodesicDistance_comm odd]
  · rw [asked a b, answered, here, there, Position.distance, Position.distance,
      Position.rhumbDistance_comm (even.elim id Position.parallelScale_comm)]
  · rw [asked a b, answered, here, there, Position.distance, Position.distance,
      Position.geodesicDistance_comm odd b.center]
    cases a.box.intersects b.box <;> simp

omit [Trigonometry]

/-- The functions as far as the parallel of sixty degrees asks for them, half a turn apart: the sine
is that of nothing and of a quarter turn, the logarithm that of one, and the arc that of a third of
the way to the pole and on. -/
@[reducible]
def onSixty : Trigonometry where
  sin x := x / (pi / 2.0)
  cos _ := 0.5000000000000001
  tan _ := 3.732050807568877
  atan2 _ _ := 0.5235987755982989
  log _ := 0.0

/-- A circle on that parallel that reaches beyond the pole. -/
def wideCircle (longitude : Float) (valid : ValidLongitude longitude) (model : DistanceModel) :
    Circle where
  center := ⟨60.0, longitude, by decide +kernel, valid⟩
  radius := 4000000.0
  model
  positive := by decide +kernel

theorem exchanged_on_sixty :
    let _ := onSixty
    let a := wideCircle (-90.0) (by decide +kernel) .geodesic
    let b := wideCircle 90.0 (by decide +kernel) .geodesic
    (∀ x, sin (-x) = -sin x) ∧ Exchanged a b ∧ a.area.intersects b.area := by
  intro _ a b
  have odd (x : Float) : sin (-x) = -sin x := Binary64.neg_div x (pi / 2.0)
  exact ⟨odd, exchanged_of_odd odd a b, by decide +kernel⟩

/-- Halfway round the globe the line of constant bearing keeps to the parallel and is too long for
both radii; the great circle runs over the pole and is not. -/
theorem met_one_way_only :
    let _ := onSixty
    let a := wideCircle (-90.0) (by decide +kernel) .cartesian
    let b := wideCircle 90.0 (by decide +kernel) .geodesic
    a.area.intersects b.area = false ∧ b.area.intersects a.area = true := by
  decide +kernel

end VesselRelay
