import VesselRelay.Binary64.Order
import VesselRelay.Failure

/-!
Positions on the globe in degrees. Every position is in range; a refused coordinate is reported, the
latitude first.
-/
namespace VesselRelay

def ValidLatitude (x : Float) : Prop := -90.0 ≤ x ∧ x ≤ 90.0

def ValidLongitude (x : Float) : Prop := -180.0 ≤ x ∧ x ≤ 180.0

instance (x : Float) : Decidable (ValidLatitude x) := inferInstanceAs (Decidable (_ ∧ _))

instance (x : Float) : Decidable (ValidLongitude x) := inferInstanceAs (Decidable (_ ∧ _))

structure Position where
  latitude : Float
  longitude : Float
  validLatitude : ValidLatitude latitude
  validLongitude : ValidLongitude longitude
  deriving DecidableEq

namespace Position

/-- Positions are equal when their coordinates are; the two zeros are. -/
instance : BEq Position := ⟨fun a b => a.latitude == b.latitude && a.longitude == b.longitude⟩

def make (latitude longitude : Float) : Except Failure Position :=
  if lat : ValidLatitude latitude then
    if lon : ValidLongitude longitude then .ok ⟨latitude, longitude, lat, lon⟩
    else .error (.argument (.longitude longitude))
  else .error (.argument (.latitude latitude))

theorem make_self (p : Position) : make p.latitude p.longitude = .ok p := by
  simp [make, p.validLatitude, p.validLongitude]

theorem make_eq_ok {latitude longitude : Float} {p : Position} :
    make latitude longitude = .ok p ↔ latitude = p.latitude ∧ longitude = p.longitude := by
  constructor
  · intro made
    unfold make at made
    split at made <;> try split at made
    all_goals cases made
    exact ⟨rfl, rfl⟩
  · rintro ⟨rfl, rfl⟩
    exact make_self p

def text (p : Position) : String :=
  "(" ++ Decimal.text p.latitude ++ ", " ++ Decimal.text p.longitude ++ ")"

end Position
end VesselRelay
