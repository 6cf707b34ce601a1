import VesselRelay.Geo.Area
import VesselRelay.Geo.Fix

/-!
Equality of doubles as a place in line, and the equality of what is made of coordinates.
Not-a-number is the only double that is not equal to itself, and no coordinate and no radius is one.
-/
namespace VesselRelay
namespace Binary64

open Float.Model (UnpackedFloat)

theorem compare_eq_eq (u v : UnpackedFloat) :
    u.compare v = some .eq ↔ ∃ a, rank u = some a ∧ rank v = some a := by
  rcases u with (_ | _) | _ | _ | ⟨_ | _, m, e, _⟩ <;>
    rcases v with (_ | _) | _ | _ | ⟨_ | _, n, f, _⟩ <;>
    dsimp only [UnpackedFloat.compare, rank] <;> simp
  case infinity.negative.infinity.negative => rfl
  case infinity.positive.infinity.positive => rfl
  all_goals omega

theorem beq_iff {x y : Float} : x == y ↔ ∃ a, place x = some a ∧ place y = some a := by
  have model : (x == y) = (x.toModel.unpack.compare y.toModel.unpack == some .eq) := rfl
  rw [model, beq_iff_eq, compare_eq_eq]
  rfl

/-- A double that compares with anything is equal to itself. -/
theorem beq_self {x : Float} (self : x ≤ x) : x == x := by
  obtain ⟨a, _, ha, _, _⟩ := le_iff.mp self
  exact beq_iff.mpr ⟨a, ha, ha⟩

theorem beq_of_le {x y : Float} (xy : x ≤ y) (yx : y ≤ x) : x == y := by
  obtain ⟨a, b, ha, hb, ab⟩ := le_iff.mp xy
  obtain ⟨b', a', hb', ha', ba⟩ := le_iff.mp yx
  obtain rfl : a = a' := by simpa [ha] using ha'
  obtain rfl : b = b' := by simpa [hb] using hb'
  have same : a = b := by
    unfold RankLt at ab ba
    ext <;> omega
  exact beq_iff.mpr ⟨a, ha, same ▸ hb⟩

theorem not_lt_iff {x y : Float} (hx : x ≤ x) (hy : y ≤ y) : ¬ x < y ↔ y ≤ x :=
  ⟨le_of_not_lt hy hx, not_lt_of_le⟩

theorem le_least {x a b : Float} (xa : x ≤ a) (xb : x ≤ b) : x ≤ least a b := by
  rcases least_eq a b with same | same <;> rw [same] <;> assumption

theorem greatest_le {x a b : Float} (ax : a ≤ x) (bx : b ≤ x) : greatest a b ≤ x := by
  rcases greatest_eq a b with same | same <;> rw [same] <;> assumption

end Binary64

instance : ReflBEq Position where
  rfl {p} := by
    have latitude := Binary64.beq_self (Binary64.le_refl_of_le_left p.validLatitude.2)
    have longitude := Binary64.beq_self (Binary64.le_refl_of_le_left p.validLongitude.2)
    exact Bool.and_eq_true_iff.mpr ⟨latitude, longitude⟩

instance : ReflBEq Fix where
  rfl := Bool.and_eq_true_iff.mpr ⟨BEq.rfl, BEq.rfl⟩

instance : ReflBEq Circle where
  rfl {c} := by
    have radius := Binary64.beq_self
      (Binary64.le_refl_of_le_right (Binary64.le_of_lt c.positive))
    exact Bool.and_eq_true_iff.mpr ⟨Bool.and_eq_true_iff.mpr ⟨BEq.rfl, radius⟩, BEq.rfl⟩

instance : ReflBEq Rectangle where
  rfl := Bool.and_eq_true_iff.mpr ⟨BEq.rfl, BEq.rfl⟩

instance : ReflBEq Polygon where
  rfl {g} := show (g.points == g.points) = true from BEq.rfl

instance : ReflBEq Shape where
  rfl {s} := by
    cases s with
    | circle c => exact (BEq.rfl : c == c)
    | rectangle r => exact (BEq.rfl : r == r)
    | polygon g => exact (BEq.rfl : g == g)

namespace Area

mutual

theorem beq_self (a : Area) : beq a a = true := by
  cases a with
  | shape s => exact (BEq.rfl : s == s)
  | union members => exact beqAll_self members

theorem beqAll_self (members : List Area) : beqAll members members = true := by
  cases members with
  | nil => rfl
  | cons a rest => exact Bool.and_eq_true_iff.mpr ⟨beq_self a, beqAll_self rest⟩

end

instance : ReflBEq Area := ⟨fun {a} => beq_self a⟩

end Area
end VesselRelay
