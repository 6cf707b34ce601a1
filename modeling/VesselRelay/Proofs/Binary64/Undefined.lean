import VesselRelay.Binary64.Remainder
import VesselRelay.Proofs.Binary64.Root

/-!
What is not a finite number: not-a-number, which is a single double here, and the infinities.
Arithmetic does not lead back from it: not-a-number stays what it is, and a sum or a product with an
infinity is an infinity or not a number.
-/
namespace VesselRelay.Binary64

open Float.Model (UnpackedFloat)

variable {x y : Float} {a : ℚ}

/-! ### Not a number -/

theorem undefined_eq : undefined = packed .notANumber := by
  decide +kernel

theorem rank_eq_none_iff {u : UnpackedFloat} : rank u = none ↔ u = .notANumber := by
  rcases u with (_ | _) | _ | _ | ⟨_ | _, m, e, _⟩ <;> simp [rank]

theorem unpack_undefined : undefined.toModel.unpack = .notANumber :=
  rank_eq_none_iff.mp (by decide +kernel : place undefined = none)

theorem place_eq_none_iff : place x = none ↔ x = undefined := by
  refine rank_eq_none_iff.trans ⟨fun nothing => ?_, fun same => ?_⟩
  · rw [← packed_unpack x, nothing, undefined_eq]
  · rw [same, unpack_undefined]

@[simp] theorem place_undefined : place undefined = none := place_eq_none_iff.mpr rfl

@[simp] theorem not_undefined_le : ¬ undefined ≤ x := by simp [le_iff]

@[simp] theorem mul_undefined : x * undefined = undefined := by
  have product : x * undefined =
      packed (UnpackedFloat.mul .binary64 x.toModel.unpack undefined.toModel.unpack) := rfl
  rw [product, unpack_undefined, undefined_eq]
  cases x.toModel.unpack <;> rfl

@[simp] theorem add_undefined : x + undefined = undefined := by
  have sum : x + undefined =
      packed (UnpackedFloat.add .binary64 x.toModel.unpack undefined.toModel.unpack) := rfl
  rw [sum, unpack_undefined, undefined_eq]
  cases x.toModel.unpack <;> rfl

@[simp] theorem undefined_add : undefined + x = undefined := by rw [add_comm, add_undefined]

@[simp] theorem undefined_sub : undefined - x = undefined := by
  rw [sub_eq_add_neg, undefined_add]

/-- A number below zero has no root. -/
theorem sqrt_of_neg (exact : number? x = some a) (negative : a < 0) : x.sqrt = undefined :=
  place_eq_none_iff.mp (place_sqrt_of_neg exact negative)

/-! ### Nothing finite -/

theorem worth_eq_none_iff {u : UnpackedFloat} :
    worth u = none ↔ u = .notANumber ∨ ∃ s, u = .infinity s := by
  rcases u with _ | _ | _ | _ <;> simp [worth]

theorem number?_packed_of_worth {u : UnpackedFloat} (endless : worth u = none) :
    number? (packed u) = none := by
  obtain rfl | ⟨_ | _, rfl⟩ := worth_eq_none_iff.mp endless
  all_goals decide +kernel

theorem number?_mul_of_left (endless : number? x = none) : number? (x * y) = none := by
  rw [number?_eq, worth_eq_none_iff] at endless
  change number? (packed (UnpackedFloat.mul .binary64 x.toModel.unpack y.toModel.unpack)) = none
  apply number?_packed_of_worth
  obtain nothing | ⟨s, infinite⟩ := endless
  · rw [nothing]
    cases y.toModel.unpack <;> rfl
  · rw [infinite]
    cases y.toModel.unpack <;> rfl

theorem number?_mul_of_right (endless : number? y = none) : number? (x * y) = none := by
  rw [mul_comm]
  exact number?_mul_of_left endless

theorem number?_add_of_right (endless : number? y = none) : number? (x + y) = none := by
  rw [number?_eq, worth_eq_none_iff] at endless
  change number? (packed (UnpackedFloat.add .binary64 x.toModel.unpack y.toModel.unpack)) = none
  apply number?_packed_of_worth
  obtain nothing | ⟨s, infinite⟩ := endless
  · rw [nothing]
    cases x.toModel.unpack <;> rfl
  · rw [infinite]
    cases x.toModel.unpack with
    | notANumber | zero | finite => rfl
    | infinity t => cases s <;> cases t <;> rfl

theorem number?_add_of_left (endless : number? x = none) : number? (x + y) = none := by
  rw [add_comm]
  exact number?_add_of_right endless

theorem number?_div_of_left (endless : number? x = none) : number? (x / y) = none := by
  rw [number?_eq, worth_eq_none_iff] at endless
  change number? (packed (UnpackedFloat.div .binary64 x.toModel.unpack y.toModel.unpack)) = none
  apply number?_packed_of_worth
  obtain nothing | ⟨s, infinite⟩ := endless
  · rw [nothing]
    cases y.toModel.unpack <;> rfl
  · rw [infinite]
    cases y.toModel.unpack <;> rfl

end VesselRelay.Binary64
