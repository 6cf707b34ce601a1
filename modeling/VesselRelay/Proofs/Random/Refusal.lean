import VesselRelay.Proofs.Binary64.Undefined
import VesselRelay.Proofs.Identifier.Residue
import VesselRelay.Proofs.Random.Drawing
import VesselRelay.Proofs.Random.Range

/-!
Calls that are refused. Whether a call is refused is told by its arguments alone; it is refused
before a word is taken or the deviate that is kept is looked at, so whatever else is drawn is drawn
as if the call had never been made.
-/
namespace VesselRelay.Generator
open Binary64 (undefined)

variable {α β : Type} {g : Generator}

/-- Why a call is refused: a width that no word has, a bound or a range with nothing in it, a limit
that is not a number, or a seed. -/
def Kind.fault? : Kind → Option Failure
  | next bits => if bits < 1 ∨ 32 < bits then some (.argument (.drawWidth bits)) else none
  | intBelow bound => if bound ≤ 0 then some (.argument (.drawBound bound.toInt)) else none
  | intBetween least bound =>
    if bound ≤ least then some (.argument (.drawRange least.toInt bound.toInt)) else none
  | longBelow bound => if bound ≤ 0 then some (.argument (.drawBound bound.toInt)) else none
  | longBetween least bound =>
    if bound ≤ least then some (.argument (.drawRange least.toInt bound.toInt)) else none
  | doubleBelow bound =>
    if bound = undefined ∨ bound ≤ 0.0 then some (.argument (.realBound bound)) else none
  | doubleBetween least bound =>
    if least = undefined ∨ bound = undefined ∨ bound ≤ least then
      some (.argument (.realRange least bound))
    else none
  | identifierBelow bound =>
    if bound = .zero then some (.argument .identifierBound) else none
  | identifierBetween least bound =>
    if bound.toNat ≤ least.toNat then some (.argument .identifierRange) else none
  | reseed _ => some .reseed
  | boolean | bytes _ | int | long | double | gaussian | hex _ | uuid | identifier => none

/-! ### Refused calls -/

/-- Behind a check of its arguments a draw is refused where the check says so, and does nothing. -/
theorem guarded_of_fault {p refuses : Prop} [Decidable p] [Decidable refuses]
    {given failure : Failure} {x : Unit → Attempt α} (checks : p ↔ refuses)
    (refused : (if refuses then some given else none) = some failure) (g : Generator) :
    (if p then throw given >>= x else x ()) g = (.error failure, g) := by
  obtain ⟨empty, same⟩ := Option.ite_none_right_eq_some.mp refused
  cases same
  rw [if_pos (checks.mpr empty)]
  rfl

/-- Where the check passes, the draw is what stands behind it. -/
theorem guarded_of_passed {p refuses : Prop} [Decidable p] [Decidable refuses] {given : Failure}
    {x : Unit → Attempt α} (checks : p ↔ refuses)
    (passed : (if refuses then some given else none) = none) :
    (if p then throw given >>= x else x ()) = x () := by
  refine if_neg fun refused => ?_
  rw [if_pos (checks.mp refused)] at passed
  cases passed

/-- One double is below another unless they are the other way round, or one is not a number. -/
theorem not_lt_iff_undefined {x y : Float} :
    ¬ x < y ↔ x = undefined ∨ y = undefined ∨ y ≤ x := by
  rw [← Binary64.place_eq_none_iff, ← Binary64.place_eq_none_iff, Binary64.lt_iff, Binary64.le_iff]
  cases Binary64.place x <;> cases Binary64.place y <;> simp

theorem not_below_zero_iff {bound : Float} : ¬ 0.0 < bound ↔ bound = undefined ∨ bound ≤ 0.0 := by
  have zero : (0.0 : Float) ≠ undefined := by decide
  rw [not_lt_iff_undefined, or_iff_right zero]

variable [Trigonometry]

/-- A call that is refused hands the generator on as it was given it. -/
theorem draw_of_fault {kind : Kind} {failure : Failure} (refused : kind.fault? = some failure)
    (g : Generator) : kind.draw g = (.error failure, g) := by
  cases kind with
  | next bits =>
    rw [Kind.draw, Generator.next]
    exact guarded_of_fault .rfl refused g
  | intBelow bound =>
    rw [Kind.draw, Generator.intBelow]
    exact guarded_of_fault .rfl refused g
  | intBetween least bound =>
    rw [Kind.draw, Generator.intBetween]
    exact guarded_of_fault .rfl refused g
  | longBelow bound =>
    rw [Kind.draw, Generator.longBelow]
    exact guarded_of_fault .rfl refused g
  | longBetween least bound =>
    rw [Kind.draw, Generator.longBetween]
    exact guarded_of_fault .rfl refused g
  | doubleBelow bound =>
    rw [Kind.draw, Generator.doubleBelow]
    exact guarded_of_fault not_below_zero_iff refused g
  | doubleBetween least bound =>
    rw [Kind.draw, Generator.doubleBetween]
    exact guarded_of_fault not_lt_iff_undefined refused g
  | identifierBelow bound =>
    rw [Kind.draw, Generator.identifierBelow]
    exact guarded_of_fault Identifier.isZero_iff_eq refused g
  | identifierBetween least bound =>
    rw [Kind.draw, Generator.identifierBetween]
    exact guarded_of_fault Identifier.not_lt_iff refused g
  | reseed seed =>
    cases refused
    rfl
  | boolean | bytes | int | long | double | gaussian | hex | uuid | identifier => cases refused

/-! ### Calls that are not refused -/

/-- Whether a draw fails in one way only, by accepting nothing. -/
def OnlyEndless (x : Attempt α) : Prop :=
  ∀ g failure, (x g).1 = .error failure → failure = .endless

namespace OnlyEndless
omit [Trigonometry]

theorem pure (a : α) : OnlyEndless (Pure.pure a : Attempt α) := by
  intro g failure failed
  cases failed

theorem lift (m : Draw α) : OnlyEndless (liftM m : Attempt α) := by
  intro g failure failed
  cases failed

theorem bind {x : Attempt α} {f : α → Attempt β} (first : OnlyEndless x)
    (rest : ∀ a, OnlyEndless (f a)) : OnlyEndless (x >>= f) := by
  intro g failure failed
  rw [bind_apply] at failed
  cases drawn : (x g).1 with
  | ok a =>
    rw [drawn] at failed
    exact rest a _ failure failed
  | error earlier =>
    rw [drawn] at failed
    cases failed
    exact first g failure drawn

theorem untilAccepted (trial : Draw (Option α)) (rounds : Nat) :
    OnlyEndless (untilAccepted trial rounds) := by
  induction rounds with
  | zero =>
    intro g failure failed
    cases failed
    rfl
  | succ rounds ih =>
    intro g failure failed
    rw [untilAccepted_succ] at failed
    split at failed
    · cases failed
    · exact ih _ failure failed

theorem below (bound : Nat) : OnlyEndless (below bound) := untilAccepted _ _

theorem belowLong (bound : Nat) : OnlyEndless (belowLong bound) :=
  bind (lift _) fun _ => bind (below _) fun _ => pure _

end OnlyEndless

omit [Trigonometry] in
theorem onlyEndless_identifierBelow {bound : Identifier} (positive : bound ≠ .zero) :
    OnlyEndless (identifierBelow bound) := by
  rw [identifierBelow, if_neg (Identifier.isZero_iff_eq.not.mpr positive)]
  exact .untilAccepted _ _

theorem onlyEndless_freshGaussian : OnlyEndless freshGaussian :=
  .bind (.untilAccepted _ _) fun _ => .bind (.lift _) fun _ => .pure _

/-- Nothing is left out: a call that is not refused is not refused by anything that it calls. -/
theorem onlyEndless_draw {kind : Kind} (passed : kind.fault? = none) : OnlyEndless kind.draw := by
  cases kind with
  | next bits =>
    rw [Kind.draw, Generator.next, guarded_of_passed .rfl passed]
    exact .lift _
  | intBelow bound =>
    rw [Kind.draw, Generator.intBelow, guarded_of_passed .rfl passed]
    exact .bind (.below _) fun _ => .pure _
  | intBetween least bound =>
    rw [Kind.draw, Generator.intBetween, guarded_of_passed .rfl passed]
    dsimp only
    split
    · exact .bind (.below _) fun _ => .pure _
    · exact .bind (.belowLong _) fun _ => .pure _
  | longBelow bound =>
    rw [Kind.draw, Generator.longBelow, guarded_of_passed .rfl passed]
    exact .bind (.belowLong _) fun _ => .pure _
  | longBetween least bound =>
    rw [Kind.draw, Generator.longBetween, guarded_of_passed .rfl passed]
    dsimp only
    split
    · exact .bind (.belowLong _) fun _ => .pure _
    · exact .untilAccepted _ _
  | doubleBelow bound =>
    rw [Kind.draw, Generator.doubleBelow, guarded_of_passed not_below_zero_iff passed]
    exact .bind (.lift _) fun _ => .pure _
  | doubleBetween least bound =>
    rw [Kind.draw, Generator.doubleBetween, guarded_of_passed not_lt_iff_undefined passed]
    exact .bind (.lift _) fun _ => .pure _
  | identifierBelow bound =>
    exact onlyEndless_identifierBelow (by simpa [Kind.fault?] using passed)
  | identifierBetween least bound =>
    rw [Kind.draw, Generator.identifierBetween, guarded_of_passed Identifier.not_lt_iff passed]
    refine .bind (onlyEndless_identifierBelow ?_) fun _ => .pure _
    have less : least.toNat < bound.toNat := by simpa [Kind.fault?] using passed
    rw [Ne, Identifier.eq_zero_iff, Identifier.toNat_subtract less.le]
    omega
  | gaussian =>
    intro g failure failed
    cases held : g.spare with
    | some x =>
      rw [Kind.draw, gaussian_of_some held] at failed
      cases failed
    | none =>
      rw [Kind.draw, gaussian_of_none held] at failed
      exact onlyEndless_freshGaussian g failure failed
  | reseed seed => cases passed
  | boolean | bytes | int | long | double | hex | uuid | identifier => exact .lift _

/-! ### Draws in a row -/

theorem drawAll_cons (kind : Kind) (kinds : List Kind) (g : Generator) :
    drawAll (kind :: kinds) g =
      (⟨kind, (kind.draw g).1⟩ :: (drawAll kinds (kind.draw g).2).1,
        (drawAll kinds (kind.draw g).2).2) :=
  rfl

/-- How a call is answered: a fault of its arguments is told, and without one nothing goes wrong but
that no draw is ever accepted. -/
structure Apt (answer : Σ kind : Kind, Except Failure kind.Answer) : Prop where
  refused : ∀ failure, answer.1.fault? = some failure → answer.2 = .error failure
  passed : answer.1.fault? = none → ∀ failure, answer.2 = .error failure → failure = .endless

theorem apt_draw (kind : Kind) (g : Generator) : Apt ⟨kind, (kind.draw g).1⟩ where
  refused _ told := congrArg Prod.fst (draw_of_fault told g)
  passed told failure failed := onlyEndless_draw told g failure failed

/-- How calls in a row go, some of them refused: as if only the others had been made. -/
structure Traceless (calls : List Kind) (g : Generator) : Prop where
  /-- Each call is answered in its turn. -/
  inTurn : (drawAll calls g).1.map Sigma.fst = calls
  apt : ∀ answer ∈ (drawAll calls g).1, Apt answer
  others : (drawAll calls g).1.filter (·.1.fault?.isNone) =
    (drawAll (calls.filter (·.fault?.isNone)) g).1
  left : (drawAll calls g).2 = (drawAll (calls.filter (·.fault?.isNone)) g).2

/-- Whatever is refused leaves no trace: the other calls are answered as if it had not been asked
for, and the generator is left as they leave it, with the deviate that is kept. -/
theorem traceless_drawAll (calls : List Kind) (g : Generator) : Traceless calls g := by
  induction calls generalizing g with
  | nil => exact ⟨rfl, fun answer held => absurd held List.not_mem_nil, rfl, rfl⟩
  | cons kind calls ih =>
    obtain ⟨inTurn, apt, others, left⟩ := ih (kind.draw g).2
    have everyone := List.forall_mem_cons.mpr ⟨apt_draw kind g, apt⟩
    cases told : kind.fault? with
    | some failure =>
      -- The rest is asked of `g` itself, as it is where the call is left out.
      have kept : (kind.draw g).2 = g := congrArg Prod.snd (draw_of_fault told g)
      have dropped : (kind :: calls).filter (·.fault?.isNone) = calls.filter (·.fault?.isNone) :=
        List.filter_cons_of_neg (by simp [told])
      rw [kept] at others left
      refine ⟨congrArg (kind :: ·) inTurn, everyone, ?_, ?_⟩
      · rw [dropped, drawAll_cons, List.filter_cons_of_neg (by simp [told]), kept]
        exact others
      · rw [dropped, drawAll_cons, kept]
        exact left
    | none =>
      have made : (kind :: calls).filter (·.fault?.isNone) =
          kind :: calls.filter (·.fault?.isNone) := List.filter_cons_of_pos (by simp [told])
      refine ⟨congrArg (kind :: ·) inTurn, everyone, ?_, ?_⟩
      · rw [made, drawAll_cons, drawAll_cons, List.filter_cons_of_pos (by simp [told]), others]
      · rw [made, drawAll_cons, drawAll_cons]
        exact left

end VesselRelay.Generator
