import Mathlib.Probability.Distributions.Uniform
import Mathlib.Tactic.FieldSimp
import Mathlib.Tactic.Linarith
import VesselRelay.Proofs.Random.Range

/-!
Draws by repeated trials. A trial takes equally likely draws to numbers or rejects them, and it is
repeated until it accepts. Where each number comes from the same share of the draws, all numbers are
equally likely, however often the trial is repeated; and the share of the draws that are rejected,
to the power of the repetitions, is the chance that there is no number yet.
-/
namespace VesselRelay.Generator

open scoped Finset ENNReal

/-! ### Trials from any source -/

/-- Repeats a trial until it accepts, but not more often than so many times. -/
def retry {m : Type → Type} [Monad m] {α : Type} (trial : m (Option α)) : ℕ → m (Option α)
  | 0 => return none
  | rounds + 1 => do
    match ← trial with
    | some a => return some a
    | none => retry trial rounds

section Generated
variable {α : Type} {trial : Draw (Option α)} {g : Generator}

theorem retry_of_some {a : α} (accepted : (trial g).1 = some a) (rounds : ℕ) :
    retry trial (rounds + 1) g = (some a, (trial g).2) := by
  change (match (trial g).1 with | some a => pure (some a) | none => retry trial rounds : Draw _)
    (trial g).2 = _
  rw [accepted]
  rfl

theorem retry_of_none (rejected : (trial g).1 = none) (rounds : ℕ) :
    retry trial (rounds + 1) g = retry trial rounds (trial g).2 := by
  change (match (trial g).1 with | some a => pure (some a) | none => retry trial rounds : Draw _)
    (trial g).2 = _
  rw [rejected]

/-- A generator is such a source. It gives up where no trial of its period accepts. -/
theorem untilAccepted_eq_retry (trial : Draw (Option α)) (rounds : ℕ) (g : Generator) :
    untilAccepted trial rounds g =
      ((match (retry trial rounds g).1 with
        | some a => .ok a
        | none => .error .endless), (retry trial rounds g).2) := by
  induction rounds generalizing g with
  | zero => rfl
  | succ rounds ih =>
    rw [untilAccepted_succ]
    cases tried : (trial g).1 with
    | some a => rw [retry_of_some tried]
    | none => rw [retry_of_none tried, ih]

end Generated

/-! ### Trials at chance -/

section Chance
variable {α : Type} (p : PMF (Option α)) (rounds : ℕ)

theorem retry_succ_apply (x : Option α) : retry p (rounds + 1) x =
    tsum fun y =>
      p y * (match y with | some a => PMF.pure (some a) | none => retry p rounds) x :=
  PMF.bind_apply ..

theorem retry_succ_some (a : α) :
    retry p (rounds + 1) (some a) = p (some a) + p none * retry p rounds (some a) := by
  classical
  rw [retry_succ_apply, tsum_eq_sum (s := {some a, none})]
  · rw [Finset.sum_pair (by simp)]
    simp
  · intro y outside
    cases y with
    | none => simp at outside
    | some b =>
      have apart : some a ≠ some b := fun same => by simp [same] at outside
      simp [PMF.pure_apply, apart]

theorem retry_succ_none : retry p (rounds + 1) none = p none * retry p rounds none := by
  classical
  rw [retry_succ_apply, tsum_eq_single none]
  intro y some
  cases y with
  | none => exact absurd rfl some
  | some b => simp [PMF.pure_apply]

/-- All trials are rejected. -/
theorem retry_none : retry p rounds none = p none ^ rounds := by
  induction rounds with
  | zero =>
    change PMF.pure none none = _
    simp
  | succ rounds ih => rw [retry_succ_none, ih, pow_succ']

end Chance

/-! ### Equal shares -/

/-- Numbers are counted by counting off those of a property one by one. -/
theorem card_filter_range {p : ℕ → Prop} [DecidablePred p] {size count : ℕ} {nth : ℕ → ℕ}
    (apart : Function.Injective nth) (iff : ∀ d, d < size ∧ p d ↔ ∃ j < count, nth j = d) :
    #{d ∈ Finset.range size | p d} = count := by
  have counted : ({d ∈ Finset.range size | p d} : Finset ℕ) = (Finset.range count).image nth := by
    ext d
    simpa using iff d
  rw [counted, Finset.card_image_of_injective _ apart, Finset.card_range]

/-- Each number below a bound comes from the same share of the draws. All other draws are
rejected. -/
structure Evenly {δ : Type} (draws : Finset δ) (outcome : δ → Option ℕ) (bound share : ℕ) :
    Prop where
  each : ∀ v < bound, #{d ∈ draws | outcome d = some v} = share
  below : ∀ d ∈ draws, ∀ v, outcome d = some v → v < bound

namespace Evenly
variable {δ : Type} {draws : Finset δ} {outcome : δ → Option ℕ} {bound share : ℕ}

theorem card_accepted (evenly : Evenly draws outcome bound share) :
    #{d ∈ draws | (outcome d).isSome} = bound * share := by
  have into : ∀ d ∈ ({d ∈ draws | (outcome d).isSome} : Finset δ),
      (outcome d).getD 0 ∈ Finset.range bound := by
    intro d accepted
    obtain ⟨member, isSome⟩ := Finset.mem_filter.mp accepted
    obtain ⟨v, same⟩ := Option.isSome_iff_exists.mp isSome
    rw [same, Option.getD_some, Finset.mem_range]
    exact evenly.below d member v same
  have fibre : ∀ v ∈ Finset.range bound,
      #{d ∈ ({d ∈ draws | (outcome d).isSome} : Finset δ) | (outcome d).getD 0 = v} = share := by
    intro v within
    rw [← evenly.each v (Finset.mem_range.mp within), Finset.filter_filter]
    congr 1
    apply Finset.filter_congr
    intro d _
    cases outcome d <;> simp
  rw [Finset.card_eq_sum_card_fiberwise into, Finset.sum_congr rfl fibre, Finset.sum_const,
    Finset.card_range, smul_eq_mul]

theorem card_rejected (evenly : Evenly draws outcome bound share) :
    #{d ∈ draws | outcome d = none} + bound * share = draws.card := by
  have rest : #{d ∈ draws | ¬ outcome d = none} = bound * share := by
    rw [← evenly.card_accepted]
    simp only [← Option.isSome_iff_ne_none]
  rw [← rest]
  exact Finset.card_filter_add_card_filter_not _

/-- What a trial comes to where the draws are equally likely. -/
noncomputable def chance (draws : Finset δ) (some : draws.Nonempty) (outcome : δ → Option ℕ) :
    PMF (Option ℕ) :=
  (PMF.uniformOfFinset draws some).map outcome

theorem chance_apply (some : draws.Nonempty) (x : Option ℕ) :
    (chance draws some outcome x).toReal = #{d ∈ draws | outcome d = x} / draws.card := by
  classical
  rw [← PMF.toOuterMeasure_apply_singleton, chance, PMF.toOuterMeasure_map_apply,
    PMF.toOuterMeasure_uniformOfFinset_apply]
  simp

section Law
variable (evenly : Evenly draws outcome bound share) (some : draws.Nonempty) (rounds : ℕ)
include evenly

/-- Of the chance that a trial accepts, each number has an equal part. -/
theorem chance_some {v : ℕ} (within : v < bound) :
    (chance draws some outcome (Option.some v)).toReal =
      (1 - (chance draws some outcome none).toReal) / bound := by
  have size : (draws.card : ℝ) ≠ 0 := by simpa using some.ne_empty
  have positive : (bound : ℝ) ≠ 0 := by
    have : bound ≠ 0 := by omega
    exact_mod_cast this
  have total : (#{d ∈ draws | outcome d = none} : ℝ) + bound * share = draws.card := by
    exact_mod_cast evenly.card_rejected
  rw [chance_apply, chance_apply, evenly.each v within]
  field_simp
  linarith

/-- The numbers below the bound are equally likely, and none is drawn only where every trial is
rejected. -/
theorem retry_law :
    (∀ v < bound, (retry (chance draws some outcome) rounds (Option.some v)).toReal =
      (1 - (#{d ∈ draws | outcome d = none} / draws.card : ℝ) ^ rounds) / bound) ∧
    (retry (chance draws some outcome) rounds none).toReal =
      (#{d ∈ draws | outcome d = none} / draws.card : ℝ) ^ rounds := by
  rw [← chance_apply some none]
  constructor
  · intro v within
    induction rounds with
    | zero =>
      change (PMF.pure none (Option.some v) : ℝ≥0∞).toReal = _
      simp
    | succ rounds ih =>
      have finite := ENNReal.mul_ne_top ((chance draws some outcome).apply_ne_top none)
        ((retry (chance draws some outcome) rounds).apply_ne_top (Option.some v))
      rw [retry_succ_some, ENNReal.toReal_add (PMF.apply_ne_top _ _) finite, ENNReal.toReal_mul, ih,
        evenly.chance_some some within]
      ring
  · rw [retry_none, ENNReal.toReal_pow]

end Law

end Evenly

end VesselRelay.Generator
