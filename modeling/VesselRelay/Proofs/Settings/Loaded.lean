import VesselRelay.Proofs.Binary64.Value
import VesselRelay.Settings.Load

/-!
What an environment is read as. Whatever its variables hold, the numbers that are read are positive;
and the only one that is not finite is infinity, where a text begins with its name.
-/
namespace VesselRelay.Settings

/-! ### One variable -/

/-- The positive whole number that a variable is read as. -/
def whole (raw : Option String) (fallback : ℕ) : ℕ :=
  ((raw.bind fun raw => (int? (beforeNul raw).toList).filter (0 < ·)).map Int.toNat).getD fallback

/-- The positive double that a variable is read as. -/
def real (raw : Option String) (fallback : Float) : Float :=
  (raw.bind fun raw => (real? (beforeNul raw).toList).filter (0.0 < ·)).getD fallback

section
variable {raw : Option String} (variableName : String) (journal : Journal)

theorem positiveInt_fst (fallback : ℕ) :
    (positiveInt variableName raw fallback journal).1 = whole raw fallback := by
  unfold positiveInt whole
  cases raw with
  | none => rfl
  | some raw =>
    dsimp only [Option.map_some, Option.bind_some]
    cases (int? (beforeNul raw).toList).filter (0 < ·) <;> rfl

theorem positiveReal_fst (fallback : Float) :
    (positiveReal variableName raw fallback journal).1 = real raw fallback := by
  unfold positiveReal real
  cases raw with
  | none => rfl
  | some raw =>
    dsimp only [Option.map_some, Option.bind_some]
    cases (real? (beforeNul raw).toList).filter (0.0 < ·) <;> rfl

end

theorem whole_pos {raw : Option String} {fallback : ℕ} (positive : 0 < fallback) :
    0 < whole raw fallback := by
  unfold whole
  cases read : raw.bind fun raw => (int? (beforeNul raw).toList).filter (0 < ·) with
  | none => exact positive
  | some n =>
    obtain ⟨_, _, kept⟩ := Option.bind_eq_some_iff.mp read
    have above : 0 < n := of_decide_eq_true (Option.filter_eq_some_iff.mp kept).2
    exact Int.lt_toNat.mpr above

theorem real_pos {raw : Option String} {fallback : Float} (positive : 0.0 < fallback) :
    0.0 < real raw fallback := by
  unfold real
  cases read : raw.bind fun raw => (real? (beforeNul raw).toList).filter (0.0 < ·) with
  | none => exact positive
  | some x =>
    obtain ⟨_, _, kept⟩ := Option.bind_eq_some_iff.mp read
    exact of_decide_eq_true (Option.filter_eq_some_iff.mp kept).2

/-! ### Infinity -/

/-- Whether a text begins with the name of infinity, after blanks and a sign that is no minus. -/
def namesInfinity (cs : List Char) : Bool :=
  !(signed cs).1 && startsWith ['i', 'n', 'f'] (signed cs).2

theorem isFinite_held? {m : Magnitude} {x : Float} (held : m.held? = some x) : x.isFinite := by
  unfold Magnitude.held? at held
  dsimp only at held
  split at held
  · split at held
    · rename_i fits
      cases held
      unfold exact at fits
      rw [Binary64.isFinite_eq]
      split at fits
      · cases fits
      · rename_i finite
        rw [finite]
        rfl
    · cases held
  · split at held
    · rename_i finite
      cases held
      exact finite
    · cases held

theorem isFinite_withSign {x : Float} (finite : x.isFinite) (minus : Bool) :
    (Binary64.withSign minus x).isFinite := by
  rw [Binary64.isFinite_eq] at finite ⊢
  cases minus with
  | false => exact finite
  | true => rwa [Binary64.withSign, if_pos rfl, Binary64.parts?_neg]

/-- Only where it is named is a positive double infinity. -/
theorem isFinite_real? {cs : List Char} {x : Float} (read : real? cs = some x)
    (positive : 0.0 < x) : x.isFinite = !namesInfinity cs := by
  unfold real? at read
  unfold namesInfinity
  generalize signed cs = text at *
  obtain ⟨minus, rest⟩ := text
  dsimp only at *
  cases named : startsWith ['i', 'n', 'f'] rest with
  | true =>
    rw [if_pos named] at read
    cases read
    cases minus with
    | false => decide +kernel
    | true => exact absurd positive (by decide +kernel)
  | false =>
    rw [if_neg (by rw [named]; decide)] at read
    rw [Bool.and_false, Bool.not_false]
    split at read
    · cases read
      exact absurd positive (by decide +kernel)
    · obtain ⟨m, _, read⟩ := Option.bind_eq_some_iff.mp read
      obtain ⟨y, held, ⟨⟩⟩ := Option.bind_eq_some_iff.mp read
      exact isFinite_withSign (isFinite_held? held) minus

theorem real?_of_namesInfinity {cs : List Char} (named : namesInfinity cs) :
    real? cs = some (1.0 / 0.0) := by
  unfold namesInfinity at named
  unfold real?
  generalize signed cs = text at *
  obtain ⟨minus, rest⟩ := text
  obtain ⟨plus, word⟩ := Bool.and_eq_true_iff.mp named
  dsimp only at *
  obtain rfl : minus = false := by simpa using plus
  rw [if_pos word]
  rfl

theorem isFinite_real (raw : Option String) {fallback : Float} (finite : fallback.isFinite) :
    (real raw fallback).isFinite = !raw.any fun raw => namesInfinity (beforeNul raw).toList := by
  unfold real
  cases raw with
  | none => exact finite
  | some raw =>
    dsimp only [Option.bind_some, Option.any_some]
    cases read : (real? (beforeNul raw).toList).filter (0.0 < ·) with
    | some x =>
      obtain ⟨read, positive⟩ := Option.filter_eq_some_iff.mp read
      exact isFinite_real? read (of_decide_eq_true positive)
    | none =>
      have unnamed : namesInfinity (beforeNul raw).toList = false := by
        by_contra named
        rw [real?_of_namesInfinity (Bool.eq_true_of_not_eq_false named)] at read
        exact absurd read (by decide +kernel)
      rw [unnamed]
      exact finite

/-! ### All of them -/

section
variable (env : Environment) (journal : Journal)

theorem load_fst : (load env journal).1 =
    { logDirectory := (nonemptyText env.logDirectory).getD "logs"
      logLevel := nonemptyText env.logLevel
      shards := whole env.shards 16
      timeout := real env.timeout 300.0
      sweepRate := real env.sweepRate 1.0
      vessels := whole env.vessels 25
      regionRadius := real env.regionRadius 20000.0 } := by
  change Settings.mk _ _ (positiveInt _ _ _ _).1 (positiveReal _ _ _ _).1 (positiveReal _ _ _ _).1
    (positiveInt _ _ _ _).1 (positiveReal _ _ _ _).1 = _
  simp only [positiveInt_fst, positiveReal_fst]

end

end VesselRelay.Settings
