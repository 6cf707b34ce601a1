import VesselRelay.Proofs.Identifier.Value
import VesselRelay.Random.Bounded
import VesselRelay.Random.Identifier

/-!
A bounded draw that returns has returned a number of its range, whatever the generator. A stretch
that is halved stays within the bound, and in the end it is short and not empty.
-/
namespace VesselRelay.Generator

variable {α β : Type} {g : Generator}

/-! ### Draws that return -/

theorem bind_apply (x : Attempt α) (f : α → Attempt β) (g : Generator) :
    (x >>= f) g =
      (match (x g).1 with
      | .ok a => f a (x g).2
      | .error failure => (.error failure, (x g).2)) := by
  change ExceptT.bindCont f (x g).1 (x g).2 = _
  cases (x g).1 <;> rfl

theorem bind_fst_eq_ok {x : Attempt α} {f : α → Attempt β} {b : β} :
    ((x >>= f) g).1 = .ok b ↔ ∃ a, (x g).1 = .ok a ∧ (f a (x g).2).1 = .ok b := by
  rw [bind_apply]
  cases (x g).1 with
  | error failure => simp
  | ok a => simp

theorem untilAccepted_succ (trial : Draw (Option α)) (rounds : Nat) (g : Generator) :
    untilAccepted trial (rounds + 1) g =
      (match (trial g).1 with
      | some a => (.ok a, (trial g).2)
      | none => untilAccepted trial rounds (trial g).2) := by
  have lifted : (liftM trial : Attempt (Option α)) g = (.ok (trial g).1, (trial g).2) := rfl
  rw [untilAccepted, bind_apply, lifted]
  cases (trial g).1 <;> rfl

/-- A trial is made at least once. -/
theorem untilAccepted_of_some {trial : Draw (Option α)} {a : α}
    (accepted : (trial g).1 = some a) :
    untilAccepted trial period g = (.ok a, (trial g).2) := by
  obtain ⟨rounds, more⟩ : ∃ rounds, period = rounds + 1 :=
    Nat.exists_eq_succ_of_ne_zero (Nat.pow_pos (by decide)).ne'
  rw [more, untilAccepted_succ, accepted]

/-- What a repeated trial returns, the trial has accepted in some state of the generator. -/
theorem accepted_of_untilAccepted {trial : Draw (Option α)} {rounds : Nat} {a : α}
    (returned : (untilAccepted trial rounds g).1 = .ok a) : ∃ h, (trial h).1 = some a := by
  induction rounds generalizing g with
  | zero => cases returned
  | succ rounds ih =>
    rw [untilAccepted_succ] at returned
    cases tried : (trial g).1 with
    | none =>
      rw [tried] at returned
      exact ih returned
    | some b =>
      rw [tried] at returned
      cases returned
      exact ⟨g, tried⟩

/-- A draw behind a check of its arguments returns only where they pass it. -/
theorem guarded_fst_eq_ok {p : Prop} [Decidable p] {failure : Failure} {x : Unit → Attempt α}
    {a : α} :
    ((if p then throw failure >>= x else x ()) g).1 = .ok a ↔ ¬ p ∧ (x () g).1 = .ok a := by
  by_cases refused : p
  · rw [if_pos refused]
    constructor
    · intro returned
      cases returned
    · exact fun passed => absurd refused passed.1
  · rw [if_neg refused]
    exact (and_iff_right refused).symm

theorem top_lt {bits : Nat} (positive : 0 < bits) (fits : bits ≤ 32) (g : Generator) :
    (top bits g).1.toNat < 2 ^ bits := by
  change ((word g).1 >>> UInt32.ofNat (32 - bits)).toNat < 2 ^ bits
  have word := (word g).1.toNat_lt
  rw [UInt32.toNat_shiftRight, UInt32.toNat_ofNat', Nat.shiftRight_eq_div_pow,
    Nat.div_lt_iff_lt_mul (Nat.two_pow_pos _), ← Nat.pow_add]
  have amount : bits + (32 - bits) % 2 ^ 32 % 32 = 32 := by omega
  rw [amount]
  exact word

/-! ### Up to 31 bits -/

theorem accept_lt {bound bits value : Nat} (positive : 0 < bound) (drawn : bits < 2 ^ 31)
    (accepted : accept bound bits = some value) : value < bound := by
  unfold accept at accepted
  split at accepted
  · cases accepted
    rw [Nat.shiftRight_eq_div_pow, Nat.div_lt_iff_lt_mul (Nat.two_pow_pos _)]
    exact Nat.mul_lt_mul_of_pos_left drawn positive
  · dsimp only at accepted
    split at accepted
    · cases accepted
      exact Nat.mod_lt _ positive
    · cases accepted

theorem below_lt {bound value : Nat} (positive : 0 < bound)
    (returned : (below bound g).1 = .ok value) : value < bound := by
  obtain ⟨h, accepted⟩ := accepted_of_untilAccepted returned
  exact accept_lt positive (top_lt (by decide) (by decide) h) accepted

/-! ### Stretches -/

theorem Stretch.halve_within (s : Stretch) (bits : Nat) :
    s.offset ≤ (s.halve bits).offset ∧
    (s.halve bits).offset + (s.halve bits).length ≤ s.offset + s.length := by
  simp only [Stretch.halve]
  split <;> split <;> omega

theorem Stretch.halve_pos (s : Stretch) (bits : Nat) (long : ¬ s.length < shortLength) :
    0 < (s.halve bits).length := by
  unfold shortLength at long
  simp only [Stretch.halve]
  split <;> omega

theorem shorten_of_short {s : Stretch} (short : s.length < shortLength) (g : Generator) :
    shorten s g = (s, g) := by
  rw [shorten, dif_pos short]
  rfl

theorem shorten_of_long {s : Stretch} (long : ¬ s.length < shortLength) (g : Generator) :
    shorten s g = shorten (s.halve (top 2 g).1.toNat) (top 2 g).2 := by
  rw [shorten, dif_neg long]
  rfl

/-- Halving stays within the stretch that it starts from, and ends with a short one. -/
theorem shorten_within (s : Stretch) (g : Generator) :
    s.offset ≤ (shorten s g).1.offset ∧
    (shorten s g).1.offset + (shorten s g).1.length ≤ s.offset + s.length ∧
    (shorten s g).1.length < shortLength := by
  induction s using shorten.induct generalizing g with
  | case1 s short =>
    rw [shorten_of_short short]
    exact ⟨Nat.le_refl _, Nat.le_refl _, short⟩
  | case2 s long ih =>
    rw [shorten_of_long long]
    obtain ⟨after, before, short⟩ := ih (top 2 g).1 (top 2 g).2
    have inside := s.halve_within (top 2 g).1.toNat
    exact ⟨inside.1.trans after, before.trans inside.2, short⟩

theorem shorten_pos {s : Stretch} (positive : 0 < s.length) (g : Generator) :
    0 < (shorten s g).1.length := by
  induction s using shorten.induct generalizing g with
  | case1 s short =>
    rw [shorten_of_short short]
    exact positive
  | case2 s long ih =>
    rw [shorten_of_long long]
    exact ih _ (s.halve_pos _ long) _

theorem belowLong_lt {bound value : Nat} (positive : 0 < bound)
    (returned : (belowLong bound g).1 = .ok value) : value < bound := by
  obtain ⟨s, halved, went⟩ := bind_fst_eq_ok.mp returned
  cases halved
  obtain ⟨drawn, within, added⟩ := bind_fst_eq_ok.mp went
  cases added
  have inside := shorten_within ⟨0, bound⟩ g
  have drawn_lt := below_lt (shorten_pos positive g) within
  change _ ∧ _ ≤ 0 + bound ∧ _ at inside
  omega

/-! ### Signed ranges -/

/-- A bound that 31 bits hold is drawn below as it is. -/
theorem intBelow_ofNat (positive : 0 < n) (fits : n < 2 ^ 31) (g : Generator) :
    intBelow (Int32.ofNat n) g = (below n >>= fun x => pure (Int32.ofNat x)) g := by
  have number : (Int32.ofNat n).toInt = n := Int32.toInt_ofNat_of_lt fits
  have passed : ¬ Int32.ofNat n ≤ 0 := by
    rw [Int32.le_iff_toInt_le, number]
    change ¬ (n : Int) ≤ 0
    omega
  rw [intBelow, if_neg passed, number]
  rfl

theorem intBelow_range {bound v : Int32} (returned : (intBelow bound g).1 = .ok v) :
    0 ≤ v ∧ v < bound := by
  obtain ⟨passed, drawn⟩ := guarded_fst_eq_ok.mp returned
  obtain ⟨n, within, told⟩ := bind_fst_eq_ok.mp drawn
  cases told
  rw [Int32.le_iff_toInt_le] at passed
  change ¬ bound.toInt ≤ 0 at passed
  have inside := below_lt (by omega) within
  have limit := bound.toInt_lt
  have same : (Int32.ofNat n).toInt = n := Int32.toInt_ofNat_of_lt (by omega)
  rw [Int32.le_iff_toInt_le, Int32.lt_iff_toInt_lt, same]
  change 0 ≤ (n : Int) ∧ _
  omega

theorem intBetween_range {least bound v : Int32}
    (returned : (intBetween least bound g).1 = .ok v) : least ≤ v ∧ v < bound := by
  obtain ⟨passed, drawn⟩ := guarded_fst_eq_ok.mp returned
  rw [Int32.le_iff_toInt_le] at passed
  have inside : ∃ n : Nat, n < (bound.toInt - least.toInt).toNat ∧
      v = Int32.ofInt (least.toInt + n) := by
    dsimp only at drawn
    split at drawn
    · obtain ⟨n, within, told⟩ := bind_fst_eq_ok.mp drawn
      cases told
      exact ⟨n, below_lt (by omega) within, rfl⟩
    · obtain ⟨n, within, told⟩ := bind_fst_eq_ok.mp drawn
      cases told
      exact ⟨n, belowLong_lt (by omega) within, rfl⟩
  obtain ⟨n, below, rfl⟩ := inside
  have lowest := least.le_toInt
  have limit := bound.toInt_lt
  rw [Int32.le_iff_toInt_le, Int32.lt_iff_toInt_lt, Int32.toInt_ofInt_of_le (by omega) (by omega)]
  omega

theorem longBelow_range {bound v : Int64} (returned : (longBelow bound g).1 = .ok v) :
    0 ≤ v ∧ v < bound := by
  obtain ⟨passed, drawn⟩ := guarded_fst_eq_ok.mp returned
  obtain ⟨n, within, told⟩ := bind_fst_eq_ok.mp drawn
  cases told
  rw [Int64.le_iff_toInt_le] at passed
  change ¬ bound.toInt ≤ 0 at passed
  have inside := belowLong_lt (by omega) within
  have limit := bound.toInt_lt
  have same : (Int64.ofNat n).toInt = n := Int64.toInt_ofNat_of_lt (by omega)
  rw [Int64.le_iff_toInt_le, Int64.lt_iff_toInt_lt, same]
  change 0 ≤ (n : Int) ∧ _
  omega

theorem longBetween_range {least bound v : Int64}
    (returned : (longBetween least bound g).1 = .ok v) : least ≤ v ∧ v < bound := by
  obtain ⟨passed, drawn⟩ := guarded_fst_eq_ok.mp returned
  rw [Int64.le_iff_toInt_le] at passed
  dsimp only at drawn
  split at drawn
  · obtain ⟨n, within, told⟩ := bind_fst_eq_ok.mp drawn
    cases told
    have inside := belowLong_lt (by omega) within
    have lowest := least.le_toInt
    have limit := bound.toInt_lt
    rw [Int64.le_iff_toInt_le, Int64.lt_iff_toInt_lt,
      Int64.toInt_ofInt_of_le (by omega) (by omega)]
    omega
  · obtain ⟨h, accepted⟩ := accepted_of_untilAccepted drawn
    change (if least ≤ (long h).1 ∧ (long h).1 < bound then some (long h).1 else none) = _
      at accepted
    obtain ⟨inside, same⟩ := Option.ite_none_right_eq_some.mp accepted
    cases same
    exact inside

/-! ### Identifiers -/

theorem identifierBelow_range {bound v : Identifier}
    (returned : (identifierBelow bound g).1 = .ok v) : v < bound := by
  obtain ⟨passed, drawn⟩ := guarded_fst_eq_ok.mp returned
  obtain ⟨h, accepted⟩ := accepted_of_untilAccepted drawn
  obtain ⟨_, less⟩ := Option.filter_eq_some_iff.mp accepted
  exact of_decide_eq_true less

theorem identifierBetween_range {least bound v : Identifier}
    (returned : (identifierBetween least bound g).1 = .ok v) : ¬ v < least ∧ v < bound := by
  obtain ⟨passed, drawn⟩ := guarded_fst_eq_ok.mp returned
  obtain ⟨n, within, told⟩ := bind_fst_eq_ok.mp drawn
  cases told
  have inside := identifierBelow_range within
  rw [not_not, Identifier.lt_iff_toNat_lt] at passed
  rw [Identifier.lt_iff_toNat_lt, Identifier.toNat_subtract (Nat.le_of_lt passed)] at inside
  have limit := bound.toNat_lt
  rw [Identifier.lt_iff_toNat_lt, Identifier.lt_iff_toNat_lt, Identifier.toNat_add (by omega)]
  omega

end VesselRelay.Generator
