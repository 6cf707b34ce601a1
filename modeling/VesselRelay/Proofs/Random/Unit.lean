import VesselRelay.Geo.Sampling
import VesselRelay.Proofs.Binary64.Fraction
import VesselRelay.Proofs.Random.Range

/-!
Uniform doubles stay within their limits. A draw is a fraction of 53 bits below one; scaled to a
range and rounded twice it leaves the range at neither end, even where the length of the range has
itself been rounded up.
-/
namespace VesselRelay.Generator

open Binary64 (number?)

variable {g : Generator} {least bound x : Float} {l b : ℚ}

theorem number?_step : number? step = some (2 ^ (-53 : ℤ)) := by
  decide +kernel

/-- A uniform double is a whole number of steps, fewer than make one. -/
theorem double_spec (g : Generator) :
    ∃ n : ℕ, n < 2 ^ 53 ∧ number? (double g).1 = some (n * 2 ^ (-53 : ℤ) : ℚ) := by
  have high : (top 26 g).1.toNat < 2 ^ 26 := top_lt (by decide) (by decide) g
  have low : (top 27 (top 26 g).2).1.toNat < 2 ^ 27 := top_lt (by decide) (by decide) _
  change ∃ n : ℕ, n < 2 ^ 53 ∧ number? ((((top 26 g).1.toUInt64 <<< 27) +
    (top 27 (top 26 g).2).1.toUInt64).toFloat * step) = some (n * 2 ^ (-53 : ℤ) : ℚ)
  have short : ((((top 26 g).1.toUInt64 <<< 27) +
      (top 27 (top 26 g).2).1.toUInt64)).toNat < 2 ^ 53 := by
    simp [UInt64.toNat_add, UInt64.toNat_shiftLeft, Nat.shiftLeft_eq]
    omega
  obtain ⟨y, exact⟩ := Binary64.exists_magnitude (e := -53) short (by decide) (by decide)
  exact ⟨_, short, (Binary64.beside_mul (Binary64.number?_toFloat short) number?_step).exact exact⟩

theorem double_range (g : Generator) :
    ∃ u, number? (double g).1 = some u ∧ 0 ≤ u ∧ u < 1 := by
  obtain ⟨n, short, exact⟩ := double_spec g
  refine ⟨_, exact, by positivity, ?_⟩
  have step : (0 : ℚ) < 2 ^ (53 : ℤ) := zpow_pos (by norm_num) _
  rw [zpow_neg, ← div_eq_mul_inv, div_lt_one step]
  exact_mod_cast short

/-! ### Draws from a range -/

theorem doubleBelow_fst_eq_ok :
    ((doubleBelow bound) g).1 = .ok x ↔ 0.0 < bound ∧ (double g).1 * bound = x := by
  refine guarded_fst_eq_ok.trans (and_congr not_not ?_)
  change Except.ok ((double g).1 * bound) = Except.ok x ↔ _
  exact ⟨Except.ok.inj, congrArg _⟩

theorem doubleBetween_fst_eq_ok :
    ((doubleBetween least bound) g).1 = .ok x ↔
      least < bound ∧ (double g).1 * (bound - least) + least = x := by
  refine guarded_fst_eq_ok.trans (and_congr not_not ?_)
  change Except.ok ((double g).1 * (bound - least) + least) = Except.ok x ↔ _
  exact ⟨Except.ok.inj, congrArg _⟩

theorem number?_zero_of_pos (exact : number? bound = some b) (positive : 0.0 < bound) : 0 < b :=
  (Binary64.lt_iff_of_number? Binary64.number?_nothing exact).mp positive

theorem doubleBelow_range (exact : number? bound = some b)
    (drawn : ((doubleBelow bound) g).1 = .ok x) : ∃ v, number? x = some v ∧ 0 ≤ v ∧ v ≤ b := by
  obtain ⟨positive, rfl⟩ := doubleBelow_fst_eq_ok.mp drawn
  have above := number?_zero_of_pos exact positive
  obtain ⟨u, unit, nonneg, less⟩ := double_range g
  exact (Binary64.beside_mul unit exact).between Binary64.number?_nothing exact
    (mul_nonneg nonneg above.le) (mul_le_of_le_one_left above.le less.le)

/-- The part of a range that a draw passes over is at most its length, also where the length as it
is reckoned is more than that. -/
theorem drawn_part_le (left : number? least = some l) (right : number? bound = some b)
    (order : l < b) (bounded : (number? (bound - least)).isSome) :
    ∃ r, number? ((double g).1 * (bound - least)) = some r ∧ 0 ≤ r ∧ r ≤ b - l := by
  obtain ⟨c, length⟩ := Option.isSome_iff_exists.mp bounded
  have difference := Binary64.beside_sub right left
  have positive : 0 < b - l := sub_pos.mpr order
  have start : 0 ≤ c := (Binary64.le_iff_of_number? Binary64.number?_nothing length).mp
    (difference.below Binary64.number?_nothing positive.le)
  obtain ⟨n, short, fraction⟩ := double_spec g
  obtain ⟨u, unit, nonneg, less⟩ := double_range g
  obtain ⟨r, part, above, below⟩ := (Binary64.beside_mul unit length).between
    Binary64.number?_nothing length (mul_nonneg nonneg start) (mul_le_of_le_one_left start less.le)
  refine ⟨r, part, above, ?_⟩
  rcases le_or_gt c (b - l) with exact | rounded
  · exact below.trans exact
  · -- Only a length that is not among the least doubles is rounded; the part is then less than it.
    have normal : 2 ^ (-1021 : ℤ) ≤ c := by
      by_contra small
      have exact := Binary64.number?_sub_of_small right left
        (by rw [abs_of_pos positive]; exact rounded.trans (not_le.mp small))
      rw [length, Option.some.injEq] at exact
      exact rounded.ne' exact
    obtain ⟨r', part', less⟩ := Binary64.mul_lt_of_fraction fraction short length
      ((zpow_lt_zpow_right₀ (by norm_num) (by norm_num)).trans_le normal)
    obtain rfl : r = r' := Option.some.inj (part.symm.trans part')
    by_contra more
    exact Binary64.not_lt_of_le (difference.above part (not_le.mp more).le)
      ((Binary64.lt_iff_of_number? part length).mpr less)

theorem doubleBetween_range (left : number? least = some l) (right : number? bound = some b)
    (bounded : (number? (bound - least)).isSome)
    (drawn : ((doubleBetween least bound) g).1 = .ok x) :
    ∃ v, number? x = some v ∧ l ≤ v ∧ v ≤ b := by
  obtain ⟨order, rfl⟩ := doubleBetween_fst_eq_ok.mp drawn
  obtain ⟨r, part, above, below⟩ :=
    drawn_part_le (g := g) left right ((Binary64.lt_iff_of_number? left right).mp order) bounded
  exact (Binary64.beside_add part left).between left right (by linarith) (by linarith)

end VesselRelay.Generator
