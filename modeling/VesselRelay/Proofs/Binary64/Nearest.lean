import VesselRelay.Proofs.Binary64.Number

/-!
What a ratio is rounded to is nearest to it of all finite doubles, and of two that are equally near
the one whose significand is even.
-/
namespace VesselRelay.Binary64

/-- Whether a double is the nearest to a number. Of two equally near it is the even one. -/
structure NearestTo (x : Float) (q : ℚ) : Prop where
  near : ∃ a, number? x = some a ∧ ∀ y b, number? y = some b → |a - q| ≤ |b - q|
  even : ∃ p a, parts? x = some p ∧ number? x = some a ∧
    ∀ y b, number? y = some b → b ≠ a → |b - q| = |a - q| → p.significand % 2 = 0

variable {x y : Float} {p : Parts} {q a b : ℚ}

/-- A double that is the number is nearest to it. -/
theorem nearestTo_of_eq (exact : number? x = some q) : NearestTo x q := by
  obtain ⟨p, finite, _⟩ := Option.map_eq_some_iff.mp exact
  refine ⟨⟨q, exact, fun y b _ => ?_⟩, p, q, finite, exact, fun y b _ apart same => ?_⟩
  · rw [sub_self, abs_zero]
    exact abs_nonneg _
  · rw [sub_self, abs_zero, abs_eq_zero, sub_eq_zero] at same
    exact absurd same apart

/-! ### Steps -/

/-- A number that is rounded to a whole number is nearer to no other one. -/
theorem Rounds.nearest {u : ℚ} {m : ℕ} (rounds : Rounds u m) (j : ℤ) :
    |m - u| ≤ |j - u| ∧ (j ≠ m → |j - u| = |m - u| → m % 2 = 0) := by
  obtain ⟨low, high, strict⟩ := rounds
  have close : |(m : ℚ) - u| ≤ 1 / 2 := abs_le.mpr ⟨by linarith, by linarith⟩
  by_cases same : j = m
  · rw [same, Int.cast_natCast]
    exact ⟨le_rfl, fun apart => absurd rfl apart⟩
  have far : 1 / 2 ≤ |(j : ℚ) - u| := by
    rcases Int.lt_or_gt_of_ne same with less | more
    · have step : (j : ℚ) + 1 ≤ m := by exact_mod_cast less
      rw [abs_sub_comm]
      exact (by linarith : 1 / 2 ≤ u - j).trans (le_abs_self _)
    · have step : (m : ℚ) + 1 ≤ j := by exact_mod_cast more
      exact (by linarith : 1 / 2 ≤ j - u).trans (le_abs_self _)
  refine ⟨close.trans far, fun _ equal => ?_⟩
  by_contra odd
  have inside := strict (Nat.mod_two_ne_zero.mp odd)
  have within : |(m : ℚ) - u| < 1 / 2 := abs_lt.mpr ⟨by linarith, by linarith⟩
  linarith

/-- Magnitudes whose last bit is not below another are made of its steps. -/
theorem Parts.exists_steps {e : ℤ} (coarse : e ≤ p.exponent) : ∃ j : ℕ, p.value = j * 2 ^ e :=
  ⟨_, p.value_eq_whole e coarse⟩

/-- Some step lies between a number and a double, or is the double. -/
theorem exists_step (positive : 0 < q) (exact : number? y = some b) :
    ∃ j : ℤ, |j * 2 ^ lastOf q - q| ≤ |b - q| ∧
      (|j * 2 ^ lastOf q - q| = |b - q| → b = j * 2 ^ lastOf q) := by
  rcases le_or_gt b 0 with under | above
  · refine ⟨0, ?_, fun same => ?_⟩ <;> rw [Int.cast_zero, zero_mul] at *
    all_goals rw [abs_of_neg (by linarith), abs_of_neg (by linarith)] at *
    all_goals linarith
  obtain ⟨r, canonical, -, rfl⟩ := exists_bits_of_pos exact above
  by_cases coarse : lastOf q ≤ r.exponent
  · obtain ⟨j, steps⟩ := r.exists_steps coarse
    refine ⟨j, ?_, fun _ => ?_⟩ <;> rw [Int.cast_natCast, ← steps]
  · -- A finer double is of a lower binade, and the first step of the number's own is between.
    have fine := not_le.mp coarse
    have least := canonical.least
    have normal : -1022 ≤ Int.log 2 q := by
      unfold lastOf at fine
      omega
    have step : (0 : ℚ) < 2 ^ lastOf q := zpow_pos (by norm_num) _
    have start : (2 ^ 52 : ℕ) * 2 ^ lastOf q ≤ q :=
      (le_div_iff₀ step).mp (le_div_lastOf positive normal)
    have below : r.value < (2 ^ 52 : ℕ) * 2 ^ lastOf q := by
      have short : (r.significand : ℚ) < 2 ^ 53 := by exact_mod_cast canonical.short
      calc r.value < 2 ^ 53 * 2 ^ r.exponent := by
            unfold Parts.value
            gcongr
        _ = (2 ^ 52 : ℕ) * 2 ^ (r.exponent + 1) := by
            rw [zpow_add_one₀ (by norm_num)]
            push_cast
            ring
        _ ≤ (2 ^ 52 : ℕ) * 2 ^ lastOf q := by
            gcongr
            · norm_num
            · omega
    refine ⟨(2 ^ 52 : ℕ), ?_, fun same => ?_⟩ <;> rw [Int.cast_natCast] at *
    all_goals rw [abs_of_nonpos (by linarith), abs_of_neg (by linarith)] at *
    all_goals linarith

/-! ### The least double -/

/-- Whether a number is made of steps of the least double, as all doubles are. -/
def MultipleOfLeast (q : ℚ) : Prop := ∃ k : ℕ, q = k * 2 ^ (-1074 : ℤ)

theorem Parts.Canonical.multipleOfLeast (canonical : p.Canonical) : MultipleOfLeast p.value :=
  p.exists_steps canonical.least

theorem exists_multiple (exact : number? x = some a) : ∃ j : ℤ, a = j * 2 ^ (-1074 : ℤ) := by
  obtain ⟨p, finite, rfl⟩ := Option.map_eq_some_iff.mp exact
  obtain ⟨k, steps⟩ := (canonical_of_parts? finite).multipleOfLeast
  cases negative x with
  | true => exact ⟨-k, by simp [steps]⟩
  | false => exact ⟨k, by simpa using steps⟩

/-- Less than half of the least double away, a double is nearest. -/
theorem nearestTo_of_close (exact : number? x = some a)
    (close : 2 * |a - q| < 2 ^ (-1074 : ℤ)) : NearestTo x q := by
  obtain ⟨p, finite, _⟩ := Option.map_eq_some_iff.mp exact
  obtain ⟨i, steps⟩ := exists_multiple exact
  have farther (y : Float) (b : ℚ) (other : number? y = some b) (apart : b ≠ a) :
      |a - q| < |b - q| := by
    obtain ⟨j, steps'⟩ := exists_multiple other
    have least : (0 : ℚ) < 2 ^ (-1074 : ℤ) := zpow_pos (by norm_num) _
    have distinct : j - i ≠ 0 := by
      intro same
      obtain rfl : j = i := by omega
      exact apart (steps'.trans steps.symm)
    have one : (1 : ℚ) ≤ |((j - i : ℤ) : ℚ)| := by exact_mod_cast Int.one_le_abs distinct
    have step : 2 ^ (-1074 : ℤ) ≤ |b - a| := by
      rw [steps', steps, ← sub_mul, abs_mul, abs_of_pos least, ← Int.cast_sub]
      exact le_mul_of_one_le_left least.le one
    have triangle : |b - a| ≤ |b - q| + |a - q| := by
      rw [abs_sub_comm a q]
      exact abs_sub_le b q a
    linarith
  refine ⟨⟨a, exact, fun y b other => ?_⟩, p, a, finite, exact, fun y b other apart same => ?_⟩
  · by_cases apart : b = a
    · rw [apart]
    · exact (farther y b other apart).le
  · exact absurd same (farther y b other apart).ne'

/-! ### Rounding -/

section
variable {n d : ℕ}

/-- The steps that a ratio is rounded to are a double, unless it is beyond all of them. -/
theorem exists_parts_nearestBits (nonzero : 0 < n) (pos : 0 < d) (within : (n / d : ℚ) < limit) :
    ∃ (m : ℕ) (p : Parts), Rounds (n / d / 2 ^ lastOf (n / d)) m ∧ p.Canonical ∧
      nearestBits n d = p.bits ∧ p.value = m * 2 ^ lastOf (n / d) ∧
      (m % 2 = 0 → p.significand % 2 = 0) := by
  have positive : (0 : ℚ) < n / d := by positivity
  have finite : nearestBits n d ≠ 2047 * 2 ^ 52 := by
    rw [ne_eq, nearestBits_eq_infinity_iff pos, not_le]
    exact within
  obtain ⟨m, rounds, bits⟩ := nearestBits_spec nonzero pos
  have short := rounds.le_of_ge (div_lastOf_lt (n / d : ℚ)).le
  have least : -1074 ≤ lastOf (n / d) := by
    unfold lastOf
    omega
  have full : lastOf (n / d) = -1074 ∨ 2 ^ 52 ≤ m := by
    by_cases normal : -1022 ≤ Int.log 2 (n / d : ℚ)
    · exact .inr (rounds.le_of_le (le_div_lastOf positive normal))
    · left
      unfold lastOf
      omega
  rw [bits] at finite ⊢
  generalize lastOf (n / d) = e at *
  refine ⟨m, ?_⟩
  by_cases carried : m = 2 ^ 53
  · refine ⟨⟨2 ^ 52, e + 1⟩, rounds, ⟨?_, ?_, ?_, .inr ?_⟩, ?_, ?_, fun _ => ?_⟩
    all_goals simp only [Parts.bits, Parts.value]
    all_goals first
      | omega
      | rw [carried, zpow_add_one₀ (by norm_num)]
        push_cast
        ring
  · refine ⟨⟨m, e⟩, rounds, ⟨?_, ?_, ?_, ?_⟩, ?_, rfl, fun even => even⟩
    all_goals simp only [Parts.bits]
    all_goals omega

/-- Unless it is beyond every double, a ratio is rounded to the nearest one. -/
theorem nearestTo_nearest (pos : 0 < d) (within : (n / d : ℚ) < limit) :
    NearestTo (nearest n d) (n / d) := by
  rcases Nat.eq_zero_or_pos n with rfl | nonzero
  · apply nearestTo_of_eq
    rw [Nat.cast_zero, zero_div]
    exact number?_zero
  have positive : (0 : ℚ) < n / d := by positivity
  obtain ⟨m, p, rounds, canonical, bits, value, even⟩ :=
    exists_parts_nearestBits nonzero pos within
  have finite : parts? (nearest n d) = some p := by
    rw [nearest, bits]
    exact (parts?_ofBits canonical).1
  have exact : number? (nearest n d) = some ((m : ℚ) * 2 ^ lastOf (n / d)) := by
    rw [nearest, bits, ← value]
    exact number?_ofBits canonical
  have step : (0 : ℚ) < 2 ^ lastOf (n / d) := zpow_pos (by norm_num) _
  generalize (n / d : ℚ) = q at *
  have scaled (j : ℚ) : |j * 2 ^ lastOf q - q| = |j - q / 2 ^ lastOf q| * 2 ^ lastOf q := by
    rw [← abs_of_pos step, ← abs_mul, abs_of_pos step, sub_mul, div_mul_cancel₀ _ step.ne']
  refine ⟨⟨_, exact, fun y b other => ?_⟩, p, _, finite, exact, fun y b other apart same => ?_⟩
  · obtain ⟨j, closer, -⟩ := exists_step positive other
    refine LE.le.trans ?_ closer
    rw [scaled, scaled]
    exact mul_le_mul_of_nonneg_right (rounds.nearest j).1 step.le
  · obtain ⟨j, closer, steps⟩ := exists_step positive other
    have nearer : |(m : ℚ) * 2 ^ lastOf q - q| ≤ |j * 2 ^ lastOf q - q| := by
      rw [scaled, scaled]
      exact mul_le_mul_of_nonneg_right (rounds.nearest j).1 step.le
    have level : |j * 2 ^ lastOf q - q| = |b - q| := le_antisymm closer (same ▸ nearer)
    obtain rfl := steps level
    have other : j ≠ m := by
      rintro rfl
      exact apart (by push_cast; rfl)
    rw [scaled, scaled] at same
    exact even ((rounds.nearest j).2 other (mul_right_cancel₀ step.ne' same))

end

end VesselRelay.Binary64
