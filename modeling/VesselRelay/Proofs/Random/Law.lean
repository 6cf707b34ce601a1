import Mathlib.Probability.Distributions.Uniform
import Mathlib.Tactic.Linarith
import VesselRelay.Random.Bounded

/-!
The law of a draw below a long bound. The two bits of each halving and the last draw may come from
any source; a generator is one, and chance itself another. Where both are uniform, the draw is
uniform as long as each halving is even. An odd range is not halved evenly: its longer halves meet
in the middle, and the number there comes up too seldom. No number is further from its share than
one part in the shortest half that is drawn from.
-/
namespace VesselRelay.Generator

open scoped ENNReal

/-! ### Draws from any source -/

section Source
variable {m : Type → Type} [Monad m]

/-- Halves a stretch by pairs of bits until it is short, and draws within what is left. -/
def drawWithin (pair : m Nat) (short : Nat → m Nat) (s : Stretch) : m Nat :=
  if _long : s.length < shortLength then do
    return s.offset + (← short s.length)
  else do
    drawWithin pair short (s.halve (← pair))
termination_by s.length
decreasing_by exact s.halve_shorter _ _long

variable {pair : m Nat} {short : Nat → m Nat}

theorem drawWithin_of_short {s : Stretch} (fits : s.length < shortLength) :
    drawWithin pair short s = (do return s.offset + (← short s.length)) := by
  rw [drawWithin, dif_pos fits]

theorem drawWithin_of_long {s : Stretch} (long : ¬ s.length < shortLength) :
    drawWithin pair short s = pair >>= fun bits => drawWithin pair short (s.halve bits) := by
  rw [drawWithin, dif_neg long]

/-- A stretch further on is drawn from like one at the beginning. -/
theorem drawWithin_add [LawfulMonad m] (start : Nat) (s : Stretch) :
    drawWithin pair short ⟨start + s.offset, s.length⟩ =
      (start + ·) <$> drawWithin pair short s := by
  induction s using drawWithin.induct with
  | case1 s fits =>
    rw [drawWithin_of_short fits, drawWithin_of_short (s := ⟨start + s.offset, s.length⟩) fits]
    simp only [map_bind, map_pure, Nat.add_assoc]
  | case2 s long ih =>
    have moved (bits : Nat) : Stretch.halve ⟨start + s.offset, s.length⟩ bits =
        ⟨start + (s.halve bits).offset, (s.halve bits).length⟩ := by
      simp only [Stretch.halve]
      split <;> simp [Nat.add_assoc]
    rw [drawWithin_of_long long, drawWithin_of_long (s := ⟨start + s.offset, s.length⟩) long,
      map_bind]
    refine bind_congr fun bits => ?_
    rw [moved, ih]

end Source

/-- A generator's bits and draws are such a source. -/
theorem belowLong_eq (bound : Nat) :
    belowLong bound = drawWithin (do return (← top 2).toNat) below ⟨0, bound⟩ := by
  have halved (s : Stretch) :
      (do let s ← shorten s; return s.offset + (← below s.length)) =
        drawWithin (do return (← top 2).toNat) below s := by
    induction s using shorten.induct with
    | case1 s fits =>
      rw [drawWithin_of_short fits, shorten, dif_pos fits]
      rfl
    | case2 s long ih =>
      rw [drawWithin_of_long long, shorten, dif_neg long]
      funext g
      exact congrFun (ih (top 2 g).1) (top 2 g).2
  exact halved ⟨0, bound⟩

/-! ### The law -/

/-- A number below `n`, each as likely as the others. -/
noncomputable def fair (n : Nat) : PMF Nat :=
  if positive : 0 < n then
    .uniformOfFinset (.range n) (Finset.nonempty_range_iff.mpr (Nat.ne_of_gt positive))
  else pure 0

/-- The law of a draw below a bound, out of fair bits and fair draws below short bounds. -/
noncomputable def law (bound : Nat) : PMF Nat := drawWithin (fair 4) fair ⟨0, bound⟩

noncomputable def chance (bound v : Nat) : ℝ := (law bound v).toReal

theorem fair_apply {n : Nat} (positive : 0 < n) (v : Nat) :
    fair n v = if v < n then (n : ℝ≥0∞)⁻¹ else 0 := by
  rw [fair, dif_pos positive, PMF.uniformOfFinset_apply]
  simp only [Finset.mem_range, Finset.card_range]

/-- The chance of what follows a fair draw is the mean over the draw. -/
theorem fair_bind_apply {n : Nat} (positive : 0 < n) (f : Nat → PMF Nat) (v : Nat) :
    ((fair n >>= f) v).toReal = (∑ a ∈ Finset.range n, (f a v).toReal) / n := by
  have outside (a : Nat) (far : a ∉ Finset.range n) : fair n a * f a v = 0 := by
    rw [fair_apply positive, if_neg (mt Finset.mem_range.mpr far), zero_mul]
  have inside (a : Nat) (near : a ∈ Finset.range n) :
      (fair n a * f a v).toReal = (f a v).toReal / n := by
    rw [fair_apply positive, if_pos (Finset.mem_range.mp near), ENNReal.toReal_mul,
      ENNReal.toReal_inv, ENNReal.toReal_natCast, inv_mul_eq_div]
  change (PMF.bind (fair n) f v).toReal = _
  rw [PMF.bind_apply, tsum_eq_sum outside, ENNReal.toReal_sum, Finset.sum_congr rfl inside,
    Finset.sum_div]
  exact fun a _ => ENNReal.mul_ne_top (PMF.apply_ne_top _ _) (PMF.apply_ne_top _ _)

theorem map_add_apply (start : Nat) (p : PMF Nat) (v : Nat) :
    ((start + ·) <$> p) v = if start ≤ v then p (v - start) else 0 := by
  change p.map (start + ·) v = _
  rw [PMF.map_apply]
  split
  · rename_i reached
    rw [tsum_eq_single (v - start)]
    · rw [if_pos (by omega)]
    · intro a apart
      rw [if_neg (by omega)]
  · rw [ENNReal.tsum_eq_zero]
    intro a
    rw [if_neg (by omega)]

/-- Chances moved on by so much. -/
def after (start : Nat) (p : Nat → ℝ) (v : Nat) : ℝ := if start ≤ v then p (v - start) else 0

theorem after_of_lt {start v : Nat} (before : v < start) (p : Nat → ℝ) : after start p v = 0 :=
  if_neg (Nat.not_le.mpr before)

theorem after_add (start v : Nat) (p : Nat → ℝ) : after start p (start + v) = p v := by
  rw [after, if_pos (Nat.le_add_right start v), Nat.add_sub_cancel_left]

theorem after_self (start : Nat) (p : Nat → ℝ) : after start p start = p 0 := after_add start 0 p

/-- A stretch that begins further on. -/
theorem drawWithin_apply (start n v : Nat) :
    (drawWithin (fair 4) fair ⟨start, n⟩ v).toReal = after start (chance n) v := by
  have moved : drawWithin (fair 4) fair ⟨start, n⟩ = (start + ·) <$> law n :=
    drawWithin_add start ⟨0, n⟩
  rw [moved, map_add_apply, after]
  split <;> rfl

theorem chance_of_short {n : Nat} (positive : 0 < n) (short : n < shortLength) (v : Nat) :
    chance n v = if v < n then (n : ℝ)⁻¹ else 0 := by
  have drawn : law n = fair n := by
    rw [law, drawWithin_of_short short]
    simp only [Nat.zero_add, bind_pure]
  rw [chance, drawn, fair_apply positive]
  split
  · rw [ENNReal.toReal_inv, ENNReal.toReal_natCast]
  · rfl

/-- A long range is drawn from by one of its four halves. -/
theorem chance_of_long {n : Nat} (long : ¬ n < shortLength) (v : Nat) :
    chance n v = (after (n - n / 2) (chance (n / 2)) v + chance (n / 2) v +
      after (n / 2) (chance (n - n / 2)) v + chance (n - n / 2) v) / 4 := by
  have here (k : Nat) : after 0 (chance k) v = chance k v := if_pos (Nat.zero_le v)
  have rest : n - (n - n / 2) = n / 2 := by omega
  rw [chance, law, drawWithin_of_long long, fair_bind_apply (by decide)]
  simp only [Finset.sum_range_succ, Finset.sum_range_zero, Stretch.halve, drawWithin_apply]
  simp [here, rest]

/-- Nothing is drawn from beyond the bound. -/
theorem chance_of_le {n v : Nat} (positive : 0 < n) (beyond : n ≤ v) : chance n v = 0 := by
  induction n using Nat.strong_induction_on generalizing v with
  | _ n ih =>
    by_cases short : n < shortLength
    · rw [chance_of_short positive short, if_neg (by omega)]
    · have two : 2 ≤ n := by
        unfold shortLength at short
        omega
      have moved {start k : Nat} (less : 0 < k ∧ k < n) (within : start + k ≤ n) :
          after start (chance k) v = 0 := by
        rw [after, if_pos (by omega), ih k less.2 less.1 (by omega)]
      rw [chance_of_long short, moved (by omega) (by omega), moved (by omega) (by omega),
        ih (n / 2) (by omega) (by omega) (by omega),
        ih (n - n / 2) (by omega) (by omega) (by omega)]
      norm_num

theorem sum_chance {n : Nat} (positive : 0 < n) : ∑ v ∈ Finset.range n, chance n v = 1 := by
  have outside (v : Nat) (far : v ∉ Finset.range n) : law n v = 0 := by
    have never := chance_of_le positive (Nat.not_lt.mp (mt Finset.mem_range.mpr far))
    exact (ENNReal.toReal_eq_zero_iff _).mp never |>.resolve_right (PMF.apply_ne_top _ _)
  have whole := PMF.tsum_coe (law n)
  rw [tsum_eq_sum outside] at whole
  have real := congrArg ENNReal.toReal whole
  rw [ENNReal.toReal_sum fun v _ => PMF.apply_ne_top _ _] at real
  exact real

/-! ### Halving -/

section Halving
variable {h v : Nat}

theorem pos_of_long (long : ¬ 2 * h + 1 < shortLength) : 0 < h := by
  unfold shortLength at long
  omega

theorem chance_double (long : ¬ 2 * h < shortLength) :
    chance (2 * h) v = (chance h v + after h (chance h) v) / 2 := by
  have half : 2 * h / 2 = h := by omega
  have other : 2 * h - h = h := by omega
  rw [chance_of_long long, half, other]
  ring

theorem chance_double_succ (long : ¬ 2 * h + 1 < shortLength) :
    chance (2 * h + 1) v = (chance h v + after (h + 1) (chance h) v +
      chance (h + 1) v + after h (chance (h + 1)) v) / 4 := by
  have half : (2 * h + 1) / 2 = h := by omega
  have other : 2 * h + 1 - h = h + 1 := by omega
  rw [chance_of_long long, half, other]
  ring

theorem chance_even (long : ¬ 2 * h < shortLength) (within : v < h) :
    chance (2 * h) v = chance h v / 2 := by
  rw [chance_double long, after_of_lt within, add_zero]

theorem chance_even_add (long : ¬ 2 * h < shortLength) (positive : 0 < h) :
    chance (2 * h) (h + v) = chance h v / 2 := by
  rw [chance_double long, after_add, chance_of_le positive (Nat.le_add_right h v), zero_add]

/-- A chance of an even range is half of one of its half. -/
theorem exists_chance_even (long : ¬ 2 * h < shortLength) (within : v < 2 * h) :
    ∃ w < h, chance (2 * h) v = chance h w / 2 := by
  by_cases lower : v < h
  · exact ⟨v, lower, chance_even long lower⟩
  · obtain ⟨w, rfl⟩ := Nat.exists_eq_add_of_le (Nat.not_lt.mp lower)
    exact ⟨w, by omega, chance_even_add long (by omega)⟩

theorem chance_odd (long : ¬ 2 * h + 1 < shortLength) (within : v < h) :
    chance (2 * h + 1) v = (chance h v + chance (h + 1) v) / 4 := by
  rw [chance_double_succ long, after_of_lt within, after_of_lt (Nat.lt_succ_of_lt within)]
  ring

theorem chance_odd_add (long : ¬ 2 * h + 1 < shortLength) (positive : 0 < h) :
    chance (2 * h + 1) (h + 1 + v) = (chance h v + chance (h + 1) (v + 1)) / 4 := by
  have further : after h (chance (h + 1)) (h + 1 + v) = chance (h + 1) (v + 1) := by
    rw [Nat.add_assoc, Nat.add_comm 1 v, after_add]
  have beyond : chance h (h + 1 + v) = 0 := chance_of_le positive (by omega)
  rw [chance_double_succ long, after_add, beyond, further,
    chance_of_le (Nat.succ_pos h) (Nat.le_add_right (h + 1) v)]
  ring

/-- The middle of an odd range is in the two longer halves only. -/
theorem chance_middle (long : ¬ 2 * h + 1 < shortLength) (positive : 0 < h) :
    chance (2 * h + 1) h = (chance (h + 1) 0 + chance (h + 1) h) / 4 := by
  rw [chance_double_succ long, after_of_lt (Nat.lt_succ_self h), after_self,
    chance_of_le positive (Nat.le_refl h)]
  ring

end Halving

/-! ### Uniformity -/

/-- All numbers below the bound are drawn with the same probability. -/
def Uniform (bound : Nat) : Prop := ∀ v < bound, law bound v = (bound : ℝ≥0∞)⁻¹

theorem law_eq_inv_iff {n v k : Nat} (positive : 0 < k) :
    law n v = (k : ℝ≥0∞)⁻¹ ↔ chance n v = (k : ℝ)⁻¹ := by
  have finite : (k : ℝ≥0∞)⁻¹ ≠ ∞ :=
    ENNReal.inv_ne_top.mpr (Nat.cast_ne_zero.mpr (Nat.ne_of_gt positive))
  rw [chance, ← ENNReal.toReal_eq_toReal_iff' (PMF.apply_ne_top _ _) finite, ENNReal.toReal_inv,
    ENNReal.toReal_natCast]

theorem uniform_iff_chance {n : Nat} : Uniform n ↔ ∀ v < n, chance n v = (n : ℝ)⁻¹ :=
  forall₂_congr fun _ within => law_eq_inv_iff (Nat.zero_lt_of_lt within)

theorem uniform_of_short {n : Nat} (short : n < shortLength) : Uniform n := by
  rw [uniform_iff_chance]
  intro v within
  rw [chance_of_short (by omega) short, if_pos within]

/-- An even range is as uniform as its half. -/
theorem uniform_double_iff {h : Nat} (long : ¬ 2 * h < shortLength) :
    Uniform (2 * h) ↔ Uniform h := by
  have mean : ((2 * h : Nat) : ℝ)⁻¹ = (h : ℝ)⁻¹ / 2 := by
    rw [Nat.cast_mul, mul_inv]
    push_cast
    ring
  rw [uniform_iff_chance, uniform_iff_chance, mean]
  constructor
  · intro whole v within
    have same := whole v (by omega)
    rw [chance_even long within] at same
    linarith
  · intro half v within
    obtain ⟨w, near, same⟩ := exists_chance_even long within
    rw [same, half w near]

/-- An odd range is not uniform: if it were, the longer half would be, and would give the middle
too little. -/
theorem not_uniform_odd {h : Nat} (long : ¬ 2 * h + 1 < shortLength) :
    ¬ Uniform (2 * h + 1) := by
  have positive := pos_of_long long
  rw [uniform_iff_chance]
  intro whole
  -- Two neighbours of the longer half share one number of the shorter with equal sums.
  have level (v : Nat) (within : v < h) : chance (h + 1) (v + 1) = chance (h + 1) v := by
    have lower := whole v (by omega)
    have upper := whole (h + 1 + v) (by omega)
    rw [chance_odd long within] at lower
    rw [chance_odd_add long positive] at upper
    linarith
  have flat (v : Nat) (within : v < h + 1) : chance (h + 1) v = chance (h + 1) 0 := by
    induction v with
    | zero => rfl
    | succ v ih => rw [level v (by omega), ih (by omega)]
  have total := sum_chance (Nat.succ_pos h)
  rw [Finset.sum_congr rfl fun v near => flat v (Finset.mem_range.mp near), Finset.sum_const,
    Finset.card_range, nsmul_eq_mul] at total
  have middle := whole h (by omega)
  rw [chance_middle long positive, flat h (Nat.lt_succ_self h),
    ← mul_eq_one_iff_eq_inv₀ (by positivity)] at middle
  push_cast at middle total
  have none : chance (h + 1) 0 = 0 := by linarith
  rw [none, mul_zero] at total
  exact zero_ne_one total

/-- A draw is uniform exactly where doublings of a short bound lead to its own. -/
theorem uniform_iff (bound : Nat) :
    Uniform bound ↔ ∃ doublings short, bound = 2 ^ doublings * short ∧ short < shortLength := by
  induction bound using Nat.strong_induction_on with
  | _ bound ih =>
    by_cases short : bound < shortLength
    · exact ⟨fun _ => ⟨0, bound, by omega, short⟩, fun _ => uniform_of_short short⟩
    · obtain ⟨h, even | odd⟩ := Nat.even_or_odd' bound
      · subst even
        have positive : 0 < h := pos_of_long (by omega)
        rw [uniform_double_iff short, ih h (by omega)]
        constructor
        · rintro ⟨doublings, least, rfl, fits⟩
          exact ⟨doublings + 1, least, by ring, fits⟩
        · rintro ⟨_ | doublings, least, same, fits⟩
          · omega
          · exact ⟨doublings, least, by rw [pow_succ] at same; linarith, fits⟩
      · subst odd
        constructor
        · exact fun whole => absurd whole (not_uniform_odd short)
        · rintro ⟨_ | doublings, least, same, fits⟩
          · omega
          · rw [pow_succ'] at same
            rw [mul_assoc] at same
            omega

/-- Below the least long bound, the middle comes up once in `2 ^ 31` draws. -/
theorem middle_too_seldom :
    law (2 ^ 31 - 1) (2 ^ 30 - 1) = ((2 ^ 31 : Nat) : ℝ≥0∞)⁻¹ ∧ ¬ Uniform (2 ^ 31 - 1) := by
  have long : ¬ 2 * (2 ^ 30 - 1) + 1 < shortLength := by decide
  have half (v : Nat) (within : v < 2 ^ 30) : chance (2 ^ 30) v = ((2 ^ 30 : Nat) : ℝ)⁻¹ := by
    rw [chance_of_short (by decide) (by decide), if_pos within]
  have middle : chance (2 ^ 31 - 1) (2 ^ 30 - 1) = ((2 ^ 31 : Nat) : ℝ)⁻¹ := by
    have halved := chance_middle long (by decide)
    norm_num only at halved half ⊢
    rw [halved, half _ (by decide), half _ (by decide)]
    norm_num
  exact ⟨(law_eq_inv_iff (by decide)).mpr middle, not_uniform_odd long⟩

/-! ### Bias -/

/-- How far a chance may be from its share, in parts of the share. -/
noncomputable def bias : ℝ := 1 / (shortLength / 2 : Nat)

noncomputable def leastChance (n : Nat) : ℝ := (1 - bias) / (n - 1)

noncomputable def mostChance (n : Nat) : ℝ := (1 + bias) / (n + 1)

theorem bias_nonneg : 0 ≤ bias := by
  rw [bias]
  positivity

theorem bias_le_one : bias ≤ 1 := by
  rw [bias, div_le_one₀ (by exact_mod_cast (by decide : 0 < shortLength / 2))]
  exact_mod_cast (by decide : 1 ≤ shortLength / 2)

section Between
variable {h n v : Nat}

theorem leastChance_le_of_le {k : Nat} (two : 2 ≤ k) (less : k ≤ n) :
    leastChance n ≤ leastChance k := by
  have positive : (0 : ℝ) < k - 1 := by
    rw [sub_pos]
    exact_mod_cast two
  have small : 0 ≤ 1 - bias := sub_nonneg.mpr bias_le_one
  rw [leastChance, leastChance]
  gcongr

theorem mostChance_le_of_le {k : Nat} (less : k ≤ n) : mostChance n ≤ mostChance k := by
  have nonneg := bias_nonneg
  rw [mostChance, mostChance]
  gcongr

/-- Of an odd range the least chance is that of its longer half. -/
theorem leastChance_double_succ (h : Nat) : leastChance (2 * h + 1) = leastChance (h + 1) / 2 := by
  rw [leastChance, leastChance, div_div]
  push_cast
  ring_nf

/-- Of an odd range the greatest chance is that of its shorter half. -/
theorem mostChance_double_succ (h : Nat) : mostChance (2 * h + 1) = mostChance h / 2 := by
  rw [mostChance, mostChance, div_div]
  push_cast
  ring_nf

theorem leastChance_double_le (two : 2 ≤ h) : leastChance (2 * h) ≤ leastChance h / 2 := by
  obtain ⟨k, rfl⟩ := Nat.exists_eq_add_of_le' (Nat.one_le_of_lt two)
  rw [← leastChance_double_succ]
  exact leastChance_le_of_le (by omega) (by omega)

theorem le_mostChance_double (h : Nat) : mostChance h / 2 ≤ mostChance (2 * h) := by
  rw [← mostChance_double_succ]
  exact mostChance_le_of_le (by omega)

theorem one_le_mul_bias (reached : shortLength / 2 ≤ n) : 1 ≤ n * bias := by
  rw [bias, mul_one_div, one_le_div₀ (by exact_mod_cast (by decide : 0 < shortLength / 2))]
  exact_mod_cast reached

theorem inv_between (reached : shortLength / 2 ≤ n) :
    leastChance n ≤ (n : ℝ)⁻¹ ∧ (n : ℝ)⁻¹ ≤ mostChance n := by
  have share := one_le_mul_bias reached
  have two : 2 ≤ n := le_trans (by decide) reached
  have large : (2 : ℝ) ≤ n := by exact_mod_cast two
  rw [leastChance, mostChance, inv_eq_one_div, div_le_div_iff₀ (by linarith) (by linarith),
    div_le_div_iff₀ (by linarith) (by linarith)]
  constructor <;> linarith

/-- Chances are between the two because those of a range are means of those of its halves. -/
theorem chance_between (reached : shortLength / 2 ≤ n) (within : v < n) :
    leastChance n ≤ chance n v ∧ chance n v ≤ mostChance n := by
  induction n using Nat.strong_induction_on generalizing v with
  | _ n ih =>
    by_cases short : n < shortLength
    · rw [chance_of_short (by omega) short, if_pos within]
      exact inv_between reached
    · obtain ⟨h, rfl | rfl⟩ := Nat.even_or_odd' n
      · obtain ⟨w, near, same⟩ := exists_chance_even short within
        obtain ⟨low, high⟩ := ih h (by omega) (by omega) near
        have two : 2 ≤ h := le_trans (by decide) (by omega : shortLength / 2 ≤ h)
        have lower := leastChance_double_le two
        have upper := le_mostChance_double h
        rw [same]
        constructor <;> linarith
      · have positive := pos_of_long short
        have two : 2 ≤ h := le_trans (by decide) (by omega : shortLength / 2 ≤ h)
        have lower := leastChance_le_of_le two (Nat.le_succ h)
        have upper := mostChance_le_of_le (Nat.le_succ h)
        have shorter {w : Nat} (near : w < h) := ih h (by omega) (by omega) near
        have longer {w : Nat} (near : w < h + 1) := ih (h + 1) (by omega) (by omega) near
        rw [leastChance_double_succ, mostChance_double_succ]
        obtain below | middle | above := lt_trichotomy v h
        · have first := shorter below
          have second := longer (Nat.lt_succ_of_lt below)
          rw [chance_odd short below]
          constructor <;> linarith
        · have first := longer (Nat.succ_pos h)
          have second := longer (Nat.lt_succ_self h)
          rw [middle, chance_middle short positive]
          constructor <;> linarith
        · obtain ⟨w, rfl⟩ := Nat.exists_eq_add_of_le above
          have first := shorter (w := w) (by omega)
          have second := longer (w := w + 1) (by omega)
          rw [chance_odd_add short positive]
          constructor <;> linarith

/-- Every chance is its share to within the bias. -/
theorem abs_chance_sub_le (within : v < n) : |n * chance n v - 1| ≤ bias := by
  have positive : (0 : ℝ) < n := by exact_mod_cast Nat.zero_lt_of_lt within
  by_cases short : n < shortLength
  · rw [chance_of_short (by omega) short, if_pos within, mul_inv_cancel₀ positive.ne', sub_self,
      abs_zero]
    exact bias_nonneg
  · obtain ⟨low, high⟩ := chance_between (by omega) within
    have two : 2 ≤ n := le_trans (by decide) (Nat.not_lt.mp short)
    have large : (2 : ℝ) ≤ n := by exact_mod_cast two
    rw [leastChance, div_le_iff₀ (by linarith)] at low
    rw [mostChance, le_div_iff₀ (by linarith)] at high
    have nonneg : 0 ≤ chance n v := ENNReal.toReal_nonneg
    rw [abs_le]
    constructor <;> linarith

end Between

end VesselRelay.Generator
