import VesselRelay.Proofs.Decimal.Nearest

/-!
The shortest digits of a double read back as the double. The search for them ends at the latest with
seventeen digits: by then the step of the decimal grid is less than the width of the interval that
reads back, so one of the two neighbours on the grid lies in it.
-/
namespace VesselRelay.Decimal
open Binary64

theorem steps_pos (p : Parts) (k : Int) : 0 < (steps p k).2 :=
  perTen_pos (scaled_pos Nat.one_pos p.exponent) k

theorem steps_ratio (p : Parts) (k : Int) :
    ((steps p k).1 : ℚ) / (steps p k).2 = p.value / 10 ^ k := by
  have ratio := scaled_ratio p.significand 1 p.exponent
  rw [Nat.cast_one, div_one] at ratio
  unfold steps
  dsimp only
  rw [perTen_ratio, ratio, Parts.value]

/-! ### Reading back -/

/-- The test for reading back compares exact numbers. -/
theorem readsBack_iff {p : Parts} (nonzero : 0 < p.significand) (c : Nat) (k : Int) :
    readsBack p c k = true ↔ p.Near (c * 10 ^ k) := by
  have one := perTen_ratio 1 1 (-k)
  rw [Nat.cast_one, div_one, zpow_neg, one_div, inv_inv] at one
  have onePos := perTen_pos (n := 1) Nat.one_pos (-k)
  have ratio := scaled_ratio (c * (perTen 1 1 (-k)).1) (perTen 1 1 (-k)).2 (2 - p.exponent)
  have pos := scaled_pos (n := c * (perTen 1 1 (-k)).1) onePos (2 - p.exponent)
  unfold readsBack
  dsimp only
  generalize (scaled (c * (perTen 1 1 (-k)).1) (perTen 1 1 (-k)).2 (2 - p.exponent)).1 = a at *
  generalize (scaled (c * (perTen 1 1 (-k)).1) (perTen 1 1 (-k)).2 (2 - p.exponent)).2 = b at *
  have posQ : (0 : ℚ) < b := by exact_mod_cast pos
  have quarters := quartersBelow_le p
  have apart : (a : ℚ) / b = 4 * (c * 10 ^ k / 2 ^ p.exponent) := by
    rw [ratio, Nat.cast_mul, mul_div_assoc, one, zpow_sub₀ (by norm_num)]
    norm_num
    ring
  have lowLe : (4 * p.significand - quartersBelow p) * b ≤ a ↔
      (4 * p.significand - quartersBelow p : ℚ) ≤ 4 * (c * 10 ^ k / 2 ^ p.exponent) := by
    rw [← apart, le_div_iff₀ posQ, ← Nat.cast_le (α := ℚ), Nat.cast_mul, Nat.cast_sub (by omega)]
    push_cast
    rfl
  have lowLt : (4 * p.significand - quartersBelow p) * b < a ↔
      (4 * p.significand - quartersBelow p : ℚ) < 4 * (c * 10 ^ k / 2 ^ p.exponent) := by
    rw [← apart, lt_div_iff₀ posQ, ← Nat.cast_lt (α := ℚ), Nat.cast_mul, Nat.cast_sub (by omega)]
    push_cast
    rfl
  have highLe : a ≤ (4 * p.significand + 2) * b ↔
      4 * (c * 10 ^ k / 2 ^ p.exponent) ≤ (4 * p.significand + 2 : ℚ) := by
    rw [← apart, div_le_iff₀ posQ, ← Nat.cast_le (α := ℚ)]
    push_cast
    rfl
  have highLt : a < (4 * p.significand + 2) * b ↔
      4 * (c * 10 ^ k / 2 ^ p.exponent) < (4 * p.significand + 2 : ℚ) := by
    rw [← apart, div_lt_iff₀ posQ, ← Nat.cast_lt (α := ℚ)]
    push_cast
    rfl
  split
  · rename_i even
    rw [decide_eq_true_eq, lowLe, highLe]
    constructor
    · rintro ⟨low, high⟩
      exact ⟨low, high, fun odd => absurd even (by omega)⟩
    · intro near
      exact ⟨near.low, near.high⟩
  · rename_i odd
    rw [decide_eq_true_eq, lowLt, highLt]
    constructor
    · rintro ⟨low, high⟩
      exact ⟨low.le, high.le, fun _ => ⟨low, high⟩⟩
    · intro near
      exact near.strict (by omega)

/-! ### The search -/

/-- What a grid offers reads back. -/
theorem readsBack_of_onGrid? {p : Parts} {k : Int} {c : Nat} (offered : onGrid? p k = some c) :
    readsBack p c k = true := by
  unfold onGrid? at offered
  dsimp only at offered
  split at offered
  · cases offered
  · cases offered
    assumption
  · cases offered
    assumption
  · split at offered <;> cases offered <;> assumption

/-- A grid offers nothing only where neither neighbour reads back. -/
theorem not_readsBack_of_onGrid? {p : Parts} {k : Int} (nothing : onGrid? p k = none) :
    readsBack p ((steps p k).1 / (steps p k).2) k = false ∧
      readsBack p ((steps p k).1 / (steps p k).2 + 1) k = false := by
  unfold onGrid? at nothing
  dsimp only at nothing
  split at nothing
  · exact ⟨by assumption, by assumption⟩
  · cases nothing
  · cases nothing
  · split at nothing <;> cases nothing

/-- Where the step of a grid is narrow against the magnitude, a neighbour reads back: the two are
one step apart, and the interval between numbers that do not read back is wider. -/
theorem isSome_onGrid? {p : Parts} {k : Int} (canonical : p.Canonical) (nonzero : 0 < p.significand)
    (narrow : 10 ^ k * 10 ^ 16 ≤ p.value) : (onGrid? p k).isSome := by
  rw [Option.isSome_iff_ne_none]
  intro nothing
  obtain ⟨notBelow, notAbove⟩ := not_readsBack_of_onGrid? nothing
  have ratio := steps_ratio p k
  have grid : (0 : ℚ) < 10 ^ k := zpow_pos (by norm_num) _
  have step : (0 : ℚ) < 2 ^ p.exponent := zpow_pos (by norm_num) _
  have whole : ⌊p.value / 10 ^ k⌋₊ = (steps p k).1 / (steps p k).2 := by
    rw [← ratio, Nat.floor_div_eq_div]
  generalize (steps p k).1 / (steps p k).2 = c at *
  have below : c * 10 ^ k / 2 ^ p.exponent ≤ (p.significand : ℚ) := by
    rw [div_le_iff₀ step, ← Parts.value, ← le_div_iff₀ grid, ← whole]
    exact Nat.floor_le (div_nonneg (by unfold Parts.value; positivity) grid.le)
  have above : (p.significand : ℚ) < ((c + 1 : Nat) : ℚ) * 10 ^ k / 2 ^ p.exponent := by
    rw [lt_div_iff₀ step, ← Parts.value, ← div_lt_iff₀ grid, Nat.cast_succ, ← whole]
    exact Nat.lt_floor_add_one _
  have apart : ((c + 1 : Nat) : ℚ) * 10 ^ k / 2 ^ p.exponent =
      c * 10 ^ k / 2 ^ p.exponent + 10 ^ k / 2 ^ p.exponent := by
    push_cast
    ring
  have gap : (10 : ℚ) ^ k / 2 ^ p.exponent * 10 ^ 16 ≤ p.significand := by
    rw [div_mul_eq_mul_div, div_le_iff₀ step]
    exact narrow
  have farBelow :
      4 * (c * 10 ^ k / 2 ^ p.exponent) ≤ 4 * (p.significand : ℚ) - quartersBelow p := by
    by_contra inside
    have near : p.Near (c * 10 ^ k) :=
      ⟨by linarith, by linarith, fun _ => ⟨by linarith, by linarith⟩⟩
    rw [(readsBack_iff nonzero c k).mpr near] at notBelow
    cases notBelow
  have farAbove : 4 * (p.significand : ℚ) + 2 ≤
      4 * (((c + 1 : Nat) : ℚ) * 10 ^ k / 2 ^ p.exponent) := by
    by_contra inside
    have quarters : (0 : ℚ) ≤ quartersBelow p := by positivity
    have near : p.Near ((c + 1 : Nat) * 10 ^ k) :=
      ⟨by linarith, by linarith, fun _ => ⟨by linarith, by linarith⟩⟩
    rw [(readsBack_iff nonzero (c + 1) k).mpr near] at notAbove
    cases notAbove
  rw [apart] at farAbove
  by_cases narrowBelow : p.significand = 2 ^ 52 ∧ -1074 < p.exponent
  · have quarter : quartersBelow p = 1 := by rw [quartersBelow, if_pos narrowBelow]
    rw [narrowBelow.1] at gap farBelow farAbove
    rw [quarter] at farBelow
    push_cast at gap farBelow farAbove
    linarith
  · have half : quartersBelow p = 2 := by rw [quartersBelow, if_neg narrowBelow]
    have short : (p.significand : ℚ) < 2 ^ 53 := by exact_mod_cast canonical.short
    rw [half] at farBelow
    push_cast at farBelow
    linarith

/-! ### The leading digit -/

/-- A power of a power that is not above another comes from one that is not. -/
theorem zpow_le_of_pow {g l : Int} {j : Nat} (nonzero : j ≠ 0)
    (le : ((10 : ℚ) ^ g) ^ j ≤ (2 ^ l) ^ j) : (10 : ℚ) ^ g ≤ 2 ^ l :=
  (pow_le_pow_iff_left₀ (zpow_pos (by norm_num) g).le (zpow_pos (by norm_num) l).le nonzero).mp le

/-- One less than the guess of the leading digit's power of ten is never too much: the guess errs
by less than a hundredth, since `10 ^ 31 ≤ 2 ^ 103` and `2 ^ 93 ≤ 10 ^ 28`. -/
theorem ten_zpow_guess_le {l : Int} (low : -1074 ≤ l) (high : l ≤ 1023) :
    (10 : ℚ) ^ (l * 30103 / 100000 - 1) ≤ 2 ^ l := by
  generalize guessed : l * 30103 / 100000 = guess
  rcases Int.le_total 0 l with nonneg | neg
  · apply zpow_le_of_pow (j := 103) (by decide)
    calc ((10 : ℚ) ^ (guess - 1)) ^ 103
        = 10 ^ ((guess - 1) * 103) := by rw [zpow_mul]; rfl
      _ ≤ 10 ^ (31 * l) := zpow_le_zpow_right₀ (by norm_num) (by omega)
      _ = (10 ^ 31) ^ l := by rw [zpow_mul]; rfl
      _ ≤ (2 ^ 103) ^ l := zpow_le_zpow_left₀ nonneg (by norm_num) (by norm_num)
      _ = (2 ^ l) ^ 103 := zpow_comm 2 103 l
  · apply zpow_le_of_pow (j := 93) (by decide)
    have turned : ((2 : ℚ) ^ 93) ^ (-l) ≤ (10 ^ 28) ^ (-l) :=
      zpow_le_zpow_left₀ (by omega) (by norm_num) (by norm_num)
    rw [zpow_neg, zpow_neg, inv_le_inv₀ (by positivity) (by positivity)] at turned
    calc ((10 : ℚ) ^ (guess - 1)) ^ 93
        = 10 ^ ((guess - 1) * 93) := by rw [zpow_mul]; rfl
      _ ≤ 10 ^ (28 * l) := zpow_le_zpow_right₀ (by norm_num) (by omega)
      _ = (10 ^ 28) ^ l := by rw [zpow_mul]; rfl
      _ ≤ (2 ^ 93) ^ l := turned
      _ = (2 ^ l) ^ 93 := zpow_comm 2 93 l

theorem leadingExponent_le {p : Parts} (canonical : p.Canonical) (nonzero : 0 < p.significand) :
    (10 : ℚ) ^ leadingExponent p ≤ p.value := by
  have short : Nat.log2 p.significand < 53 :=
    (Nat.log2_lt (by omega)).mpr canonical.short
  have least := canonical.least
  have greatest := canonical.greatest
  have start : (2 : ℚ) ^ ((Nat.log2 p.significand : Int) + p.exponent) ≤ p.value := by
    rw [zpow_add₀ (by norm_num), Parts.value]
    have := (log2_bounds nonzero).1
    gcongr
  unfold leadingExponent
  dsimp only
  generalize guessed : ((Nat.log2 p.significand : Int) + p.exponent) * 30103 / 100000 = guess
  have ratio := steps_ratio p guess
  have pos : (0 : ℚ) < (steps p guess).2 := by exact_mod_cast steps_pos p guess
  have grid : (0 : ℚ) < 10 ^ guess := zpow_pos (by norm_num) _
  split
  · rw [← guessed]
    exact (ten_zpow_guess_le (by omega) (by omega)).trans start
  · rename_i reached
    split
    · rename_i tenfold
      have atLeast : 10 ≤ p.value / 10 ^ guess := by
        rw [← ratio, le_div_iff₀ pos]
        exact_mod_cast tenfold
      rw [zpow_add_one₀ (by norm_num)]
      rw [le_div_iff₀ grid] at atLeast
      linarith
    · have atLeast : 1 ≤ p.value / 10 ^ guess := by
        rw [← ratio, le_div_iff₀ pos]
        exact_mod_cast (by omega : 1 * (steps p guess).2 ≤ (steps p guess).1)
      rw [le_div_iff₀ grid] at atLeast
      linarith

/-! ### The shortest digits -/

/-- Leaving zeros away changes the digits and not the number. -/
theorem value_trim (fuel : Nat) (x : Scientific) : (x.trim fuel).value = x.value := by
  induction fuel generalizing x with
  | zero => rfl
  | succ fuel ih =>
    rw [Scientific.trim]
    split
    · rename_i round
      have tenfold : (x.digits : ℚ) = (x.digits / 10 : Nat) * 10 := by
        exact_mod_cast (Nat.div_mul_cancel (Nat.dvd_of_mod_eq_zero round.2)).symm
      rw [ih, Scientific.value, Scientific.value, tenfold, zpow_add_one₀ (by norm_num)]
      ring
    · rfl

/-- The shortest digits of a magnitude read back as it. -/
theorem near_shortest {p : Parts} (canonical : p.Canonical) (nonzero : 0 < p.significand) :
    p.Near (shortest p).value := by
  have offers (n : Nat) (c : Nat) (offered : onGrid? p (leadingExponent p - n) = some c) :
      p.Near (Scientific.value ⟨c, leadingExponent p - n⟩) :=
    (readsBack_iff nonzero c _).mp (readsBack_of_onGrid? offered)
  unfold shortest
  rw [if_neg (by omega)]
  dsimp only
  rw [value_trim]
  cases found : (List.range 17).findSome? fun n : Nat =>
      (onGrid? p (leadingExponent p - n)).map fun c =>
        (⟨c, leadingExponent p - n⟩ : Scientific) with
  | some x =>
    obtain ⟨n, _, tried⟩ := List.exists_of_findSome?_eq_some found
    obtain ⟨c, offered, rfl⟩ := Option.map_eq_some_iff.mp tried
    exact offers n c offered
  | none =>
    exfalso
    have last := List.findSome?_eq_none_iff.mp found 16 (by decide)
    have narrow : (10 : ℚ) ^ (leadingExponent p - (16 : Nat)) * 10 ^ 16 ≤ p.value := by
      rw [← zpow_natCast, ← zpow_add₀ (by norm_num), Int.sub_add_cancel]
      exact leadingExponent_le canonical nonzero
    rw [Option.map_eq_none_iff] at last
    have offered := isSome_onGrid? canonical nonzero narrow
    rw [last] at offered
    cases offered

/-- Digits that are the same number as the shortest ones have the magnitude for their nearest
double. -/
theorem nearest_of_value {p : Parts} {x : Scientific} (canonical : p.Canonical)
    (same : x.value = (shortest p).value) : x.nearest = Float.ofBits p.bits.toUInt64 := by
  rcases Nat.eq_zero_or_pos p.significand with zero | nonzero
  · have bits : p.bits = 0 := by
      have leading := canonical.leading
      unfold Parts.bits
      omega
    have nothing : x.digits = 0 := by
      by_contra digits
      have above := ten_zpow_le_value digits
      have nought : (shortest p).value = 0 := by
        rw [shortest, if_pos zero, Scientific.value, Nat.cast_zero, zero_mul]
      rw [same, nought] at above
      exact absurd (zpow_pos (by norm_num) x.exponent) (not_lt.mpr above)
    rw [Scientific.nearest, Scientific.ratio, if_pos nothing, bits]
    rfl
  · exact nearest_of_near canonical nonzero (same ▸ near_shortest canonical nonzero)

/-- Only zero is written without a digit above zero, and then without an exponent. -/
theorem exponent_shortest {p : Parts} (canonical : p.Canonical)
    (nothing : (shortest p).digits = 0) : (shortest p).exponent = 0 := by
  rcases Nat.eq_zero_or_pos p.significand with zero | nonzero
  · rw [shortest, if_pos zero]
  · have positive := (near_shortest canonical nonzero).pos nonzero
    rw [Scientific.value, nothing, Nat.cast_zero, zero_mul] at positive
    exact absurd positive (lt_irrefl 0)

end VesselRelay.Decimal
