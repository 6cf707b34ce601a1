import VesselRelay.Decimal.Shortest
import VesselRelay.Proofs.Binary64.Value

/-!
Rounding a ratio to a double, told by the exact number that the ratio is. A number is rounded to a
magnitude wherever it lies among those that read back as it, and to infinity exactly where it is
beyond every double.
-/
namespace VesselRelay.Binary64

/-- Whether a whole number is the one to which a number is rounded: it is within a half, and a half
away only if it is even. -/
def Rounds (q : ℚ) (m : Nat) : Prop :=
  m - 1 / 2 ≤ q ∧ q ≤ m + 1 / 2 ∧ (m % 2 = 1 → m - 1 / 2 < q ∧ q < m + 1 / 2)

theorem rounds_roundDiv {n d : Nat} (pos : 0 < d) : Rounds (n / d) (roundDiv n d) := by
  have divided : (n : ℚ) = d * (n / d : Nat) + (n % d : Nat) := by
    exact_mod_cast (Nat.div_add_mod n d).symm
  have posQ : (0 : ℚ) < d := by exact_mod_cast pos
  have below : ((n % d : Nat) : ℚ) < d := by exact_mod_cast Nat.mod_lt n pos
  have nonneg : (0 : ℚ) ≤ (n % d : Nat) := by positivity
  have ratio : (n : ℚ) / d = (n / d : Nat) + ((n % d : Nat) : ℚ) / d := by
    rw [divided]
    field_simp
  rw [ratio]
  unfold roundDiv
  dsimp only
  generalize n / d = whole at *
  generalize n % d = rest at *
  have half : (rest : ℚ) / d < 1 := by rwa [div_lt_one posQ]
  have start : 0 ≤ (rest : ℚ) / d := by positivity
  unfold Rounds
  split
  · rename_i up
    have atLeast : d ≤ 2 * rest := by omega
    have strict : (whole + 1) % 2 = 1 → d < 2 * rest := by omega
    have atLeastQ : (1 : ℚ) / 2 ≤ rest / d := by
      rw [div_le_div_iff₀ (by norm_num) posQ]
      exact_mod_cast (by omega : 1 * d ≤ rest * 2)
    have strictQ : (whole + 1) % 2 = 1 → (1 : ℚ) / 2 < rest / d := by
      intro odd
      have := strict odd
      rw [div_lt_div_iff₀ (by norm_num) posQ]
      exact_mod_cast (by omega : 1 * d < rest * 2)
    push_cast
    refine ⟨by linarith, by linarith, fun odd => ?_⟩
    have := strictQ odd
    constructor <;> linarith
  · rename_i down
    have atMost : 2 * rest ≤ d := by omega
    have strict : whole % 2 = 1 → 2 * rest < d := by omega
    have atMostQ : (rest : ℚ) / d ≤ 1 / 2 := by
      rw [div_le_div_iff₀ posQ (by norm_num)]
      exact_mod_cast (by omega : rest * 2 ≤ 1 * d)
    have strictQ : whole % 2 = 1 → (rest : ℚ) / d < 1 / 2 := by
      intro odd
      have := strict odd
      rw [div_lt_div_iff₀ posQ (by norm_num)]
      exact_mod_cast (by omega : rest * 2 < 1 * d)
    refine ⟨by linarith, by linarith, fun odd => ?_⟩
    have := strictQ odd
    constructor <;> linarith

theorem Rounds.unique {q : ℚ} {m k : Nat} (left : Rounds q m) (right : Rounds q k) : m = k := by
  obtain ⟨lowM, highM, strictM⟩ := left
  obtain ⟨lowK, highK, strictK⟩ := right
  have near : m ≤ k + 1 ∧ k ≤ m + 1 := by
    constructor
    · have : (m : ℚ) ≤ (k + 1 : Nat) := by push_cast; linarith
      exact_mod_cast this
    · have : (k : ℚ) ≤ (m + 1 : Nat) := by push_cast; linarith
      exact_mod_cast this
  by_contra ne
  rcases Nat.lt_or_gt_of_ne ne with less | more
  · obtain rfl : k = m + 1 := by omega
    push_cast at *
    rcases Nat.mod_two_eq_zero_or_one m with even | odd
    · have := strictK (by omega)
      linarith
    · have := strictM odd
      linarith
  · obtain rfl : m = k + 1 := by omega
    push_cast at *
    rcases Nat.mod_two_eq_zero_or_one k with even | odd
    · have := strictM (by omega)
      linarith
    · have := strictK odd
      linarith

theorem Rounds.le_of_le {q : ℚ} {m k : Nat} (rounds : Rounds q m) (le : k ≤ q) : k ≤ m := by
  have high := rounds.2.1
  have : (k : ℚ) < (m + 1 : Nat) := by push_cast; linarith
  have : k < m + 1 := by exact_mod_cast this
  omega

theorem Rounds.le_of_ge {q : ℚ} {m k : Nat} (rounds : Rounds q m) (ge : q ≤ k) : m ≤ k := by
  have low := rounds.1
  have : (m : ℚ) < (k + 1 : Nat) := by push_cast; linarith
  have : m < k + 1 := by exact_mod_cast this
  omega

/-- An even number is reached from half a unit below it on. -/
theorem Rounds.reaches_iff {q : ℚ} {m k : Nat} (rounds : Rounds q m) (even : k % 2 = 0) :
    k ≤ m ↔ (k : ℚ) - 1 / 2 ≤ q := by
  obtain ⟨low, high, strict⟩ := rounds
  constructor
  · intro reached
    have : (k : ℚ) ≤ m := by exact_mod_cast reached
    linarith
  · intro far
    have : (k : ℚ) ≤ (m + 1 : Nat) := by push_cast; linarith
    have close : k ≤ m + 1 := by exact_mod_cast this
    have apart : k ≠ m + 1 := by
      rintro rfl
      have := (strict (by omega)).2
      push_cast at far
      linarith
    omega

theorem log_eq {q : ℚ} {k : Int} (low : 2 ^ k ≤ q) (high : q < 2 ^ (k + 1)) :
    Int.log 2 q = k := by
  have pos : 0 < q := (zpow_pos (by norm_num) k).trans_le low
  have atLeast : k ≤ Int.log 2 q := (Int.zpow_le_iff_le_log (by norm_num) pos).mp low
  have below : Int.log 2 q < k + 1 := (Int.lt_zpow_iff_log_lt (by norm_num) pos).mp high
  omega

theorem log2_bounds {n : Nat} (nonzero : 0 < n) :
    (2 : ℚ) ^ (Nat.log2 n : Int) ≤ n ∧ (n : ℚ) < 2 ^ ((Nat.log2 n : Int) + 1) := by
  have low : 2 ^ Nat.log2 n ≤ n := Nat.log2_self_le (by omega)
  have high : n < 2 ^ (Nat.log2 n + 1) := Nat.lt_log2_self
  constructor
  · rw [zpow_natCast]
    exact_mod_cast low
  · rw [← Nat.cast_succ, zpow_natCast]
    exact_mod_cast high

theorem leadingBit_eq {n d : Nat} (nonzero : 0 < n) (pos : 0 < d) :
    leadingBit n d = Int.log 2 (n / d : ℚ) := by
  have numerator := log2_bounds nonzero
  have denominator := log2_bounds pos
  have posQ : (0 : ℚ) < d := by exact_mod_cast pos
  unfold leadingBit
  dsimp only
  generalize same : (Nat.log2 n : Int) - Nat.log2 d = guess
  have ratio := scaled_ratio n d (-guess)
  have scaledPos : (0 : ℚ) < (scaled n d (-guess)).2 := by
    exact_mod_cast scaled_pos pos (-guess)
  rw [zpow_neg, ← div_eq_mul_inv] at ratio
  have lowest : (2 : ℚ) ^ (guess - 1) ≤ n / d := by
    rw [le_div_iff₀ posQ]
    calc (2 : ℚ) ^ (guess - 1) * d
        ≤ 2 ^ (guess - 1) * 2 ^ ((Nat.log2 d : Int) + 1) := by gcongr; exact denominator.2.le
      _ = 2 ^ (Nat.log2 n : Int) := by rw [← zpow_add₀ (by norm_num)]; congr 1; omega
      _ ≤ n := numerator.1
  have highest : (n / d : ℚ) < 2 ^ (guess + 1) := by
    rw [div_lt_iff₀ posQ]
    calc (n : ℚ) < 2 ^ ((Nat.log2 n : Int) + 1) := numerator.2
      _ = 2 ^ (guess + 1) * 2 ^ (Nat.log2 d : Int) := by
        rw [← zpow_add₀ (by norm_num)]; congr 1; omega
      _ ≤ 2 ^ (guess + 1) * d := by gcongr; exact denominator.1
  split
  · rename_i below
    have small : ((scaled n d (-guess)).1 : ℚ) / (scaled n d (-guess)).2 < 1 := by
      rw [div_lt_one scaledPos]
      exact_mod_cast below
    rw [ratio, div_lt_one (by positivity)] at small
    exact (log_eq lowest (by rwa [sub_add_cancel])).symm
  · rename_i above
    have large : 1 ≤ ((scaled n d (-guess)).1 : ℚ) / (scaled n d (-guess)).2 := by
      rw [one_le_div scaledPos]
      exact_mod_cast Nat.le_of_not_lt above
    rw [ratio, one_le_div (by positivity)] at large
    exact (log_eq large highest).symm

/-- The exponent of the last bit that a double near a number keeps. -/
def lastOf (q : ℚ) : Int := max (-1074) (Int.log 2 q - 52)

/-- Rounding is to a whole number of steps, each as wide as the last bit that is kept. -/
theorem nearestBits_spec {n d : Nat} (nonzero : 0 < n) (pos : 0 < d) :
    ∃ m, Rounds (n / d / 2 ^ lastOf (n / d)) m ∧
      nearestBits n d = min ((lastOf (n / d) + 1074).toNat * 2 ^ 52 + m) (2047 * 2 ^ 52) := by
  have last : lastBit n d = lastOf (n / d) := by rw [lastBit, leadingBit_eq nonzero pos, lastOf]
  have ratio := scaled_ratio n d (-lastBit n d)
  have rounds := rounds_roundDiv (n := (scaled n d (-lastBit n d)).1)
    (scaled_pos (n := n) pos (-lastBit n d))
  rw [ratio, zpow_neg, ← div_eq_mul_inv, last] at rounds
  refine ⟨_, rounds, ?_⟩
  unfold nearestBits
  rw [if_neg (by omega)]
  dsimp only
  rw [last]

theorem nearestBits_eq {n d m : Nat} (nonzero : 0 < n) (pos : 0 < d)
    (rounds : Rounds (n / d / 2 ^ lastOf (n / d)) m) :
    nearestBits n d = min ((lastOf (n / d) + 1074).toNat * 2 ^ 52 + m) (2047 * 2 ^ 52) := by
  obtain ⟨k, rounded, bits⟩ := nearestBits_spec nonzero pos
  rw [bits, rounded.unique rounds]

/-- Whether a number lies among those that read back as a magnitude: half its last bit away at most,
only a quarter below where the next smaller double is nearer, and less than that where the
significand is odd. -/
structure Parts.Near (p : Parts) (q : ℚ) : Prop where
  low : 4 * p.significand - Decimal.quartersBelow p ≤ 4 * (q / 2 ^ p.exponent)
  high : 4 * (q / 2 ^ p.exponent) ≤ 4 * p.significand + 2
  strict : p.significand % 2 = 1 →
    4 * p.significand - Decimal.quartersBelow p < 4 * (q / 2 ^ p.exponent) ∧
      4 * (q / 2 ^ p.exponent) < 4 * p.significand + 2

theorem quartersBelow_le (p : Parts) : Decimal.quartersBelow p ≤ 2 := by
  unfold Decimal.quartersBelow
  split <;> omega

theorem Parts.Near.rounds {p : Parts} {q : ℚ} (near : p.Near q) :
    Rounds (q / 2 ^ p.exponent) p.significand := by
  have quarters : (Decimal.quartersBelow p : ℚ) ≤ 2 := by exact_mod_cast quartersBelow_le p
  have low := near.low
  have high := near.high
  refine ⟨by linarith, by linarith, fun odd => ?_⟩
  have strict := near.strict odd
  constructor <;> linarith

theorem Parts.Near.pos {p : Parts} {q : ℚ} (nonzero : 0 < p.significand) (near : p.Near q) :
    0 < q := by
  have quarters : (Decimal.quartersBelow p : ℚ) ≤ 2 := by exact_mod_cast quartersBelow_le p
  have least : (1 : ℚ) ≤ p.significand := by exact_mod_cast nonzero
  have step : (0 : ℚ) < 2 ^ p.exponent := zpow_pos (by norm_num) _
  have low := near.low
  have positive : 0 < q / 2 ^ p.exponent := by linarith
  exact (div_pos_iff_of_pos_right step).mp positive

theorem log_le_of_near {p : Parts} {q : ℚ} (canonical : p.Canonical) (pos : 0 < q)
    (near : p.Near q) : Int.log 2 q ≤ p.exponent + 52 := by
  have short : (p.significand : ℚ) + 1 ≤ 2 ^ 53 := by exact_mod_cast canonical.short
  have high := near.high
  have step : (0 : ℚ) < 2 ^ p.exponent := zpow_pos (by norm_num) _
  have below : q < 2 ^ (p.exponent + 53) := by
    rw [zpow_add₀ (by norm_num), ← div_lt_iff₀' step]
    norm_num at short ⊢
    linarith
  have less : Int.log 2 q < p.exponent + 53 :=
    (Int.lt_zpow_iff_log_lt (by norm_num) pos).mp below
  omega

/-! A number that reads back as a magnitude lies in its binade, or just below it in the one before,
where the last bit is half as wide. -/

section
variable {p : Parts} {q : ℚ}

theorem lastOf_of_within (canonical : p.Canonical) (pos : 0 < q) (near : p.Near q)
    (within : p.exponent = -1074 ∨ (2 : ℚ) ^ (p.exponent + 52) ≤ q) : lastOf q = p.exponent := by
  have below := log_le_of_near canonical pos near
  have least := canonical.least
  unfold lastOf
  rcases within with subnormal | reached
  · omega
  · have atLeast : p.exponent + 52 ≤ Int.log 2 q :=
      (Int.zpow_le_iff_le_log (by norm_num) pos).mp reached
    omega

/-- From below a binade only its least magnitude is read back, from a quarter away at most. -/
theorem Parts.Near.of_below (canonical : p.Canonical) (near : p.Near q)
    (normal : p.exponent ≠ -1074) (short : q < 2 ^ (p.exponent + 52)) :
    p.significand = 2 ^ 52 ∧ (2 : ℚ) ^ 54 - 1 ≤ 4 * (q / 2 ^ p.exponent) := by
  have step : (0 : ℚ) < 2 ^ p.exponent := zpow_pos (by norm_num) _
  have least := canonical.least
  have full : 2 ^ 52 ≤ p.significand := canonical.leading.resolve_left normal
  have quarters : (Decimal.quartersBelow p : ℚ) ≤ 2 := by exact_mod_cast quartersBelow_le p
  have low := near.low
  have under : q / 2 ^ p.exponent < 2 ^ 52 := by
    rw [div_lt_iff₀' step]
    rwa [zpow_add₀ (by norm_num)] at short
  have leastOfBinade : p.significand = 2 ^ 52 := by
    have : (p.significand : ℚ) < 2 ^ 52 + 1 := by linarith
    have : p.significand < 2 ^ 52 + 1 := by exact_mod_cast this
    omega
  have quarter : Decimal.quartersBelow p = 1 := by
    unfold Decimal.quartersBelow
    rw [if_pos ⟨leastOfBinade, by omega⟩]
  rw [leastOfBinade, quarter] at low
  push_cast at low
  exact ⟨leastOfBinade, by linarith⟩

theorem lastOf_of_below (canonical : p.Canonical) (normal : p.exponent ≠ -1074)
    (short : q < 2 ^ (p.exponent + 52)) (close : (2 : ℚ) ^ 54 - 1 ≤ 4 * (q / 2 ^ p.exponent)) :
    lastOf q = p.exponent - 1 := by
  have step : (0 : ℚ) < 2 ^ p.exponent := zpow_pos (by norm_num) _
  have least := canonical.least
  have log : Int.log 2 q = p.exponent + 51 := by
    apply log_eq
    · rw [zpow_add₀ (by norm_num), ← le_div_iff₀' step]
      norm_num at close ⊢
      linarith
    · rwa [show p.exponent + 51 + 1 = p.exponent + 52 by ring]
  unfold lastOf
  omega

end

/-- A number that reads back as a magnitude is rounded to it, also where it lies in the binade
below. -/
theorem nearestBits_of_near {n d : Nat} {p : Parts} (canonical : p.Canonical) (nonzero : 0 < n)
    (pos : 0 < d) (near : p.Near (n / d)) : nearestBits n d = p.bits := by
  have positive : (0 : ℚ) < n / d := by positivity
  have fits := canonical.bits_lt
  have least := canonical.least
  by_cases within : p.exponent = -1074 ∨ (2 : ℚ) ^ (p.exponent + 52) ≤ n / d
  · have last := lastOf_of_within canonical positive near within
    rw [nearestBits_eq nonzero pos (m := p.significand) (by rw [last]; exact near.rounds), last]
    exact Nat.min_eq_left (by unfold Parts.bits at fits; omega)
  · obtain ⟨normal, short⟩ := not_or.mp within
    obtain ⟨leastOfBinade, close⟩ := near.of_below canonical normal (not_le.mp short)
    have last := lastOf_of_below canonical normal (not_le.mp short) close
    have high := near.high
    rw [leastOfBinade] at high
    push_cast at high
    have rounds : Rounds (n / d / 2 ^ lastOf (n / d)) (2 ^ 53) := by
      have doubled : (n / d : ℚ) / 2 ^ (p.exponent - 1) = 2 * (n / d / 2 ^ p.exponent) := by
        rw [zpow_sub_one₀ (by norm_num)]
        field_simp
      have under : (n / d : ℚ) / 2 ^ p.exponent < 2 ^ 52 := by
        rw [div_lt_iff₀' (zpow_pos (by norm_num) _)]
        rw [zpow_add₀ (by norm_num)] at short
        exact not_le.mp short
      rw [last, doubled]
      refine ⟨?_, ?_, fun odd => absurd odd (by decide)⟩
      · push_cast
        linarith
      · push_cast
        linarith
    rw [nearestBits_eq nonzero pos rounds, last]
    unfold Parts.bits at fits ⊢
    omega

/-! ### Beyond every double -/

/-- Half a unit above the largest finite double: what is not below it is beyond every double. -/
def limit : ℚ := 2 ^ 1024 - 2 ^ 970

theorem limit_eq : limit = (2 ^ 53 - 1 / 2) * 2 ^ (971 : Int) := by
  have top : (2 : ℚ) ^ 1024 = 2 ^ 54 * 2 ^ 970 := by rw [← pow_add]
  have step : (2 : ℚ) ^ (971 : Int) = 2 * 2 ^ 970 := by
    rw [← pow_succ']
    exact zpow_natCast 2 971
  rw [limit, top, step]
  generalize (2 : ℚ) ^ 970 = unit
  ring

theorem limit_pos : 0 < limit := by
  rw [limit_eq]
  exact mul_pos (by norm_num) (zpow_pos (by norm_num) _)

theorem lt_limit_of_log_lt {q : ℚ} (less : Int.log 2 q < 1023) : q < limit := by
  calc q < (2 : ℚ) ^ (Int.log 2 q + 1) := Int.lt_zpow_succ_log_self (by norm_num) q
    _ ≤ 2 ^ (1023 : Int) := zpow_le_zpow_right₀ (by norm_num) (by omega)
    _ = 2 ^ 52 * 2 ^ (971 : Int) := by rw [← zpow_natCast, ← zpow_add₀ (by norm_num)]; norm_num
    _ ≤ limit := by rw [limit_eq]; gcongr; norm_num

theorem limit_le_of_lt_log {q : ℚ} (pos : 0 < q) (more : 1023 < Int.log 2 q) : limit ≤ q := by
  calc limit ≤ 2 ^ 53 * 2 ^ (971 : Int) := by rw [limit_eq]; gcongr; norm_num
    _ = 2 ^ (1024 : Int) := by rw [← zpow_natCast, ← zpow_add₀ (by norm_num)]; norm_num
    _ ≤ 2 ^ Int.log 2 q := zpow_le_zpow_right₀ (by norm_num) (by omega)
    _ ≤ q := Int.zpow_log_le_self (by norm_num) pos

/-- In steps of the last bit that is kept a number has 53 bits at most. -/
theorem div_lastOf_lt (q : ℚ) : q / 2 ^ lastOf q < (2 ^ 53 : Nat) := by
  have step : (0 : ℚ) < 2 ^ lastOf q := zpow_pos (by norm_num) _
  rw [div_lt_iff₀ step]
  calc q < (2 : ℚ) ^ (Int.log 2 q + 1) := Int.lt_zpow_succ_log_self (by norm_num) q
    _ ≤ 2 ^ (53 + lastOf q) := zpow_le_zpow_right₀ (by norm_num) (by unfold lastOf; omega)
    _ = (2 ^ 53 : Nat) * 2 ^ lastOf q := by rw [zpow_add₀ (by norm_num)]; norm_num

/-- Unless the last bit is the least of all, it has as many. -/
theorem le_div_lastOf {q : ℚ} (pos : 0 < q) (normal : -1022 ≤ Int.log 2 q) :
    (2 ^ 52 : Nat) ≤ q / 2 ^ lastOf q := by
  have last : lastOf q = Int.log 2 q - 52 := by unfold lastOf; omega
  have step : (0 : ℚ) < 2 ^ lastOf q := zpow_pos (by norm_num) _
  rw [le_div_iff₀ step]
  calc ((2 ^ 52 : Nat) : ℚ) * 2 ^ lastOf q
      = 2 ^ (52 + lastOf q) := by rw [zpow_add₀ (by norm_num)]; norm_num
    _ = 2 ^ Int.log 2 q := by rw [last]; congr 1; omega
    _ ≤ q := Int.zpow_log_le_self (by norm_num) pos

/-- A number is rounded to infinity exactly when it is beyond every double. Only in the last binade
does rounding decide: its upper end is infinity. -/
theorem nearestBits_eq_infinity_iff {n d : Nat} (pos : 0 < d) :
    nearestBits n d = 2047 * 2 ^ 52 ↔ limit ≤ n / d := by
  rcases Nat.eq_zero_or_pos n with rfl | nonzero
  · have zero : nearestBits 0 d = 0 := rfl
    simp [zero, limit_pos]
  have positive : (0 : ℚ) < n / d := by positivity
  obtain ⟨m, rounds, bits⟩ := nearestBits_spec nonzero pos
  rw [bits]
  generalize (n / d : ℚ) = q at *
  have short := rounds.le_of_ge (div_lastOf_lt q).le
  rcases lt_trichotomy (Int.log 2 q) 1023 with less | exactly | more
  · have last : lastOf q ≤ 970 := by unfold lastOf; omega
    have below := lt_limit_of_log_lt less
    exact ⟨fun infinite => by omega, fun beyond => absurd below (not_lt.mpr beyond)⟩
  · have last : lastOf q = 971 := by unfold lastOf; omega
    rw [last] at rounds ⊢
    have reached := rounds.reaches_iff (k := 2 ^ 53) (by decide)
    have cast : ((2 ^ 53 : Nat) : ℚ) = 2 ^ 53 := by norm_num
    rw [limit_eq, ← le_div_iff₀ (zpow_pos (by norm_num) _), ← cast, ← reached]
    omega
  · have last : lastOf q = Int.log 2 q - 52 := by unfold lastOf; omega
    have full := rounds.le_of_le (le_div_lastOf positive (by omega))
    exact ⟨fun _ => limit_le_of_lt_log positive more, fun _ => by omega⟩

end VesselRelay.Binary64
