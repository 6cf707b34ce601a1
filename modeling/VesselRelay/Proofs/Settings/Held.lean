import VesselRelay.Proofs.Binary64.Nearest
import VesselRelay.Proofs.Decimal.Nearest
import VesselRelay.Settings.Numeral

/-!
The magnitudes that are held as doubles. One beyond all doubles is not held, and one too small for a
normal double only if it is a multiple of the least double, or would be one without its 54th bit. A
magnitude that is held becomes the nearest double. The ratio that stands for a number far out of
range is not held either.
-/
namespace VesselRelay.Settings

open Binary64 (MultipleOfLeast NearestTo Parts beside_nearest canonical_of_parts? isFinite_ofBits
  leadingBit leadingBit_eq limit limit_pos nearest nearestBits_eq_infinity_iff nearestBits_small
  nearestTo_nearest nearestTo_of_close nearestTo_of_eq negative number? number?_ofBits number?_zero
  parts? scaled scaled_pos scaled_ratio)

/-- From here on a number is rounded to a normal double. -/
def normalLimit : ℚ := (2 ^ 54 - 1) * 2 ^ (-1076 : ℤ)

/-- Whether a number that has 54 bits is a multiple of the least double but for the last of them. In
decimal that bit is looked at only right below the normal doubles. -/
def GuardEnded (hexadecimal : Bool) (q : ℚ) : Prop :=
  (hexadecimal ∨ Int.log 2 q = -1023) ∧ MultipleOfLeast (q - 2 ^ (Int.log 2 q - 53))

/-- Whether a magnitude is held as a double. -/
structure Held (hexadecimal : Bool) (q : ℚ) : Prop where
  below : q < limit
  small : q < normalLimit → MultipleOfLeast q ∨ GuardEnded hexadecimal q

variable {q : ℚ} {hexadecimal : Bool} {n d : ℕ}

/-! ### What is tiny -/

theorem two_zpow_pos (e : ℤ) : (0 : ℚ) < 2 ^ e := zpow_pos (by norm_num) e

theorem two_zpow_lt {e f : ℤ} (less : e < f) : (2 : ℚ) ^ e < 2 ^ f :=
  zpow_lt_zpow_right₀ (by norm_num) less

theorem two_zpow_le {e f : ℤ} (le : e ≤ f) : (2 : ℚ) ^ e ≤ 2 ^ f :=
  zpow_le_zpow_right₀ (by norm_num) le

theorem normalLimit_lt : normalLimit < 2 ^ (-1022 : ℤ) := by
  have top : (2 : ℚ) ^ (-1022 : ℤ) = 2 ^ 54 * 2 ^ (-1076 : ℤ) := by
    rw [← zpow_natCast, ← zpow_add₀ (by norm_num)]
    rfl
  have step := two_zpow_pos (-1076)
  rw [normalLimit, top]
  linarith

theorem lt_limit_of_small (small : q < 2 ^ (-1022 : ℤ)) : q < limit := by
  have one : (2 : ℚ) ^ (-1022 : ℤ) ≤ 1 := zpow_le_one_of_nonpos₀ (by norm_num) (by norm_num)
  have above := Decimal.one_lt_limit
  linarith

theorem tiny_iff (pos : 0 < d) : tiny n d ↔ (n / d : ℚ) < normalLimit := by
  have posQ : (0 : ℚ) < d := by exact_mod_cast pos
  have power : (2 : ℚ) ^ (-1076 : ℤ) = ((2 ^ 1076 : ℕ) : ℚ)⁻¹ := by
    rw [zpow_neg, Nat.cast_pow]
    exact congrArg Inv.inv (zpow_natCast 2 1076)
  have some : 0 < 2 ^ 1076 := Nat.two_pow_pos 1076
  rw [tiny, decide_eq_true_eq, normalLimit, power]
  generalize 2 ^ 1076 = unit at *
  have someQ : (0 : ℚ) < unit := by exact_mod_cast some
  rw [← div_eq_mul_inv, div_lt_div_iff₀ posQ someQ, ← Nat.cast_lt (α := ℚ), mul_comm (_ - _ : ℚ)]
  norm_num

/-- A multiple of the least double that is too small for a normal one is a double. -/
theorem exists_parts_of_multiple (multiple : MultipleOfLeast q) (small : q < 2 ^ (-1022 : ℤ)) :
    ∃ p : Parts, p.Canonical ∧ p.value = q := by
  obtain ⟨k, rfl⟩ := multiple
  have step := two_zpow_pos (-1074)
  have top : (2 : ℚ) ^ (-1022 : ℤ) = 2 ^ 52 * 2 ^ (-1074 : ℤ) := by
    rw [← zpow_natCast, ← zpow_add₀ (by norm_num)]
    rfl
  rw [top, mul_lt_mul_iff_left₀ step] at small
  have short : k < 2 ^ 52 := by exact_mod_cast small
  refine ⟨⟨k, -1074⟩, ⟨?_, le_rfl, ?_, .inl rfl⟩, rfl⟩ <;> dsimp only <;> omega

theorem exact_iff {x : Float} (pos : 0 < d) :
    exact x n d ↔ ∃ p, parts? x = some p ∧ p.value = n / d := by
  have posQ : (d : ℚ) ≠ 0 := by exact_mod_cast pos.ne'
  unfold exact
  cases parts? x with
  | none => simp
  | some p =>
    have above : ((scaled p.significand 1 p.exponent).2 : ℚ) ≠ 0 := by
      exact_mod_cast (scaled_pos Nat.one_pos p.exponent).ne'
    have ratio := scaled_ratio p.significand 1 p.exponent
    rw [Nat.cast_one, div_one] at ratio
    simp only [Option.some.injEq, exists_eq_left', beq_iff_eq]
    rw [Parts.value, ← ratio, div_eq_div_iff above posQ, ← Nat.cast_inj (R := ℚ)]
    push_cast
    rfl

theorem number?_nearest_of_multiple (pos : 0 < d) (multiple : MultipleOfLeast (n / d))
    (small : (n / d : ℚ) < 2 ^ (-1022 : ℤ)) : number? (nearest n d) = some (n / d : ℚ) := by
  obtain ⟨r, canonical, value⟩ := exists_parts_of_multiple multiple small
  have double := number?_ofBits canonical
  rw [value] at double
  exact (beside_nearest pos).exact double

/-- A tiny ratio is rounded to itself exactly where it is a multiple of the least double. -/
theorem exact_nearest_iff (pos : 0 < d) (small : (n / d : ℚ) < 2 ^ (-1022 : ℤ)) :
    exact (nearest n d) n d ↔ MultipleOfLeast (n / d) := by
  rw [exact_iff pos]
  constructor
  · rintro ⟨p, finite, value⟩
    rw [← value]
    exact (canonical_of_parts? finite).multipleOfLeast
  · intro multiple
    have same := number?_nearest_of_multiple pos multiple small
    obtain ⟨p, finite, number⟩ := Option.map_eq_some_iff.mp same
    refine ⟨p, finite, ?_⟩
    have nonneg : (0 : ℚ) ≤ n / d := by positivity
    have above := p.value_nonneg
    cases sign : negative (nearest n d) with
    | true =>
      simp only [sign, if_true] at number
      linarith
    | false => simpa [sign] using number

/-! ### The guard bit -/

/-- Whether the last bit of a number is its 54th, where that is looked at. -/
def EndsWithGuard (hexadecimal : Bool) (q : ℚ) : Prop :=
  (hexadecimal ∨ -1076 ≤ Int.log 2 q - 53) ∧ ∃ u : ℕ, u % 2 = 1 ∧ q = u * 2 ^ (Int.log 2 q - 53)

theorem withoutGuard_spec (m : Magnitude) (positive : 0 < m.numerator) (pos : 0 < m.denominator)
    (ratio : (m.numerator / m.denominator : ℚ) = q) :
    0 < m.withoutGuard.2 ∧
      (EndsWithGuard m.hexadecimal q ∧
          (m.withoutGuard.1 / m.withoutGuard.2 : ℚ) = q - 2 ^ (Int.log 2 q - 53) ∨
        ¬ EndsWithGuard m.hexadecimal q ∧ (m.withoutGuard.1 / m.withoutGuard.2 : ℚ) = q) := by
  have guard : leadingBit m.numerator m.denominator - 53 = Int.log 2 q - 53 := by
    rw [leadingBit_eq positive pos, ratio]
  have steps := scaled_ratio m.numerator m.denominator (-(Int.log 2 q - 53))
  have above := scaled_pos (n := m.numerator) pos (-(Int.log 2 q - 53))
  unfold Magnitude.withoutGuard EndsWithGuard
  dsimp only
  rw [guard]
  rw [ratio, zpow_neg, ← div_eq_mul_inv] at steps
  generalize Int.log 2 q - 53 = g at *
  generalize scaled m.numerator m.denominator (-g) = s at *
  obtain ⟨n, d⟩ := s
  dsimp only at *
  have posQ : (d : ℚ) ≠ 0 := by exact_mod_cast above.ne'
  have step := two_zpow_pos g
  have whole (u : ℕ) : q = u * 2 ^ g ↔ n = u * d := by
    rw [← div_eq_iff step.ne', ← steps, div_eq_iff posQ]
    exact_mod_cast Iff.rfl
  split
  · rename_i ends
    obtain ⟨even, odd, seen⟩ := ends
    have number : q = (n / d : ℕ) * 2 ^ g :=
      (whole _).mpr (Nat.div_mul_cancel (Nat.dvd_of_mod_eq_zero even)).symm
    refine ⟨scaled_pos Nat.one_pos g, .inl ⟨⟨seen, _, odd, number⟩, ?_⟩⟩
    have one : 1 ≤ n / d := Nat.one_le_iff_ne_zero.mpr fun zero => by simp [zero] at odd
    rw [scaled_ratio, Nat.cast_one, div_one, Nat.cast_sub one, Nat.cast_one, sub_mul, one_mul,
      ← number]
  · rename_i otherwise
    refine ⟨pos, .inr ⟨?_, ratio⟩⟩
    rintro ⟨seen, u, odd, number⟩
    have multiple := (whole u).mp number
    apply otherwise
    rw [multiple, Nat.mul_mod_left, Nat.mul_div_cancel u above]
    exact ⟨rfl, odd, seen⟩

/-- Of a tiny number the guard bit stands below the least double. -/
theorem multiple_eq_even {g : ℤ} (low : g ≤ -1076) (multiple : MultipleOfLeast q) :
    ∃ u : ℕ, u % 2 = 0 ∧ q = u * 2 ^ g := by
  obtain ⟨k, rfl⟩ := multiple
  obtain ⟨r, rest⟩ := Int.eq_ofNat_of_zero_le (a := -1074 - g - 1) (by omega)
  have power : (2 : ℚ) ^ (-1074 : ℤ) = 2 ^ (r + 1) * 2 ^ g := by
    rw [← zpow_natCast, ← zpow_add₀ (by norm_num)]
    congr 1
    push_cast
    omega
  refine ⟨k * 2 ^ (r + 1), ?_, ?_⟩
  · rw [Nat.pow_succ, ← Nat.mul_assoc]
    exact Nat.mul_mod_left ..
  · rw [power, ← mul_assoc]
    push_cast
    rfl

theorem odd_ne_even {g : ℤ} {u v : ℕ} (odd : u % 2 = 1) (even : v % 2 = 0) :
    (u : ℚ) * 2 ^ g ≠ v * 2 ^ g := by
  intro same
  have equal : u = v := by exact_mod_cast mul_right_cancel₀ (two_zpow_pos g).ne' same
  omega

/-- A tiny number is held where it is a multiple of the least double, without the guard bit that it
may end with. -/
theorem held_of_tiny_iff (positive : 0 < q) (small : q < normalLimit) :
    Held hexadecimal q ↔
      EndsWithGuard hexadecimal q ∧ MultipleOfLeast (q - 2 ^ (Int.log 2 q - 53)) ∨
        ¬ EndsWithGuard hexadecimal q ∧ MultipleOfLeast q := by
  have under := small.trans normalLimit_lt
  have low : Int.log 2 q < -1022 := (Int.lt_zpow_iff_log_lt (by norm_num) positive).mp under
  have held : Held hexadecimal q ↔ MultipleOfLeast q ∨ GuardEnded hexadecimal q :=
    ⟨fun held => held.small small, fun told => ⟨lt_limit_of_small under, fun _ => told⟩⟩
  have seen : (-1076 ≤ Int.log 2 q - 53) ↔ Int.log 2 q = -1023 := by omega
  have last : Int.log 2 q - 53 ≤ -1076 := by omega
  rw [held, GuardEnded, EndsWithGuard, seen]
  generalize Int.log 2 q - 53 = g at *
  have apart : MultipleOfLeast q → ¬ ∃ u : ℕ, u % 2 = 1 ∧ q = u * 2 ^ g := by
    rintro multiple ⟨u, odd, number⟩
    obtain ⟨v, even, number'⟩ := multiple_eq_even last multiple
    exact odd_ne_even odd even (number.symm.trans number')
  have ended : MultipleOfLeast (q - 2 ^ g) → ∃ u : ℕ, u % 2 = 1 ∧ q = u * 2 ^ g := by
    intro multiple
    obtain ⟨v, even, number⟩ := multiple_eq_even last multiple
    refine ⟨v + 1, by omega, ?_⟩
    push_cast
    linarith
  constructor
  · rintro (multiple | ⟨seen, multiple⟩)
    · exact .inr ⟨fun ends => apart multiple ends.2, multiple⟩
    · exact .inl ⟨⟨seen, ended multiple⟩, multiple⟩
  · rintro (⟨⟨seen, -⟩, multiple⟩ | ⟨-, multiple⟩)
    · exact .inr ⟨seen, multiple⟩
    · exact .inl multiple

/-! ### Magnitudes -/

/-- Whether what is read of a magnitude is the nearest double where the number is held, and nothing
where it is not. -/
structure ReadsAs (hexadecimal : Bool) (q : ℚ) (read : Option Float) : Prop where
  held : Held hexadecimal q → ∃ x, read = some x ∧ NearestTo x q
  lost : ¬ Held hexadecimal q → read = none

theorem readsAs_of_zero (m : Magnitude) (pos : 0 < m.denominator) (nothing : m.numerator = 0) :
    ReadsAs m.hexadecimal 0 m.held? := by
  have zero (e : ℤ) : (scaled 0 m.denominator e).1 = 0 := by cases e <;> simp [scaled]
  have kept : m.withoutGuard = (0, m.denominator) := by
    unfold Magnitude.withoutGuard
    simp [nothing, zero]
  have ratio : ((0 : ℕ) / m.denominator : ℚ) = 0 := by rw [Nat.cast_zero, zero_div]
  have multiple : MultipleOfLeast 0 := ⟨0, by simp⟩
  have small : (0 : ℚ) < normalLimit := mul_pos (by norm_num) (two_zpow_pos _)
  have under := two_zpow_pos (-1022)
  have tiny : tiny m.numerator m.denominator := (tiny_iff pos).mpr (by rwa [nothing, ratio])
  have exact : exact (nearest 0 m.denominator) 0 m.denominator :=
    (exact_nearest_iff pos (by rwa [ratio])).mpr (by rwa [ratio])
  have held : Held m.hexadecimal 0 := ⟨limit_pos, fun _ => .inl multiple⟩
  refine ⟨fun _ => ⟨nearest 0 m.denominator, ?_, nearestTo_of_eq number?_zero⟩,
    fun lost => absurd held lost⟩
  rw [Magnitude.held?, if_pos tiny, kept]
  exact if_pos exact

theorem readsAs_of_tiny (m : Magnitude) (pos : 0 < m.denominator)
    (ratio : (m.numerator / m.denominator : ℚ) = q) (positive : 0 < q) (small : q < normalLimit) :
    ReadsAs m.hexadecimal q m.held? := by
  have numerator : 0 < m.numerator := by
    apply Nat.pos_of_ne_zero
    intro nothing
    rw [nothing, Nat.cast_zero, zero_div] at ratio
    exact positive.ne ratio
  have under := small.trans normalLimit_lt
  have low : Int.log 2 q < -1022 := (Int.lt_zpow_iff_log_lt (by norm_num) positive).mp under
  obtain ⟨above, told⟩ := withoutGuard_spec m numerator pos ratio
  have iff : Held m.hexadecimal q ↔ _ := held_of_tiny_iff positive small
  have tiny : tiny m.numerator m.denominator := (tiny_iff pos).mpr (ratio ▸ small)
  have guard := two_zpow_pos (Int.log 2 q - 53)
  have half : 2 * 2 ^ (Int.log 2 q - 53) < (2 : ℚ) ^ (-1074 : ℤ) := by
    rw [← zpow_one_add₀ (by norm_num)]
    exact two_zpow_lt (by omega)
  unfold Magnitude.held?
  rw [if_pos tiny]
  generalize m.withoutGuard = g at *
  obtain ⟨n, d⟩ := g
  dsimp only at *
  have short : (n / d : ℚ) < 2 ^ (-1022 : ℤ) := by
    rcases told with ⟨-, same⟩ | ⟨-, same⟩ <;> linarith
  have fits : Held m.hexadecimal q ↔ MultipleOfLeast (n / d) := by
    rw [iff]
    rcases told with ⟨ends, same⟩ | ⟨otherwise, same⟩
    · simp [ends, same]
    · simp [otherwise, same]
  constructor
  · intro held
    have multiple := fits.mp held
    have number := number?_nearest_of_multiple above multiple short
    refine ⟨nearest n d, if_pos ((exact_nearest_iff above short).mpr multiple), ?_⟩
    rcases told with ⟨-, same⟩ | ⟨-, same⟩
    · refine nearestTo_of_close number ?_
      rwa [same, sub_sub_cancel_left, abs_neg, abs_of_pos guard]
    · rw [same] at number
      exact nearestTo_of_eq number
  · intro lost
    exact if_neg fun exact => lost (fits.mpr ((exact_nearest_iff above short).mp exact))

theorem readsAs_of_normal (m : Magnitude) (pos : 0 < m.denominator)
    (ratio : (m.numerator / m.denominator : ℚ) = q) (normal : normalLimit ≤ q) :
    ReadsAs m.hexadecimal q m.held? := by
  have large : ¬ tiny m.numerator m.denominator := by
    rw [tiny_iff pos, ratio, not_lt]
    exact normal
  have finite : (nearest m.numerator m.denominator).isFinite ↔ q < limit := by
    rw [nearest, isFinite_ofBits nearestBits_small, ne_eq, nearestBits_eq_infinity_iff pos, ratio,
      not_le]
  unfold Magnitude.held?
  rw [if_neg large]
  constructor
  · intro held
    refine ⟨_, if_pos (finite.mpr held.below), ?_⟩
    rw [← ratio]
    exact nearestTo_nearest pos (ratio ▸ held.below)
  · intro lost
    refine if_neg fun inside => lost ⟨finite.mp inside, fun small => ?_⟩
    exact absurd small (not_lt.mpr normal)

theorem readsAs (m : Magnitude) (pos : 0 < m.denominator)
    (ratio : (m.numerator / m.denominator : ℚ) = q) : ReadsAs m.hexadecimal q m.held? := by
  rcases Nat.eq_zero_or_pos m.numerator with nothing | positive
  · rw [nothing, Nat.cast_zero, zero_div] at ratio
    rw [← ratio]
    exact readsAs_of_zero m pos nothing
  · have above : 0 < q := by
      rw [← ratio]
      positivity
    rcases lt_or_ge q normalLimit with small | normal
    · exact readsAs_of_tiny m pos ratio above small
    · exact readsAs_of_normal m pos ratio normal

/-! ### Out of range -/

/-- Whether a ratio that stands for a number is the number, or both are beyond every double, or both
are above zero and below the least one. -/
def SameFate (ratio q : ℚ) : Prop :=
  ratio = q ∨ limit ≤ ratio ∧ limit ≤ q ∨
    (0 < ratio ∧ ratio < 2 ^ (-1074 : ℤ)) ∧ 0 < q ∧ q < 2 ^ (-1074 : ℤ)

theorem not_multipleOfLeast (positive : 0 < q) (small : q < 2 ^ (-1074 : ℤ)) :
    ¬ MultipleOfLeast q := by
  rintro ⟨k, rfl⟩
  have step := two_zpow_pos (-1074)
  rcases Nat.eq_zero_or_pos k with rfl | some
  · simp at positive
  · have one : (1 : ℚ) ≤ k := by exact_mod_cast some
    have least := le_mul_of_one_le_left step.le one
    linarith

theorem not_held_of_beyond (beyond : limit ≤ q) : ¬ Held hexadecimal q :=
  fun held => absurd held.below (not_lt.mpr beyond)

theorem not_held_of_vanishing (positive : 0 < q) (small : q < 2 ^ (-1074 : ℤ)) :
    ¬ Held hexadecimal q := by
  intro held
  have least : (2 : ℚ) ^ (-1074 : ℤ) < normalLimit := by
    have step := two_zpow_pos (-1076)
    have quarter : (2 : ℚ) ^ (-1074 : ℤ) = 4 * 2 ^ (-1076 : ℤ) := by
      rw [show (-1074 : ℤ) = 2 + -1076 by rfl, zpow_add₀ (by norm_num)]
      norm_num
    rw [quarter, normalLimit]
    linarith
  rcases held.small (small.trans least) with multiple | ⟨-, multiple⟩
  · exact not_multipleOfLeast positive small multiple
  · have guard := two_zpow_pos (Int.log 2 q - 53)
    have leading : (2 : ℚ) ^ Int.log 2 q ≤ q := Int.zpow_log_le_self (by norm_num) positive
    have lower : (2 : ℚ) ^ (Int.log 2 q - 53) < 2 ^ Int.log 2 q := two_zpow_lt (by omega)
    exact not_multipleOfLeast (by linarith) (by linarith) multiple

/-- A ratio of the same fate is held as the number itself would be. -/
theorem readsAs_of_sameFate (m : Magnitude) (pos : 0 < m.denominator)
    (fate : SameFate (m.numerator / m.denominator) q) : ReadsAs m.hexadecimal q m.held? := by
  rcases fate with same | ⟨beyond, beyond'⟩ | ⟨⟨positive, small⟩, positive', small'⟩
  · exact readsAs m pos same
  · have lost := (readsAs m pos rfl).lost (not_held_of_beyond beyond)
    exact ⟨fun held => absurd held (not_held_of_beyond beyond'), fun _ => lost⟩
  · have lost := (readsAs m pos rfl).lost (not_held_of_vanishing positive small)
    exact ⟨fun held => absurd held (not_held_of_vanishing positive' small'), fun _ => lost⟩

theorem ten_zpow_lt : (10 : ℚ) ^ (-400 : ℤ) < 2 ^ (-1074 : ℤ) := by
  calc (10 : ℚ) ^ (-400 : ℤ) = (10 ^ (-16 : ℤ)) ^ (25 : ℤ) := zpow_mul 10 (-16) 25
    _ ≤ (2 ^ (-43 : ℤ)) ^ (25 : ℤ) :=
      zpow_le_zpow_left₀ (by norm_num) (by norm_num) (by norm_num)
    _ = 2 ^ (-1075 : ℤ) := (zpow_mul 2 (-43) 25).symm
    _ < 2 ^ (-1074 : ℤ) := two_zpow_lt (by norm_num)

theorem sameFate_ratio (x : Decimal.Scientific) : SameFate (x.ratio.1 / x.ratio.2) x.value := by
  have power : ((10 ^ 400 : ℕ) : ℚ) = 10 ^ (400 : ℤ) := by
    rw [Nat.cast_pow]
    exact (zpow_natCast 10 400).symm
  by_cases nothing : x.digits = 0
  · left
    simp [Decimal.Scientific.ratio, Decimal.Scientific.value, nothing]
  by_cases high : 400 < x.exponent
  · right
    left
    constructor
    · rw [Decimal.Scientific.ratio, if_neg nothing, if_pos high, power, Nat.cast_one, div_one]
      exact Decimal.limit_le_ten_pow
    · calc limit ≤ 10 ^ (400 : ℤ) := Decimal.limit_le_ten_pow
        _ ≤ 10 ^ x.exponent := zpow_le_zpow_right₀ (by norm_num) high.le
        _ ≤ x.value := Decimal.ten_zpow_le_value nothing
  by_cases low : x.exponent + (Nat.log2 x.digits + 1) < -400
  · right
    right
    have ratio : (x.ratio.1 / x.ratio.2 : ℚ) = 10 ^ (-400 : ℤ) := by
      rw [Decimal.Scientific.ratio, if_neg nothing, if_neg high, if_pos low, power, Nat.cast_one,
        one_div, zpow_neg]
    have positive : (0 : ℚ) < 10 ^ x.exponent := zpow_pos (by norm_num) _
    rw [ratio]
    refine ⟨⟨zpow_pos (by norm_num) _, ten_zpow_lt⟩,
      positive.trans_le (Decimal.ten_zpow_le_value nothing), ?_⟩
    calc x.value < 10 ^ (x.exponent + (Nat.log2 x.digits + 1)) := Decimal.value_lt_ten_zpow x
      _ ≤ 10 ^ (-400 : ℤ) := zpow_le_zpow_right₀ (by norm_num) low.le
      _ < 2 ^ (-1074 : ℤ) := ten_zpow_lt
  · exact .inl (Decimal.ratio_eq nothing (not_lt.mp high) (not_lt.mp low))

theorem binaryRatio_pos (significand : ℕ) (power : ℤ) : 0 < (binaryRatio significand power).2 := by
  unfold binaryRatio
  split_ifs
  · exact Nat.one_pos
  · exact Nat.one_pos
  · exact Nat.two_pow_pos 2000
  · exact scaled_pos Nat.one_pos power

theorem sameFate_binaryRatio (significand : ℕ) (power : ℤ) :
    SameFate ((binaryRatio significand power).1 / (binaryRatio significand power).2)
      (significand * 2 ^ power) := by
  have far : ((2 ^ 2000 : ℕ) : ℚ) = 2 ^ (2000 : ℤ) := by
    rw [Nat.cast_pow]
    exact (zpow_natCast 2 2000).symm
  by_cases nothing : significand = 0
  · left
    simp [binaryRatio, nothing]
  have bounds := Binary64.log2_bounds (Nat.pos_of_ne_zero nothing)
  have step := two_zpow_pos power
  by_cases high : 2000 < power
  · right
    left
    have top : limit ≤ 2 ^ (2000 : ℤ) := by
      calc limit ≤ 2 ^ 1024 := sub_le_self _ (by positivity)
        _ = 2 ^ (1024 : ℤ) := (zpow_natCast 2 1024).symm
        _ ≤ 2 ^ (2000 : ℤ) := two_zpow_le (by norm_num)
    constructor
    · rw [binaryRatio, if_neg nothing, if_pos high, far, Nat.cast_one, div_one]
      exact top
    · have one : (1 : ℚ) ≤ significand := by exact_mod_cast Nat.one_le_iff_ne_zero.mpr nothing
      calc limit ≤ 2 ^ (2000 : ℤ) := top
        _ ≤ 2 ^ power := two_zpow_le high.le
        _ ≤ significand * 2 ^ power := le_mul_of_one_le_left step.le one
  by_cases low : power + (Nat.log2 significand + 1) < -2000
  · right
    right
    have ratio : ((binaryRatio significand power).1 / (binaryRatio significand power).2 : ℚ) =
        2 ^ (-2000 : ℤ) := by
      rw [binaryRatio, if_neg nothing, if_neg high, if_pos low, far, Nat.cast_one, one_div,
        zpow_neg]
    have some : (0 : ℚ) < significand := by exact_mod_cast Nat.pos_of_ne_zero nothing
    rw [ratio]
    refine ⟨⟨two_zpow_pos _, two_zpow_lt (by norm_num)⟩, mul_pos some step, ?_⟩
    calc (significand : ℚ) * 2 ^ power
        < 2 ^ ((Nat.log2 significand : ℤ) + 1) * 2 ^ power :=
          mul_lt_mul_of_pos_right bounds.2 step
      _ = 2 ^ (power + (Nat.log2 significand + 1)) := by
          rw [← zpow_add₀ (by norm_num), add_comm]
      _ < 2 ^ (-1074 : ℤ) := two_zpow_lt (by omega)
  · left
    rw [binaryRatio, if_neg nothing, if_neg high, if_neg low, scaled_ratio, Nat.cast_one, div_one]

end VesselRelay.Settings
