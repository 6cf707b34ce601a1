import VesselRelay.Proofs.Binary64.Rounding
import VesselRelay.Proofs.Comparison

/-!
Finite doubles as exact numbers. They stand in line as their numbers do, and what a ratio is rounded
to stands right beside it: no double lies strictly between the two. So a ratio that is a double is
rounded to itself, and one between two doubles stays between them.
-/
namespace VesselRelay.Binary64

/-- The exact number that a finite double is. -/
def number? (x : Float) : Option ℚ :=
  (parts? x).map fun p => if negative x then -p.value else p.value

variable {x y z : Float} {p q : Parts} {a b c : ℚ}

theorem number?_of_parts? (finite : parts? x = some p) :
    number? x = some (if negative x then -p.value else p.value) := by
  rw [number?, finite, Option.map_some]

theorem isFinite_eq_isSome (x : Float) : x.isFinite = (number? x).isSome := by
  rw [isFinite_eq, number?, Option.isSome_map]

theorem number?_neg (exact : number? x = some a) : number? (-x) = some (-a) := by
  obtain ⟨p, finite, rfl⟩ := Option.map_eq_some_iff.mp exact
  rw [number?_of_parts? ((parts?_neg x).trans finite), negative_neg finite]
  cases negative x <;> simp

theorem abs_signed (nonneg : 0 ≤ a) (minus : Bool) : |if minus then -a else a| = a := by
  cases minus <;> simp [abs_of_nonneg nonneg]

/-- A magnitude is a whole multiple of any power of two up to its last bit. -/
theorem Parts.value_eq_whole (p : Parts) (least : ℤ) (below : least ≤ p.exponent) :
    p.value = (p.significand * 2 ^ (p.exponent - least).toNat : ℕ) * 2 ^ least := by
  rw [Nat.cast_mul, Nat.cast_pow, mul_assoc, Nat.cast_ofNat, ← zpow_natCast,
    ← zpow_add₀ (by norm_num), Int.toNat_of_nonneg (by omega), Int.sub_add_cancel, Parts.value]

/-! ### The line of doubles -/

theorem Parts.value_pos_iff : 0 < p.value ↔ 0 < p.significand := by
  have step : (0 : ℚ) < 2 ^ p.exponent := zpow_pos (by norm_num) _
  rw [Parts.value, mul_pos_iff_of_pos_right step, Nat.cast_pos]

/-- Magnitudes are compared by exponent and then by significand. -/
theorem Parts.Canonical.value_lt_iff (left : p.Canonical) (right : q.Canonical) :
    p.value < q.value ↔
      p.exponent < q.exponent ∨ p.exponent = q.exponent ∧ p.significand < q.significand := by
  have below {p q : Parts} (left : p.Canonical) (right : q.Canonical)
      (less : p.exponent < q.exponent) : p.value < q.value := by
    have full : 2 ^ 52 ≤ q.significand := right.leading.resolve_left (by have := left.least; omega)
    have step : (0 : ℚ) < 2 ^ p.exponent := zpow_pos (by norm_num) _
    calc p.value < 2 ^ 53 * 2 ^ p.exponent := by
          unfold Parts.value
          gcongr
          exact_mod_cast left.short
      _ = 2 ^ 52 * 2 ^ (p.exponent + 1) := by rw [zpow_add_one₀ (by norm_num)]; ring
      _ ≤ 2 ^ 52 * 2 ^ q.exponent := by gcongr <;> [norm_num; omega]
      _ ≤ q.value := by
          unfold Parts.value
          gcongr
          exact_mod_cast full
  rcases lt_trichotomy p.exponent q.exponent with less | same | more
  · exact iff_of_true (below left right less) (.inl less)
  · rw [Parts.value, Parts.value, same, mul_lt_mul_iff_left₀ (zpow_pos (by norm_num) _),
      Nat.cast_lt]
    simp
  · refine iff_of_false (below right left more).le.not_gt ?_
    omega

theorem place_of_parts? (finite : parts? x = some p) :
    place x = some (if p.significand = 0 then (0, 0, 0)
      else if negative x then (-1, -p.exponent, -(p.significand : Int))
      else (1, p.exponent, (p.significand : Int))) := by
  rw [parts?_eq] at finite
  rw [negative_eq, place]
  generalize x.toModel.unpack = u at *
  rcases u with (_ | _) | _ | _ | ⟨_ | _, m, e, positive⟩
  all_goals cases finite
  · rfl
  all_goals
    rw [if_neg (by dsimp only; omega)]
    rfl

/-- Doubles stand in line as their numbers do. -/
theorem lt_iff_of_number? (left : number? x = some a) (right : number? y = some b) :
    x < y ↔ a < b := by
  obtain ⟨p, finite, rfl⟩ := Option.map_eq_some_iff.mp left
  obtain ⟨q, finite', rfl⟩ := Option.map_eq_some_iff.mp right
  have canonical := canonical_of_parts? finite
  have canonical' := canonical_of_parts? finite'
  have less := canonical.value_lt_iff canonical'
  have more := canonical'.value_lt_iff canonical
  have level (p : Parts) : p.significand = 0 → p.value = 0 := fun zero => by
    rw [Parts.value, zero, Nat.cast_zero, zero_mul]
  have above (p : Parts) : p.significand ≠ 0 → 0 < p.value := fun some =>
    p.value_pos_iff.mpr (Nat.pos_of_ne_zero some)
  rw [lt_iff, place_of_parts? finite, place_of_parts? finite']
  simp only [Option.some.injEq, exists_and_left, exists_eq_left', RankLt]
  by_cases zero : p.significand = 0 <;> by_cases zero' : q.significand = 0 <;>
    simp only [zero, zero', if_true, if_false]
  · simp [level p zero, level q zero']
  · have := above q zero'
    cases negative y <;> simp [level p zero] <;> linarith
  · have := above p zero
    cases negative x <;> simp [level q zero'] <;> linarith
  · have := above p zero
    have := above q zero'
    cases negative x <;> cases negative y <;> simp
    · rw [less]
    · linarith
    · linarith
    · rw [more]
      omega

theorem le_iff_of_number? (left : number? x = some a) (right : number? y = some b) :
    x ≤ y ↔ a ≤ b := by
  rw [← not_lt, ← lt_iff_of_number? right left]
  constructor
  · exact not_lt_of_le
  · exact le_of_not_lt (self left) (self right)
where
  self {x : Float} {a : ℚ} (exact : number? x = some a) : x ≤ x := by
    obtain ⟨p, finite, _⟩ := Option.map_eq_some_iff.mp exact
    exact le_iff.mpr ⟨_, _, place_of_parts? finite, place_of_parts? finite, by simp [RankLt]⟩

theorem beq_of_number? (left : number? x = some a) (right : number? y = some a) : x == y :=
  beq_of_le ((le_iff_of_number? left right).mpr le_rfl) ((le_iff_of_number? right left).mpr le_rfl)

/-- Only the infinities stand beyond the finite doubles. -/
theorem isSome_number?_iff : (number? x).isSome ↔ ∃ m, place x = some m ∧ -2 < m.1 ∧ m.1 < 2 := by
  rw [number?, Option.isSome_map, parts?_eq, place]
  rcases x.toModel.unpack with (_ | _) | _ | _ | ⟨_ | _, m, e, positive⟩ <;>
    simp [magnitude, rank]

/-- What stands between two finite doubles is finite. -/
theorem number?_of_between (low : number? x = some a) (high : number? z = some c)
    (xy : x ≤ y) (yz : y ≤ z) : ∃ b, number? y = some b ∧ a ≤ b ∧ b ≤ c := by
  have finite : (number? y).isSome := by
    obtain ⟨l, hl, above, _⟩ := isSome_number?_iff.mp (Option.isSome_of_eq_some low)
    obtain ⟨h, hh, _, below⟩ := isSome_number?_iff.mp (Option.isSome_of_eq_some high)
    obtain ⟨l', m, hl', hm, lm⟩ := le_iff.mp xy
    obtain ⟨m', h', hm', hh', mh⟩ := le_iff.mp yz
    obtain rfl : l = l' := by simpa [hl] using hl'
    obtain rfl : m = m' := by simpa [hm] using hm'
    obtain rfl : h = h' := by simpa [hh] using hh'
    refine isSome_number?_iff.mpr ⟨m, hm, ?_⟩
    unfold RankLt at lm mh
    omega
  obtain ⟨b, exact⟩ := Option.isSome_iff_exists.mp finite
  exact ⟨b, exact, (le_iff_of_number? low exact).mp xy, (le_iff_of_number? exact high).mp yz⟩

/-! ### Beside a number -/

/-- No double lies strictly between a double and a number. -/
structure Beside (x : Float) (a : ℚ) : Prop where
  below : ∀ {y b}, number? y = some b → b ≤ a → y ≤ x
  above : ∀ {y b}, number? y = some b → a ≤ b → x ≤ y

/-- A double that is the number is the only one beside it, but for the sign of zero. -/
theorem Beside.exact (beside : Beside x a) (exact : number? y = some a) : number? x = some a := by
  obtain ⟨b, same, low, high⟩ := number?_of_between exact exact
    (beside.below exact (le_refl a)) (beside.above exact (le_refl a))
  rw [same, le_antisymm high low]

theorem Beside.between (beside : Beside x a) (low : number? y = some b) (high : number? z = some c)
    (ba : b ≤ a) (ac : a ≤ c) : ∃ d, number? x = some d ∧ b ≤ d ∧ d ≤ c :=
  number?_of_between low high (beside.below low ba) (beside.above high ac)

theorem neg_le_neg (xy : x ≤ y) : -y ≤ -x := by
  obtain ⟨a, b, ha, hb, ab⟩ := le_iff.mp xy
  refine le_iff.mpr ⟨_, _, by rw [place_neg, hb]; rfl, by rw [place_neg, ha]; rfl, ?_⟩
  simp only [RankLt] at *
  omega

theorem Beside.neg (beside : Beside x a) : Beside (-x) (-a) where
  below {y b} exact low := by
    have above := neg_le_neg (beside.above (number?_neg exact) (le_neg_of_le_neg low))
    rwa [neg_neg] at above
  above {y b} exact high := by
    have below := neg_le_neg (beside.below (number?_neg exact) (neg_le.mp high))
    rwa [neg_neg] at below

/-! ### Ratios -/

theorem number?_ofBits (canonical : p.Canonical) :
    number? (Float.ofBits p.bits.toUInt64) = some p.value := by
  obtain ⟨kept, positive⟩ := parts?_ofBits canonical
  rw [number?_of_parts? kept, positive]
  rfl

theorem exists_bits {bits : Nat} (finite : bits < 2047 * 2 ^ 52) :
    ∃ p : Parts, p.Canonical ∧ p.bits = bits := by
  by_cases subnormal : bits / 2 ^ 52 = 0
  · refine ⟨⟨bits, -1074⟩, ⟨?_, ?_, ?_, .inl rfl⟩, ?_⟩
    all_goals simp only [Parts.bits]
    all_goals omega
  · refine ⟨⟨2 ^ 52 + bits % 2 ^ 52, (bits / 2 ^ 52 : Nat) - 1075⟩, ⟨?_, ?_, ?_, .inr ?_⟩, ?_⟩
    all_goals simp only [Parts.bits]
    all_goals omega

theorem Parts.Canonical.bits_lt_iff (left : p.Canonical) (right : q.Canonical) :
    p.bits < q.bits ↔ p.value < q.value := by
  rw [left.value_lt_iff right]
  obtain ⟨short, least, _, leading⟩ := left
  obtain ⟨short', least', _, leading'⟩ := right
  unfold Parts.bits
  omega

/-- Bits stand in line as the doubles that they make, infinity the last of them. -/
theorem ofBits_le {low high : Nat} (le : low ≤ high) (small : high ≤ 2047 * 2 ^ 52) :
    Float.ofBits low.toUInt64 ≤ Float.ofBits high.toUInt64 := by
  have infinite : place (Float.ofBits (2047 * 2 ^ 52 : Nat).toUInt64) = some (2, 0, 0) := by
    decide +kernel
  rcases Nat.lt_or_eq_of_le small with finite | rfl
  · obtain ⟨p, canonical, rfl⟩ := exists_bits (Nat.lt_of_le_of_lt le finite)
    obtain ⟨q, canonical', rfl⟩ := exists_bits finite
    rw [le_iff_of_number? (number?_ofBits canonical) (number?_ofBits canonical'), ← not_lt,
      ← canonical'.bits_lt_iff canonical]
    omega
  · rcases Nat.lt_or_eq_of_le le with finite | rfl
    · obtain ⟨p, canonical, rfl⟩ := exists_bits finite
      obtain ⟨m, placed, _, below⟩ :=
        isSome_number?_iff.mp (Option.isSome_of_eq_some (number?_ofBits canonical))
      refine le_iff.mpr ⟨_, _, placed, infinite, ?_⟩
      simp only [RankLt]
      omega
    · exact le_iff.mpr ⟨_, _, infinite, infinite, by simp [RankLt]⟩

theorem number?_zero : number? (Float.ofBits (0 : Nat).toUInt64) = some 0 := by
  have canonical : (Parts.mk 0 (-1074)).Canonical := ⟨by decide, by decide, by decide, .inl rfl⟩
  have zero := number?_ofBits canonical
  rwa [Parts.value, Nat.cast_zero, zero_mul] at zero

theorem number?_nothing : number? 0.0 = some 0 := by
  rw [number?_of_parts? (p := ⟨0, -1074⟩) (by decide +kernel)]
  simp [Parts.value]

theorem number?_one : number? 1.0 = some 1 := by decide +kernel

theorem number?_two : number? 2.0 = some 2 := by decide +kernel

theorem exists_bits_of_pos (exact : number? x = some a) (positive : 0 < a) :
    ∃ p : Parts, p.Canonical ∧ x = Float.ofBits p.bits.toUInt64 ∧ a = p.value := by
  obtain ⟨p, finite, rfl⟩ := Option.map_eq_some_iff.mp exact
  have whole := withSign_ofBits finite
  cases sign : negative x with
  | true =>
    have level := p.value_nonneg
    simp only [sign, if_true] at positive
    linarith
  | false =>
    rw [sign] at whole
    exact ⟨p, canonical_of_parts? finite, whole.symm, by simp⟩

/-- A magnitude of a lower binade is below a number, and one of a higher binade above it. -/
theorem Parts.Canonical.lt_of_exponent_lt (canonical : p.Canonical) (positive : 0 < a)
    (less : p.exponent < lastOf a) : p.value < a := by
  have step : (0 : ℚ) < 2 ^ p.exponent := zpow_pos (by norm_num) _
  have least := canonical.least
  have last : lastOf a = Int.log 2 a - 52 := by unfold lastOf at *; omega
  calc p.value < 2 ^ 53 * 2 ^ p.exponent := by
        unfold Parts.value
        gcongr
        exact_mod_cast canonical.short
    _ = 2 ^ (53 + p.exponent) := by rw [zpow_add₀ (by norm_num)]; norm_num
    _ ≤ 2 ^ Int.log 2 a := zpow_le_zpow_right₀ (by norm_num) (by omega)
    _ ≤ a := Int.zpow_log_le_self (by norm_num) positive

theorem Parts.Canonical.gt_of_lt_exponent (canonical : p.Canonical) (more : lastOf a < p.exponent) :
    a < p.value := by
  have least : -1074 ≤ lastOf a := by unfold lastOf; omega
  have full : 2 ^ 52 ≤ p.significand := canonical.leading.resolve_left (by omega)
  calc a < 2 ^ 53 * 2 ^ lastOf a := by
        have short := div_lastOf_lt a
        rw [div_lt_iff₀ (zpow_pos (by norm_num) _)] at short
        exact_mod_cast short
    _ = 2 ^ 52 * 2 ^ (lastOf a + 1) := by rw [zpow_add_one₀ (by norm_num)]; ring
    _ ≤ 2 ^ 52 * 2 ^ p.exponent := by gcongr <;> [norm_num; omega]
    _ ≤ p.value := by
        unfold Parts.value
        gcongr
        exact_mod_cast full

section
variable {n d : Nat}

theorem Parts.Canonical.bits_le_nearestBits (canonical : p.Canonical) (nonzero : 0 < n)
    (pos : 0 < d) (le : p.value ≤ n / d) : p.bits ≤ nearestBits n d := by
  have fits := canonical.bits_lt
  have short := canonical.short
  have least := canonical.least
  have positive : (0 : ℚ) < n / d := by positivity
  obtain ⟨m, rounds, bits⟩ := nearestBits_spec nonzero pos
  rw [bits]
  generalize (n / d : ℚ) = a at *
  rcases lt_trichotomy p.exponent (lastOf a) with less | same | more
  · have full : 2 ^ 52 ≤ m := by
      refine rounds.le_of_le (le_div_lastOf positive ?_)
      unfold lastOf at less
      omega
    unfold Parts.bits at *
    omega
  · have kept : p.significand ≤ m := by
      refine rounds.le_of_le ?_
      rwa [le_div_iff₀ (zpow_pos (by norm_num) _), ← same]
    unfold Parts.bits at *
    omega
  · exact absurd (canonical.gt_of_lt_exponent more) (not_lt.mpr le)

theorem Parts.Canonical.nearestBits_le_bits (canonical : p.Canonical) (nonzero : 0 < n)
    (pos : 0 < d) (ge : n / d ≤ p.value) : nearestBits n d ≤ p.bits := by
  have leading := canonical.leading
  have positive : (0 : ℚ) < n / d := by positivity
  obtain ⟨m, rounds, bits⟩ := nearestBits_spec nonzero pos
  rw [bits]
  generalize (n / d : ℚ) = a at *
  have short := rounds.le_of_ge (div_lastOf_lt a).le
  have least : -1074 ≤ lastOf a := by unfold lastOf; omega
  rcases lt_trichotomy p.exponent (lastOf a) with less | same | more
  · exact absurd (canonical.lt_of_exponent_lt positive less) (not_lt.mpr ge)
  · have kept : m ≤ p.significand := by
      refine rounds.le_of_ge ?_
      rwa [div_le_iff₀ (zpow_pos (by norm_num) _), ← same]
    unfold Parts.bits
    omega
  · unfold Parts.bits
    omega

theorem nearestBits_small : nearestBits n d ≤ 2047 * 2 ^ 52 := by
  unfold nearestBits
  split
  · exact Nat.zero_le _
  · exact Nat.min_le_right _ _

/-- A ratio is rounded to a double beside it. -/
theorem beside_nearest (pos : 0 < d) : Beside (nearest n d) (n / d) where
  below {y b} exact low := by
    rcases le_or_gt b 0 with under | above
    · have origin : y ≤ Float.ofBits (0 : Nat).toUInt64 :=
        (le_iff_of_number? exact number?_zero).mpr under
      exact le_trans origin (ofBits_le (Nat.zero_le _) nearestBits_small)
    · obtain ⟨p, canonical, rfl, rfl⟩ := exists_bits_of_pos exact above
      have nonzero : 0 < n := by
        have ratio : (0 : ℚ) < n / d := above.trans_le low
        rw [div_pos_iff_of_pos_right (by exact_mod_cast pos)] at ratio
        exact_mod_cast ratio
      exact ofBits_le (canonical.bits_le_nearestBits nonzero pos low) nearestBits_small
  above {y b} exact high := by
    rcases Nat.eq_zero_or_pos n with rfl | nonzero
    · rw [Nat.cast_zero, zero_div] at high
      exact (le_iff_of_number? number?_zero exact).mpr high
    · have ratio : (0 : ℚ) < n / d := by positivity
      have above : 0 < b := ratio.trans_le high
      obtain ⟨p, canonical, rfl, rfl⟩ := exists_bits_of_pos exact above
      exact ofBits_le (canonical.nearestBits_le_bits nonzero pos high) canonical.bits_lt.le

end

end VesselRelay.Binary64
