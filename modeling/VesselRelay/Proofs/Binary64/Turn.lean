import VesselRelay.Binary64.Remainder
import VesselRelay.Proofs.Binary64.Arithmetic

/-!
Remainders are exact, and an angle taken into one turn is in it. Only the addition of a whole turn
to what is left of a negative angle is rounded, and that may give the whole turn back.
-/
namespace VesselRelay.Binary64

variable {x y : Float} {a b : ℚ}

theorem number?_withSign (exact : number? x = some a) (minus : Bool) :
    number? (withSign minus x) = some (if minus then -a else a) := by
  cases minus with
  | false => exact exact
  | true => exact number?_neg exact

/-- A number of 53 bits is rounded to itself. -/
theorem number?_nearest_scaled {m : ℕ} {e : ℤ} (short : m < 2 ^ 53) (least : -1074 ≤ e)
    (greatest : e ≤ 971) :
    number? (nearest (scaled m 1 e).1 (scaled m 1 e).2) = some (m * 2 ^ e : ℚ) := by
  obtain ⟨z, exact⟩ := exists_magnitude short least greatest
  have beside := beside_nearest (n := (scaled m 1 e).1) (scaled_pos (n := m) Nat.one_pos e)
  rw [scaled_ratio, Nat.cast_one, div_one] at beside
  exact beside.exact exact

/-- What is left of a magnitude after whole multiples of another has 53 bits. -/
theorem Parts.Canonical.mod_lt {p q : Parts} (left : p.Canonical) (right : q.Canonical)
    (bits : q.significand ≠ 0) :
    p.significand * 2 ^ (p.exponent - min p.exponent q.exponent).toNat %
      (q.significand * 2 ^ (q.exponent - min p.exponent q.exponent).toNat) < 2 ^ 53 := by
  -- One of the two is counted in its own last bit, and what is left is at most that count.
  rcases le_total p.exponent q.exponent with finer | finer
  · rw [min_eq_left finer, Int.sub_self, Int.toNat_zero, pow_zero, mul_one]
    exact (Nat.mod_le _ _).trans_lt left.short
  · rw [min_eq_right finer, Int.sub_self, Int.toNat_zero, pow_zero, mul_one]
    exact (Nat.mod_lt _ (Nat.pos_of_ne_zero bits)).trans right.short

/-- What is left of a double after whole multiples of another is a double and less than that. -/
theorem number?_remainder (left : number? x = some a) (right : number? y = some b)
    (nonzero : b ≠ 0) :
    ∃ c, number? (remainder x y) = some c ∧ |c| < |b| ∧ ∃ k : ℤ, a = c + k * b := by
  obtain ⟨p, finite, rfl⟩ := Option.map_eq_some_iff.mp left
  obtain ⟨q, finite', rfl⟩ := Option.map_eq_some_iff.mp right
  have canonical := canonical_of_parts? finite
  have canonical' := canonical_of_parts? finite'
  have bits : q.significand ≠ 0 := by
    intro none
    simp [Parts.value, none] at nonzero
  simp only [remainder, finite, finite', if_neg bits]
  generalize common : min p.exponent q.exponent = least
  have bounds : -1074 ≤ least ∧ least ≤ 971 :=
    common ▸ ⟨le_min canonical.least canonical'.least, min_le_of_left_le canonical.greatest⟩
  have whole := p.value_eq_whole least (by omega)
  have whole' := q.value_eq_whole least (by omega)
  have positive : 0 < q.significand * 2 ^ (q.exponent - least).toNat :=
    Nat.mul_pos (Nat.pos_of_ne_zero bits) (Nat.two_pow_pos _)
  have short := canonical.mod_lt canonical' bits
  rw [common] at short
  generalize p.significand * 2 ^ (p.exponent - least).toNat = m at *
  generalize q.significand * 2 ^ (q.exponent - least).toNat = n at *
  have step : (0 : ℚ) < 2 ^ least := zpow_pos (by norm_num) _
  have less : ((m % n : ℕ) : ℚ) < n := by exact_mod_cast Nat.mod_lt m positive
  have parted : (m : ℚ) = (m % n : ℕ) + n * (m / n : ℕ) := by
    exact_mod_cast (Nat.mod_add_div m n).symm
  have exact := number?_nearest_scaled short bounds.1 bounds.2
  refine ⟨_, number?_withSign exact _, ?_, ?_⟩
  · rw [abs_signed (by positivity), abs_signed q.value_nonneg, whole']
    exact mul_lt_mul_of_pos_right less step
  · generalize m / n = k at parted
    refine ⟨if negative x = negative y then k else -k, ?_⟩
    rw [whole, whole', parted]
    cases negative x <;> cases negative y <;> simp <;> ring

/-! ### One turn -/

theorem number?_wrapTurn (exact : number? x = some a) :
    ∃ c, number? (wrapTurn x) = some c ∧ 0 ≤ c ∧ c ≤ 360 := by
  have turn : number? 360.0 = some 360 := by decide +kernel
  obtain ⟨r, left, size, -⟩ := number?_remainder exact turn (by norm_num)
  obtain ⟨low, high⟩ := abs_lt.mp size
  rw [abs_of_pos (by norm_num)] at low high
  rw [wrapTurn]
  split_ifs with negative
  · have under : r < 0 := (lt_iff_of_number? left number?_nothing).mp negative
    exact (beside_add left turn).between number?_nothing turn (by linarith) (by linarith)
  · have above : 0 ≤ r := not_lt.mp (mt (lt_iff_of_number? left number?_nothing).mpr negative)
    exact ⟨r, left, above, high.le⟩

end VesselRelay.Binary64
