import VesselRelay.Proofs.Binary64.Arithmetic

/-!
Rounding keeps the order of numbers, and so products and quotients of positive doubles grow with
their factors and dividends. That no double lies between a number and its rounding would not be
enough for this: two numbers between the same neighbours could be rounded past each other.
-/
namespace VesselRelay.Binary64

open Float.Model (UnpackedFloat)
open Float.Model.UnpackedFloat (Sign)

variable {x y z : Float} {a b c : ℚ}

/-! ### Nearest doubles -/

theorem Rounds.le_of_le_of_rounds {q q' : ℚ} {m m' : ℕ} (rounds : Rounds q m)
    (rounds' : Rounds q' m') (le : q ≤ q') : m ≤ m' := by
  by_contra more
  have above : (m' : ℚ) + 1 ≤ m := by exact_mod_cast not_le.mp more
  have low := rounds.1
  have high := rounds'.2.1
  obtain rfl : q = q' := by linarith
  exact more (rounds.unique rounds').le

theorem lastOf_le_of_le (above : 0 < a) (le : a ≤ b) : lastOf a ≤ lastOf b := by
  have logs : Int.log 2 a ≤ Int.log 2 b := Int.log_mono_right above le
  unfold lastOf
  omega

theorem nearestBits_le_of_le {n d n' d' : ℕ} (nonzero : 0 < n) (pos : 0 < d) (nonzero' : 0 < n')
    (pos' : 0 < d') (le : (n / d : ℚ) ≤ n' / d') : nearestBits n d ≤ nearestBits n' d' := by
  have above : (0 : ℚ) < n / d := by positivity
  have above' : (0 : ℚ) < n' / d' := by positivity
  obtain ⟨m, rounds, bits⟩ := nearestBits_spec nonzero pos
  obtain ⟨m', rounds', bits'⟩ := nearestBits_spec nonzero' pos'
  rw [bits, bits']
  generalize (n / d : ℚ) = a at *
  generalize (n' / d' : ℚ) = b at *
  have last := lastOf_le_of_le above le
  have least : -1074 ≤ lastOf a := by unfold lastOf; omega
  have short := rounds.le_of_ge (div_lastOf_lt a).le
  rcases last.lt_or_eq with lower | same
  · have full : 2 ^ 52 ≤ m' := rounds'.le_of_le (le_div_lastOf above' (by
      unfold lastOf at lower
      omega))
    omega
  · rw [← same] at rounds'
    have kept := rounds.le_of_le_of_rounds rounds'
      (div_le_div_of_nonneg_right le (zpow_pos (by norm_num) _).le)
    omega

theorem nearest_le_of_le (above : 0 < a) (le : a ≤ b) :
    nearest a.num.toNat a.den ≤ nearest b.num.toNat b.den := by
  have above' := above.trans_le le
  refine ofBits_le (nearestBits_le_of_le (toNat_num_pos above) a.den_pos (toNat_num_pos above')
    b.den_pos ?_) nearestBits_small
  rwa [toNat_num_div_den above, toNat_num_div_den above']

/-! ### Products and quotients of positive doubles -/

theorem finite_of_worth {u : UnpackedFloat} (exact : worth u = some a) (above : 0 < a) :
    ∃ m e, ∃ positive : 0 < m, u = .finite .positive m e positive := by
  rcases u with _ | _ | _ | ⟨_ | _, m, e, positive⟩
  · cases exact
  · cases exact
  · cases exact
    exact absurd above (lt_irrefl 0)
  · cases exact
    have below : (m : ℚ) * 2 ^ e > 0 := by positivity
    simp only [Sign.apply, Int.cast_neg, Int.cast_natCast] at above
    linarith
  · exact ⟨m, e, positive, rfl⟩

theorem mul_eq_nearest (left : number? x = some a) (right : number? y = some b) (above : 0 < a)
    (above' : 0 < b) : x * y = nearest (a * b).num.toNat (a * b).den := by
  have keptX := kept_unpack x
  have keptY := kept_unpack y
  rw [number?_eq] at left right
  change packed (UnpackedFloat.mul .binary64 x.toModel.unpack y.toModel.unpack) = _
  generalize x.toModel.unpack = u at *
  generalize y.toModel.unpack = v at *
  obtain ⟨m, e, positive, rfl⟩ := finite_of_worth left above
  obtain ⟨n, f, positive', rfl⟩ := finite_of_worth right above'
  cases left
  cases right
  have exact : Stands (.ofMantissaAndAccuracy (m * n) .exact)
      (((Sign.positive.apply m : ℤ) * 2 ^ e * ((Sign.positive.apply n : ℤ) * 2 ^ f) : ℚ) /
        2 ^ (e + f)) := by
    change _ = ((m * n : ℕ) : ℚ)
    rw [zpow_add₀ (by norm_num), mul_mul_mul_comm,
      mul_div_cancel_right₀ _ (mul_pos (zpow_pos (by norm_num) e) (zpow_pos (by norm_num) f)).ne']
    simp [Sign.apply]
  exact packed_roundWithAccuracy_eq (mul_pos above above') exact
    (wide_mul keptX keptY positive positive')

theorem div_eq_nearest (left : number? x = some a) (right : number? y = some b) (above : 0 < a)
    (above' : 0 < b) : x / y = nearest (a / b).num.toNat (a / b).den := by
  rw [number?_eq] at left right
  change packed (UnpackedFloat.div .binary64 x.toModel.unpack y.toModel.unpack) = _
  generalize x.toModel.unpack = u at *
  generalize y.toModel.unpack = v at *
  obtain ⟨m, e, positive, rfl⟩ := finite_of_worth left above
  obtain ⟨n, f, positive', rfl⟩ := finite_of_worth right above'
  cases left
  cases right
  obtain ⟨stands, wide⟩ := stands_divCore e f positive positive'
  exact packed_roundWithAccuracy_eq (div_pos above above') stands wide

theorem mul_le_mul_right (left : number? x = some a) (right : number? y = some b)
    (factor : number? z = some c) (above : 0 < a) (le : x ≤ y) (above' : 0 < c) :
    x * z ≤ y * z := by
  have order := (le_iff_of_number? left right).mp le
  rw [mul_eq_nearest left factor above above',
    mul_eq_nearest right factor (above.trans_le order) above']
  exact nearest_le_of_le (by positivity) (mul_le_mul_of_nonneg_right order above'.le)

theorem div_le_div_right (left : number? x = some a) (right : number? y = some b)
    (divisor : number? z = some c) (above : 0 < a) (le : x ≤ y) (above' : 0 < c) :
    x / z ≤ y / z := by
  have order := (le_iff_of_number? left right).mp le
  rw [div_eq_nearest left divisor above above',
    div_eq_nearest right divisor (above.trans_le order) above']
  exact nearest_le_of_le (by positivity) (div_le_div_of_nonneg_right order above'.le)

end VesselRelay.Binary64
