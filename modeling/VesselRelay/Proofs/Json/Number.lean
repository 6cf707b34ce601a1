import VesselRelay.Proofs.Decimal.Shortest
import VesselRelay.Proofs.Json.Numeral

/-!
Printed numbers are read back: doubles that are numbers, down to the sign of a zero, and whole
numbers of 64 bits. However a double is laid out, its text is that of a numeral that is the same
number as the shortest digits.
-/
namespace VesselRelay.Json
open Decimal (ofDigits zeros)

/-- A numeral of a double that writes a decimal number with some digits and a sign. -/
structure Numeral.Writes (n : Numeral) (minus : Bool) (x : Decimal.Scientific) (cs : List Char) :
    Prop where
  formed : n.Formed
  sign : n.negative = minus
  text : n.text = (if minus then ['-'] else []) ++ cs
  value : n.magnitude.value = x.value
  double : (n.fraction.isNone && n.exponent.isNone) = false

variable {x : Decimal.Scientific} {minus : Bool}

/-- Zeros at the end of the digits and in the exponent make no difference. -/
theorem value_eq {y : Decimal.Scientific} {k : Nat} (digits : y.digits = x.digits * 10 ^ k)
    (exponent : y.exponent + k = x.exponent) : y.value = x.value := by
  unfold Decimal.Scientific.value
  rw [digits, ← exponent, zpow_add₀ (by norm_num), zpow_natCast]
  push_cast
  ring

theorem magnitude_positional (whole fraction : List Char) :
    Numeral.magnitude ⟨minus, whole, some fraction, none⟩ =
      ⟨ofDigits (whole ++ fraction), 0 - (fraction.length : Int)⟩ :=
  rfl

/-- A number below one: zeros stand between the point and the digits. -/
theorem writes_small {k : Nat}
    (lead : x.exponent + (Nat.toDigits 10 x.digits).length - 1 = .negSucc k) :
    ∃ n : Numeral, n.Writes minus x
      (Decimal.Layout.json.positional (Nat.toDigits 10 x.digits) (.negSucc k)) := by
  have row := row_toDigits x.digits
  have digits := Decimal.ofDigits_toDigits x.digits
  rw [Int.negSucc_eq] at lead
  generalize Nat.toDigits 10 x.digits = ds at *
  refine ⟨⟨minus, ['0'], some (zeros k ++ ds), none⟩, ?_, rfl, ?_, ?_, rfl⟩
  · constructor
    · exact ⟨by simp, by simp [isDigit]⟩
    · exact fun _ => rfl
    · rintro ds ⟨⟩
      exact row_zeros_append k row
    · rintro _ _ ⟨⟩
  · simp [Numeral.text, fractionText, exponentText, Decimal.Layout.positional]
  · have zero : ofDigits ['0'] = 0 := rfl
    rw [magnitude_positional]
    apply value_eq (k := 0)
    · rw [Decimal.ofDigits_append, Decimal.ofDigits_append, zero, Decimal.ofDigits_zeros, digits]
      simp
    · simp [zeros]
      omega

/-- A whole number: zeros stand behind the digits, and one behind the point. -/
theorem writes_whole {k : Nat} (zero : x.digits = 0 → x.exponent = 0)
    (lead : x.exponent + (Nat.toDigits 10 x.digits).length - 1 = .ofNat k)
    (short : (Nat.toDigits 10 x.digits).length ≤ k + 1) :
    ∃ n : Numeral, n.Writes minus x
      (Decimal.Layout.json.positional (Nat.toDigits 10 x.digits) (.ofNat k)) := by
  have row := row_toDigits x.digits
  have digits := Decimal.ofDigits_toDigits x.digits
  have start : (Nat.toDigits 10 x.digits).head? = some '0' →
      Nat.toDigits 10 x.digits ++ zeros (k + 1 - (Nat.toDigits 10 x.digits).length) = ['0'] := by
    intro head
    have nothing : x.digits = 0 := by
      by_contra above
      exact Decimal.head?_toDigits above head
    rw [nothing, Nat.toDigits_zero] at lead ⊢
    have exponent := zero nothing
    have first : k = 0 := by
      simp at lead
      omega
    subst first
    rfl
  rw [Int.ofNat_eq_natCast] at lead
  generalize Nat.toDigits 10 x.digits = ds at *
  refine ⟨⟨minus, ds ++ zeros (k + 1 - ds.length), some ['0'], none⟩, ?_, rfl, ?_, ?_, rfl⟩
  · constructor
    · refine ⟨List.append_ne_nil_of_left_ne_nil row.filled _, fun c member => ?_⟩
      rcases List.mem_append.mp member with digit | nought
      · exact row.all c digit
      · rw [List.eq_of_mem_replicate nought]
        rfl
    · intro head
      rw [List.head?_append_of_ne_nil _ row.filled] at head
      exact start head
    · rintro _ ⟨⟩
      exact ⟨by simp, by simp [isDigit]⟩
    · rintro _ _ ⟨⟩
  · have within : ds.length ≤ k + 1 := short
    simp [Numeral.text, fractionText, exponentText, Decimal.Layout.positional, within,
      Decimal.Layout.json]
  · have nought : ofDigits ['0'] = 0 := rfl
    rw [magnitude_positional]
    apply value_eq (k := k + 1 - ds.length + 1)
    · rw [Decimal.ofDigits_append, Decimal.ofDigits_append, nought,
        Decimal.ofDigits_zeros, digits, zeros, List.length_replicate]
      simp only [List.length_singleton]
      ring
    · simp
      omega

/-- A number with digits on both sides of the point. -/
theorem writes_parted {k : Nat}
    (lead : x.exponent + (Nat.toDigits 10 x.digits).length - 1 = .ofNat k)
    (long : ¬ (Nat.toDigits 10 x.digits).length ≤ k + 1) :
    ∃ n : Numeral, n.Writes minus x
      (Decimal.Layout.json.positional (Nat.toDigits 10 x.digits) (.ofNat k)) := by
  have row := row_toDigits x.digits
  have digits := Decimal.ofDigits_toDigits x.digits
  have start : (Nat.toDigits 10 x.digits).head? ≠ some '0' := by
    apply Decimal.head?_toDigits
    intro nothing
    rw [nothing, Nat.toDigits_zero] at long
    simp at long
  rw [Int.ofNat_eq_natCast] at lead
  generalize Nat.toDigits 10 x.digits = ds at *
  refine ⟨⟨minus, ds.take (k + 1), some (ds.drop (k + 1)), none⟩, ?_, rfl, ?_, ?_, rfl⟩
  · constructor
    · refine ⟨fun nothing => ?_, fun c member => row.all c (List.mem_of_mem_take member)⟩
      simp [row.filled] at nothing
    · intro head
      rw [List.head?_take] at head
      exact absurd head (by simpa using start)
    · rintro _ ⟨⟩
      refine ⟨fun nothing => ?_, fun c member => row.all c (List.mem_of_mem_drop member)⟩
      rw [List.drop_eq_nil_iff] at nothing
      exact long nothing
    · rintro _ _ ⟨⟩
  · simp [Numeral.text, fractionText, exponentText, Decimal.Layout.positional, long]
  · rw [magnitude_positional]
    apply value_eq (k := 0)
    · rw [List.take_append_drop, digits, pow_zero, mul_one]
    · simp
      omega

/-- The exponent of a scientific form, of at least two digits. -/
def exponentOf (e : Int) : Bool × List Char :=
  (decide (e < 0), zeros (2 - (Nat.toDigits 10 e.natAbs).length) ++ Nat.toDigits 10 e.natAbs)

theorem exponentText_exponentOf (e : Int) :
    exponentText (some (exponentOf e)) = 'e' :: Decimal.exponentText e := by
  simp [exponentText, exponentOf, Decimal.exponentText]

theorem row_exponentOf (e : Int) : Row (exponentOf e).2 :=
  row_zeros_append _ (row_toDigits e.natAbs)

theorem value_exponentOf (whole : List Char) (fraction : Option (List Char)) (e : Int) :
    (Numeral.magnitude ⟨minus, whole, fraction, some (exponentOf e)⟩).exponent =
      e - (fraction.getD []).length := by
  have value : ofDigits (exponentOf e).2 = e.natAbs := by
    rw [exponentOf, Decimal.ofDigits_append, Decimal.ofDigits_zeros, Decimal.ofDigits_toDigits]
    simp
  unfold Numeral.magnitude
  simp only
  rw [show exponentOf e = (decide (e < 0), (exponentOf e).2) from rfl]
  by_cases neg : e < 0
  · simp only [neg, decide_true]
    rw [value]
    omega
  · simp only [neg, decide_false]
    rw [value]
    omega

/-- A number in scientific form: one digit before the point, or no point. -/
theorem writes_scientific :
    ∃ n : Numeral, n.Writes minus x (Decimal.scientificText (Nat.toDigits 10 x.digits)
      (x.exponent + (Nat.toDigits 10 x.digits).length - 1)) := by
  have row := row_toDigits x.digits
  have digits := Decimal.ofDigits_toDigits x.digits
  generalize lead : x.exponent + (Nat.toDigits 10 x.digits).length - 1 = e
  generalize Nat.toDigits 10 x.digits = ds at *
  have exponent := row_exponentOf e
  have alone (d : Char) (head : [d].head? = some '0') : [d] = ['0'] := by
    cases head
    rfl
  match ds, row with
  | [], row => exact absurd rfl row.filled
  | [d], row =>
    refine ⟨⟨minus, [d], none, some (exponentOf e)⟩, ⟨row, alone d, ?_, ?_⟩, rfl, ?_, ?_, rfl⟩
    · rintro _ ⟨⟩
    · rintro _ _ ⟨⟩
      exact exponent
    · simp [Numeral.text, fractionText, exponentText_exponentOf, Decimal.scientificText]
    · apply value_eq (k := 0)
      · rw [pow_zero, mul_one]
        exact digits
      · rw [value_exponentOf]
        simp at lead ⊢
        omega
  | d :: c :: rest, row =>
    refine ⟨⟨minus, [d], some (c :: rest), some (exponentOf e)⟩, ⟨⟨by simp, ?_⟩, alone d, ?_, ?_⟩,
      rfl, ?_, ?_, rfl⟩
    · rintro _ (_ | ⟨_, ⟨⟩⟩)
      exact row.all d List.mem_cons_self
    · rintro _ ⟨⟩
      exact ⟨by simp, fun b member => row.all b (List.mem_cons_of_mem d member)⟩
    · rintro _ _ ⟨⟩
      exact exponent
    · simp [Numeral.text, fractionText, exponentText_exponentOf, Decimal.scientificText]
    · apply value_eq (k := 0)
      · rw [pow_zero, mul_one]
        exact digits
      · rw [value_exponentOf]
        simp at lead ⊢
        omega

/-- Whatever its size, a number is written as the text of a numeral that is the same number. -/
theorem writes_magnitude (zero : x.digits = 0 → x.exponent = 0) :
    ∃ n : Numeral, n.Writes minus x (Decimal.Layout.json.magnitude x) := by
  unfold Decimal.Layout.magnitude
  dsimp only
  split
  · cases lead : x.exponent + (Nat.toDigits 10 x.digits).length - 1 with
    | negSucc k => exact writes_small lead
    | ofNat k =>
      by_cases short : (Nat.toDigits 10 x.digits).length ≤ k + 1
      · exact writes_whole zero lead short
      · exact writes_parted lead short
  · exact writes_scientific

/-- A double that is a number is read back from its text, down to the sign of a zero. -/
theorem number_floatText {y : Float} {rest : List Char} (finite : y.isFinite) (ends : Ends rest) :
    number (floatText y ++ rest) = .ok (.float y, rest) := by
  rw [Binary64.isFinite_eq] at finite
  obtain ⟨p, parts⟩ := Option.isSome_iff_exists.mp finite
  have canonical := Binary64.canonical_of_parts? parts
  have numeral : ∃ n : Numeral, n.Writes (Binary64.negative y) _ _ :=
    writes_magnitude (Decimal.exponent_shortest canonical)
  obtain ⟨n, formed, sign, text, value, double⟩ := numeral
  have written : floatText y = n.text := by
    rw [floatText, Decimal.Layout.finite?, parts, text]
    rfl
  have nearest := Decimal.nearest_of_value canonical value
  have stays : n.magnitude.nearest.isFinite := by
    rw [nearest, Binary64.isFinite_eq, (Binary64.parts?_ofBits canonical).1, Option.isSome_some]
  have read : n.value = .ok (.float y) := by
    rw [Numeral.value, double, if_neg (by decide), Numeral.float, if_pos stays, nearest, sign,
      Binary64.withSign_ofBits parts]
  rw [written]
  exact bind_eq_ok.mpr ⟨_, numeral_text formed ends, bind_eq_ok.mpr ⟨_, read, rfl⟩⟩

theorem value_whole (minus : Bool) (whole : List Char) :
    Numeral.value ⟨minus, whole, none, none⟩ =
      if minus then
        if ofDigits whole ≤ 2 ^ 63 then .ok (.int (-(ofDigits whole : Int)))
        else Numeral.float ⟨minus, whole, none, none⟩
      else if ofDigits whole < 2 ^ 64 then .ok (.int (ofDigits whole))
      else Numeral.float ⟨minus, whole, none, none⟩ :=
  rfl

/-- A whole number of 64 bits, signed or unsigned, is read back from its text. -/
theorem number_intText {m : Int} {rest : List Char} (low : -2 ^ 63 ≤ m) (high : m < 2 ^ 64)
    (ends : Ends rest) : number (intText m ++ rest) = .ok (.int m, rest) := by
  have row := row_toDigits m.natAbs
  have digits := Decimal.ofDigits_toDigits m.natAbs
  have formed : Numeral.Formed ⟨decide (m < 0), Nat.toDigits 10 m.natAbs, none, none⟩ := by
    refine ⟨row, fun head => ?_, ?_, ?_⟩
    · have nothing : m.natAbs = 0 := by
        by_contra above
        exact Decimal.head?_toDigits above head
      rw [nothing, Nat.toDigits_zero]
    · rintro _ ⟨⟩
    · rintro _ _ ⟨⟩
  have written :
      intText m = Numeral.text ⟨decide (m < 0), Nat.toDigits 10 m.natAbs, none, none⟩ := by
    simp [intText, Numeral.text, fractionText, exponentText]
  have read :
      Numeral.value ⟨decide (m < 0), Nat.toDigits 10 m.natAbs, none, none⟩ = .ok (.int m) := by
    rw [value_whole, digits]
    by_cases neg : m < 0
    · rw [if_pos (decide_eq_true neg), if_pos (by omega)]
      simp only [Except.ok.injEq, Json.int.injEq]
      omega
    · rw [if_neg (by simpa using neg), if_pos (by omega)]
      simp only [Except.ok.injEq, Json.int.injEq]
      omega
  rw [written]
  exact bind_eq_ok.mpr ⟨_, numeral_text formed ends, bind_eq_ok.mpr ⟨_, read, rfl⟩⟩

end VesselRelay.Json
