import VesselRelay.Json.Parser
import VesselRelay.Json.Printer
import VesselRelay.Proofs.Reading

/-!
A numeral is read back from its text as long as nothing follows that would carry it on. Its parts
are rows of digits, and a row of digits is the number that it was made from.
-/
namespace VesselRelay

/-! ### Rows of digits -/

namespace Decimal

theorem ofDigits_eq (ds : List Char) : ofDigits ds = Nat.ofDigitChars 10 ds 0 :=
  Nat.ofDigitChars_eq_foldl.symm

theorem ofDigits_append (front back : List Char) :
    ofDigits (front ++ back) = 10 ^ back.length * ofDigits front + ofDigits back := by
  simp only [ofDigits_eq]
  rw [Nat.ofDigitChars_append, Nat.ofDigitChars_eq_ofDigitChars_zero]

theorem ofDigits_zeros (n : Nat) : ofDigits (zeros n) = 0 := by
  rw [ofDigits_eq, zeros, Nat.ofDigitChars_replicate_zero, Nat.mul_zero]

theorem ofDigits_toDigits (n : Nat) : ofDigits (Nat.toDigits 10 n) = n := by
  rw [ofDigits_eq, Nat.ofDigitChars_ten_toDigits]

/-- A number above zero starts with a digit above zero. -/
theorem head?_toDigits {n : Nat} (above : n ≠ 0) : (Nat.toDigits 10 n).head? ≠ some '0' := by
  induction n using Nat.strongRecOn with
  | ind n ih =>
    rw [Nat.toDigits_eq_if (b := 10) (by decide)]
    split
    · rename_i short
      have digit : ∀ d < 10, d ≠ 0 → [Nat.digitChar d].head? ≠ some '0' := by decide
      exact digit n short above
    · rw [List.head?_append_of_ne_nil _ Nat.toDigits_ne_nil]
      exact ih (n / 10) (by omega) (by omega)

end Decimal

namespace Json
open Decimal (ofDigits zeros)

/-- A row of digits that is not empty. -/
structure Row (ds : List Char) : Prop where
  filled : ds ≠ []
  all : ∀ c ∈ ds, isDigit c = true

theorem row_toDigits (n : Nat) : Row (Nat.toDigits 10 n) where
  filled := Nat.toDigits_ne_nil
  all c member := by
    have digit := Nat.isDigit_of_mem_toDigits (by decide) (by decide) member
    rw [Char.isDigit, Bool.and_eq_true, decide_eq_true_eq, decide_eq_true_eq] at digit
    exact decide_eq_true digit

theorem row_zeros_append (n : Nat) {ds : List Char} (row : Row ds) : Row (zeros n ++ ds) where
  filled := List.append_ne_nil_of_right_ne_nil _ row.filled
  all c member := by
    rcases List.mem_append.mp member with zero | digit
    · rw [List.eq_of_mem_replicate zero]
      rfl
    · exact row.all c digit

/-- No digit comes next. -/
def NoDigit (rest : List Char) : Prop := ∀ c, rest.head? = some c → isDigit c = false

theorem digits_append {ds rest : List Char} (row : Row ds) (ends : NoDigit rest) :
    digits (ds ++ rest) = .ok (ds, rest) := by
  have taken : (ds ++ rest).takeWhile isDigit = ds := by
    rw [List.takeWhile_append_of_pos row.all]
    cases rest with
    | nil => simp
    | cons c rest => simp [ends c rfl]
  have dropped : (ds ++ rest).dropWhile isDigit = rest := by
    rw [List.dropWhile_append_of_pos row.all]
    cases rest with
    | nil => rfl
    | cons c rest => simp [ends c rfl]
  unfold digits
  rw [taken, dropped]
  cases ds with
  | nil => exact absurd rfl row.filled
  | cons d ds => rfl

/-! ### Numerals -/

def fractionText : Option (List Char) → List Char
  | none => []
  | some ds => '.' :: ds

def exponentText : Option (Bool × List Char) → List Char
  | none => []
  | some (minus, ds) => 'e' :: (if minus then '-' else '+') :: ds

/-- The text of a numeral; an exponent always has a sign. -/
def Numeral.text (n : Numeral) : List Char :=
  (if n.negative then ['-'] else []) ++
    (n.whole ++ (fractionText n.fraction ++ exponentText n.exponent))

/-- Each part is a row of digits, and a zero in front stands alone. -/
structure Numeral.Formed (n : Numeral) : Prop where
  whole : Row n.whole
  alone : n.whole.head? = some '0' → n.whole = ['0']
  fraction : ∀ ds, n.fraction = some ds → Row ds
  exponent : ∀ minus ds, n.exponent = some (minus, ds) → Row ds

/-- What follows a numeral does not carry it on. -/
def Ends (rest : List Char) : Prop :=
  ∀ c, rest.head? = some c → isDigit c = false ∧ c ≠ '.' ∧ c ≠ 'e' ∧ c ≠ 'E'

theorem Ends.noDigit {rest : List Char} (ends : Ends rest) : NoDigit rest :=
  fun c head => (ends c head).1

theorem exponentPart_text {exponent : Option (Bool × List Char)} {rest : List Char}
    (formed : ∀ minus ds, exponent = some (minus, ds) → Row ds) (ends : Ends rest) :
    exponentPart (exponentText exponent ++ rest) = .ok (exponent, rest) := by
  cases exponent with
  | none =>
    cases rest with
    | nil => rfl
    | cons c rest =>
      obtain ⟨_, _, notLower, notUpper⟩ := ends c rfl
      simp [exponentText, exponentPart, notLower, notUpper]
  | some part =>
    obtain ⟨minus, ds⟩ := part
    have read := digits_append (formed minus ds rfl) ends.noDigit
    cases minus <;> simp [exponentText, exponentPart, read, Except.map]

theorem noDigit_exponentText (exponent : Option (Bool × List Char)) {rest : List Char}
    (ends : Ends rest) : NoDigit (exponentText exponent ++ rest) := by
  cases exponent with
  | none => exact ends.noDigit
  | some part =>
    intro c head
    cases head
    rfl

theorem fractionPart_text {fraction : Option (List Char)} (exponent : Option (Bool × List Char))
    {rest : List Char} (formed : ∀ ds, fraction = some ds → Row ds) (ends : Ends rest) :
    fractionPart (fractionText fraction ++ (exponentText exponent ++ rest)) =
      .ok (fraction, exponentText exponent ++ rest) := by
  cases fraction with
  | none =>
    cases exponent with
    | none =>
      cases rest with
      | nil => rfl
      | cons c rest =>
        have notPoint := (ends c rfl).2.1
        simp only [fractionText, exponentText, List.nil_append]
        unfold fractionPart
        split
        · rename_i same
          cases same
          exact absurd rfl notPoint
        · rfl
    | some part => rfl
  | some ds =>
    have read := digits_append (formed ds rfl) (noDigit_exponentText exponent ends)
    simp [fractionText, fractionPart, read, Except.map]

theorem noDigit_fractionText (fraction : Option (List Char)) (exponent : Option (Bool × List Char))
    {rest : List Char} (ends : Ends rest) :
    NoDigit (fractionText fraction ++ (exponentText exponent ++ rest)) := by
  cases fraction with
  | none => exact noDigit_exponentText exponent ends
  | some ds =>
    intro c head
    cases head
    rfl

theorem wholePart_append {ds rest : List Char} (row : Row ds)
    (alone : ds.head? = some '0' → ds = ['0']) (ends : NoDigit rest) :
    wholePart (ds ++ rest) = .ok (ds, rest) := by
  by_cases zero : ds.head? = some '0'
  · rw [alone zero]
    rfl
  · have read := digits_append row ends
    unfold wholePart
    split
    · rename_i after same
      cases ds with
      | nil => exact absurd rfl row.filled
      | cons d ds =>
        cases same
        exact absurd rfl zero
    · exact read

/-- What does not start with a minus is read without one. -/
theorem numeral_of_row {ds rest : List Char} (row : Row ds) :
    numeral (ds ++ rest) = (do
      let (whole, cs) ← wholePart (ds ++ rest)
      let (fraction, cs) ← fractionPart cs
      let (exponent, cs) ← exponentPart cs
      return (⟨false, whole, fraction, exponent⟩, cs)) := by
  unfold numeral
  split
  rename_i parted
  split at parted
  · rename_i same
    cases ds with
    | nil => exact absurd rfl row.filled
    | cons d ds =>
      cases same
      have digit := row.all '-' List.mem_cons_self
      cases digit
  · cases parted
    rfl

/-- A numeral is read back from its text. -/
theorem numeral_text {n : Numeral} {rest : List Char} (formed : n.Formed) (ends : Ends rest) :
    numeral (n.text ++ rest) = .ok (n, rest) := by
  obtain ⟨minus, whole, fraction, exponent⟩ := n
  have readWhole := wholePart_append formed.whole formed.alone
    (noDigit_fractionText fraction exponent ends)
  have readFraction := fractionPart_text exponent formed.fraction ends
  have readExponent := exponentPart_text formed.exponent ends
  have read (sign : Bool) : (do
      let (whole, cs) ← wholePart
        (whole ++ (fractionText fraction ++ (exponentText exponent ++ rest)))
      let (fraction, cs) ← fractionPart cs
      let (exponent, cs) ← exponentPart cs
      return (⟨sign, whole, fraction, exponent⟩, cs)) =
        (.ok (⟨sign, whole, fraction, exponent⟩, rest) : Step (Taken Numeral)) :=
    bind_eq_ok.mpr ⟨_, readWhole, bind_eq_ok.mpr ⟨_, readFraction,
      bind_eq_ok.mpr ⟨_, readExponent, rfl⟩⟩⟩
  simp only [Numeral.text, List.append_assoc]
  cases minus with
  | true => exact read true
  | false => exact (numeral_of_row formed.whole).trans (read false)

end Json
end VesselRelay
