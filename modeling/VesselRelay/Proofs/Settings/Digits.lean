import Mathlib.Data.List.TakeWhile
import Mathlib.Data.Nat.Find
import VesselRelay.Settings.Numeral

/-!
Rows of digits at the start of a text. What is read is the longest beginning of the text that is of
a kind; for whole numbers these are the texts of a sign that may be left out and a row of digits.
-/
namespace VesselRelay.Settings

/-! ### The longest beginning -/

section Longest
variable {α : Type} {p : List α → Prop} {word more cs : List α}

/-- Whether a row is the longest beginning of another that has a property. -/
structure Longest (p : List α → Prop) (word cs : List α) : Prop where
  start : word <+: cs
  has : p word
  longest : ∀ other, other <+: cs → p other → other.length ≤ word.length

theorem exists_longest (start : word <+: cs) (has : p word) : ∃ longest, Longest p longest cs := by
  classical
  let begins (n : ℕ) : Prop := p (cs.take n)
  have some : begins word.length := by
    change p (cs.take word.length)
    rwa [← List.prefix_iff_eq_take.mp start]
  have reached : begins (Nat.findGreatest begins cs.length) :=
    Nat.findGreatest_spec start.length_le some
  refine ⟨cs.take (Nat.findGreatest begins cs.length), List.take_prefix .., reached, ?_⟩
  intro other start' has'
  have found : begins other.length := by
    change p (cs.take other.length)
    rwa [← List.prefix_iff_eq_take.mp start']
  rw [List.length_take_of_le (Nat.findGreatest_le _)]
  exact Nat.le_findGreatest start'.length_le found

/-- The longest beginning is not the start of a longer one. -/
theorem Longest.not_append (longest : Longest p word cs) (some : more ≠ [])
    (start : word ++ more <+: cs) : ¬ p (word ++ more) := by
  intro has
  have short := longest.longest _ start has
  rw [List.length_append] at short
  have long := List.length_pos_iff.mpr some
  omega

/-- What stands behind the start of a longest beginning is the longest there. -/
theorem Longest.inner {q : List α → Prop} {front : List α}
    (longest : Longest q (front ++ word) (front ++ cs)) (lift : ∀ w, p w → q (front ++ w))
    (has : p word) : Longest p word cs where
  start := (List.prefix_append_right_inj front).mp longest.start
  has := has
  longest other start has' := by
    have short := longest.longest _ ((List.prefix_append_right_inj front).mpr start) (lift _ has')
    simpa using short

end Longest

/-! ### Rows of digits -/

section Digits
variable {digit : Char → Bool} {ds rest : List Char}

/-- Whether a text does not go on with a digit. -/
def Stops (digit : Char → Bool) (rest : List Char) : Prop :=
  ∀ c more, rest = c :: more → digit c = false

theorem takeWhile_append (all : ∀ c ∈ ds, digit c) (stops : Stops digit rest) :
    (ds ++ rest).takeWhile digit = ds ∧ (ds ++ rest).dropWhile digit = rest := by
  rw [List.takeWhile_append_of_pos all, List.dropWhile_append_of_pos all]
  cases rest with
  | nil => simp
  | cons c more => simp [stops c more rfl]

/-- A row of digits with a point in it somewhere or not at all. -/
structure Pointed (digit : Char → Bool) where
  whole : List Char
  fraction : Option (List Char)
  all : ∀ c ∈ whole ++ fraction.getD [], digit c
  filled : whole ++ fraction.getD [] ≠ []

namespace Pointed
variable (p : Pointed digit)

def digits : List Char := p.whole ++ p.fraction.getD []

/-- The number of digits behind the point. -/
def places : ℕ := (p.fraction.getD []).length

def fractionText : Option (List Char) → List Char
  | none => []
  | some ds => '.' :: ds

def text : List Char := p.whole ++ fractionText p.fraction

/-- One digit more. -/
def push (c : Char) (isDigit : digit c) : Pointed digit :=
  match p with
  | ⟨whole, none, all, filled⟩ =>
    ⟨whole ++ [c], none, by simpa [or_imp, forall_and, isDigit] using all, by simp⟩
  | ⟨whole, some ds, all, filled⟩ =>
    ⟨whole, some (ds ++ [c]), by simpa [or_imp, forall_and, isDigit] using all, by simp⟩

theorem text_push (c : Char) (isDigit : digit c) : (p.push c isDigit).text = p.text ++ [c] := by
  obtain ⟨whole, _ | ds, all, filled⟩ := p <;> simp [push, text, fractionText]

/-- A point at the end of a row that has none. -/
def close (noPoint : p.fraction = none) : Pointed digit :=
  ⟨p.whole, some [], by simpa [noPoint] using p.all, by simpa [noPoint] using p.filled⟩

theorem text_close (noPoint : p.fraction = none) : (p.close noPoint).text = p.text ++ ['.'] := by
  simp [close, text, fractionText, noPoint]

end Pointed

/-- A row of digits is read up to where it could not be carried on. -/
theorem pointed?_text (pointless : digit '.' = false) (p : Pointed digit)
    (stops : Stops digit rest) (ends : p.fraction = none → ∀ more, rest ≠ '.' :: more) :
    pointed? digit (p.text ++ rest) = some (p.whole, p.fraction.getD [], rest) := by
  obtain ⟨whole, fraction, all, filled⟩ := p
  have wholeAll : ∀ c ∈ whole, digit c := fun c member => all c (List.mem_append_left _ member)
  cases fraction with
  | none =>
    obtain ⟨taken, dropped⟩ := takeWhile_append wholeAll stops
    have some : whole.isEmpty = false := by simpa using filled
    unfold pointed?
    simp only [Pointed.text, Pointed.fractionText, List.append_nil, taken, dropped]
    split
    · exact absurd rfl (ends rfl _)
    · simp [some]
  | some ds =>
    have fractionAll : ∀ c ∈ ds, digit c := fun c member => all c (List.mem_append_right _ member)
    have point : Stops digit ('.' :: (ds ++ rest)) := by
      rintro c more ⟨⟩
      exact pointless
    obtain ⟨taken, dropped⟩ := takeWhile_append wholeAll point
    obtain ⟨taken', dropped'⟩ := takeWhile_append fractionAll stops
    have some : (whole.isEmpty && ds.isEmpty) = false := by simpa using filled
    unfold pointed?
    simp [Pointed.text, Pointed.fractionText, taken, dropped, taken', dropped', some]

theorem exists_pointed {cs whole fraction : List Char}
    (read : pointed? digit cs = some (whole, fraction, rest)) :
    ∃ p : Pointed digit, p.text ++ rest = cs := by
  have wholeAll : ∀ c ∈ cs.takeWhile digit, digit c := fun c => List.mem_takeWhile_imp
  unfold pointed? at read
  dsimp only at read
  split at read
  · rename_i more dropped
    have fractionAll : ∀ c ∈ more.takeWhile digit, digit c := fun c => List.mem_takeWhile_imp
    split at read
    · cases read
    · rename_i some
      cases read
      refine ⟨⟨cs.takeWhile digit, .some (more.takeWhile digit), ?_, ?_⟩, ?_⟩
      · simpa [or_imp, forall_and] using ⟨wholeAll, fractionAll⟩
      · simpa using some
      · simp only [Pointed.text, Pointed.fractionText, List.append_assoc, List.cons_append,
          List.takeWhile_append_dropWhile]
        rw [← dropped, List.takeWhile_append_dropWhile]
  · split at read
    · cases read
    · rename_i some
      cases read
      refine ⟨⟨cs.takeWhile digit, none, ?_, ?_⟩, ?_⟩
      · simpa using wholeAll
      · simpa using some
      · simp [Pointed.text, Pointed.fractionText]

end Digits

/-! ### Signs and powers -/

/-- A sign that may be left out. -/
inductive Sign where
  | none
  | plus
  | minus
  deriving DecidableEq

namespace Sign

def text : Sign → List Char
  | none => []
  | plus => ['+']
  | minus => ['-']

def negative : Sign → Bool
  | minus => true
  | _ => false

/-- The text after a sign, and whether the sign is a minus. -/
def split (cs : List Char) : Bool × List Char :=
  match cs with
  | '-' :: rest => (true, rest)
  | '+' :: rest => (false, rest)
  | rest => (false, rest)

theorem split_append (sign : Sign) {rest : List Char}
    (unsigned : ∀ c more, rest = c :: more → c ≠ '-' ∧ c ≠ '+') :
    split (sign.text ++ rest) = (sign.negative, rest) := by
  cases sign with
  | plus | minus => rfl
  | none =>
    cases rest with
    | nil => rfl
    | cons c more =>
      obtain ⟨minus, plus⟩ := unsigned c more rfl
      simp [text, split, negative, minus, plus]

theorem exists_split (cs : List Char) :
    ∃ sign : Sign, sign.text ++ (split cs).2 = cs ∧ sign.negative = (split cs).1 := by
  unfold split
  split
  · exact ⟨minus, rfl, rfl⟩
  · exact ⟨plus, rfl, rfl⟩
  · exact ⟨none, rfl, rfl⟩

end Sign

theorem signed_eq (cs : List Char) : signed cs = Sign.split (cs.dropWhile isSpace) := rfl

theorem isDigit_ne {c d : Char} (digit : isDigit c) (other : isDigit d = false) : c ≠ d := by
  rintro rfl
  rw [digit] at other
  cases other

/-! ### Whole numbers -/

/-- A whole number: a sign and a row of digits. -/
structure Whole where
  sign : Sign
  digits : List Char
  all : ∀ c ∈ digits, isDigit c
  filled : digits ≠ []

namespace Whole
variable {w : Whole} {cs : List Char}

def text (w : Whole) : List Char := w.sign.text ++ w.digits

def value (w : Whole) : ℤ :=
  if w.sign.negative then -(Decimal.ofDigits w.digits : ℤ) else Decimal.ofDigits w.digits

def IsText (word : List Char) : Prop := ∃ w : Whole, w.text = word

/-- A digit is no sign. -/
theorem unsigned (w : Whole) {c : Char} {rest more : List Char}
    (same : w.digits ++ rest = c :: more) : c ≠ '-' ∧ c ≠ '+' := by
  obtain ⟨d, ds, digits⟩ := List.exists_cons_of_ne_nil w.filled
  rw [digits] at same
  obtain ⟨rfl, -⟩ := List.cons.inj same
  have digit := w.all d (digits ▸ List.mem_cons_self)
  exact ⟨isDigit_ne digit rfl, isDigit_ne digit rfl⟩

theorem split_of_longest (longest : Longest IsText w.text cs) :
    (Sign.split cs).1 = w.sign.negative ∧ (Sign.split cs).2.takeWhile isDigit = w.digits := by
  obtain ⟨rest, found⟩ := longest.start
  have stops : Stops isDigit rest := by
    rintro c more rfl
    by_contra digit
    refine longest.not_append (List.cons_ne_nil c []) ⟨more, by simpa using found⟩ ?_
    refine ⟨⟨w.sign, w.digits ++ [c], ?_, by simp⟩, by simp [text]⟩
    simpa [or_imp, forall_and] using ⟨w.all, by simpa using digit⟩
  have split : Sign.split (w.sign.text ++ (w.digits ++ rest)) =
      (w.sign.negative, w.digits ++ rest) :=
    Sign.split_append w.sign fun c more => w.unsigned
  rw [← found, text, List.append_assoc, split]
  exact ⟨rfl, (takeWhile_append w.all stops).1⟩

theorem takeWhile_of_absent (absent : ∀ word, word <+: cs → ¬ IsText word) :
    (Sign.split cs).2.takeWhile isDigit = [] := by
  obtain ⟨sign, found, -⟩ := Sign.exists_split cs
  generalize Sign.split cs = parts at *
  by_contra filled
  have all : ∀ c ∈ parts.2.takeWhile isDigit, isDigit c := fun c => List.mem_takeWhile_imp
  refine absent _ ?_ ⟨⟨sign, _, all, filled⟩, rfl⟩
  rw [← found]
  exact (List.prefix_append_right_inj _).mpr (List.takeWhile_prefix _)

end Whole

/-- A whole number is read as its longest text tells. -/
theorem int?_of_longest {w : Whole} {cs : List Char}
    (longest : Longest Whole.IsText w.text (cs.dropWhile isSpace)) :
    int? cs = if -2 ^ 31 ≤ w.value ∧ w.value < 2 ^ 31 then some w.value else none := by
  obtain ⟨sign, digits⟩ := Whole.split_of_longest longest
  unfold int?
  rw [signed_eq]
  generalize Sign.split (cs.dropWhile isSpace) = text at *
  obtain ⟨minus, rest⟩ := text
  dsimp only at *
  rw [digits, sign]
  split
  · rename_i nothing
    exact absurd nothing w.filled
  · rfl

/-- Where there is no text of a whole number, none is read. -/
theorem int?_of_absent {cs : List Char}
    (absent : ∀ word, word <+: cs.dropWhile isSpace → ¬ Whole.IsText word) : int? cs = none := by
  have nothing := Whole.takeWhile_of_absent absent
  unfold int?
  rw [signed_eq]
  generalize Sign.split (cs.dropWhile isSpace) = text at *
  obtain ⟨minus, rest⟩ := text
  dsimp only at *
  rw [nothing]

theorem exponent_eq (cs : List Char) :
    exponent cs =
      if (Sign.split cs).1 then -(Decimal.ofDigits ((Sign.split cs).2.takeWhile isDigit) : ℤ)
      else Decimal.ofDigits ((Sign.split cs).2.takeWhile isDigit) := rfl

theorem exponent_of_longest {w : Whole} {cs : List Char}
    (longest : Longest Whole.IsText w.text cs) : exponent cs = w.value := by
  obtain ⟨sign, digits⟩ := Whole.split_of_longest longest
  rw [exponent_eq, sign, digits]
  rfl

theorem exponent_of_absent {cs : List Char} (absent : ∀ word, word <+: cs → ¬ Whole.IsText word) :
    exponent cs = 0 := by
  rw [exponent_eq, Whole.takeWhile_of_absent absent]
  split <;> rfl

end VesselRelay.Settings
