import Mathlib.Data.List.Basic
import VesselRelay.Proofs.Settings.Digits

/-!
The numerals of doubles: a sign that may be left out, and decimal or hexadecimal digits with a point
and a power that may be left out, or the name of infinity or of what is not a number. The longest at
the start of a text is taken apart as it is made. No numeral has a blank in it, so one between
blanks is read whole.
-/
namespace VesselRelay.Settings

/-! ### Powers -/

/-- The power behind a row of digits: a mark, of which there are two, and a whole number. -/
structure Power (low up : Char) where
  mark : Char
  marked : mark = low ∨ mark = up
  exponent : Whole

namespace Power
variable {low up : Char}

def textOf : Option (Power low up) → List Char
  | none => []
  | some power => power.mark :: power.exponent.text

def valueOf : Option (Power low up) → ℤ
  | none => 0
  | some power => power.exponent.value

/-- The power that is read behind a row of digits. -/
def read (low up : Char) (cs : List Char) : ℤ :=
  match cs with
  | c :: rest => if c = low || c = up then Settings.exponent rest else 0
  | [] => 0

end Power

/-- A row of digits and a power that may be left out. -/
structure Scaled (digit : Char → Bool) (low up : Char) where
  row : Pointed digit
  power : Option (Power low up)

namespace Scaled
variable {digit : Char → Bool} {low up : Char} {s : Scaled digit low up} {cs : List Char}

def text (s : Scaled digit low up) : List Char := s.row.text ++ Power.textOf s.power

def IsText (digit : Char → Bool) (low up : Char) (word : List Char) : Prop :=
  ∃ s : Scaled digit low up, s.text = word

/-- Whether neither the point nor the mark of a power is a digit. -/
structure Plain (digit : Char → Bool) (low up : Char) : Prop where
  point : digit '.' = false
  low : digit low = false ∧ low ≠ '.'
  up : digit up = false ∧ up ≠ '.'

theorem Plain.mark (plain : Plain digit low up) (power : Power low up) :
    digit power.mark = false ∧ power.mark ≠ '.' := by
  rcases power.marked with same | same <;> rw [same]
  · exact plain.low
  · exact plain.up

/-- A row of digits is not carried on behind a longest text. -/
theorem stops_of_longest {tail : List Char} (plain : Plain digit low up)
    (longest : Longest (IsText digit low up) s.text (s.text ++ tail)) :
    Stops digit (Power.textOf s.power ++ tail) ∧
      (s.row.fraction = none → ∀ more, Power.textOf s.power ++ tail ≠ '.' :: more) := by
  obtain ⟨row, power⟩ := s
  cases power with
  | some power =>
    constructor
    · rintro c more ⟨⟩
      exact (plain.mark power).1
    · intro _ more same
      exact (plain.mark power).2 (List.cons.inj same).1
  | none =>
    constructor
    · rintro c more (rfl : tail = c :: more)
      by_contra other
      have isDigit : digit c := by simpa using other
      refine longest.not_append (List.cons_ne_nil c []) ⟨more, by simp⟩ ?_
      exact ⟨⟨row.push c isDigit, none⟩, by simp [text, Power.textOf, row.text_push]⟩
    · rintro noPoint more (rfl : tail = '.' :: more)
      refine longest.not_append (List.cons_ne_nil '.' []) ⟨more, by simp⟩ ?_
      exact ⟨⟨row.close noPoint, none⟩, by simp [text, Power.textOf, row.text_close]⟩

/-- Behind the digits of a longest text stands its power. -/
theorem power_of_longest {tail : List Char}
    (longest : Longest (IsText digit low up) s.text (s.text ++ tail)) :
    Power.read low up (Power.textOf s.power ++ tail) = Power.valueOf s.power := by
  obtain ⟨row, power⟩ := s
  cases power with
  | some power =>
    have marked : (power.mark = low || power.mark = up) = true := by simpa using power.marked
    have inner : Longest Whole.IsText power.exponent.text (power.exponent.text ++ tail) := by
      have longest' : Longest (IsText digit low up)
          ((row.text ++ [power.mark]) ++ power.exponent.text)
          ((row.text ++ [power.mark]) ++ (power.exponent.text ++ tail)) := by
        simpa [text, Power.textOf] using longest
      refine longest'.inner ?_ ⟨power.exponent, rfl⟩
      rintro _ ⟨w, rfl⟩
      exact ⟨⟨row, some ⟨power.mark, power.marked, w⟩⟩, by simp [text, Power.textOf]⟩
    exact (if_pos marked).trans (exponent_of_longest inner)
  | none =>
    cases tail with
    | nil => rfl
    | cons c more =>
      by_cases marked : (c = low || c = up) = true
      · refine (if_pos marked).trans (exponent_of_absent ?_)
        rintro _ ⟨after, rfl⟩ ⟨w, rfl⟩
        refine longest.not_append (List.cons_ne_nil c w.text) ⟨after, by simp⟩ ?_
        exact ⟨⟨row, some ⟨c, by simpa using marked, w⟩⟩, by simp [text, Power.textOf]⟩
      · exact if_neg marked

/-- A longest text is taken apart as it is made. -/
theorem read_of_longest (plain : Plain digit low up)
    (longest : Longest (IsText digit low up) s.text cs) :
    ∃ rest, pointed? digit cs = some (s.row.whole, s.row.fraction.getD [], rest) ∧
      Power.read low up rest = Power.valueOf s.power := by
  obtain ⟨tail, rfl⟩ := longest.start
  obtain ⟨stops, ends⟩ := stops_of_longest plain longest
  refine ⟨Power.textOf s.power ++ tail, ?_, power_of_longest longest⟩
  rw [text, List.append_assoc]
  exact pointed?_text plain.point s.row stops ends

theorem pointed?_of_absent (absent : ∀ word, word <+: cs → ¬ IsText digit low up word) :
    pointed? digit cs = none := by
  by_contra read
  obtain ⟨⟨whole, fraction, rest⟩, same⟩ := Option.ne_none_iff_exists'.mp read
  obtain ⟨row, found⟩ := exists_pointed same
  exact absent row.text ⟨rest, found⟩ ⟨⟨row, none⟩, by simp [text, Power.textOf]⟩

end Scaled

/-! ### Numerals of doubles -/

def isHexDigit (c : Char) : Bool := (hexDigit? c).isSome

/-- Whether a word is the name of infinity, short or long. -/
def NamesInfinity (word : List Char) : Prop :=
  word.map Char.toLower ∈ [['i', 'n', 'f'], ['i', 'n', 'f', 'i', 'n', 'i', 't', 'y']]

/-- Whether a word is the name of what is not a number, with a note in brackets or without one. -/
def NamesUndefined (word : List Char) : Prop :=
  ∃ name note, word = name ++ note ∧ name.map Char.toLower = ['n', 'a', 'n'] ∧
    (note = [] ∨ ∃ inner, note = '(' :: inner ++ [')'] ∧ ∀ c ∈ inner, c.isAlphanum ∨ c = '_')

/-- What stands behind the sign of a numeral. -/
inductive Body where
  | decimal (s : Scaled isDigit 'e' 'E')
  | hexadecimal (mark : Char) (marked : mark = 'x' ∨ mark = 'X') (s : Scaled isHexDigit 'p' 'P')
  | infinity (word : List Char) (named : NamesInfinity word)
  | undefined (word : List Char) (named : NamesUndefined word)

namespace Body

def text : Body → List Char
  | decimal s => s.text
  | hexadecimal mark _ s => '0' :: mark :: s.text
  | infinity word _ => word
  | undefined word _ => word

def IsText (word : List Char) : Prop := ∃ b : Body, b.text = word

end Body

/-- A numeral that a double is read from. -/
structure Numeral where
  sign : Sign
  body : Body

namespace Numeral

def text (r : Numeral) : List Char := r.sign.text ++ r.body.text

def IsText (word : List Char) : Prop := ∃ r : Numeral, r.text = word

end Numeral

/-! ### First characters -/

theorem exists_of_isDigit {c : Char} (digit : isDigit c) : ∃ n < 10, c = Char.ofNat (48 + n) := by
  have range : 48 ≤ c.toNat ∧ c.toNat ≤ 57 := of_decide_eq_true digit
  refine ⟨c.toNat - 48, by omega, ?_⟩
  rw [Nat.add_sub_cancel' range.1, Char.ofNat_toNat]

theorem Pointed.head {digit : Char → Bool} (p : Pointed digit) {c : Char} {rest more : List Char}
    (same : p.text ++ rest = c :: more) : digit c ∨ c = '.' := by
  obtain ⟨whole, fraction, all, filled⟩ := p
  cases whole with
  | cons d ds =>
    obtain ⟨rfl, -⟩ := List.cons.inj same
    exact .inl (all d (by simp))
  | nil =>
    cases fraction with
    | none => exact absurd rfl filled
    | some ds =>
      obtain ⟨rfl, -⟩ := List.cons.inj same
      exact .inr rfl

theorem toLower_of_isDigit {c : Char} (digit : isDigit c) : c.toLower = c := by
  obtain ⟨n, small, rfl⟩ := exists_of_isDigit digit
  have all : ∀ n < 10, (Char.ofNat (48 + n)).toLower = Char.ofNat (48 + n) := by decide
  exact all n small

/-- The first letter of a name, in either case. -/
theorem head_of_named {word rest more letters : List Char} {c letter : Char}
    (named : word.map Char.toLower = letter :: letters) (same : word ++ rest = c :: more) :
    c.toLower = letter := by
  cases word with
  | nil => cases named
  | cons d ds =>
    obtain ⟨rfl, -⟩ := List.cons.inj same
    exact (List.cons.inj named).1

namespace Body
variable {c : Char} {rest more word : List Char}

theorem head_of_infinity (named : NamesInfinity word) (same : word ++ rest = c :: more) :
    c.toLower = 'i' := by
  rcases List.mem_pair.mp named with short | long
  · exact head_of_named short same
  · exact head_of_named long same

theorem head_of_undefined (named : NamesUndefined word) (same : word ++ rest = c :: more) :
    c.toLower = 'n' := by
  obtain ⟨name, note, rfl, spelled, -⟩ := named
  rw [List.append_assoc] at same
  exact head_of_named spelled same

/-- Whether a character is the first one of digits with a point. -/
def Leads (c : Char) : Prop := isDigit c ∨ c = '.'

theorem toLower_of_leads (leads : Leads c) : c.toLower = c := by
  rcases leads with digit | rfl
  · exact toLower_of_isDigit digit
  · decide

theorem leads_of_decimal {s : Scaled isDigit 'e' 'E'} (same : s.text ++ rest = c :: more) :
    Leads c := by
  rw [Scaled.text, List.append_assoc] at same
  exact s.row.head same

theorem unsigned (b : Body) (same : b.text ++ rest = c :: more) : c ≠ '-' ∧ c ≠ '+' := by
  have apart {d : Char} (letter : d.toLower = 'i' ∨ d.toLower = 'n' ∨ isDigit d ∨ d = '.') :
      d ≠ '-' ∧ d ≠ '+' := by
    constructor <;> rintro rfl <;> revert letter <;> decide
  apply apart
  cases b with
  | decimal s => exact .inr (.inr (leads_of_decimal same))
  | hexadecimal mark marked s =>
    obtain ⟨rfl, -⟩ := List.cons.inj same
    exact .inr (.inr (.inl rfl))
  | infinity word named => exact .inl (head_of_infinity named same)
  | undefined word named => exact .inr (.inl (head_of_undefined named same))

end Body

/-! ### Names -/

theorem startsWith_iff (word cs : List Char) :
    startsWith word cs ↔ (cs.take word.length).map Char.toLower = word := beq_iff_eq

/-- A text that starts with a name starts with its first letter. -/
theorem head_of_startsWith {letter c : Char} {letters more : List Char}
    (starts : startsWith (letter :: letters) (c :: more)) : c.toLower = letter := by
  have same := (startsWith_iff _ _).mp starts
  exact (List.cons.inj same).1

theorem startsWith_of_named {word letters rest : List Char} (note : List Char)
    (named : word.map Char.toLower = letters ++ note) : startsWith letters (word ++ rest) := by
  have long : letters.length ≤ word.length := by
    have length := congrArg List.length named
    simp at length
    omega
  rw [startsWith_iff, List.take_append_of_le_length long, List.map_take, named,
    List.take_left' rfl]

theorem startsWith_of_infinity {word : List Char} (named : NamesInfinity word) (rest : List Char) :
    startsWith ['i', 'n', 'f'] (word ++ rest) := by
  rcases List.mem_pair.mp named with short | long
  · exact startsWith_of_named [] short
  · exact startsWith_of_named ['i', 'n', 'i', 't', 'y'] long

theorem startsWith_of_undefined {word : List Char} (named : NamesUndefined word)
    (rest : List Char) : startsWith ['n', 'a', 'n'] (word ++ rest) := by
  obtain ⟨name, note, rfl, spelled, -⟩ := named
  rw [List.append_assoc]
  exact startsWith_of_named [] spelled

/-! ### Blanks -/

/-- Whether a text has something in it and no blank. -/
structure Solid (word : List Char) : Prop where
  filled : word ≠ []
  noBlank : ∀ c ∈ word, isSpace c = false

/-- A solid text between blanks is the longest beginning behind those in front. -/
theorem longest_of_solid {p : List Char → Prop} {front word back : List Char}
    (solid : ∀ word, p word → Solid word) (has : p word) (before : ∀ c ∈ front, isSpace c)
    (behind : ∀ c ∈ back, isSpace c) :
    Longest p word ((front ++ word ++ back).dropWhile isSpace) := by
  have dropped : (front ++ word ++ back).dropWhile isSpace = word ++ back := by
    obtain ⟨c, cs, rfl⟩ := List.exists_cons_of_ne_nil (solid word has).filled
    have noBlank := (solid _ has).noBlank c List.mem_cons_self
    rw [List.append_assoc, List.dropWhile_append_of_pos before]
    exact List.dropWhile_cons_of_neg (by simp [noBlank])
  rw [dropped]
  refine ⟨List.prefix_append .., has, fun other start has' => ?_⟩
  by_contra long
  obtain ⟨more, rfl⟩ :=
    List.prefix_of_prefix_length_le (List.prefix_append word back) start (by omega)
  have inside := (List.prefix_append_right_inj word).mp start
  cases more with
  | nil => simp at long
  | cons c more =>
    have blank := behind c (inside.subset List.mem_cons_self)
    have noBlank := (solid _ has').noBlank c (by simp)
    rw [noBlank] at blank
    cases blank

def blanks : List Char := [' ', '\t', '\n', '\x0b', '\x0c', '\r']

theorem mem_blanks {c : Char} (blank : isSpace c) : c ∈ blanks := by
  simpa [isSpace, blanks, or_assoc] using blank

/-- Characters of a kind are no blanks if no blank is of that kind. -/
theorem not_isSpace (kind : Char → Bool) {c : Char} (is : kind c) (none : blanks.any kind = false) :
    isSpace c = false := by
  by_contra blank
  have member := mem_blanks (by simpa using blank)
  exact absurd is (by simpa using List.any_eq_false.mp none c member)

theorem Sign.noBlank (sign : Sign) : ∀ c ∈ sign.text, isSpace c = false := by
  cases sign <;> simp [Sign.text, isSpace]

theorem not_isSpace_of_isDigit {c : Char} (digit : isDigit c) : isSpace c = false :=
  not_isSpace isDigit digit rfl

theorem Whole.solid (w : Whole) : Solid w.text where
  filled := by simp [Whole.text, w.filled]
  noBlank := by
    intro c member
    rcases List.mem_append.mp member with sign | digit
    · exact w.sign.noBlank c sign
    · exact not_isSpace_of_isDigit (w.all c digit)

theorem Pointed.solid {digit : Char → Bool} (noBlank : ∀ c, digit c → isSpace c = false)
    (p : Pointed digit) : Solid p.text := by
  obtain ⟨whole, fraction, all, filled⟩ := p
  cases fraction with
  | none =>
    refine ⟨by simpa [text, fractionText] using filled, fun c member => noBlank c (all c ?_)⟩
    simpa [text, fractionText] using member
  | some ds =>
    refine ⟨by simp [text, fractionText], fun c member => ?_⟩
    have parts : c ∈ whole ++ ds ∨ c = '.' := by
      simpa [text, fractionText, or_left_comm, or_comm] using member
    rcases parts with digit | rfl
    · exact noBlank c (all c digit)
    · rfl

theorem Scaled.solid {digit : Char → Bool} {low up : Char}
    (noBlank : ∀ c, digit c → isSpace c = false) (marks : ∀ c, c = low ∨ c = up → isSpace c = false)
    (s : Scaled digit low up) : Solid s.text := by
  have row := s.row.solid noBlank
  refine ⟨by simp [text, row.filled], fun c member => ?_⟩
  rcases List.mem_append.mp member with digit | power
  · exact row.noBlank c digit
  cases same : s.power with
  | none => simp [same, Power.textOf] at power
  | some p =>
    rw [same] at power
    rcases List.mem_cons.mp power with rfl | exponent
    · exact marks p.mark p.marked
    · exact p.exponent.solid.noBlank c exponent

theorem solid_of_named {word letters : List Char} (named : word.map Char.toLower = letters)
    (solid : Solid letters) : Solid word := by
  refine ⟨?_, fun c member => ?_⟩
  · rintro rfl
    exact solid.filled named.symm
  · by_contra blank
    have blank := mem_blanks (by simpa using blank)
    have lower : ∀ b ∈ blanks, b.toLower = b ∧ isSpace b := by simp [blanks, isSpace]
    have letter : c.toLower ∈ letters := named ▸ List.mem_map_of_mem member
    rw [(lower c blank).1] at letter
    exact absurd (lower c blank).2 (by simp [solid.noBlank c letter])

theorem solid_of_infinity {word : List Char} (named : NamesInfinity word) : Solid word := by
  rcases List.mem_pair.mp named with short | long
  · exact solid_of_named short ⟨by simp, by simp [isSpace]⟩
  · exact solid_of_named long ⟨by simp, by simp [isSpace]⟩

theorem solid_of_undefined {word : List Char} (named : NamesUndefined word) : Solid word := by
  obtain ⟨name, note, rfl, spelled, noted⟩ := named
  have solid := solid_of_named spelled ⟨by simp, by simp [isSpace]⟩
  refine ⟨by simp [solid.filled], fun c member => ?_⟩
  rcases List.mem_append.mp member with letter | behind
  · exact solid.noBlank c letter
  rcases noted with rfl | ⟨inner, rfl, all⟩
  · cases behind
  have parts : c = '(' ∨ c = ')' ∨ c ∈ inner := by
    simpa [or_comm, or_left_comm] using behind
  rcases parts with rfl | rfl | sign
  · rfl
  · rfl
  · exact not_isSpace (fun c => c.isAlphanum || c = '_') (by simpa using all c sign) rfl

theorem Body.solid (b : Body) : Solid b.text := by
  cases b with
  | decimal s =>
    refine s.solid (fun c => not_isSpace_of_isDigit) fun c mark => ?_
    exact not_isSpace (fun c => c = 'e' || c = 'E') (by simpa using mark) rfl
  | hexadecimal mark marked s =>
    have digits : Solid s.text := by
      refine s.solid (fun c digit => ?_) fun c mark => ?_
      · exact not_isSpace isHexDigit digit rfl
      · exact not_isSpace (fun c => c = 'p' || c = 'P') (by simpa using mark) rfl
    refine ⟨by simp [text], fun c member => ?_⟩
    rcases List.mem_cons.mp member with rfl | member
    · rfl
    rcases List.mem_cons.mp member with rfl | member
    · exact not_isSpace (fun c => c = 'x' || c = 'X') (by simpa using marked) rfl
    · exact digits.noBlank c member
  | infinity word named => exact solid_of_infinity named
  | undefined word named => exact solid_of_undefined named

theorem Numeral.solid (r : Numeral) : Solid r.text where
  filled := by simp [text, r.body.solid.filled]
  noBlank := by
    intro c member
    rcases List.mem_append.mp member with sign | body
    · exact r.sign.noBlank c sign
    · exact r.body.solid.noBlank c body

end VesselRelay.Settings
