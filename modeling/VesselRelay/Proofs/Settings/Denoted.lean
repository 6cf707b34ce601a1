import VesselRelay.Proofs.Settings.Held
import VesselRelay.Proofs.Settings.Numeral

/-!
What numerals denote. The longest numeral at the start of a text is read as the number it denotes,
rounded to the nearest double, if it is held as one; without a numeral there is nothing to read.
-/
namespace VesselRelay.Settings

open Binary64 (NearestTo Parts lt_iff_of_number? number? number?_neg number?_nothing number?_ofBits
  number?_zero withSign)

/-- What a numeral denotes, its sign aside. -/
inductive Quantity where
  | finite (hexadecimal : Bool) (q : ℚ)
  | infinity
  | undefined

namespace Body

def quantity : Body → Quantity
  | decimal s => .finite false
      (Decimal.ofDigits s.row.digits * 10 ^ (Power.valueOf s.power - s.row.places))
  | hexadecimal _ _ s => .finite true
      (ofHexDigits s.row.digits * 2 ^ (Power.valueOf s.power - 4 * s.row.places))
  | infinity _ _ => .infinity
  | undefined _ _ => .undefined

end Body

/-! ### Magnitudes -/

/-- Whether a magnitude stands for a number. -/
structure Magnitude.For (m : Magnitude) (hexadecimal : Bool) (q : ℚ) : Prop where
  kind : m.hexadecimal = hexadecimal
  positive : 0 < m.denominator
  fate : SameFate (m.numerator / m.denominator) q

theorem plain_decimal : Scaled.Plain isDigit 'e' 'E' := ⟨rfl, by decide, by decide⟩

theorem plain_hexadecimal : Scaled.Plain isHexDigit 'p' 'P' :=
  ⟨by decide, by decide, by decide⟩

theorem decimal?_of_pointed {cs whole fraction rest : List Char}
    (read : pointed? isDigit cs = some (whole, fraction, rest)) :
    decimal? cs = some (
      let r := (Decimal.Scientific.mk (Decimal.ofDigits (whole ++ fraction))
        (Power.read 'e' 'E' rest - fraction.length)).ratio
      ⟨r.1, r.2, false⟩) := by
  unfold decimal?
  rw [read]
  rfl

theorem hexadecimal?_of_pointed {cs whole fraction rest : List Char}
    (read : pointed? isHexDigit cs = some (whole, fraction, rest)) :
    hexadecimal? cs = some (
      let r := binaryRatio (ofHexDigits (whole ++ fraction))
        (Power.read 'p' 'P' rest - 4 * fraction.length)
      ⟨r.1, r.2, true⟩) := by
  unfold hexadecimal?
  rw [show (fun c => (hexDigit? c).isSome) = isHexDigit from rfl, read]
  rfl

theorem exists_decimal {s : Scaled isDigit 'e' 'E'} {cs : List Char}
    (longest : Longest (Scaled.IsText isDigit 'e' 'E') s.text cs) :
    ∃ m, decimal? cs = some m ∧ m.For false
      (Decimal.ofDigits s.row.digits * 10 ^ (Power.valueOf s.power - s.row.places)) := by
  obtain ⟨rest, read, power⟩ := Scaled.read_of_longest plain_decimal longest
  let x : Decimal.Scientific :=
    ⟨Decimal.ofDigits s.row.digits, Power.valueOf s.power - s.row.places⟩
  refine ⟨⟨x.ratio.1, x.ratio.2, false⟩, ?_, rfl, Decimal.ratio_pos x, sameFate_ratio x⟩
  rw [decimal?_of_pointed read, power]
  rfl

theorem exists_hexadecimal {s : Scaled isHexDigit 'p' 'P'} {cs : List Char}
    (longest : Longest (Scaled.IsText isHexDigit 'p' 'P') s.text cs) :
    ∃ m, hexadecimal? cs = some m ∧
      m.For true (ofHexDigits s.row.digits * 2 ^ (Power.valueOf s.power - 4 * s.row.places)) := by
  obtain ⟨rest, read, power⟩ := Scaled.read_of_longest plain_hexadecimal longest
  refine ⟨⟨_, _, true⟩, ?_, rfl, binaryRatio_pos (ofHexDigits s.row.digits)
    (Power.valueOf s.power - 4 * s.row.places), sameFate_binaryRatio ..⟩
  rw [hexadecimal?_of_pointed read, power]
  rfl

/-- In front of the mark of hexadecimal digits there is a decimal zero only. -/
theorem zero_of_marked {s : Scaled isDigit 'e' 'E'} {mark : Char} {rest more : List Char}
    (marked : mark = 'x' ∨ mark = 'X') (same : s.text ++ rest = '0' :: mark :: more) :
    s.row.whole = ['0'] ∧ s.row.fraction = none ∧ s.power = none := by
  obtain ⟨⟨whole, fraction, all, filled⟩, power⟩ := s
  rw [Scaled.text, Pointed.text, List.append_assoc, List.append_assoc] at same
  dsimp only at *
  have mark_ne {c : Char} (other : isDigit c ∨ c = '.' ∨ c = 'e' ∨ c = 'E') : c ≠ mark := by
    rintro rfl
    rcases marked with rfl | rfl <;> revert other <;> decide
  rcases whole with _ | ⟨d, _ | ⟨e, ds⟩⟩
  · cases fraction with
    | none => exact absurd rfl filled
    | some ds => exact absurd (List.cons.inj same).1 (by decide)
  · obtain ⟨rfl, rest⟩ := List.cons.inj same
    cases fraction with
    | some ds => exact absurd (List.cons.inj rest).1 (mark_ne (.inr (.inl rfl)))
    | none =>
      cases power with
      | some power => exact absurd (List.cons.inj rest).1 (mark_ne (.inr (.inr power.marked)))
      | none => exact ⟨rfl, rfl, rfl⟩
  · obtain ⟨-, rest⟩ := List.cons.inj same
    exact absurd (List.cons.inj rest).1 (mark_ne (.inl (all e (by simp))))

theorem hexadecimal?_of_absent {cs : List Char}
    (absent : ∀ word, word <+: cs → ¬ Scaled.IsText isHexDigit 'p' 'P' word) :
    hexadecimal? cs = none := by
  unfold hexadecimal?
  rw [show (fun c => (hexDigit? c).isSome) = isHexDigit from rfl,
    Scaled.pointed?_of_absent absent]
  rfl

theorem decimal?_of_absent {cs : List Char}
    (absent : ∀ word, word <+: cs → ¬ Scaled.IsText isDigit 'e' 'E' word) :
    decimal? cs = none := by
  unfold decimal?
  rw [Scaled.pointed?_of_absent absent]
  rfl

theorem magnitude?_of_unmarked {cs : List Char}
    (unmarked : ∀ mark more, cs = '0' :: mark :: more → ¬ (mark = 'x' ∨ mark = 'X')) :
    magnitude? cs = decimal? cs := by
  unfold magnitude?
  split
  · rename_i mark more
    exact if_neg fun marked => unmarked mark more rfl (by simpa using marked)
  · rfl

theorem exists_magnitude_hexadecimal {mark : Char} (marked : mark = 'x' ∨ mark = 'X')
    {s : Scaled isHexDigit 'p' 'P'} {tail : List Char}
    (longest : Longest Body.IsText ('0' :: mark :: s.text) ('0' :: mark :: (s.text ++ tail))) :
    ∃ m, magnitude? ('0' :: mark :: (s.text ++ tail)) = some m ∧ m.For true
      (ofHexDigits s.row.digits * 2 ^ (Power.valueOf s.power - 4 * s.row.places)) := by
  have inner : Longest (Scaled.IsText isHexDigit 'p' 'P') s.text (s.text ++ tail) := by
    have longest' : Longest Body.IsText (['0', mark] ++ s.text)
        (['0', mark] ++ (s.text ++ tail)) := longest
    refine longest'.inner ?_ ⟨s, rfl⟩
    rintro _ ⟨s, rfl⟩
    exact ⟨.hexadecimal mark marked s, rfl⟩
  obtain ⟨m, read, stands⟩ := exists_hexadecimal inner
  exact ⟨m, by simp [magnitude?, marked, read], stands⟩

theorem exists_magnitude_decimal {s : Scaled isDigit 'e' 'E'} {cs : List Char}
    (longest : Longest Body.IsText s.text cs) :
    ∃ m, magnitude? cs = some m ∧ m.For false
      (Decimal.ofDigits s.row.digits * 10 ^ (Power.valueOf s.power - s.row.places)) := by
  by_cases hex : ∃ mark more, (mark = 'x' ∨ mark = 'X') ∧ cs = '0' :: mark :: more
  · obtain ⟨mark, more, marked, rfl⟩ := hex
    obtain ⟨tail, found⟩ := longest.start
    obtain ⟨whole, fraction, power⟩ := zero_of_marked marked found
    have short : s.text = ['0'] := by
      simp [Scaled.text, Pointed.text, whole, fraction, power, Pointed.fractionText,
        Power.textOf]
    have absent : hexadecimal? more = none := by
      apply hexadecimal?_of_absent
      rintro _ start ⟨t, rfl⟩
      have long := longest.longest ('0' :: mark :: t.text) (by simpa using start)
        ⟨.hexadecimal mark marked t, rfl⟩
      simp [short] at long
    refine ⟨Magnitude.zero, by simp [magnitude?, marked, absent], rfl, Nat.one_pos, .inl ?_⟩
    have zero : Decimal.ofDigits ['0'] = 0 := rfl
    simp [Magnitude.zero, Pointed.digits, whole, fraction, zero]
  · have unmarked : ∀ mark more, cs = '0' :: mark :: more → ¬ (mark = 'x' ∨ mark = 'X') :=
      fun mark more same marked => hex ⟨mark, more, marked, same⟩
    rw [magnitude?_of_unmarked unmarked]
    have longest' : Longest Body.IsText ([] ++ s.text) ([] ++ cs) := longest
    refine exists_decimal (longest'.inner ?_ ⟨s, rfl⟩)
    rintro _ ⟨s, rfl⟩
    exact ⟨.decimal s, rfl⟩

/-- The magnitude of the longest body is read. -/
theorem exists_magnitude {b : Body} {cs : List Char} {hexadecimal : Bool} {q : ℚ}
    (longest : Longest Body.IsText b.text cs) (quantity : b.quantity = .finite hexadecimal q) :
    ∃ m, magnitude? cs = some m ∧ m.For hexadecimal q := by
  cases b with
  | infinity | undefined => cases quantity
  | hexadecimal mark marked s =>
    cases quantity
    obtain ⟨tail, rfl⟩ := longest.start
    exact exists_magnitude_hexadecimal marked longest
  | decimal s =>
    cases quantity
    exact exists_magnitude_decimal longest

theorem magnitude?_of_absent {cs : List Char}
    (absent : ∀ word, word <+: cs → ¬ Body.IsText word) : magnitude? cs = none := by
  have zero : Body.IsText ['0'] :=
    ⟨.decimal ⟨⟨['0'], none, by simp [isDigit], by simp⟩, none⟩, rfl⟩
  rw [magnitude?_of_unmarked]
  · apply decimal?_of_absent
    rintro word start ⟨s, rfl⟩
    exact absent _ start ⟨.decimal s, rfl⟩
  · rintro mark more rfl -
    exact absent ['0'] ⟨mark :: more, rfl⟩ zero

/-! ### Doubles -/

/-- What is read where a quantity stands behind a sign. -/
def Quantity.ReadsAs (minus : Bool) : Quantity → Option Float → Prop
  | finite hexadecimal q, read => ∃ magnitude,
      Settings.ReadsAs hexadecimal q magnitude ∧ read = magnitude.map (withSign minus)
  | infinity, read => read = some (withSign minus (1.0 / 0.0))
  | undefined, read => read = some (0.0 / 0.0)

section Double
variable {cs rest : List Char}

theorem map_bind_eq {α β : Type} (m : Option α) (f : α → Option β) (g : β → β) :
    (do let a ← m; return g (← f a)) = (m.bind f).map g := by
  cases m with
  | none => rfl
  | some a => cases held : f a <;> simp [held]

theorem real?_eq {minus : Bool} (split : signed cs = (minus, rest)) :
    real? cs =
      if startsWith ['i', 'n', 'f'] rest then some (withSign minus (1.0 / 0.0))
      else if startsWith ['n', 'a', 'n'] rest then some (0.0 / 0.0)
      else ((magnitude? rest).bind Magnitude.held?).map (withSign minus) := by
  unfold real?
  rw [split, ← map_bind_eq]

/-- A text starts with no name that its first character does not start. -/
theorem not_startsWith {letter : Char} {letters : List Char}
    (other : ∀ c more, rest = c :: more → c.toLower ≠ letter) :
    ¬ startsWith (letter :: letters) rest := by
  intro starts
  cases rest with
  | nil => cases (startsWith_iff _ _).mp starts
  | cons c more => exact other c more rfl (head_of_startsWith starts)

/-- Digits start with no letter. -/
theorem not_startsWith_of_leads {letter : Char} (letters : List Char)
    (other : ¬ Body.Leads letter) (leads : ∀ c more, rest = c :: more → Body.Leads c) :
    ¬ startsWith (letter :: letters) rest := by
  apply not_startsWith
  rintro c more same rfl
  have digit := leads c more same
  rw [Body.toLower_of_leads digit] at other
  exact other digit

theorem readsAs_of_leads {b : Body} {minus hexadecimal : Bool} {q : ℚ}
    (split : signed cs = (minus, rest)) (longest : Longest Body.IsText b.text rest)
    (quantity : b.quantity = .finite hexadecimal q)
    (leads : ∀ c more, rest = c :: more → Body.Leads c) :
    (Quantity.finite hexadecimal q).ReadsAs minus (real? cs) := by
  obtain ⟨m, read, stands⟩ := exists_magnitude longest quantity
  have finite : ¬ startsWith ['i', 'n', 'f'] rest :=
    not_startsWith_of_leads _ (by simp [Body.Leads, isDigit]) leads
  have defined : ¬ startsWith ['n', 'a', 'n'] rest :=
    not_startsWith_of_leads _ (by simp [Body.Leads, isDigit]) leads
  refine ⟨m.held?, stands.kind ▸ readsAs_of_sameFate m stands.positive stands.fate, ?_⟩
  rw [real?_eq split, if_neg finite, if_neg defined, read, Option.bind_some]

/-- The longest numeral is read as what it denotes. -/
theorem real?_of_longest {r : Numeral}
    (longest : Longest Numeral.IsText r.text (cs.dropWhile isSpace)) :
    r.body.quantity.ReadsAs r.sign.negative (real? cs) := by
  obtain ⟨sign, b⟩ := r
  obtain ⟨tail, found⟩ := longest.start
  have split : signed cs = (sign.negative, b.text ++ tail) := by
    rw [signed_eq, ← found, Numeral.text, List.append_assoc]
    exact Sign.split_append sign fun c more => b.unsigned
  have inner : Longest Body.IsText b.text (b.text ++ tail) := by
    have longest' : Longest Numeral.IsText (sign.text ++ b.text)
        (sign.text ++ (b.text ++ tail)) := by
      simpa [Numeral.text, ← found] using longest
    refine longest'.inner ?_ ⟨b, rfl⟩
    rintro _ ⟨b, rfl⟩
    exact ⟨⟨sign, b⟩, rfl⟩
  cases b with
  | decimal s => exact readsAs_of_leads split inner rfl fun c more => Body.leads_of_decimal
  | hexadecimal mark marked s =>
    refine readsAs_of_leads split inner rfl fun c more same => ?_
    obtain ⟨rfl, -⟩ := List.cons.inj same
    exact .inl rfl
  | infinity word named =>
    rw [real?_eq split]
    exact if_pos (startsWith_of_infinity named tail)
  | undefined word named =>
    have finite : ¬ startsWith ['i', 'n', 'f'] (word ++ tail) := by
      apply not_startsWith
      intro c more same
      rw [Body.head_of_undefined named same]
      decide
    rw [real?_eq split]
    exact (if_neg finite).trans (if_pos (startsWith_of_undefined named tail))

/-- Where there is no numeral, no double is read. -/
theorem real?_of_absent
    (absent : ∀ word, word <+: cs.dropWhile isSpace → ¬ Numeral.IsText word) : real? cs = none := by
  obtain ⟨sign, found, negative⟩ := Sign.exists_split (cs.dropWhile isSpace)
  rw [← signed_eq] at found
  have split : signed cs = ((signed cs).1, (signed cs).2) := rfl
  generalize (signed cs).1 = minus, (signed cs).2 = rest at split found
  have absent : ∀ word, word <+: rest → ¬ Body.IsText word := by
    rintro _ start ⟨b, rfl⟩
    refine absent (sign.text ++ b.text) ?_ ⟨⟨sign, b⟩, rfl⟩
    rw [← found]
    exact (List.prefix_append_right_inj _).mpr start
  have finite : ¬ startsWith ['i', 'n', 'f'] rest := by
    intro starts
    have named := (startsWith_iff _ _).mp starts
    exact absent _ (List.take_prefix 3 rest) ⟨.infinity _ (List.mem_pair.mpr (.inl named)), rfl⟩
  have defined : ¬ startsWith ['n', 'a', 'n'] rest := by
    intro starts
    have named := (startsWith_iff _ _).mp starts
    refine absent _ (List.take_prefix 3 rest) ⟨.undefined _ ?_, rfl⟩
    exact ⟨_, [], (List.append_nil _).symm, named, .inl rfl⟩
  rw [real?_eq split, if_neg finite, if_neg defined, magnitude?_of_absent absent]
  rfl

end Double

/-! ### Numbers above zero -/

/-- Whether a quantity can be used: infinity, or a number above zero that is held. -/
def Quantity.Usable : Quantity → Prop
  | finite hexadecimal q => 0 < q ∧ Held hexadecimal q
  | infinity => True
  | undefined => False

/-- Whether a double is the one that a quantity means. -/
def Quantity.Means : Quantity → Float → Prop
  | finite _ q, x => NearestTo x q
  | infinity, x => x = 1.0 / 0.0
  | undefined, _ => False

/-- Whether a numeral can be used. Nothing below zero can. -/
def Numeral.Usable (r : Numeral) : Prop := r.sign.negative = false ∧ r.body.quantity.Usable

section Positive
variable {q : ℚ} {x : Float}

theorem nonneg_of_nearestTo (nearest : NearestTo x q) (nonneg : 0 ≤ q) :
    ∃ a, number? x = some a ∧ 0 ≤ a ∧ (q = 0 → a = 0) := by
  obtain ⟨a, exact, near⟩ := nearest.near
  have zero := near _ _ number?_zero
  rw [zero_sub, abs_neg, abs_of_nonneg nonneg] at zero
  refine ⟨a, exact, ?_, ?_⟩
  · by_contra below
    have far := neg_le_abs (a - q)
    linarith
  · rintro rfl
    rw [sub_zero] at zero
    exact abs_nonpos_iff.mp zero

/-- The double nearest to a number above zero is above zero if the number is held. -/
theorem pos_of_nearestTo {hexadecimal : Bool} (nearest : NearestTo x q) (positive : 0 < q)
    (held : Held hexadecimal q) : 0.0 < x := by
  obtain ⟨a, exact, near⟩ := nearest.near
  have least : (2 : ℚ) ^ (-1074 : ℤ) ≤ q := by
    by_contra small
    exact not_held_of_vanishing positive (not_le.mp small) held
  have canonical : (Parts.mk 1 (-1074)).Canonical := ⟨by decide, by decide, by decide, .inl rfl⟩
  have value : (Parts.mk 1 (-1074)).value = 2 ^ (-1074 : ℤ) := by simp [Parts.value]
  have close := near _ _ (number?_ofBits canonical)
  have step := two_zpow_pos (-1074)
  rw [value, abs_sub_comm (2 ^ (-1074 : ℤ)), abs_of_nonneg (sub_nonneg.mpr least)] at close
  rw [lt_iff_of_number? number?_nothing exact]
  by_contra below
  have far := neg_le_abs (a - q)
  linarith

theorem not_pos_of_number? {a : ℚ} (exact : number? x = some a) (nonpos : a ≤ 0) : ¬ 0.0 < x := by
  rw [lt_iff_of_number? number?_nothing exact]
  exact not_lt.mpr nonpos

end Positive

theorem Body.quantity_nonneg {b : Body} {hexadecimal : Bool} {q : ℚ}
    (quantity : b.quantity = .finite hexadecimal q) : 0 ≤ q := by
  cases b with
  | infinity | undefined => cases quantity
  | decimal s | hexadecimal mark marked s =>
    cases quantity
    positivity

theorem filter_eq_none_of_number? {a : ℚ} {x : Float} (exact : number? x = some a)
    (nonpos : a ≤ 0) : (some x).filter (0.0 < ·) = none := by
  simpa using not_pos_of_number? exact nonpos

/-- The longest numeral is used as what it means if it can be. -/
theorem filter_real?_of_usable {r : Numeral} {cs : List Char}
    (longest : Longest Numeral.IsText r.text (cs.dropWhile isSpace)) (usable : r.Usable) :
    ∃ x, (real? cs).filter (0.0 < ·) = some x ∧ r.body.quantity.Means x := by
  obtain ⟨plus, usable⟩ := usable
  have reads := real?_of_longest longest
  rw [plus] at reads
  generalize r.body.quantity = quantity at *
  cases quantity with
  | finite hexadecimal q =>
    obtain ⟨magnitude, readsAs, read⟩ := reads
    obtain ⟨positive, held⟩ := usable
    obtain ⟨x, rfl, nearest⟩ := readsAs.held held
    have above := pos_of_nearestTo nearest positive held
    refine ⟨x, ?_, nearest⟩
    rw [read]
    exact Option.filter_some_pos (decide_eq_true above)
  | infinity =>
    refine ⟨1.0 / 0.0, ?_, rfl⟩
    rw [Quantity.ReadsAs] at reads
    rw [reads]
    exact Option.filter_some_pos (by decide +kernel)
  | undefined => exact usable.elim

/-- A number is not above zero behind a minus, nor where it is zero or not held. -/
theorem filter_of_finite {minus hexadecimal : Bool} {q : ℚ} {magnitude : Option Float}
    (readsAs : ReadsAs hexadecimal q magnitude) (nonneg : 0 ≤ q)
    (unusable : ¬ (minus = false ∧ 0 < q ∧ Held hexadecimal q)) :
    (magnitude.map (withSign minus)).filter (0.0 < ·) = none := by
  by_cases held : Held hexadecimal q
  · obtain ⟨x, rfl, nearest⟩ := readsAs.held held
    obtain ⟨a, exact, above, zero⟩ := nonneg_of_nearestTo nearest nonneg
    cases minus with
    | true => exact filter_eq_none_of_number? (number?_neg exact) (neg_nonpos.mpr above)
    | false =>
      have nothing : q = 0 := by
        by_contra some
        exact unusable ⟨rfl, lt_of_le_of_ne nonneg (Ne.symm some), held⟩
      exact filter_eq_none_of_number? exact (zero nothing).le
  · rw [readsAs.lost held]
    rfl

/-- A numeral that cannot be used is not. -/
theorem filter_real?_of_unusable {r : Numeral} {cs : List Char}
    (longest : Longest Numeral.IsText r.text (cs.dropWhile isSpace)) (unusable : ¬ r.Usable) :
    (real? cs).filter (0.0 < ·) = none := by
  have reads := real?_of_longest longest
  have nonneg : ∀ hexadecimal q, r.body.quantity = .finite hexadecimal q → 0 ≤ q :=
    fun _ _ => Body.quantity_nonneg
  rw [Numeral.Usable] at unusable
  generalize r.body.quantity = quantity at *
  generalize r.sign.negative = minus at *
  cases quantity with
  | finite hexadecimal q =>
    obtain ⟨magnitude, readsAs, read⟩ := reads
    rw [read]
    exact filter_of_finite readsAs (nonneg hexadecimal q rfl) unusable
  | infinity =>
    have negative : minus = true := by
      by_contra plus
      exact unusable ⟨by simpa using plus, trivial⟩
    rw [Quantity.ReadsAs] at reads
    rw [reads, negative]
    exact Option.filter_some_neg (by decide +kernel)
  | undefined =>
    rw [Quantity.ReadsAs] at reads
    rw [reads]
    exact Option.filter_some_neg (by decide +kernel)

end VesselRelay.Settings
