import VesselRelay.Json.Parser
import VesselRelay.Proofs.Reading

/-!
The reader of JSON text step by step: each step leaves an end of the text it is given or fails in
few ways, and the fuel of the recursive steps never runs out. So a value is read by
`readValue`, `readItems` and `readMembers`, which have none to give.
-/
namespace VesselRelay.Json

/-! ### Steps -/

/-- A step of reading leaves an end of the text that it is given, or fails in one of some ways. -/
structure Proceeds {α : Type} (kinds : List Failure) (cs : List Char) (step : Step (Taken α)) :
    Prop where
  leaves : ∀ a rest, step = .ok (a, rest) → rest <:+ cs
  fails : ∀ failure, step = .error failure → failure ∈ kinds

/-- How a token is refused. -/
def refusals : List Failure := [.decode .malformed]

/-- How a value is refused. -/
def valueRefusals : List Failure := [.decode .malformed, .numberRange]

namespace Proceeds
variable {α β : Type} {kinds : List Failure} {cs rest : List Char}

theorem ok {a : α} (leaves : rest <:+ cs) : Proceeds kinds cs (.ok (a, rest)) where
  leaves _ _ read := by cases read; exact leaves
  fails _ failed := by cases failed

theorem error {failure : Failure} (kind : failure ∈ kinds) :
    Proceeds kinds cs (.error failure : Step (Taken α)) where
  leaves _ _ read := by cases read
  fails _ failed := by cases failed; exact kind

theorem trans {step : Step (Taken α)} {before : List Char} (proceeds : Proceeds kinds cs step)
    (suffix : cs <:+ before) : Proceeds kinds before step where
  leaves a rest read := (proceeds.leaves a rest read).trans suffix
  fails := proceeds.fails

theorem bind {x : Step (Taken α)} {f : Taken α → Step (Taken β)} (first : Proceeds kinds cs x)
    (next : ∀ a rest, x = .ok (a, rest) → Proceeds kinds rest (f (a, rest))) :
    Proceeds kinds cs (x >>= f) := by
  cases x with
  | error failure => exact .error (first.fails failure rfl)
  | ok taken =>
    obtain ⟨a, rest⟩ := taken
    exact (next a rest rfl).trans (first.leaves a rest rfl)

theorem map {x : Step (Taken α)} {f : Taken α → Taken β} (proceeds : Proceeds kinds cs x)
    (leaving : ∀ a rest, (f (a, rest)).2 = rest) : Proceeds kinds cs (x.map f) := by
  cases x with
  | error failure => exact .error (proceeds.fails failure rfl)
  | ok taken =>
    obtain ⟨a, rest⟩ := taken
    have suffix : (f (a, rest)).2 <:+ cs := (leaving a rest).symm ▸ proceeds.leaves a rest rfl
    exact .ok suffix

theorem ofToken {step : Step (Taken α)} (token : Proceeds refusals cs step) :
    Proceeds valueRefusals cs step where
  leaves := token.leaves
  fails failure failed := by
    rw [List.mem_singleton.mp (token.fails failure failed)]
    exact List.mem_cons_self

theorem ne_numberRange {step : Step (Taken α)} (token : Proceeds refusals cs step) :
    step ≠ .error .numberRange := by
  intro failed
  cases List.mem_singleton.mp (token.fails _ failed)

end Proceeds

theorem suffix_cons_of_eq {c : Char} {cs rest : List Char} (same : cs = c :: rest) : rest <:+ cs :=
  same ▸ List.suffix_cons c rest

theorem skipBlanks_suffix (cs : List Char) : skipBlanks cs <:+ cs := List.dropWhile_suffix _

/-- What stands behind the first character after blanks. -/
theorem suffix_of_skipBlanks {c : Char} {cs rest : List Char} (found : skipBlanks cs = c :: rest) :
    rest <:+ cs :=
  (suffix_cons_of_eq found).trans (skipBlanks_suffix cs)

/-! ### Tokens -/

theorem proceeds_malformed {α : Type} {cs : List Char} :
    Proceeds refusals cs (malformed : Step (Taken α)) :=
  .error (List.mem_singleton_self _)

theorem proceeds_digits (cs : List Char) : Proceeds refusals cs (digits cs) := by
  unfold digits
  split
  · exact proceeds_malformed
  · exact .ok (List.dropWhile_suffix _)

theorem proceeds_wholePart (cs : List Char) : Proceeds refusals cs (wholePart cs) := by
  unfold wholePart
  split
  · exact .ok (List.suffix_cons _ _)
  · exact proceeds_digits _

theorem proceeds_fractionPart (cs : List Char) : Proceeds refusals cs (fractionPart cs) := by
  unfold fractionPart
  split
  · exact ((proceeds_digits _).map fun _ _ => rfl).trans (List.suffix_cons _ _)
  · exact .ok (List.suffix_refl _)

theorem proceeds_exponentPart (cs : List Char) : Proceeds refusals cs (exponentPart cs) := by
  unfold exponentPart
  split
  · rename_i mark rest
    have marked : rest <:+ mark :: rest := List.suffix_cons _ _
    split
    · split
      · exact ((proceeds_digits _).map fun _ _ => rfl).trans ((List.suffix_cons _ _).trans marked)
      · exact ((proceeds_digits _).map fun _ _ => rfl).trans ((List.suffix_cons _ _).trans marked)
      · exact ((proceeds_digits _).map fun _ _ => rfl).trans marked
    · exact .ok (List.suffix_refl _)
  · exact .ok (List.suffix_refl _)

theorem proceeds_numeral (cs : List Char) : Proceeds refusals cs (numeral cs) := by
  unfold numeral
  split
  rename_i minus after parted
  have suffix : after <:+ cs := by
    split at parted <;> cases parted
    · exact List.suffix_cons _ _
    · exact List.suffix_refl _
  refine Proceeds.trans ?_ suffix
  refine (proceeds_wholePart after).bind fun whole after _ => ?_
  refine (proceeds_fractionPart after).bind fun fraction after _ => ?_
  refine (proceeds_exponentPart after).bind fun exponent after _ => ?_
  exact .ok (List.suffix_refl _)

theorem suffix_unit? {cs rest : List Char} {unit : Nat} (taken : unit? cs = some (unit, rest)) :
    rest <:+ cs := by
  unfold unit? at taken
  split at taken
  · split at taken <;> cases taken
    exact ⟨[_, _, _, _], rfl⟩
  · cases taken

theorem suffix_escape? {cs rest : List Char} {c : Char} (escaped : escape? cs = some (c, rest)) :
    rest <:+ cs := by
  unfold escape? at escaped
  split at escaped
  case h_9 after =>
    have high := List.suffix_cons 'u' after
    split at escaped
    · cases escaped
    · rename_i first
      have units := (suffix_unit? first).trans high
      split at escaped
      · split at escaped
        · split at escaped
          · rename_i second
            split at escaped
            · rw [← (Prod.mk.inj (Option.some.inj escaped)).2]
              exact ((suffix_unit? second).trans ⟨['\\', 'u'], rfl⟩).trans units
            · cases escaped
          · cases escaped
        · cases escaped
      · split at escaped <;> cases escaped
        exact units
  case h_10 => cases escaped
  all_goals
    cases escaped
    exact List.suffix_cons _ _

theorem proceeds_stringBody (fuel : Nat) (cs : List Char) :
    Proceeds refusals cs (stringBody fuel cs) := by
  induction fuel generalizing cs with
  | zero => exact proceeds_malformed
  | succ fuel ih =>
    cases cs with
    | nil => exact proceeds_malformed
    | cons c cs =>
      have later := List.suffix_cons c cs
      rw [stringBody]
      split
      · exact .ok later
      · split
        · split
          · exact proceeds_malformed
          · rename_i escaped
            exact ((ih _).map fun _ _ => rfl).trans ((suffix_escape? escaped).trans later)
        · split
          · exact proceeds_malformed
          · exact ((ih cs).map fun _ _ => rfl).trans later

theorem proceeds_stringToken (cs : List Char) : Proceeds refusals cs (stringToken cs) :=
  (proceeds_stringBody _ cs).map fun _ _ => rfl

theorem proceeds_keyword (word : List Char) (held : Json) (cs : List Char) :
    Proceeds refusals cs (keyword word held cs) := by
  unfold keyword
  split
  · exact .ok (List.drop_suffix _ _)
  · exact proceeds_malformed

/-! ### How a number starts -/

def StartsNumber (c : Char) : Prop := c = '-' ∨ isDigit c = true

theorem startsNumber_of_digits {cs ds rest : List Char} (read : digits cs = .ok (ds, rest)) :
    ∃ c after, cs = c :: after ∧ StartsNumber c := by
  cases cs with
  | nil => cases read
  | cons c after =>
    refine ⟨c, after, rfl, .inr ?_⟩
    by_contra other
    rw [digits, List.takeWhile_cons_of_neg other] at read
    cases read

theorem startsNumber_of_numeral {cs rest : List Char} {n : Numeral}
    (read : numeral cs = .ok (n, rest)) : ∃ c after, cs = c :: after ∧ StartsNumber c := by
  unfold numeral at read
  split at read
  rename_i parted
  split at parted
  · exact ⟨'-', _, rfl, .inl rfl⟩
  · cases parted
    obtain ⟨⟨whole, after⟩, readWhole, _⟩ := bind_eq_ok.mp read
    unfold wholePart at readWhole
    split at readWhole
    · exact ⟨'0', _, rfl, .inr rfl⟩
    · exact startsNumber_of_digits readWhole

theorem StartsNumber.not_mem {c : Char} (starts : StartsNumber c) :
    c ∉ [' ', '\t', '\n', '\r', '"', '[', ']', '{', '}', 't', 'f', 'n', '\uFEFF'] := by
  intro member
  have digits : ∀ d ∈ [' ', '\t', '\n', '\r', '"', '[', ']', '{', '}', 't', 'f', 'n', '\uFEFF'],
      isDigit d = false := by simp [isDigit]
  rcases starts with rfl | digit
  · exact absurd member (by decide)
  · rw [digits c member] at digit
    cases digit

theorem skipBlanks_of_numeral {cs rest : List Char} {n : Numeral}
    (read : numeral cs = .ok (n, rest)) : skipBlanks cs = cs := by
  obtain ⟨c, after, rfl, starts⟩ := startsNumber_of_numeral read
  have other := starts.not_mem
  simp only [List.mem_cons, not_or] at other
  rw [skipBlanks, List.dropWhile_cons_of_neg (by simp [isBlank, other])]

/-- Where a numeral stands, a number is read. -/
theorem value_of_numeral {cs here rest : List Char} {n : Numeral} (fuel : Nat)
    (place : skipBlanks cs = here) (read : numeral here = .ok (n, rest)) :
    value (fuel + 1) cs = number here := by
  obtain ⟨c, after, rfl, starts⟩ := startsNumber_of_numeral read
  have other := starts.not_mem
  rw [value, place]
  split
  case h_8 => rfl
  case h_1 same => cases same
  all_goals
    rename_i same
    cases same
    simp at other

/-! ### Values -/

theorem numberRange_of_value {n : Numeral} {failure : Failure} (failed : n.value = .error failure) :
    failure = .numberRange := by
  have float (failed : n.float = .error failure) : failure = .numberRange := by
    unfold Numeral.float at failed
    dsimp only at failed
    split at failed <;> cases failed
    rfl
  unfold Numeral.value at failed
  dsimp only at failed
  split at failed
  · split at failed <;> split at failed
    · cases failed
    · exact float failed
    · cases failed
    · exact float failed
  · exact float failed

theorem proceeds_number (cs : List Char) : Proceeds valueRefusals cs (number cs) := by
  refine (proceeds_numeral cs).ofToken.bind fun n rest _ => ?_
  dsimp only
  cases held : n.value with
  | ok v => exact .ok (List.suffix_refl _)
  | error failure =>
    rw [numberRange_of_value held]
    exact .error (by simp [valueRefusals])

/-- The three readers hand each other less fuel, so they are followed together along it. -/
theorem proceeds_read (fuel : Nat) :
    (∀ cs, Proceeds valueRefusals cs (value fuel cs)) ∧
    (∀ cs, Proceeds valueRefusals cs (items fuel cs)) ∧
    (∀ cs, Proceeds valueRefusals cs (members fuel cs)) := by
  induction fuel with
  | zero => exact ⟨fun _ => proceeds_malformed.ofToken, fun _ => proceeds_malformed.ofToken,
      fun _ => proceeds_malformed.ofToken⟩
  | succ fuel ih =>
    obtain ⟨ofValue, ofItems, ofMembers⟩ := ih
    refine ⟨fun cs => ?_, fun cs => ?_, fun cs => ?_⟩
    · rw [value]
      split
      case h_1 => exact proceeds_malformed.ofToken
      case h_2 found =>
        exact ((proceeds_stringToken _).ofToken.map fun _ _ => rfl).trans
          (suffix_of_skipBlanks found)
      case h_3 found =>
        split
        · rename_i closed
          exact .ok ((suffix_of_skipBlanks closed).trans (suffix_of_skipBlanks found))
        · exact ((ofItems _).map fun _ _ => rfl).trans
            ((skipBlanks_suffix _).trans (suffix_of_skipBlanks found))
      case h_4 found =>
        split
        · rename_i closed
          exact .ok ((suffix_of_skipBlanks closed).trans (suffix_of_skipBlanks found))
        · exact ((ofMembers _).map fun _ _ => rfl).trans
            ((skipBlanks_suffix _).trans (suffix_of_skipBlanks found))
      case h_8 => exact (proceeds_number _).trans (skipBlanks_suffix cs)
      all_goals
        rename_i found
        exact (proceeds_keyword _ _ _).ofToken.trans (found ▸ skipBlanks_suffix cs)
    · rw [items]
      refine (ofValue cs).bind fun item rest _ => ?_
      dsimp only
      split
      · rename_i comma
        exact ((ofItems _).map fun _ _ => rfl).trans (suffix_of_skipBlanks comma)
      · rename_i closed
        exact .ok (suffix_of_skipBlanks closed)
      · exact proceeds_malformed.ofToken
    · rw [members]
      split
      · rename_i quote
        refine ((proceeds_stringToken _).ofToken.bind fun name rest _ => ?_).trans
          (suffix_of_skipBlanks quote)
        dsimp only
        split
        · rename_i colon
          refine ((ofValue _).bind fun held rest _ => ?_).trans (suffix_of_skipBlanks colon)
          dsimp only
          split
          · rename_i comma
            exact ((ofMembers _).map fun _ _ => rfl).trans (suffix_of_skipBlanks comma)
          · rename_i closed
            exact .ok (suffix_of_skipBlanks closed)
          · exact proceeds_malformed.ofToken
        · exact proceeds_malformed.ofToken
      · exact proceeds_malformed.ofToken

/-! ### Without fuel -/

theorem length_lt_of_skipBlanks {c : Char} {cs rest : List Char}
    (found : skipBlanks cs = c :: rest) : rest.length < cs.length := by
  have whole := (skipBlanks_suffix cs).length_le
  rw [found, List.length_cons] at whole
  omega

theorem bind_congr_ok {α β : Type} {x : Except Failure α} {f g : α → Except Failure β}
    (same : ∀ a, x = .ok a → f a = g a) : (x >>= f) = (x >>= g) := by
  cases x with
  | error failure => rfl
  | ok a => exact same a rfl

/-- Two units of fuel for each character, and a few more, are as good as any amount. -/
theorem read_succ (fuel : Nat) :
    (∀ cs, 2 * cs.length + 1 ≤ fuel → value (fuel + 1) cs = value fuel cs) ∧
    (∀ cs, 2 * cs.length + 2 ≤ fuel → items (fuel + 1) cs = items fuel cs) ∧
    (∀ cs, 2 * cs.length + 2 ≤ fuel → members (fuel + 1) cs = members fuel cs) := by
  induction fuel with
  | zero => exact ⟨fun cs enough => by omega, fun cs enough => by omega, fun cs enough => by omega⟩
  | succ fuel ih =>
    obtain ⟨ofValue, ofItems, ofMembers⟩ := ih
    refine ⟨fun cs enough => ?_, fun cs enough => ?_, fun cs enough => ?_⟩
    · rw [value, value]
      split
      case h_3 rest found =>
        have shorter := length_lt_of_skipBlanks found
        split
        · rfl
        · have inside := (skipBlanks_suffix rest).length_le
          rw [ofItems _ (by omega)]
      case h_4 rest found =>
        have shorter := length_lt_of_skipBlanks found
        split
        · rfl
        · have inside := (skipBlanks_suffix rest).length_le
          rw [ofMembers _ (by omega)]
      all_goals rfl
    · -- the first item is given the whole text, so items need one unit more than a value
      rw [items, items, ofValue cs (by omega)]
      apply bind_congr_ok
      rintro ⟨item, rest⟩ read
      have left := (((proceeds_read fuel).1 cs).leaves _ _ read).length_le
      dsimp only
      split
      · rename_i comma
        have shorter := length_lt_of_skipBlanks comma
        rw [ofItems _ (by omega)]
      all_goals rfl
    · rw [members, members]
      split
      · rename_i quote
        have shorter := length_lt_of_skipBlanks quote
        apply bind_congr_ok
        rintro ⟨name, rest⟩ token
        have left := ((proceeds_stringToken _).leaves _ _ token).length_le
        dsimp only
        split
        · rename_i colon
          have further := length_lt_of_skipBlanks colon
          rw [ofValue _ (by omega)]
          apply bind_congr_ok
          rintro ⟨held, last⟩ read
          have leftLast := (((proceeds_read fuel).1 _).leaves _ _ read).length_le
          dsimp only
          split
          · rename_i comma
            have last := length_lt_of_skipBlanks comma
            rw [ofMembers _ (by omega)]
          all_goals rfl
        · rfl
      · rfl

/-- A value at the front of a text. -/
def readValue (cs : List Char) : Step (Taken Json) := value (2 * cs.length + 1) cs

/-- The items of a list, from its first item on. -/
def readItems (cs : List Char) : Step (Taken (List Json)) := items (2 * cs.length + 2) cs

/-- The members of an object, from its first member on. -/
def readMembers (cs : List Char) : Step (Taken (List (String × Json))) :=
  members (2 * cs.length + 2) cs

theorem value_eq_readValue {fuel : Nat} {cs : List Char} (enough : 2 * cs.length + 1 ≤ fuel) :
    value fuel cs = readValue cs := by
  induction enough with
  | refl => rfl
  | step enough ih => rw [(read_succ _).1 cs enough, ih]

theorem items_eq_readItems {fuel : Nat} {cs : List Char} (enough : 2 * cs.length + 2 ≤ fuel) :
    items fuel cs = readItems cs := by
  induction enough with
  | refl => rfl
  | step enough ih => rw [(read_succ _).2.1 cs enough, ih]

theorem members_eq_readMembers {fuel : Nat} {cs : List Char} (enough : 2 * cs.length + 2 ≤ fuel) :
    members fuel cs = readMembers cs := by
  induction enough with
  | refl => rfl
  | step enough ih => rw [(read_succ _).2.2 cs enough, ih]

theorem proceeds_readValue (cs : List Char) : Proceeds valueRefusals cs (readValue cs) :=
  (proceeds_read _).1 cs

theorem readValue_list {cs rest : List Char} (opened : skipBlanks cs = '[' :: rest)
    (filled : ∀ after, skipBlanks rest ≠ ']' :: after) :
    readValue cs =
      (readItems (skipBlanks rest)).map fun (items, rest) => (.array items, rest) := by
  have shorter := length_lt_of_skipBlanks opened
  have within := (skipBlanks_suffix rest).length_le
  rw [readValue, value]
  split
  case h_3 found =>
    rw [opened] at found
    cases found
    split
    · rename_i closed
      exact absurd closed (filled _)
    · rw [items_eq_readItems (by omega)]
  case h_8 other _ _ _ _ => exact absurd opened (other _)
  all_goals
    rename_i found
    rw [opened] at found
    cases found

theorem readValue_object {cs rest : List Char} (opened : skipBlanks cs = '{' :: rest)
    (filled : ∀ after, skipBlanks rest ≠ '}' :: after) :
    readValue cs =
      (readMembers (skipBlanks rest)).map fun (pairs, rest) => (record pairs, rest) := by
  have shorter := length_lt_of_skipBlanks opened
  have within := (skipBlanks_suffix rest).length_le
  rw [readValue, value]
  split
  case h_4 found =>
    rw [opened] at found
    cases found
    split
    · rename_i closed
      exact absurd closed (filled _)
    · rw [members_eq_readMembers (by omega)]
  case h_8 other _ _ _ => exact absurd opened (other _)
  all_goals
    rename_i found
    rw [opened] at found
    cases found

section
variable {cs rest after held last others : List Char} {name : String} {v : Json} {failure : Failure}

theorem readItems_of_error (failed : readValue cs = .error failure) :
    readItems cs = .error failure := by
  rw [readItems, items, value_eq_readValue (Nat.le_refl _), failed]
  rfl

theorem readItems_later (first : readValue cs = .ok (v, rest))
    (comma : skipBlanks rest = ',' :: after) :
    readItems cs = (readItems after).map fun (others, rest) => (v :: others, rest) := by
  have left := ((proceeds_readValue cs).leaves _ _ first).length_le
  have shorter := length_lt_of_skipBlanks comma
  have later : items (2 * cs.length + 1) after = readItems after := items_eq_readItems (by omega)
  rw [readItems, items, value_eq_readValue (Nat.le_refl _), first, bind_ok]
  dsimp only
  rw [comma, ← later]
  rfl

theorem readItems_last (first : readValue cs = .ok (v, rest))
    (closed : skipBlanks rest = ']' :: after) : readItems cs = .ok ([v], after) := by
  rw [readItems, items, value_eq_readValue (Nat.le_refl _), first, bind_ok]
  dsimp only
  rw [closed]
  rfl

theorem readMembers_named (quote : skipBlanks cs = '"' :: rest)
    (named : stringToken rest = .ok (name, after)) (colon : skipBlanks after = ':' :: held) :
    readMembers cs = (readValue held >>= fun (v, rest) =>
      match skipBlanks rest with
      | ',' :: rest =>
        (members (2 * cs.length + 1) rest).map fun (others, rest) => ((name, v) :: others, rest)
      | '}' :: rest => .ok ([(name, v)], rest)
      | _ => malformed) := by
  have shorter := length_lt_of_skipBlanks quote
  have left := ((proceeds_stringToken _).leaves _ _ named).length_le
  have further := length_lt_of_skipBlanks colon
  have first : value (2 * cs.length + 1) held = readValue held := value_eq_readValue (by omega)
  rw [readMembers, members, quote]
  change (stringToken rest >>= _) = _
  rw [named, bind_ok]
  dsimp only
  rw [colon, ← first]
  rfl

variable (quote : skipBlanks cs = '"' :: rest) (named : stringToken rest = .ok (name, after))
  (colon : skipBlanks after = ':' :: held)
include quote named colon

theorem readMembers_of_error (failed : readValue held = .error failure) :
    readMembers cs = .error failure := by
  rw [readMembers_named quote named colon, failed]
  rfl

theorem readMembers_later (first : readValue held = .ok (v, last))
    (comma : skipBlanks last = ',' :: others) :
    readMembers cs = (readMembers others).map fun (more, rest) => ((name, v) :: more, rest) := by
  have shorter := length_lt_of_skipBlanks quote
  have left := ((proceeds_stringToken _).leaves _ _ named).length_le
  have further := length_lt_of_skipBlanks colon
  have leftLast := ((proceeds_readValue _).leaves _ _ first).length_le
  have least := length_lt_of_skipBlanks comma
  have later : members (2 * cs.length + 1) others = readMembers others :=
    members_eq_readMembers (by omega)
  rw [readMembers_named quote named colon, first, bind_ok]
  dsimp only
  rw [comma, ← later]
  rfl

theorem readMembers_last (first : readValue held = .ok (v, last))
    (closed : skipBlanks last = '}' :: others) : readMembers cs = .ok ([(name, v)], others) := by
  rw [readMembers_named quote named colon, first, bind_ok]
  dsimp only
  rw [closed]
  rfl

end

/-- The text of a value, without the mark that may stand in front of it. -/
def body (text : String) : List Char :=
  match text.toList with
  | '\uFEFF' :: rest => rest
  | cs => cs

theorem parse_eq (text : String) :
    parse text = (readValue (body text) >>= fun (result, rest) =>
      if ended rest then .ok result else malformed) :=
  rfl

end VesselRelay.Json
