import VesselRelay.Proofs.Json.Number
import VesselRelay.Proofs.Json.Quoted
import VesselRelay.Proofs.Json.Reader
import VesselRelay.Proofs.WordSized

/-!
Parsing undoes printing. It holds of every value whose objects stand in order and whose whole
numbers have 64 bits, which is what parsing and writing messages give; only a double that is no
number cannot come back, because it is printed as null. What follows a value matters only where it
would carry on a number.
-/
namespace VesselRelay.Json

mutual

/-- A value as it comes back: a double that is no number has become null. -/
def settled : Json → Json
  | .float x => if x.isFinite then .float x else .null
  | .array items => .array (settledItems items)
  | .object members => .object (settledMembers members)
  | v => v

def settledItems : List Json → List Json
  | [] => []
  | item :: rest => item.settled :: settledItems rest

def settledMembers : Members → Members
  | [] => []
  | (name, value) :: rest => (name, value.settled) :: settledMembers rest

end

mutual

/-- Whether the members of every object in a value stand in order, each name once. -/
def InOrder : Json → Prop
  | .array items => ItemsInOrder items
  | .object members => members.Pairwise (·.1 < ·.1) ∧ MembersInOrder members
  | _ => True

def ItemsInOrder : List Json → Prop
  | [] => True
  | item :: rest => item.InOrder ∧ ItemsInOrder rest

def MembersInOrder : Members → Prop
  | [] => True
  | (_, value) :: rest => value.InOrder ∧ MembersInOrder rest

end

theorem insert_last {name : String} {value : Json} {members : Members}
    (last : ∀ member ∈ members, member.1 < name) :
    insert name value members = members ++ [(name, value)] := by
  induction members with
  | nil => rfl
  | cons member rest ih =>
    obtain ⟨key, held⟩ := member
    have before : key < name := last (key, held) List.mem_cons_self
    have apart : key ≠ name := fun same => String.lt_irrefl name (same ▸ before)
    have order : ¬ name < key := String.lt_asymm before
    have inner := ih fun member held => last member (List.mem_cons_of_mem _ held)
    rw [insert, if_neg apart, if_neg order, inner]
    rfl

/-- Members that stand in order are assigned as they stand. -/
theorem assign_of_pairwise {pairs : Members} (order : pairs.Pairwise (·.1 < ·.1)) :
    assign pairs = pairs := by
  have onto (front back : Members) (order : (front ++ back).Pairwise (·.1 < ·.1)) :
      back.foldl (fun members pair => insert pair.1 pair.2 members) front = front ++ back := by
    induction back generalizing front with
    | nil => simp
    | cons pair back ih =>
      have last : ∀ member ∈ front, member.1 < pair.1 := fun member held =>
        (List.pairwise_append.mp order).2.2 member held pair List.mem_cons_self
      rw [List.foldl_cons, insert_last last]
      have inner := ih (front ++ [pair])
      rw [List.append_assoc] at inner
      exact inner order
  exact onto [] pairs order

theorem pairwise_settledMembers {members : Members} (order : members.Pairwise (·.1 < ·.1)) :
    (settledMembers members).Pairwise (·.1 < ·.1) := by
  have names (members : Members) :
      (settledMembers members).map Prod.fst = members.map Prod.fst := by
    induction members with
    | nil => rfl
    | cons member rest ih => simp [settledMembers, ih]
  have keys := List.pairwise_map.mpr order
  rw [← names] at keys
  exact List.pairwise_map.mp keys

/-! ### The first character -/

theorem startsNumber_of_number {cs rest : List Char} {v : Json}
    (read : number cs = .ok (v, rest)) : ∃ c after, cs = c :: after ∧ StartsNumber c := by
  obtain ⟨_, readNumeral, _⟩ := bind_eq_ok.mp read
  exact startsNumber_of_numeral readNumeral

/-- A number at the front of a text is the value that is read there. -/
theorem readValue_of_number {cs rest : List Char} {v : Json} (read : number cs = .ok (v, rest)) :
    readValue cs = .ok (v, rest) := by
  obtain ⟨⟨n, last⟩, readNumeral, _⟩ := bind_eq_ok.mp read
  rw [readValue, value_of_numeral _ (skipBlanks_of_numeral readNumeral) readNumeral, read]

/-- How a value starts: with nothing that is passed over or closes a list. -/
def StartsValue (c : Char) : Prop := isBlank c = false ∧ c ≠ ']' ∧ c ≠ '\uFEFF'

theorem StartsNumber.startsValue {c : Char} (starts : StartsNumber c) : StartsValue c := by
  have other := starts.not_mem
  simp only [List.mem_cons, not_or] at other
  unfold StartsValue
  simp [isBlank, other]

theorem floatText_of_not_isFinite {x : Float} (beyond : ¬ x.isFinite) :
    floatText x = ['n', 'u', 'l', 'l'] := by
  rw [Binary64.isFinite_eq, Option.isSome_iff_ne_none, not_not] at beyond
  rw [floatText, Decimal.Layout.finite?, beyond]
  rfl

section
variable (rest : List Char)

theorem starts_printOnto {v : Json} (sized : v.wordSized) (ends : Ends rest) :
    ∃ c after, printOnto rest v = c :: after ∧ StartsValue c := by
  have plain : ∀ c ∈ ['n', 't', 'f', '"', '[', '{'], StartsValue c := by
    simp [StartsValue, isBlank]
  cases v with
  | null => exact ⟨'n', _, rfl, plain _ (by simp)⟩
  | bool b =>
    cases b with
    | false => exact ⟨'f', _, rfl, plain _ (by simp)⟩
    | true => exact ⟨'t', _, rfl, plain _ (by simp)⟩
  | int n =>
    simp only [wordSized, decide_eq_true_eq] at sized
    obtain ⟨c, after, same, starts⟩ :=
      startsNumber_of_number (number_intText sized.1 sized.2 ends)
    exact ⟨c, after, same, starts.startsValue⟩
  | float x =>
    by_cases finite : x.isFinite
    · obtain ⟨c, after, same, starts⟩ := startsNumber_of_number (number_floatText finite ends)
      exact ⟨c, after, same, starts.startsValue⟩
    · rw [printOnto, floatText_of_not_isFinite finite]
      exact ⟨'n', _, rfl, plain _ (by simp)⟩
  | string s => exact ⟨'"', _, rfl, plain _ (by simp)⟩
  | array items => exact ⟨'[', _, rfl, plain _ (by simp)⟩
  | object members => exact ⟨'{', _, rfl, plain _ (by simp)⟩

theorem skipBlanks_of_starts {c : Char} (after : List Char) (starts : StartsValue c) :
    skipBlanks (c :: after) = c :: after := by
  rw [skipBlanks, List.dropWhile_cons_of_neg (by simp [starts.1])]

/-! ### Values -/

theorem ends_of_closing {c : Char} (after : List Char) (closing : c ∈ [',', ']', '}']) :
    Ends (c :: after) := by
  intro d head
  cases head
  simp only [List.mem_cons, List.not_mem_nil, or_false] at closing
  rcases closing with rfl | rfl | rfl <;> simp [isDigit]

theorem ends_printItems (items : List Json) : Ends (printItems (']' :: rest) true items) := by
  cases items with
  | nil => exact ends_of_closing rest (by simp)
  | cons item items => exact ends_of_closing _ (by simp)

theorem ends_printMembers (members : Members) :
    Ends (printMembers ('}' :: rest) true members) := by
  cases members with
  | nil => exact ends_of_closing rest (by simp)
  | cons member members => exact ends_of_closing _ (by simp)

end

mutual

/-- A printed value is read back, whatever follows, as long as it does not carry on a number. -/
theorem readValue_printOnto (rest : List Char) (v : Json) (sized : v.wordSized)
    (order : v.InOrder) (ends : Ends rest) :
    readValue (printOnto rest v) = .ok (v.settled, rest) := by
  cases v with
  | null => rfl
  | bool b => cases b <;> rfl
  | int n =>
    simp only [wordSized, decide_eq_true_eq] at sized
    exact readValue_of_number (number_intText sized.1 sized.2 ends)
  | float x =>
    by_cases finite : x.isFinite
    · rw [settled, if_pos finite]
      exact readValue_of_number (number_floatText finite ends)
    · rw [settled, if_neg finite, printOnto, floatText_of_not_isFinite finite]
      rfl
  | string s =>
    have text : printOnto rest (.string s) = '"' :: (s.toList.flatMap escape ++ '"' :: rest) := by
      simp [printOnto, quoted]
    rw [text]
    change (stringToken _).map _ = _
    rw [stringToken_quoted]
    rfl
  | array vs =>
    cases vs with
    | nil => rfl
    | cons item others =>
      have read := readItems_printItems rest (item :: others) (List.cons_ne_nil _ _) sized order
      have first : item.wordSized := (Bool.and_eq_true _ _ ▸ sized : _ ∧ _).1
      obtain ⟨c, after, same, starts⟩ := starts_printOnto _ first (ends_printItems rest others)
      have text : printItems (']' :: rest) false (item :: others) = c :: after := same
      have here := skipBlanks_of_starts after starts
      rw [← text] at here
      have filled (closing : List Char) :
          skipBlanks (printItems (']' :: rest) false (item :: others)) ≠ ']' :: closing := by
        rw [here, text]
        rintro ⟨⟩
        exact starts.2.1 rfl
      rw [printOnto, readValue_list rfl filled, here, read]
      rfl
  | object pairs =>
    cases pairs with
    | nil => rfl
    | cons member others =>
      obtain ⟨name, held⟩ := member
      have read := readMembers_printMembers rest ((name, held) :: others)
        (List.cons_ne_nil _ _) sized order.2
      have ordered := assign_of_pairwise (pairwise_settledMembers order.1)
      have here : skipBlanks (printMembers ('}' :: rest) false ((name, held) :: others)) =
          printMembers ('}' :: rest) false ((name, held) :: others) := rfl
      rw [printOnto, readValue_object rfl (by rintro _ ⟨⟩), here, read, settled]
      simp only [Except.map, record, ordered]

theorem readItems_printItems (rest : List Char) (vs : List Json) (filled : vs ≠ [])
    (sized : itemsWordSized vs) (order : ItemsInOrder vs) :
    readItems (printItems (']' :: rest) false vs) = .ok (settledItems vs, rest) := by
  cases vs with
  | nil => exact absurd rfl filled
  | cons item others =>
    have both : item.wordSized ∧ itemsWordSized others := by
      simpa [itemsWordSized] using sized
    have text : printItems (']' :: rest) false (item :: others) =
        printOnto (printItems (']' :: rest) true others) item := rfl
    have first := readValue_printOnto _ item both.1 order.1 (ends_printItems rest others)
    rw [text]
    cases others with
    | nil => exact readItems_last first rfl
    | cons other others =>
      rw [readItems_later first rfl]
      change (readItems (printItems (']' :: rest) false (other :: others))).map _ = _
      rw [readItems_printItems rest (other :: others) (List.cons_ne_nil _ _) both.2 order.2]
      rfl

theorem readMembers_printMembers (rest : List Char) (pairs : Members) (filled : pairs ≠ [])
    (sized : membersWordSized pairs) (order : MembersInOrder pairs) :
    readMembers (printMembers ('}' :: rest) false pairs) = .ok (settledMembers pairs, rest) := by
  match pairs, filled with
  | [], filled => exact absurd rfl filled
  | (name, held) :: others, _ =>
    have both : held.wordSized ∧ membersWordSized others := by
      simpa [membersWordSized] using sized
    have text : printMembers ('}' :: rest) false ((name, held) :: others) =
        '"' :: (name.toList.flatMap escape ++
          '"' :: ':' :: printOnto (printMembers ('}' :: rest) true others) held) := by
      simp [printMembers, quoted]
    have named := stringToken_quoted name
      (':' :: printOnto (printMembers ('}' :: rest) true others) held)
    have first := readValue_printOnto _ held both.1 order.1 (ends_printMembers rest others)
    rw [text]
    cases others with
    | nil => exact readMembers_last rfl named rfl first rfl
    | cons other others =>
      rw [readMembers_later rfl named rfl first rfl]
      change (readMembers (printMembers ('}' :: rest) false (other :: others))).map _ = _
      rw [readMembers_printMembers rest (other :: others) (List.cons_ne_nil _ _) both.2 order.2]
      rfl

end

/-- Parsing undoes printing. Doubles that are no numbers come back as null; nothing else is
changed. -/
theorem parse_print {v : Json} (sized : v.wordSized) (order : v.InOrder) :
    parse v.print = .ok v.settled := by
  have ends : Ends [] := by
    intro c head
    cases head
  obtain ⟨c, after, same, starts⟩ := starts_printOnto [] sized ends
  have unmarked : body v.print = printOnto [] v := by
    rw [body, print, String.toList_ofList, same]
    split
    · rename_i mark
      cases mark
      exact absurd rfl starts.2.2
    · rfl
  rw [parse_eq, unmarked, readValue_printOnto [] v sized order ends]
  rfl

end VesselRelay.Json
