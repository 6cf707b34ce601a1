import VesselRelay.Json.Parser
import VesselRelay.Proofs.Reading

/-!
Whole numbers in JSON values are of 64 bits, signed or unsigned. Parsing gives no other ones, since
a numeral that is too long for them becomes a double.
-/
namespace VesselRelay.Json

mutual

/-- Whether every whole number in a value is one of 64 bits, signed or unsigned. -/
def wordSized : Json → Bool
  | .int n => decide (-2 ^ 63 ≤ n ∧ n < 2 ^ 64)
  | .array items => itemsWordSized items
  | .object members => membersWordSized members
  | _ => true

def itemsWordSized : List Json → Bool
  | [] => true
  | item :: rest => item.wordSized && itemsWordSized rest

def membersWordSized : List (String × Json) → Bool
  | [] => true
  | (_, value) :: rest => value.wordSized && membersWordSized rest

end

theorem wordSized_find? {name : String} {members : Members} {value : Json}
    (sized : membersWordSized members) (found : find? name members = some value) :
    value.wordSized := by
  induction members with
  | nil => cases found
  | cons member rest ih =>
    obtain ⟨key, held⟩ := member
    simp only [membersWordSized, Bool.and_eq_true] at sized
    simp only [find?] at found
    split at found
    · cases found
      exact sized.1
    · exact ih sized.2 found

theorem wordSized_member? {name : String} {source value : Json} (sized : source.wordSized)
    (found : source.member? name = some value) : value.wordSized := by
  cases source <;> simp only [member?, reduceCtorEq] at found
  simp only [wordSized] at sized
  exact wordSized_find? sized found

/-! ### Parsed values -/

theorem wordSized_insert {name : String} {value : Json} {members : Members}
    (sizedValue : value.wordSized) (sized : membersWordSized members) :
    membersWordSized (insert name value members) := by
  induction members with
  | nil => simp [insert, membersWordSized, sizedValue]
  | cons member rest ih =>
    obtain ⟨key, held⟩ := member
    simp only [membersWordSized, Bool.and_eq_true] at sized
    simp only [insert]
    repeat' split
    · simp [membersWordSized, sizedValue, sized.2]
    · simp [membersWordSized, sizedValue, sized.1, sized.2]
    · simp [membersWordSized, sized.1, ih sized.2]

theorem wordSized_record {pairs : List (String × Json)} (sized : membersWordSized pairs) :
    (record pairs).wordSized := by
  have assigned (members : Members) (held : membersWordSized members) : membersWordSized
      (pairs.foldl (fun members pair => insert pair.1 pair.2 members) members) := by
    induction pairs generalizing members with
    | nil => exact held
    | cons pair rest ih =>
      rw [membersWordSized, Bool.and_eq_true] at sized
      exact ih sized.2 _ (wordSized_insert sized.1 held)
  exact assigned [] rfl

theorem wordSized_float {n : Numeral} {v : Json} (given : n.float = .ok v) : v.wordSized := by
  unfold Numeral.float at given
  dsimp only at given
  split at given <;> cases given
  rfl

/-- A whole number is kept as one where 64 bits hold it. -/
theorem wordSized_numeral {n : Numeral} {v : Json} (given : n.value = .ok v) : v.wordSized := by
  unfold Numeral.value at given
  dsimp only at given
  split at given
  · split at given <;> split at given
    · rename_i small
      cases given
      simp only [wordSized, decide_eq_true_eq]
      omega
    · exact wordSized_float given
    · rename_i small
      cases given
      simp only [wordSized, decide_eq_true_eq]
      omega
    · exact wordSized_float given
  · exact wordSized_float given

theorem wordSized_number {cs rest : List Char} {v : Json} (read : number cs = .ok (v, rest)) :
    v.wordSized := by
  obtain ⟨⟨n, after⟩, _, read⟩ := bind_eq_ok.mp read
  obtain ⟨w, given, same⟩ := bind_eq_ok.mp read
  cases same
  exact wordSized_numeral given

theorem wordSized_keyword {word cs rest : List Char} {held v : Json} (sized : held.wordSized)
    (read : keyword word held cs = .ok (v, rest)) : v.wordSized := by
  unfold keyword at read
  split at read <;> cases read
  exact sized

/-- The three readers hand each other less fuel, so they are followed together along it. -/
theorem wordSized_read (fuel : Nat) :
    (∀ cs v rest, value fuel cs = .ok (v, rest) → v.wordSized) ∧
    (∀ cs vs rest, items fuel cs = .ok (vs, rest) → itemsWordSized vs) ∧
    (∀ cs pairs rest, members fuel cs = .ok (pairs, rest) → membersWordSized pairs) := by
  induction fuel with
  | zero => simp [value, items, members, malformed]
  | succ fuel ih =>
    obtain ⟨ofValue, ofItems, ofMembers⟩ := ih
    refine ⟨?_, ?_, ?_⟩
    · intro cs v rest read
      rw [value] at read
      split at read
      · cases read
      · obtain ⟨⟨token, after⟩, _, same⟩ := map_eq_ok.mp read
        cases same
        rfl
      · split at read
        · cases read
          rfl
        · obtain ⟨⟨vs, after⟩, readItems, same⟩ := map_eq_ok.mp read
          cases same
          exact ofItems _ _ _ readItems
      · split at read
        · cases read
          rfl
        · obtain ⟨⟨pairs, after⟩, readMembers, same⟩ := map_eq_ok.mp read
          cases same
          exact wordSized_record (ofMembers _ _ _ readMembers)
      · exact wordSized_keyword rfl read
      · exact wordSized_keyword rfl read
      · exact wordSized_keyword rfl read
      · exact wordSized_number read
    · intro cs vs rest read
      rw [items] at read
      obtain ⟨⟨item, after⟩, readItem, read⟩ := bind_eq_ok.mp read
      have sizedItem := ofValue _ _ _ readItem
      dsimp only at read
      split at read
      · obtain ⟨⟨others, last⟩, readOthers, same⟩ := map_eq_ok.mp read
        cases same
        simp [itemsWordSized, sizedItem, ofItems _ _ _ readOthers]
      · cases read
        simp [itemsWordSized, sizedItem]
      · cases read
    · intro cs pairs rest read
      rw [members] at read
      split at read
      · obtain ⟨⟨name, after⟩, _, read⟩ := bind_eq_ok.mp read
        dsimp only at read
        split at read
        · obtain ⟨⟨held, last⟩, readHeld, read⟩ := bind_eq_ok.mp read
          have sizedHeld := ofValue _ _ _ readHeld
          dsimp only at read
          split at read
          · obtain ⟨⟨others, last⟩, readOthers, same⟩ := map_eq_ok.mp read
            cases same
            simp [membersWordSized, sizedHeld, ofMembers _ _ _ readOthers]
          · cases read
            simp [membersWordSized, sizedHeld]
          · cases read
        · cases read
      · cases read

theorem wordSized_parse {text : String} {source : Json} (parsed : parse text = .ok source) :
    source.wordSized := by
  unfold parse at parsed
  obtain ⟨⟨result, rest⟩, read, parsed⟩ := bind_eq_ok.mp parsed
  dsimp only at parsed
  split at parsed <;> cases parsed
  exact (wordSized_read _).1 _ _ _ read

end VesselRelay.Json
