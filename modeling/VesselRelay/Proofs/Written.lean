import VesselRelay.Message.Basic
import VesselRelay.Proofs.Json.Printed

/-!
What is written can be read: the object that a message is written into has its members in order and
whole numbers of 64 bits only, at every depth, so parsing gives it back from its text.
-/
namespace VesselRelay

namespace Json

theorem mem_insert {name : String} {value : Json} {members : Members} {member : String × Json}
    (held : member ∈ insert name value members) : member = (name, value) ∨ member ∈ members := by
  induction members with
  | nil => exact .inl (List.mem_singleton.mp held)
  | cons first rest ih =>
    obtain ⟨key, old⟩ := first
    simp only [insert] at held
    split at held
    · rcases List.mem_cons.mp held with same | later
      · exact .inl same
      · exact .inr (List.mem_cons_of_mem _ later)
    · split at held
      · exact List.mem_cons.mp held
      · rcases List.mem_cons.mp held with same | later
        · exact .inr (same ▸ List.mem_cons_self)
        · exact (ih later).imp_right (List.mem_cons_of_mem _)

/-- Putting a member in keeps the members in order. -/
theorem pairwise_insert {name : String} {value : Json} {members : Members}
    (order : members.Pairwise (·.1 < ·.1)) : (insert name value members).Pairwise (·.1 < ·.1) := by
  induction members with
  | nil => exact List.pairwise_singleton _ _
  | cons first rest ih =>
    obtain ⟨key, old⟩ := first
    obtain ⟨before, ordered⟩ := List.pairwise_cons.mp order
    simp only [insert]
    split
    · rename_i same
      exact List.pairwise_cons.mpr ⟨fun member held => same ▸ before member held, ordered⟩
    · rename_i apart
      split
      · rename_i less
        refine List.pairwise_cons.mpr ⟨fun member held => ?_, order⟩
        rcases List.mem_cons.mp held with rfl | later
        · exact less
        · exact String.lt_trans less (before member later)
      · rename_i notLess
        refine List.pairwise_cons.mpr ⟨fun member held => ?_, ih ordered⟩
        rcases mem_insert held with rfl | later
        · exact lt_of_le_of_ne (not_lt.mp notLess) apart
        · exact before member later

theorem membersInOrder_insert {name : String} {value : Json} {members : Members}
    (valueOrder : value.InOrder) (order : MembersInOrder members) :
    MembersInOrder (insert name value members) := by
  induction members with
  | nil => exact ⟨valueOrder, trivial⟩
  | cons first rest ih =>
    obtain ⟨key, old⟩ := first
    simp only [insert]
    split
    · exact ⟨valueOrder, order.2⟩
    · split
      · exact ⟨valueOrder, order⟩
      · exact ⟨order.1, ih order.2⟩

end Json

namespace Message

mutual

theorem wordSized_toJson (value : Value) : value.toJson.wordSized := by
  cases value with
  | int32 n =>
    have low := n.le_toInt
    have high := n.toInt_lt
    simp only [Value.toJson, Json.wordSized, decide_eq_true_eq]
    omega
  | int64 n =>
    have low := n.le_toInt
    have high := n.toInt_lt
    simp only [Value.toJson, Json.wordSized, decide_eq_true_eq]
    omega
  | double x => rfl
  | message fields => exact wordSized_writeOnto fields rfl
  | list elements => exact wordSized_elementsToJson elements

theorem wordSized_writeOnto (fields : Message) {members : Json.Members}
    (sized : Json.membersWordSized members) : Json.membersWordSized (writeOnto members fields) := by
  match fields with
  | [] => exact sized
  | (field, value) :: rest =>
    exact wordSized_writeOnto rest (Json.wordSized_insert (wordSized_toJson value) sized)

theorem wordSized_elementsToJson (elements : List Message) :
    Json.itemsWordSized (elementsToJson elements) := by
  match elements with
  | [] => rfl
  | fields :: rest =>
    have first : Json.membersWordSized (writeOnto [] fields) := wordSized_writeOnto fields rfl
    have others := wordSized_elementsToJson rest
    simp [elementsToJson, Json.itemsWordSized, Json.wordSized, first, others]

end

mutual

theorem inOrder_toJson (value : Value) : value.toJson.InOrder := by
  cases value with
  | int32 | int64 | double => trivial
  | message fields =>
    exact ⟨pairwise_writeOnto fields .nil, membersInOrder_writeOnto fields trivial⟩
  | list elements => exact inOrder_elementsToJson elements

theorem pairwise_writeOnto (fields : Message) {members : Json.Members}
    (order : members.Pairwise (·.1 < ·.1)) : (writeOnto members fields).Pairwise (·.1 < ·.1) := by
  match fields with
  | [] => exact order
  | (field, value) :: rest => exact pairwise_writeOnto rest (Json.pairwise_insert order)

theorem membersInOrder_writeOnto (fields : Message) {members : Json.Members}
    (order : Json.MembersInOrder members) : Json.MembersInOrder (writeOnto members fields) := by
  match fields with
  | [] => exact order
  | (field, value) :: rest =>
    exact membersInOrder_writeOnto rest (Json.membersInOrder_insert (inOrder_toJson value) order)

theorem inOrder_elementsToJson (elements : List Message) :
    Json.ItemsInOrder (elementsToJson elements) := by
  match elements with
  | [] => trivial
  | fields :: rest =>
    exact ⟨⟨pairwise_writeOnto fields .nil, membersInOrder_writeOnto fields trivial⟩,
      inOrder_elementsToJson rest⟩

end

/-- What is written can be read, but for doubles that are no numbers. -/
theorem parse_print_toJson (fields : Message) :
    Json.parse (toJson fields).print = .ok (toJson fields).settled :=
  Json.parse_print (wordSized_writeOnto fields rfl)
    ⟨pairwise_writeOnto fields .nil, membersInOrder_writeOnto fields trivial⟩

end Message
end VesselRelay
