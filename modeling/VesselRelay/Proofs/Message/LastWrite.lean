import VesselRelay.Proofs.Message.InPlace
import VesselRelay.Proofs.RoundTrip

/-!
A message that is written is a record in which the last write to a name wins. Each reader gives back
the last value that was written under a name in its kind, nested messages and the elements of lists
are such records in their turn, and what no field names is left as it was.
-/
namespace VesselRelay.Message

/-- The fields of a message have a name. -/
def Names (fields : Message) (name : String) : Prop := ∃ written ∈ fields, written.1.name = name

mutual

/-- Whether the reader of a value's kind, whatever number the field goes by, gives the value that is
written under a name. -/
inductive ReadsAs : Json → String → Value → Prop
  | int32 {source : Json} {name : String} {n : Int32}
      (read : ∀ tag, source.readInt32 ⟨tag, name⟩ = .ok n) : ReadsAs source name (.int32 n)
  | int64 {source : Json} {name : String} {n : Int64}
      (read : ∀ tag, source.readInt64 ⟨tag, name⟩ = .ok n)
      (optional : ∀ tag fallback, source.readInt64Or ⟨tag, name⟩ fallback = .ok n) :
      ReadsAs source name (.int64 n)
  | double {source : Json} {name : String} {x : Float}
      (read : ∀ tag, source.readDouble ⟨tag, name⟩ = .ok x) : ReadsAs source name (.double x)
  | message {source nested : Json} {name : String} {fields : Message}
      (read : ∀ tag, source.readMessage ⟨tag, name⟩ = .ok nested)
      (inside : Records nested (.object []) fields) : ReadsAs source name (.message fields)
  | list {source : Json} {name : String} {items : List Json} {elements : List Message}
      (read : ∀ tag, source.readList ⟨tag, name⟩ = .ok items)
      (inside : List.Forall₂ (fun item fields => Records item (.object []) fields) items elements) :
      ReadsAs source name (.list elements)

/-- Whether a value is the record that fields make of another value. -/
inductive Records : Json → Json → Message → Prop
  | intro {source target : Json} {fields : Message}
      (object : ∃ members, source = .object members)
      (last : ∀ name value, last? name fields = some value → ReadsAs source name value)
      (carries : ∀ field, source.carries field ↔ Names fields field.name ∨ target.carries field)
      (kept : ∀ name, ¬ Names fields name → source.member? name = target.member? name) :
      Records source target fields

end

/-! ### The last value under a name -/

theorem last?_eq_none_iff {name : String} {fields : Message} :
    last? name fields = none ↔ ¬ Names fields name := by
  induction fields with
  | nil => simp [last?, Names]
  | cons written rest ih =>
    obtain ⟨field, value⟩ := written
    simp only [Names] at ih
    by_cases same : field.name = name <;> simp [last?, Names, same, ih]

theorem isSome_last? {name : String} {fields : Message} :
    (last? name fields).isSome ↔ Names fields name := by
  rw [Option.isSome_iff_ne_none, Ne, last?_eq_none_iff, not_not]

theorem sizeOf_last? {name : String} {fields : Message} {value : Value}
    (last : last? name fields = some value) : sizeOf value < sizeOf fields := by
  induction fields with
  | nil => cases last
  | cons written rest ih =>
    obtain ⟨field, first⟩ := written
    rw [last?] at last
    rcases Option.or_eq_some_iff.mp last with later | ⟨_, here⟩
    · have := ih later
      simp only [List.cons.sizeOf_spec]
      omega
    · obtain ⟨_, same⟩ := Option.ite_none_right_eq_some.mp here
      cases same
      simp only [List.cons.sizeOf_spec, Prod.mk.sizeOf_spec]
      omega

/-- What is no object counts as an empty one. -/
theorem find?_startingMembers (name : String) (target : Json) :
    Json.find? name (startingMembers target) = target.member? name := by
  cases target <;> rfl

theorem member?_writeInto (name : String) (target : Json) (fields : Message) :
    (writeInto target fields).member? name =
      ((last? name fields).map Value.toJson).or (target.member? name) := by
  rw [writeInto, Json.member?, find?_writeOnto, find?_startingMembers]

/-! ### Reading the record -/

theorem ofInt_toInt_int32 (n : Int32) : Int64.ofInt n.toInt = n.toInt64 := by
  have low := n.le_toInt
  have high := n.toInt_lt
  rw [← Int64.toInt_inj, Int32.toInt_toInt64, Int64.toInt_ofInt_of_le (by omega) (by omega)]

-- A message is read by way of the last value under each name, which is no part of it by its shape
-- alone: the recursion is on its size.
mutual

theorem readsAs_of_member? {source : Json} {name : String} (value : Value)
    (found : source.member? name = some value.toJson) : ReadsAs source name value := by
  cases value with
  | int32 n =>
    exact .int32 fun tag => Json.readInt32_eq_ok.mpr ⟨_, found, ofInt_toInt_int32 n⟩
  | int64 n =>
    refine .int64 (fun tag => Json.readInt64_eq_ok.mpr ?_) fun tag fallback =>
      Json.readInt64Or_eq_ok.mpr (.inr ?_)
    all_goals exact ⟨_, found, Int64.ofInt_toInt n⟩
  | double x =>
    refine .double fun tag => Json.readDouble_eq_ok.mpr ?_
    rw [found]
    rfl
  | message fields =>
    exact .message (fun tag => Json.readMessage_eq_ok.mpr ⟨found, _, rfl⟩)
      (records_writeInto (.object []) fields)
  | list elements =>
    exact .list (fun tag => Json.readList_eq_ok.mpr found) (records_elementsToJson elements)
termination_by sizeOf value

theorem records_writeInto (target : Json) (fields : Message) :
    Records (writeInto target fields) target fields := by
  refine .intro ⟨_, rfl⟩ (fun name value last => ?_) (fun field => ?_) fun name unnamed => ?_
  · refine readsAs_of_member? value ?_
    rw [member?_writeInto, last]
    rfl
  · rw [Json.carries_eq, Json.carries_eq, member?_writeInto, Option.isSome_or, Bool.or_eq_true,
      Option.isSome_map, isSome_last?]
  · rw [member?_writeInto, last?_eq_none_iff.mpr unnamed]
    rfl
termination_by sizeOf fields
decreasing_by exact sizeOf_last? last

theorem records_elementsToJson (elements : List Message) :
    List.Forall₂ (fun item fields => Records item (.object []) fields) (elementsToJson elements)
      elements := by
  match elements with
  | [] => exact .nil
  | fields :: rest =>
    exact .cons (records_writeInto (.object []) fields) (records_elementsToJson rest)
termination_by sizeOf elements

end

/-- What a writer leaves in a tree: where it stands, it has filled the tree with a record of its
fields. -/
structure LastWins (target : Json) (fields : Message) : Prop where
  filled : fill [] fields (.object (startingMembers target)) = some (writeInto target fields)
  records : Records (writeInto target fields) target fields

/-- Whatever fields are written, into a fresh object or onto any value, the last write to a name is
the one that is read, at every depth. -/
theorem lastWins (target : Json) (fields : Message) : LastWins target fields :=
  ⟨fill_writeInto target fields, records_writeInto target fields⟩

end VesselRelay.Message
