import VesselRelay.Message.Basic

/-!
Writing in place. A writer holds a place in a tree and puts each field under its name there; the
writer of a nested message holds a place of its own, below, in the same tree, which is filled while
the outer writer waits. Every write finds an object at its place, and what is left of it all is the
object that the fields are written onto.
-/
namespace VesselRelay

namespace Json

/-- Changes the first value under a name, where there is one. -/
def amend (change : Json → Option Json) (name : String) : Members → Option Members
  | [] => none
  | (key, value) :: rest =>
    if key = name then (change value).map fun changed => (key, changed) :: rest
    else (amend change name rest).map ((key, value) :: ·)

/-- Changes the value at a place in a tree, which is told by the names on the way down. -/
def alter (change : Json → Option Json) : List String → Json → Option Json
  | [], value => change value
  | name :: rest, .object members => (amend (alter change rest) name members).map .object
  | _ :: _, _ => none

/-- Puts a value under a name in an object. What is no object takes none. -/
def put (name : String) (value : Json) : Json → Option Json
  | .object members => some (.object (insert name value members))
  | _ => none

theorem amend_bind (first next : Json → Option Json) (name : String) (members : Members) :
    (amend first name members).bind (amend next name) =
      amend (fun value => (first value).bind next) name members := by
  induction members with
  | nil => rfl
  | cons member rest ih =>
    obtain ⟨key, value⟩ := member
    by_cases same : key = name
    · simp only [amend, if_pos same]
      cases first value <;> simp [amend, same]
    · simp only [amend, if_neg same, ← ih]
      cases amend first name rest <;> simp [amend, same]

/-- A value that has just been put under a name is the one that is changed there. -/
theorem amend_insert (change : Json → Option Json) (name : String) (value : Json)
    (members : Members) :
    amend change name (insert name value members) =
      (change value).map fun changed => insert name changed members := by
  induction members with
  | nil => simp [insert, amend]
  | cons member rest ih =>
    obtain ⟨key, old⟩ := member
    by_cases same : key = name
    · simp [insert, amend, same]
    · by_cases less : name < key
      · simp [insert, amend, same, less]
      · simp [insert, amend, same, less, ih, Function.comp_def]

/-- What is below a place is changed from there. -/
theorem alter_append (change : Json → Option Json) (place below : List String) (root : Json) :
    alter change (place ++ below) root = alter (alter change below) place root := by
  induction place generalizing root with
  | nil => rfl
  | cons name rest ih =>
    have same : alter change (rest ++ below) = alter (alter change below) rest := funext ih
    cases root <;> simp [alter, same]

/-- Changes at one place are one change. -/
theorem alter_bind (first next : Json → Option Json) (place : List String) (root : Json) :
    (alter first place root).bind (alter next place) =
      alter (fun value => (first value).bind next) place root := by
  induction place generalizing root with
  | nil => rfl
  | cons name rest ih =>
    have same : alter (fun value => (first value).bind next) rest =
        fun inner => (alter first rest inner).bind (alter next rest) := (funext ih).symm
    cases root with
    | object members =>
      simp only [alter, same, ← amend_bind]
      cases amend (alter first rest) name members <;> rfl
    | _ => rfl

/-- What is put under a name and changed there might have been put there changed. -/
theorem put_bind_alter (change : Json → Option Json) (name : String) (value : Json)
    (place : List String) (root : Json) :
    (root.alter (put name value) place).bind (alter change (place ++ [name])) =
      root.alter (fun target => (change value).bind fun changed => put name changed target)
        place := by
  have below : alter change (place ++ [name]) = alter (alter change [name]) place :=
    funext (alter_append change place [name])
  rw [below, alter_bind]
  refine congrArg (alter · place root) (funext fun target => ?_)
  cases target with
  | object members =>
    simp only [put, Option.bind_some, alter, amend_insert]
    cases change value <;> rfl
  | _ => cases change value <;> rfl

end Json

namespace Message
open Json (alter put)

mutual

/-- Puts a value under a name at a place. A nested message is begun empty and then filled where it
stands; the elements of a list are filled aside. -/
def Value.putAt (place : List String) (name : String) : Value → Json → Option Json
  | .int32 n, root => root.alter (put name (.int n.toInt)) place
  | .int64 n, root => root.alter (put name (.int n.toInt)) place
  | .double x, root => root.alter (put name (.float x)) place
  | .message fields, root =>
    (root.alter (put name (.object [])) place).bind (fill (place ++ [name]) fields)
  | .list elements, root =>
    (fillEach elements).bind fun items => root.alter (put name (.array items)) place

/-- Puts fields at a place, one after the other. -/
def fill (place : List String) : List (Field × Value) → Json → Option Json
  | [], root => some root
  | (field, value) :: rest, root =>
    (value.putAt place field.name root).bind (fill place rest)

def fillEach : List (List (Field × Value)) → Option (List Json)
  | [] => some []
  | fields :: rest =>
    (fill [] fields (.object [])).bind fun item => (fillEach rest).map (item :: ·)

end

/-- Writes fields onto an object; what is no object takes none, and no fields either. -/
def inscribe (fields : Message) : Json → Option Json
  | .object members => some (.object (writeOnto members fields))
  | _ => none

theorem put_bind_inscribe (field : Field) (value : Value) (rest : Message) (target : Json) :
    (put field.name value.toJson target).bind (inscribe rest) =
      inscribe ((field, value) :: rest) target := by
  cases target <;> rfl

/-- Where a value has been put there is an object. -/
theorem object_of_put {name : String} {value root filled : Json} {place : List String}
    (written : root.alter (put name value) place = some filled) :
    filled.alter (inscribe []) place = some filled := by
  have settled : (fun target => (put name value target).bind (inscribe [])) = put name value := by
    funext target
    cases target <;> rfl
  calc filled.alter (inscribe []) place
      = (root.alter (put name value) place).bind (alter (inscribe []) place) := by rw [written]; rfl
    _ = root.alter (put name value) place := by rw [Json.alter_bind, settled]
    _ = some filled := written

/-- Where a nested message has been begun it may be filled, and that is as if it had been put there
as a whole. -/
theorem put_filled (name : String) (fields : Message) (place : List String) (root : Json) :
    (root.alter (put name (.object [])) place).bind (alter (inscribe fields) (place ++ [name])) =
      root.alter (put name (.object (writeOnto [] fields))) place :=
  Json.put_bind_alter (inscribe fields) name (.object []) place root

mutual

theorem putAt_eq (place : List String) (name : String) (value : Value) (root : Json) :
    value.putAt place name root = root.alter (put name value.toJson) place := by
  cases value with
  | int32 | int64 | double => rfl
  | message fields =>
    rw [Value.putAt, Value.toJson, ← put_filled]
    cases begun : root.alter (put name (.object [])) place with
    | none => rfl
    | some opened =>
      have object := put_filled name [] place root
      rw [writeOnto, begun] at object
      exact fill_eq fields object
  | list elements =>
    rw [Value.putAt, fillEach_eq elements]
    rfl

theorem fill_eq (fields : Message) {place : List String} {root : Json}
    (object : root.alter (inscribe []) place = some root) :
    fill place fields root = root.alter (inscribe fields) place := by
  match fields with
  | [] => exact object.symm
  | (field, value) :: rest =>
    have whole : inscribe ((field, value) :: rest) =
        fun target => (put field.name value.toJson target).bind (inscribe rest) :=
      funext fun target => (put_bind_inscribe field value rest target).symm
    rw [fill, putAt_eq place field.name value root, whole, ← Json.alter_bind]
    cases written : root.alter (put field.name value.toJson) place with
    | none => rfl
    | some filled => exact fill_eq rest (object_of_put written)

theorem fillEach_eq (elements : List Message) :
    fillEach elements = some (elementsToJson elements) := by
  match elements with
  | [] => rfl
  | fields :: rest =>
    rw [fillEach, fill_eq fields rfl, fillEach_eq rest]
    rfl

end

/-- A writer that fills a tree from its root leaves what the fields make of the members it begins
with. -/
theorem fill_writeInto (target : Json) (fields : Message) :
    fill [] fields (.object (startingMembers target)) = some (writeInto target fields) :=
  fill_eq fields rfl

end Message
end VesselRelay
