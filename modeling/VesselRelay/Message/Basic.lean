import VesselRelay.Json.Basic
import VesselRelay.Message.Field

/-!
A message is a row of fields: whole numbers, doubles, nested messages and lists of messages. Writing
it into a JSON object is a row of assignments, so the last of several writes to a name is the one
that stays.
-/
namespace VesselRelay

inductive Message.Value where
  | int32 (value : Int32)
  | int64 (value : Int64)
  | double (value : Float)
  | message (fields : List (Field × Message.Value))
  | list (elements : List (List (Field × Message.Value)))

/-- The fields of a message in the order in which they are written. -/
abbrev Message := List (Field × Message.Value)

namespace Message

mutual

/-- The JSON value that stands for a field's value. -/
def Value.toJson : Value → Json
  | .int32 n => .int n.toInt
  | .int64 n => .int n.toInt
  | .double x => .float x
  | .message fields => .object (writeOnto [] fields)
  | .list elements => .array (elementsToJson elements)

/-- Writes fields into the members of an object, one after the other. -/
def writeOnto (members : Json.Members) : List (Field × Value) → Json.Members
  | [] => members
  | (field, value) :: rest => writeOnto (Json.insert field.name value.toJson members) rest

def elementsToJson : List (List (Field × Value)) → List Json
  | [] => []
  | fields :: rest => .object (writeOnto [] fields) :: elementsToJson rest

end

/-- The object of a message. -/
def toJson (fields : Message) : Json := .object (writeOnto [] fields)

/-- The members that a writer starts from: those of an object, and none for any other value. -/
def startingMembers : Json → Json.Members
  | .object members => members
  | _ => []

/-- Writes a message onto an existing value. -/
def writeInto (target : Json) (fields : Message) : Json :=
  .object (writeOnto (startingMembers target) fields)

end Message
end VesselRelay
