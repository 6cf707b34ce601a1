import VesselRelay.Binary64.Parts
import VesselRelay.Failure
import VesselRelay.Json.Basic

/-!
Reading fields out of a JSON value. A field that is absent or of another type is a decode fault that
names it. A whole number is read exactly where its type holds it; an unsigned one above the signed
range wraps.
-/
namespace VesselRelay.Json

/-- Whether a message carries a field; what is no object carries none. -/
def carries (source : Json) (field : Field) : Bool :=
  match source with
  | .object members => (find? field.name members).isSome
  | _ => false

def decodeFault {α : Type} (fault : DecodeFault) : Except Failure α := .error (.decode fault)

/-- The value of a field. -/
def field (source : Json) (field : Field) : Except Failure Json :=
  match source with
  | .object members =>
    match find? field.name members with
    | some value => .ok value
    | none => decodeFault (.missing field)
  | _ => decodeFault (.notObject field)

def readInt64 (source : Json) (field : Field) : Except Failure Int64 := do
  match ← source.field field with
  | .int n => return Int64.ofInt n
  | _ => decodeFault (.notInteger field)

def readInt64Or (source : Json) (field : Field) (fallback : Int64) : Except Failure Int64 :=
  if source.carries field then source.readInt64 field else return fallback

def readInt32 (source : Json) (field : Field) : Except Failure Int32 := do
  let value ← source.readInt64 field
  if value < Int32.minValue.toInt64 ∨ Int32.maxValue.toInt64 < value then
    decodeFault (.tooWide field value.toInt)
  else return value.toInt32

/-- A double, or the one nearest to a whole number. -/
def readDouble (source : Json) (field : Field) : Except Failure Float := do
  match ← source.field field with
  | .float x => return x
  | .int n => return Binary64.ofInt n
  | _ => decodeFault (.notNumber field)

/-- The nested message of a field. -/
def readMessage (source : Json) (field : Field) : Except Failure Json := do
  match ← source.field field with
  | .object members => return .object members
  | _ => decodeFault (.notMessage field)

/-- What the nested message of a field stands for. -/
def readMessageAs {α : Type} (read : Json → Except Failure α) (source : Json) (field : Field) :
    Except Failure α := do
  read (← source.readMessage field)

/-- The elements of a field that is a list. They may be anything; reading a field of one that is no
object fails. -/
def readList (source : Json) (field : Field) : Except Failure (List Json) := do
  match ← source.field field with
  | .array items => return items
  | _ => decodeFault (.notList field)

end VesselRelay.Json
