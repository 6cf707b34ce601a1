import VesselRelay.Proofs.Comparison
import VesselRelay.Proofs.Grammar

/-!
What is written is read back. A written value spells what it was written from, and what is spelled
is read; so the fields, their names and their order are compared with the grammar and never with
the reader.
-/
namespace VesselRelay
namespace Message

/-- The value of the last field with a name. -/
def last? (name : String) : Message → Option Value
  | [] => none
  | (field, value) :: rest =>
    (last? name rest).or (if field.name = name then some value else none)

/-- Of several writes to a name the last one stays; a member that no field names stays as well. -/
theorem find?_writeOnto (name : String) (members : Json.Members) (fields : Message) :
    Json.find? name (writeOnto members fields) =
      ((last? name fields).map Value.toJson).or (Json.find? name members) := by
  induction fields generalizing members with
  | nil => simp [writeOnto, last?]
  | cons written rest ih =>
    obtain ⟨field, value⟩ := written
    rw [writeOnto, ih]
    by_cases same : field.name = name
    · subst same
      rw [Json.find?_insert_self, last?, if_pos rfl]
      cases last? field.name rest <;> rfl
    · rw [Json.find?_insert_of_ne _ _ same, last?, if_neg same, Option.or_none]

theorem member?_toJson (name : String) (fields : Message) :
    (toJson fields).member? name = (last? name fields).map Value.toJson := by
  rw [toJson, Json.member?, find?_writeOnto]
  exact Option.or_none

theorem elementsToJson_eq (elements : List Message) :
    elementsToJson elements = elements.map toJson := by
  induction elements with
  | nil => rfl
  | cons fields rest ih =>
    rw [elementsToJson, ih]
    rfl

end Message

/-- Fields that come after those of a position leave it spelled as long as they are not named like
its own. -/
theorem Position.spelledBy_append (p : Position) {others : Message}
    (latitude : Message.last? "latitude" others = none)
    (longitude : Message.last? "longitude" others = none) :
    p.SpelledBy (Message.toJson (p.message ++ others)) := by
  constructor
  · rw [Message.member?_toJson]
    simp [message, Message.last?, Wire.latitude, Wire.longitude, latitude, Message.Value.toJson,
      Json.number?]
  · rw [Message.member?_toJson]
    simp [message, Message.last?, Wire.longitude, longitude, Message.Value.toJson, Json.number?]

theorem Position.spelledBy_message (p : Position) : p.SpelledBy p.message.toJson :=
  spelledBy_append p (rfl : Message.last? _ [] = none) rfl

theorem Fix.spelledBy_message (fix : Fix) : fix.SpelledBy fix.message.toJson := by
  constructor
  · apply Position.spelledBy_append <;> simp [Message.last?, Wire.time]
  · right
    rw [Message.member?_toJson]
    simp [message, Position.message, Message.last?, Wire.time, Message.Value.toJson]

theorem Circle.spelledBy_message (c : Circle) : c.SpelledBy c.message.toJson := by
  constructor
  · refine ⟨c.center.message.toJson, ?_, c.center.spelledBy_message⟩
    rw [Message.member?_toJson]
    simp [message, Message.last?, Wire.center, Wire.radius, Wire.coordinateSystem,
      Message.Value.toJson, Message.toJson]
  · rw [Message.member?_toJson]
    simp [message, Message.last?, Wire.radius, Wire.coordinateSystem, Message.Value.toJson,
      Json.number?]
  · rw [Message.member?_toJson, DistanceModel.spelledBy_iff]
    right
    simp [message, Message.last?, Wire.coordinateSystem, Message.Value.toJson]

theorem Rectangle.spelledBy_message (r : Rectangle) : r.SpelledBy r.message.toJson := by
  constructor
  · refine ⟨r.northWest.message.toJson, ?_, r.northWest.spelledBy_message⟩
    rw [Message.member?_toJson]
    simp [message, Message.last?, Wire.topLeft, Wire.bottomRight, Message.Value.toJson,
      Message.toJson]
  · refine ⟨r.southEast.message.toJson, ?_, r.southEast.spelledBy_message⟩
    rw [Message.member?_toJson]
    simp [message, Message.last?, Wire.bottomRight, Message.Value.toJson, Message.toJson]

theorem Polygon.spelledBy_message (g : Polygon) : g.SpelledBy g.message.toJson := by
  refine ⟨(g.points.map Position.message).map Message.toJson, ?_, ?_⟩
  · rw [Message.member?_toJson, ← Message.elementsToJson_eq]
    simp [message, Message.last?, Wire.points, Message.Value.toJson]
  · induction g.points with
    | nil => exact .nil
    | cons p rest ih => exact .cons p.spelledBy_message ih

namespace Area

theorem spelledBy_shape (s : Shape) : SpelledBy (.shape s) s.message.toJson := by
  cases s with
  | circle c =>
    refine .circle ?_ c.spelledBy_message
    rw [Message.member?_toJson]
    simp [Shape.message, Message.last?, Wire.circle, Message.Value.toJson, Message.toJson]
  | rectangle r =>
    refine .box ?_ ?_ r.spelledBy_message <;> rw [Message.member?_toJson] <;>
      simp [Shape.message, Message.last?, Wire.box, Message.Value.toJson, Message.toJson]
  | polygon g =>
    refine .polygon ?_ ?_ ?_ g.spelledBy_message <;> rw [Message.member?_toJson] <;>
      simp [Shape.message, Message.last?, Wire.polygon, Message.Value.toJson, Message.toJson]

mutual

theorem spelledBy_message (a : Area) : SpelledBy a a.message.toJson := by
  cases a with
  | shape s => exact spelledBy_shape s
  | union members =>
    refine .areas ?_ ?_ ?_ ?_ (spelledByAll_messages members) <;> rw [Message.member?_toJson] <;>
      simp [message, Message.last?, Wire.areas, Message.Value.toJson, Message.elementsToJson_eq]

theorem spelledByAll_messages (members : List Area) :
    SpelledByAll members ((messages members).map Message.toJson) := by
  cases members with
  | nil => exact .nil
  | cons a rest => exact .cons (spelledBy_message a) (spelledByAll_messages rest)

end

end Area

/-- Reading undoes writing: areas of any shape and depth, positions, and fixes of any time come back
as they were, down to the sign of a zero, and equal to themselves. -/
theorem reading_undoes_writing :
    (∀ a : Area, Area.ofJson a.message.toJson = .ok a ∧ a == a) ∧
    (∀ p : Position, Position.ofJson p.message.toJson = .ok p ∧ p == p) ∧
    (∀ fix : Fix, Fix.ofJson fix.message.toJson = .ok fix ∧ fix == fix) := by
  refine ⟨?_, ?_, ?_⟩
  · intro a
    exact ⟨Area.ofJson_of_spelledBy a.spelledBy_message, BEq.rfl⟩
  · intro p
    exact ⟨Position.ofJson_eq_ok.mpr p.spelledBy_message, BEq.rfl⟩
  · intro fix
    exact ⟨Fix.ofJson_of_spelledBy fix.spelledBy_message, BEq.rfl⟩

end VesselRelay
