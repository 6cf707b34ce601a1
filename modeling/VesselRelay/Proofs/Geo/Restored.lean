import VesselRelay.Proofs.RoundTrip
import VesselRelay.Proofs.Written

/-!
What comes back of an area from its own text. Printing gives every member but a radius without end,
for which there is null, and the text is then refused where that radius stands; every other area is
restored as it was. So the text of an area is either good for that area or for nothing.
-/
namespace VesselRelay

/-! ### What printing leaves of a value -/

namespace Json

theorem find?_settledMembers (name : String) (members : Members) :
    find? name (settledMembers members) = (find? name members).map settled := by
  induction members with
  | nil => rfl
  | cons member rest ih =>
    obtain ⟨key, value⟩ := member
    rw [settledMembers, find?, find?]
    split
    · rfl
    · exact ih

theorem member?_settled (name : String) (source : Json) :
    source.settled.member? name = (source.member? name).map settled := by
  cases source with
  | object members => exact find?_settledMembers name members
  | float x =>
    rw [settled]
    split <;> rfl
  | _ => rfl

theorem number?_settled {source : Json} {x : Float} (held : source.number? = some x)
    (finite : x.isFinite) : source.settled.number? = some x := by
  cases source with
  | float y =>
    cases held
    rw [settled, if_pos finite]
    rfl
  | int n => exact held
  | _ => cases held

theorem number?_member?_settled {name : String} {source : Json} {x : Float}
    (held : (source.member? name).bind number? = some x) (finite : x.isFinite) :
    (source.settled.member? name).bind number? = some x := by
  obtain ⟨value, found, number⟩ := Option.bind_eq_some_iff.mp held
  rw [member?_settled, found]
  exact number?_settled number finite

theorem settledItems_eq (items : List Json) : settledItems items = items.map settled := by
  induction items with
  | nil => rfl
  | cons item rest ih => rw [settledItems, List.map_cons, ih]

end Json

/-! ### Areas with their radii -/

namespace Binary64

theorem isFinite_iff_place {x : Float} :
    x.isFinite = true ↔ ∃ a, place x = some a ∧ -2 < a.1 ∧ a.1 < 2 := by
  change x.toModel.unpack.isFinite = true ↔ ∃ a, rank x.toModel.unpack = some a ∧ _
  rcases x.toModel.unpack with (_ | _) | _ | (_ | _) | ⟨_ | _, m, e, _⟩ <;>
    simp [Float.Model.UnpackedFloat.isFinite, rank]

/-- What stands between two finite doubles is one. -/
theorem isFinite_of_between {low high x : Float} (above : low ≤ x) (below : x ≤ high)
    (lowFinite : low.isFinite) (highFinite : high.isFinite) : x.isFinite := by
  rw [isFinite_iff_place] at *
  rw [le_iff] at above below
  obtain ⟨a, placeA, lowA, _⟩ := lowFinite
  obtain ⟨c, placeC, _, highC⟩ := highFinite
  obtain ⟨a', b, left, place, notBelow⟩ := above
  obtain ⟨b', c', right, last, notAbove⟩ := below
  obtain rfl : a = a' := by simpa [placeA] using left
  obtain rfl : b = b' := by simpa [place] using right
  obtain rfl : c = c' := by simpa [placeC] using last
  refine ⟨b, place, ?_⟩
  simp only [RankLt] at notBelow notAbove
  omega

end Binary64

theorem Position.isFinite_latitude (p : Position) : p.latitude.isFinite :=
  Binary64.isFinite_of_between p.validLatitude.1 p.validLatitude.2 (by decide) (by decide)

theorem Position.isFinite_longitude (p : Position) : p.longitude.isFinite :=
  Binary64.isFinite_of_between p.validLongitude.1 p.validLongitude.2 (by decide) (by decide)

theorem Position.SpelledBy.settled {p : Position} {source : Json} (spelled : p.SpelledBy source) :
    p.SpelledBy source.settled where
  latitude := Json.number?_member?_settled spelled.latitude p.isFinite_latitude
  longitude := Json.number?_member?_settled spelled.longitude p.isFinite_longitude

/-- A nested message is still there, settled. -/
theorem settled_node {name : String} {source : Json} {P Q : Json → Prop}
    (each : ∀ node, P node → Q node.settled)
    (held : ∃ node, source.member? name = some node ∧ P node) :
    ∃ node, source.settled.member? name = some node ∧ Q node := by
  obtain ⟨node, found, holds⟩ := held
  refine ⟨node.settled, ?_, each node holds⟩
  rw [Json.member?_settled, found, Option.map_some]

theorem DistanceModel.SpelledBy.settled {model : DistanceModel} {node : Option Json}
    (spelled : model.SpelledBy node) : model.SpelledBy (node.map Json.settled) := by
  cases spelled with
  | absent => exact .absent
  | cartesian => exact .cartesian
  | geodesic => exact .geodesic

theorem Circle.SpelledBy.settled {c : Circle} {source : Json} (finite : c.radius.isFinite)
    (spelled : c.SpelledBy source) : c.SpelledBy source.settled where
  center := settled_node (fun _ => Position.SpelledBy.settled) spelled.center
  radius := Json.number?_member?_settled spelled.radius finite
  model := Json.member?_settled "coordinateSystem" source ▸ spelled.model.settled

theorem Rectangle.SpelledBy.settled {r : Rectangle} {source : Json} (spelled : r.SpelledBy source) :
    r.SpelledBy source.settled where
  northWest := settled_node (fun _ => Position.SpelledBy.settled) spelled.northWest
  southEast := settled_node (fun _ => Position.SpelledBy.settled) spelled.southEast

theorem Polygon.SpelledBy.settled {g : Polygon} {source : Json} (spelled : g.SpelledBy source) :
    g.SpelledBy source.settled := by
  obtain ⟨items, found, each⟩ := spelled
  refine ⟨items.map Json.settled, ?_, ?_⟩
  · rw [Json.member?_settled, found, Option.map_some, Json.settled, Json.settledItems_eq]
  · rw [List.forall₂_map_left_iff]
    exact each.imp fun _ _ => Position.SpelledBy.settled

namespace Area

/-- Whether every circle of an area has a radius that is a number. -/
def Bounded (a : Area) : Prop := ∀ c, Shape.circle c ∈ a.leaves → c.radius.isFinite

mutual

theorem SpelledBy.settled {a : Area} {source : Json} (bounded : a.Bounded) :
    SpelledBy a source → SpelledBy a source.settled
  | .circle found spelled => by
    have finite := bounded _ (List.mem_singleton_self _)
    exact .circle (by rw [Json.member?_settled, found]; rfl) (spelled.settled finite)
  | .box noCircle found spelled => by
    refine .box ?_ ?_ spelled.settled <;> rw [Json.member?_settled]
    · rw [noCircle]; rfl
    · rw [found]; rfl
  | .polygon noCircle noBox found spelled => by
    refine .polygon ?_ ?_ ?_ spelled.settled <;> rw [Json.member?_settled]
    · rw [noCircle]; rfl
    · rw [noBox]; rfl
    · rw [found]; rfl
  | .areas noCircle noBox noPolygon found spelled => by
    refine .areas ?_ ?_ ?_ ?_ (spelled.settled bounded) <;> rw [Json.member?_settled]
    · rw [noCircle]; rfl
    · rw [noBox]; rfl
    · rw [noPolygon]; rfl
    · rw [found, Option.map_some, Json.settled, Json.settledItems_eq]

theorem SpelledByAll.settled {members : List Area} {items : List Json}
    (bounded : (union members).Bounded) :
    SpelledByAll members items → SpelledByAll members (items.map Json.settled)
  | .nil => .nil
  | .cons head tail => by
    refine .cons (head.settled fun c member => ?_) (tail.settled fun c member => ?_)
    · exact bounded c (List.mem_append_left _ member)
    · exact bounded c (List.mem_append_right _ member)

end

end Area

/-! ### Radii without end -/

/-- The refusal of an area whose text has lost a radius. -/
def noRadius : Failure := .decode (.notNumber Wire.radius)

/-- A radius that is no number is printed as null, and null is no radius. -/
theorem Circle.ofJson_settled_message {c : Circle} (infinite : ¬ c.radius.isFinite) :
    ofJson c.message.toJson.settled = .error noRadius := by
  have center : c.message.toJson.settled.readMessageAs Position.ofJson Wire.center = .ok c.center :=
    Position.readMessageAs_eq_ok.mpr
      (settled_node (fun _ => Position.SpelledBy.settled) c.spelledBy_message.center)
  have radius : c.message.toJson.settled.field Wire.radius = .ok .null := by
    rw [Json.field_eq_ok, Json.member?_settled, Message.member?_toJson]
    simp [message, Message.last?, Wire.radius, Wire.coordinateSystem, Message.Value.toJson,
      Json.settled, infinite]
  rw [ofJson, center, bind_ok, Json.readDouble, radius]
  rfl

namespace Area

theorem bounded_cons {a : Area} {rest : List Area} :
    (union (a :: rest)).Bounded ↔ a.Bounded ∧ (union rest).Bounded := by
  simp only [Bounded, leaves, leavesOf, List.mem_append]
  constructor
  · intro bounded
    exact ⟨fun c leaf => bounded c (.inl leaf), fun c leaf => bounded c (.inr leaf)⟩
  · rintro ⟨first, others⟩ c (leaf | leaf)
    · exact first c leaf
    · exact others c leaf

mutual

/-- The first radius without end, from the left, fails the whole area. -/
theorem ofJson_settled_message (a : Area) (unbounded : ¬ a.Bounded) :
    ofJson a.message.toJson.settled = .error noRadius := by
  match a with
  | .shape (.circle c) =>
    have infinite : ¬ c.radius.isFinite := by
      intro finite
      apply unbounded
      intro d leaf
      cases List.mem_singleton.mp leaf
      exact finite
    have found : (Shape.circle c).message.toJson.settled.member? "circle" =
        some c.message.toJson.settled := by
      rw [Json.member?_settled, Message.member?_toJson]
      simp [Shape.message, Message.last?, Wire.circle, Message.Value.toJson, Message.toJson]
    have node : (Shape.circle c).message.toJson.settled.readMessage Wire.circle =
        .ok c.message.toJson.settled :=
      Json.readMessage_eq_ok.mpr ⟨found, _, rfl⟩
    rw [message, ofJson_eq, found, Option.isSome_some, if_pos rfl, Json.readMessageAs, node,
      bind_ok, Circle.ofJson_settled_message infinite]
    rfl
  | .shape (.rectangle r) =>
    exact absurd (fun c leaf => by cases List.mem_singleton.mp leaf) unbounded
  | .shape (.polygon g) =>
    exact absurd (fun c leaf => by cases List.mem_singleton.mp leaf) unbounded
  | .union members =>
    have absent (name : String) (other : name ≠ "areas") :
        (union members).message.toJson.settled.member? name = none := by
      rw [Json.member?_settled, Message.member?_toJson]
      simp [message, Message.last?, Wire.areas, other.symm]
    have items : (union members).message.toJson.settled.readList Wire.areas =
        .ok ((messages members).map fun fields => fields.toJson.settled) := by
      rw [Json.readList_eq_ok, Json.member?_settled, Message.member?_toJson]
      simp [message, Message.last?, Wire.areas, Message.Value.toJson, Message.elementsToJson_eq,
        Json.settled, Json.settledItems_eq]
    have carried := Json.readList_eq_ok.mp items
    rw [ofJson_eq, absent "circle" (by decide), absent "box" (by decide),
      absent "polygon" (by decide), show "areas" = Wire.areas.name from rfl, carried, items,
      bind_ok, ofJsonAll_settled_messages members unbounded]
    rfl

theorem ofJsonAll_settled_messages (members : List Area) (unbounded : ¬ (union members).Bounded) :
    ofJsonAll ((messages members).map fun fields => fields.toJson.settled) = .error noRadius := by
  match members with
  | [] => exact absurd (fun c leaf => by cases leaf) unbounded
  | a :: rest =>
    rw [messages, List.map_cons, ofJsonAll_cons]
    -- members before the first that is not bounded are read as they were
    by_cases bounded : a.Bounded
    · have others : ¬ (union rest).Bounded := fun held =>
        unbounded (bounded_cons.mpr ⟨bounded, held⟩)
      rw [ofJson_of_spelledBy (a.spelledBy_message.settled bounded), bind_ok,
        ofJsonAll_settled_messages rest others]
      rfl
    · rw [ofJson_settled_message a bounded]
      rfl

end

/-- An area comes back from its text, as it was and equal to itself, unless a circle in it has a
radius without end; its text is then refused. -/
theorem decode_json (a : Area) :
    (a.Bounded → decode a.json = .ok a ∧ a == a) ∧
      (¬ a.Bounded → decode a.json = .error (.decode (.notNumber Wire.radius))) := by
  have read : decode a.json = ofJson a.message.toJson.settled := by
    rw [decode, json, Message.parse_print_toJson, bind_ok]
  rw [read]
  constructor
  · intro bounded
    exact ⟨ofJson_of_spelledBy (a.spelledBy_message.settled bounded), BEq.rfl⟩
  · exact ofJson_settled_message a

/-- Both answers, for areas that differ in one radius. -/
theorem decode_json_nested :
    let corner : Position := ⟨-0.0, 0.1, by decide +kernel, by decide +kernel⟩
    let buoy : Area := .shape (.circle ⟨corner, 0.1, .geodesic, by decide +kernel⟩)
    let ocean : Area := .shape (.circle ⟨corner, 1.0 / 0.0, .cartesian, by decide +kernel⟩)
    let near : Area := .union [.union [], .union [buoy], buoy]
    let far : Area := .union [near, ocean]
    (near.Bounded ∧ decode near.json = .ok near ∧ near == near) ∧
      (¬ far.Bounded ∧ decode far.json = .error (.decode (.notNumber Wire.radius))) := by
  intro corner buoy ocean near far
  have bounded : near.Bounded := by
    intro c leaf
    simp only [near, buoy, leaves, leavesOf, List.append_nil, List.nil_append, List.mem_append,
      List.mem_singleton, Shape.circle.injEq, or_self] at leaf
    subst leaf
    decide +kernel
  have unbounded : ¬ far.Bounded := by
    intro held
    have finite := held ⟨corner, 1.0 / 0.0, .cartesian, by decide +kernel⟩
      (by simp [far, ocean, leaves, leavesOf])
    revert finite
    decide +kernel
  exact ⟨⟨bounded, (decode_json near).1 bounded⟩, unbounded, (decode_json far).2 unbounded⟩

/-- The circle that holds the whole globe is a circle, but its text is none. -/
theorem endless_radius_lost :
    let center : Position := ⟨10.0, 20.0, by decide +kernel, by decide +kernel⟩
    let globe : Circle := ⟨center, 1.0 / 0.0, .cartesian, by decide +kernel⟩
    Circle.make center (1.0 / 0.0) .cartesian = .ok globe ∧
      ¬ ∃ back, decode (Area.shape (.circle globe)).json = .ok back ∧
        back == Area.shape (.circle globe) := by
  intro center globe
  refine ⟨dif_pos globe.positive, ?_⟩
  rintro ⟨back, restored, _⟩
  have unbounded : ¬ (Area.shape (.circle globe)).Bounded := by
    intro held
    have finite := held globe (List.mem_singleton_self _)
    revert finite
    decide +kernel
  rw [decode, json, Message.parse_print_toJson, bind_ok,
    ofJson_settled_message _ unbounded] at restored
  cases restored

end Area

end VesselRelay
