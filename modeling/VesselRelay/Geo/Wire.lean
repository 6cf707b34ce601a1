import VesselRelay.Geo.Area
import VesselRelay.Geo.Fix
import VesselRelay.Json.Parser
import VesselRelay.Json.Printer
import VesselRelay.Message.Basic
import VesselRelay.Message.Reading

/-!
Positions, fixes and areas as messages. An area carries one of four fields, looked for in a fixed
order: a circle, a box, a polygon or a list of areas. A reader passes over every field it does not
know. What it has read it checks itself before the constructor checks it again, so that a refusal is
a fault of the encoding and never one of an argument.
-/
namespace VesselRelay
namespace Wire

def latitude : Field := ⟨1, "latitude"⟩
def longitude : Field := ⟨2, "longitude"⟩
def time : Field := ⟨3, "time"⟩
def center : Field := ⟨1, "center"⟩
def radius : Field := ⟨2, "radius"⟩
def coordinateSystem : Field := ⟨3, "coordinateSystem"⟩
def topLeft : Field := ⟨1, "topLeft"⟩
def bottomRight : Field := ⟨2, "bottomRight"⟩
def points : Field := ⟨1, "points"⟩
def circle : Field := ⟨1, "circle"⟩
def box : Field := ⟨2, "box"⟩
def polygon : Field := ⟨3, "polygon"⟩
def areas : Field := ⟨4, "areas"⟩

end Wire

open Json (decodeFault)

def Position.message (p : Position) : Message :=
  [(Wire.latitude, .double p.latitude), (Wire.longitude, .double p.longitude)]

def Position.ofJson (source : Json) : Except Failure Position := do
  let latitude ← source.readDouble Wire.latitude
  let longitude ← source.readDouble Wire.longitude
  if ValidLatitude latitude ∧ ValidLongitude longitude then Position.make latitude longitude
  else decodeFault (.positionRange latitude longitude)

def Fix.message (fix : Fix) : Message :=
  fix.position.message ++ [(Wire.time, .int64 fix.time)]

/-- A fix without a time is of the epoch. -/
def Fix.ofJson (source : Json) : Except Failure Fix := do
  let position ← Position.ofJson source
  return ⟨position, ← source.readInt64Or Wire.time 0⟩

def DistanceModel.code : DistanceModel → Int32
  | .cartesian => 0
  | .geodesic => 1

def DistanceModel.ofCode (code : Int32) : Except Failure DistanceModel :=
  if code = 0 then .ok .cartesian
  else if code = 1 then .ok .geodesic
  else decodeFault (.coordinateSystem code.toInt)

/-- The model that a circle names; one that names none is measured by the cartesian one. -/
def DistanceModel.ofJson (source : Json) : Except Failure DistanceModel := do
  if source.carries Wire.coordinateSystem then
    ofCode (← source.readInt32 Wire.coordinateSystem)
  else return .cartesian

def Circle.message (c : Circle) : Message :=
  [(Wire.center, .message c.center.message), (Wire.radius, .double c.radius),
   (Wire.coordinateSystem, .int32 c.model.code)]

def Circle.ofJson (source : Json) : Except Failure Circle := do
  let center ← source.readMessageAs Position.ofJson Wire.center
  let radius ← source.readDouble Wire.radius
  if 0.0 < radius then Circle.make center radius (← DistanceModel.ofJson source)
  else decodeFault (.circleRadius radius)

def Rectangle.message (r : Rectangle) : Message :=
  [(Wire.topLeft, .message r.northWest.message), (Wire.bottomRight, .message r.southEast.message)]

def Rectangle.ofJson (source : Json) : Except Failure Rectangle := do
  let northWest ← source.readMessageAs Position.ofJson Wire.topLeft
  let southEast ← source.readMessageAs Position.ofJson Wire.bottomRight
  if Rectangle.Ordered northWest southEast then Rectangle.make northWest southEast
  else decodeFault .rectangleInverted

def Polygon.message (g : Polygon) : Message :=
  [(Wire.points, .list (g.points.map Position.message))]

def Polygon.ofJson (source : Json) : Except Failure Polygon := do
  let points ← (← source.readList Wire.points).mapM Position.ofJson
  if 3 ≤ points.length then Polygon.make points
  else decodeFault (.polygonSize points.length)

def Shape.message : Shape → Message
  | .circle c => [(Wire.circle, .message c.message)]
  | .rectangle r => [(Wire.box, .message r.message)]
  | .polygon g => [(Wire.polygon, .message g.message)]

namespace Area

mutual

def message : Area → Message
  | .shape s => s.message
  | .union members => [(Wire.areas, .list (messages members))]

def messages : List Area → List Message
  | [] => []
  | a :: rest => message a :: messages rest

end

theorem sizeOf_readList {source : Json} {field : Field} {items : List Json}
    (read : source.readList field = .ok items) : sizeOf items < sizeOf source := by
  cases source with
  | object members =>
    simp only [Json.readList, Json.field] at read
    cases found : Json.find? field.name members with
    | none => simp [found, decodeFault, bind, Except.bind] at read
    | some value =>
      have smaller := Json.sizeOf_find? found
      cases value <;> simp [found, decodeFault, bind, Except.bind, pure, Except.pure] at read
      subst read
      simp at smaller ⊢
      omega
  | _ => simp [Json.readList, Json.field, decodeFault, bind, Except.bind] at read

mutual

/-- Reads an area by the first of the four fields that the message carries. -/
def ofJson (source : Json) : Except Failure Area :=
  if source.carries Wire.circle then do
    return .shape (.circle (← source.readMessageAs Circle.ofJson Wire.circle))
  else if source.carries Wire.box then do
    return .shape (.rectangle (← source.readMessageAs Rectangle.ofJson Wire.box))
  else if source.carries Wire.polygon then do
    return .shape (.polygon (← source.readMessageAs Polygon.ofJson Wire.polygon))
  else if source.carries Wire.areas then
    match _read : source.readList Wire.areas with
    | .error failure => .error failure
    | .ok items => (ofJsonAll items).map .union
  else decodeFault .unknownShape
termination_by sizeOf source
decreasing_by exact sizeOf_readList _read

def ofJsonAll : List Json → Except Failure (List Area)
  | [] => .ok []
  | item :: rest => do
    let area ← ofJson item
    return area :: (← ofJsonAll rest)
termination_by items => sizeOf items

end

end Area

def Position.json (p : Position) : String := p.message.toJson.print

def Fix.json (fix : Fix) : String := fix.message.toJson.print

def Area.json (a : Area) : String := a.message.toJson.print

def Position.decode (text : String) : Except Failure Position := Json.parse text >>= Position.ofJson

def Fix.decode (text : String) : Except Failure Fix := Json.parse text >>= Fix.ofJson

def Area.decode (text : String) : Except Failure Area := Json.parse text >>= Area.ofJson

end VesselRelay
