import VesselRelay.Relay

/-!
Which targets near a requester offer an endpoint. With the position of a sender the nearest come
first and the radius is heeded; without one the registry's own order stands. The requester itself is
never among them.
-/
namespace VesselRelay

structure LocateRequest where
  endpoint : String
  /-- Metres; without one, or with one that is not positive, any distance will do. -/
  radius : Option Int32
  /-- Without a limit, or with one that is not positive, all are given. -/
  limit : Option Int32
  sender : Option Position

structure Located where
  id : Identifier
  fix : Fix
  /-- The distance to the sender, where there is one. -/
  distance : Option Float
  deriving DecidableEq

namespace LocateRequest

/-- The greatest finite double, which stands for no limit. -/
def unbounded : Float := Float.ofBits 0x7FEFFFFFFFFFFFFF

def reach (request : LocateRequest) : Float :=
  match request.radius with
  | some radius => if 0 < radius then Binary64.ofInt radius.toInt else unbounded
  | none => unbounded

/-- What a target that offers the endpoint comes to, unless it is out of reach. -/
def place? [Trigonometry] (request : LocateRequest) (t : Target) (fix : Fix) : Option Located :=
  match request.sender with
  | none => some ⟨t.id, fix, none⟩
  | some sender =>
    let distance := fix.position.geodesicDistance sender
    if distance ≤ request.reach then some ⟨t.id, fix, some distance⟩ else none

def cut (request : LocateRequest) (located : List Located) : List Located :=
  match request.limit with
  | some limit => if 0 < limit then located.take limit.toInt.toNat else located
  | none => located

end LocateRequest

namespace Located

/-- Whether one may stand before another: the other is not nearer. -/
def notAfter (a b : Located) : Bool :=
  match a.distance, b.distance with
  | some x, some y => !decide (y < x)
  | _, _ => true

end Located

namespace Registry

/-- The targets that answer a request, the nearest first, equal ones in the order of the
registry. -/
def findServices [Trigonometry] (r : Registry) (requester : Identifier) (request : LocateRequest) :
    List Located :=
  let hits := r.sightings.filterMap fun (t, fix) =>
    if t.id = requester || !t.offers request.endpoint then none else request.place? t fix
  request.cut (if request.sender.isSome then hits.mergeSort Located.notAfter else hits)

end Registry

namespace Relay

/-- The identifiers that answer a request, as texts. -/
def locate [Trigonometry] (requester : Identifier) (request : LocateRequest) :
    StateM Relay (List String) :=
  fun relay =>
    let ids := (relay.registry.findServices requester request).map (·.id.text)
    (ids, relay.log .debug
      [("component", .string "locator"), ("requester", .string requester.text),
       ("endpoint", .string request.endpoint), ("positioned", .bool request.sender.isSome),
       ("results", .int ids.length)])

/-! ### The endpoint service -/

/-- An operation of the service, which takes no empty name. -/
abbrev Service := ExceptT Failure (StateM Relay)

def requireName (name : String) : Service Unit := do
  if name.isEmpty then throw (.argument .emptyEndpoint)

def endpointEvent (event : String) (id : Identifier) (name : String) (changed : Bool) :
    List (String × Json) :=
  [("component", .string "endpoints"), ("event", .string event), ("target", .string id.text),
   ("endpoint", .string name), ("changed", .bool changed)]

def offer (id : Identifier) (name : String) : Service Unit := do
  requireName name
  let added ← (register id name : StateM Relay Bool)
  modify (log .debug (endpointEvent "register" id name added))

def withdraw (id : Identifier) (name : String) : Service Unit := do
  requireName name
  let removed ← (unregister id name : StateM Relay Bool)
  modify (log .debug (endpointEvent "unregister" id name removed))

def request [Trigonometry] (requester : Identifier) (request : LocateRequest) :
    Service (List String) := do
  requireName request.endpoint
  (locate requester request : StateM Relay (List String))

end Relay
end VesselRelay
