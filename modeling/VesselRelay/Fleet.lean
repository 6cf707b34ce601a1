import VesselRelay.Connection.Link
import VesselRelay.Geo.Sampling
import VesselRelay.Locator
import VesselRelay.Random.Identifier
import VesselRelay.Random.Source

/-!
A simulated fleet on a relay. Each vessel has a connection and dead-reckons from its departure; a
round moves the fleet, disconnects the vessels that have left the area, answers one request and
sweeps the registry.
-/
namespace VesselRelay

/-- The one listener of a vessel's connection, which enters its lifecycle in the journal. -/
inductive SessionLog where
  | mk
  deriving DecidableEq

structure Vessel where
  link : Link SessionLog
  /-- The fix that the vessel dead-reckons from. -/
  departure : Fix
  course : Float
  knots : Float

structure FleetSettings where
  shards : Nat
  /-- Seconds after which a target that is not connected is swept. -/
  timeout : Float
  vessels : Nat
  /-- Metres. -/
  radius : Float

structure Fleet where
  settings : FleetSettings
  relay : Relay
  area : Area
  vessels : List Vessel
  random : RandomSource
  running : Bool

namespace Fleet

/-- The center of the area of operation. -/
def harbour : Position := ⟨55.6920, 12.6010, by decide +kernel, by decide +kernel⟩

/-- The endpoint that every vessel offers. -/
def endpoint : String := "ais"

def leastKnots : Float := 2.0

def mostKnots : Float := 18.0

def locateRadius : Int32 := 5000

def locateLimit : Int32 := 5

abbrev Action := ExceptT Failure (StateM Fleet)

/-- A fleet without vessels, on a relay of its own. -/
def make (settings : FleetSettings) (journal : Journal) (clock : Int64) (random : RandomSource) :
    Except Failure Fleet := do
  let relay ← Relay.start settings.shards journal clock
  let circle ← Circle.make harbour settings.radius .cartesian
  return ⟨settings, relay, .shape (.circle circle), [], random, false⟩

def log (level : Level) (event : List (String × Json)) (fleet : Fleet) : Fleet :=
  { fleet with relay := fleet.relay.log level event }

def runtimeEvent (event : String) (details : List (String × Json)) : List (String × Json) :=
  ("component", .string "runtime") :: ("event", .string event) :: details

/-- The session log of a vessel: only the beginning and the end of a connection are entered. -/
def sessionLog (id : Identifier) : Link.Behaviour SessionLog Unit := fun _ event _ =>
  let entry (name : String) (details : List (String × Json)) :
      Script SessionLog (LinkAction Unit) :=
    .perform
      (.log .info
        ([("component", .string "session"), ("event", .string name), ("target", .string id.text)]
          ++ details))
      .done
  match event with
  | .connected uri resumed => entry "connected" [("uri", .string uri), ("resumed", .bool resumed)]
  | .disconnected code => entry "disconnected" [("code", .string code.name)]
  | _ => .done

/-- Fires an event on the link of a vessel. -/
def fire (event : ConnectionEvent) (link : Link SessionLog) (relay : Relay) :
    Link SessionLog × Relay :=
  let after := link.fire 0 (sessionLog link.id) event relay ()
  (after.link, after.relay)

/-- Runs an operation of the relay on the fleet's. -/
def onRelay {α : Type} (operation : StateM Relay α) : Action α := fun fleet =>
  let (result, relay) := operation fleet.relay
  (.ok result, { fleet with relay })

def service {α : Type} (operation : Relay.Service α) : Action α := fun fleet =>
  let (result, relay) := operation fleet.relay
  (result, { fleet with relay })

/-- Draws from the current generator. -/
def draw {α : Type} (attempt : Generator.Attempt α) : Action α := fun fleet =>
  let (result, random) := fleet.random.draw attempt
  (result, { fleet with random })

def fireOn (event : ConnectionEvent) (link : Link SessionLog) :
    StateM Fleet (Link SessionLog) := fun fleet =>
  let (link, relay) := fire event link fleet.relay
  (link, { fleet with relay })

variable [Trigonometry]

/-- Connects one more vessel, puts it somewhere in the area and sets its course. -/
def launch (number : Nat) : Action Unit := do
  let id ← draw Generator.identifier
  let uri := "sim://vessel-" ++ toString number
  let link ← fireOn (.connecting uri) ⟨id, false, [.mk]⟩
  let link ← fireOn (.connected uri false) link
  let fleet ← get
  let position ← draw fleet.area.sample
  let departure : Fix := ⟨position, fleet.relay.clock⟩
  onRelay (Relay.report id departure)
  service (Relay.offer id endpoint)
  let course ← draw (Generator.doubleBelow 360.0)
  let knots ← draw (Generator.doubleBetween leastKnots mostKnots)
  modify fun fleet => { fleet with vessels := fleet.vessels ++ [⟨link, departure, course, knots⟩] }

/-- Launches vessels, numbered on from `first`. -/
def launchAll (first : Nat) : Nat → Action Unit
  | 0 => return ()
  | count + 1 => do
    launch first
    launchAll (first + 1) count

/-- Connects the fleet. The generator is there before any vessel is. -/
def assemble : Action Unit := do
  let fleet ← get
  modify (log .info (runtimeEvent "initializing" [("vessels", .int fleet.settings.vessels)]))
  draw (pure ())
  launchAll 1 fleet.settings.vessels

/-- Moves one vessel to a time. A vessel out of the area is disconnected. The answer says whether it
has gone on as a connected one. -/
def advance (now : Int64) (vessel : Vessel) : Action (Bool × Vessel) := do
  if !vessel.link.connected then return (false, vessel)
  let fix ← ExceptT.mk (pure (vessel.departure.extrapolate vessel.course vessel.knots now))
  if (← get).area.contains fix.position then
    onRelay (Relay.report vessel.link.id fix)
    return (true, vessel)
  else
    let link ← fireOn (.disconnected .goingAway) vessel.link
    return (false, { vessel with link })

/-- Puts a vessel in its place again. -/
def replace (index : Nat) (vessel : Vessel) (fleet : Fleet) : Fleet :=
  { fleet with vessels := fleet.vessels.set index vessel }

/-- Moves the vessels from an index on, and counts those that have gone on. -/
def advanceFrom (now : Int64) (index : Nat) : List Vessel → Action Nat
  | [] => return 0
  | vessel :: rest => do
    let (moved, vessel) ← advance now vessel
    modify (replace index vessel)
    let others ← advanceFrom now (index + 1) rest
    return (if moved then 1 else 0) + others

/-- The request of the first vessel, from where the registry has it. -/
def ask (vessel : Vessel) : Action Nat := do
  let id := vessel.link.id
  let fix := ((← get).relay.registry.find? id).bind (·.fix)
  let around : LocateRequest :=
    ⟨endpoint, some locateRadius, some locateLimit, fix.map (·.position)⟩
  let found ← service (Relay.request id around)
  return found.length

/-- One round of the fleet. -/
def tick (now : Int64) : Action Unit := do
  let connected ← advanceFrom now 0 (← get).vessels
  let located ← match (← get).vessels with
    | [] => pure 0
    | vessel :: _ => ask vessel
  let swept ← onRelay (Relay.sweep now (← get).settings.timeout)
  let targets := (← get).relay.registry.size
  modify (log .info (runtimeEvent "tick"
    [("targets", .int targets), ("connected", .int connected), ("located", .int located),
     ("swept", .int swept)]))

/-- Starts the rounds, unless they are running. -/
def start : StateM Fleet Unit := modify fun fleet =>
  if fleet.running then fleet
  else log .info (runtimeEvent "starting" []) { fleet with running := true }

/-- A round at the clock's time. One that fails is entered and does not end the rounds. -/
def beat : StateM Fleet Unit := fun fleet =>
  match tick fleet.relay.clock fleet with
  | (.ok _, fleet) => ((), fleet)
  | (.error failure, fleet) =>
    ((), log .error (runtimeEvent "update_failed" [("error", .string failure.message)]) fleet)

omit [Trigonometry] in
/-- Disconnects one vessel, if it is connected. -/
def retire (vessel : Vessel) : StateM Fleet Vessel := do
  if vessel.link.connected then
    return { vessel with link := ← fireOn (.disconnected .goingAway) vessel.link }
  else return vessel

omit [Trigonometry] in
/-- Stops the rounds and disconnects the vessels that are left. -/
def shutdown : StateM Fleet Unit := do
  modify fun fleet =>
    if fleet.running then
      log .info (runtimeEvent "shutting_down" []) { fleet with running := false }
    else fleet
  let vessels ← (← get).vessels.mapM retire
  modify fun fleet => { fleet with vessels }

end Fleet
end VesselRelay
