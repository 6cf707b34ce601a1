import VesselRelay.Identifier.Text
import VesselRelay.Journal
import VesselRelay.Registry.Scan

/-!
A relay: its registry, its journal and its clock. Operations take the time from the clock and enter
what they do in the journal: that a target is made or removed, and how many a sweep has removed.
-/
namespace VesselRelay

/-- An event that is to be entered. -/
abbrev Notice := Level × List (String × Json)

def Journal.logAll (notices : List Notice) (journal : Journal) : Journal :=
  notices.foldl (fun journal notice => journal.log notice.1 notice.2) journal

namespace Registry

def targetNotice (event : String) (id : Identifier) : Notice :=
  (.debug,
    [("component", .string "registry"), ("event", .string event), ("target", .string id.text)])

def creation (r : Registry) (id : Identifier) : List Notice :=
  if (r.find? id).isSome then [] else [targetNotice "target_created" id]

/-- What an operation on a registry enters in the journal. -/
def Operation.notices (r : Registry) : Operation → List Notice
  | register id _ _ => r.creation id
  | unregister _ _ _ => []
  | report id _ _ => r.creation id
  | setConnected id value _ => if value then r.creation id else []
  | remove id => if (r.find? id).isSome then [targetNotice "target_removed" id] else []
  | sweep now timeout =>
    let count := (r.sweep now timeout).1
    if 0 < count then
      [(.info,
        [("component", .string "registry"), ("event", .string "inactive_removed"),
          ("count", .int count)])]
    else []

/-- What operations enter that are done one after the other. -/
def noticesOf (r : Registry) : List Operation → List Notice
  | [] => []
  | op :: rest => op.notices r ++ noticesOf (op.apply r) rest

end Registry

structure Relay where
  registry : Registry
  journal : Journal
  /-- Milliseconds of the epoch. -/
  clock : Int64

namespace Relay
open Registry (Operation)

def log (level : Level) (event : List (String × Json)) (relay : Relay) : Relay :=
  { relay with journal := relay.journal.log level event }

/-- A relay with an empty registry of at least one shard. -/
def start (shardCount : Nat) (journal : Journal) (clock : Int64) : Except Failure Relay :=
  if positive : 0 < shardCount then
    .ok (log .info
      [("component", .string "registry"), ("event", .string "initialized"),
        ("shards", .int shardCount)]
      ⟨.empty shardCount positive, journal, clock⟩)
  else .error (.argument .noShards)

/-- Does an operation on the registry and enters it. -/
def perform (op : Operation) (relay : Relay) : Relay :=
  { relay with
    registry := op.apply relay.registry
    journal := relay.journal.logAll (op.notices relay.registry) }

def register (id : Identifier) (name : String) : StateM Relay Bool := fun relay =>
  ((relay.registry.register id name relay.clock).1, relay.perform (.register id name relay.clock))

def unregister (id : Identifier) (name : String) : StateM Relay Bool := fun relay =>
  ((relay.registry.unregister id name relay.clock).1,
    relay.perform (.unregister id name relay.clock))

def report (id : Identifier) (fix : Fix) : StateM Relay Unit := fun relay =>
  ((), relay.perform (.report id fix relay.clock))

def setConnected (id : Identifier) (value : Bool) : StateM Relay Bool := fun relay =>
  ((relay.registry.setConnected id value relay.clock).1,
    relay.perform (.setConnected id value relay.clock))

def remove (id : Identifier) : StateM Relay Bool := fun relay =>
  ((relay.registry.remove id).1, relay.perform (.remove id))

def sweep (now : Int64) (timeout : Float) : StateM Relay Nat := fun relay =>
  ((relay.registry.sweep now timeout).1, relay.perform (.sweep now timeout))

/-- A scan whose visitor's operations are entered as they are done. -/
def scan {σ : Type} (visit : Registry.Visitor σ) (s : σ) : StateM Relay σ := fun relay =>
  let noting : Registry.Visitor (σ × Journal) := fun r t fix (s, journal) =>
    let (s, operations) := visit r t fix s
    ((s, journal.logAll (r.noticesOf operations)), operations)
  let ((s, journal), registry) := relay.registry.scan noting (s, relay.journal)
  (s, { relay with registry, journal })

end Relay
end VesselRelay
