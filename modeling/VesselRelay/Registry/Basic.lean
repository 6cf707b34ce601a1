import VesselRelay.Identifier.Digest
import VesselRelay.Registry.Target

/-!
The registry of targets, spread over shards by a digest of their identifiers. A target is made on
first contact: by an endpoint, a fix or a connection. Whatever the number of shards, the registry
answers as one map from identifiers to targets does.
-/
namespace VesselRelay

structure Registry where
  shards : Array (List Target)
  nonempty : 0 < shards.size

namespace Registry

def empty (shardCount : Nat) (positive : 0 < shardCount) : Registry :=
  ⟨Array.replicate shardCount [], by simpa using positive⟩

/-- The shard in which an identifier is kept. -/
def shardOf (r : Registry) (id : Identifier) : Nat := id.digest.toNat % r.shards.size

def shard (r : Registry) (index : Nat) : List Target := r.shards.getD index []

def find? (r : Registry) (id : Identifier) : Option Target :=
  (r.shard (r.shardOf id)).find? (·.id = id)

def size (r : Registry) : Nat := r.shards.foldl (fun total shard => total + shard.length) 0

/-- Changes one shard. -/
def mapShard (r : Registry) (id : Identifier) (f : List Target → List Target) : Registry :=
  ⟨r.shards.modify (r.shardOf id) f, by simpa using r.nonempty⟩

/-- Changes a target that is known. -/
def change (r : Registry) (id : Identifier) (f : Target → Target) : Registry :=
  r.mapShard id fun shard => shard.map fun t => if t.id = id then f t else t

/-- Makes a target known, unless it is. The newest stands first in its shard. -/
def ensure (r : Registry) (id : Identifier) (now : Int64) : Registry :=
  if (r.find? id).isSome then r else r.mapShard id (.fresh id now :: ·)

/-- Adds an endpoint. The answer says whether it is new. -/
def register (r : Registry) (id : Identifier) (name : String) (now : Int64) : Bool × Registry :=
  (!(r.find? id).any (·.offers name), (r.ensure id now).change id (.addEndpoint name now))

/-- Takes an endpoint away. The answer says whether it was there. -/
def unregister (r : Registry) (id : Identifier) (name : String) (now : Int64) : Bool × Registry :=
  ((r.find? id).any (·.offers name), r.change id (.removeEndpoint name now))

def report (r : Registry) (id : Identifier) (fix : Fix) (now : Int64) : Registry :=
  (r.ensure id now).change id (.report fix now)

/-- Notes a connection or its end. The end of one of an unknown target is not noted, and the answer
says so. -/
def setConnected (r : Registry) (id : Identifier) (value : Bool) (now : Int64) : Bool × Registry :=
  if value then (true, (r.ensure id now).change id (.setConnected true now))
  else ((r.find? id).isSome, r.change id (.setConnected false now))

/-- Forgets a target. The answer says whether it was known. -/
def remove (r : Registry) (id : Identifier) : Bool × Registry :=
  ((r.find? id).isSome, r.mapShard id (·.filter (·.id ≠ id)))

/-- Seconds as whole milliseconds, as a sweep counts them. -/
def timeoutMillis (seconds : Float) : Int64 := Binary64.truncate (seconds * 1000.0)

/-- Forgets every target that has expired. The answer is their number. -/
def sweep (r : Registry) (now : Int64) (timeout : Float) : Nat × Registry :=
  let kept := r.shards.map (·.filter fun t => !t.expired now (timeoutMillis timeout))
  let swept : Registry := ⟨kept, by simpa [kept] using r.nonempty⟩
  (r.size - swept.size, swept)

/-- All targets with a fix, shard after shard. -/
def sightings (r : Registry) : List (Target × Fix) :=
  r.shards.toList.flatten.filterMap fun t => t.fix.map fun fix => (t, fix)

end Registry
end VesselRelay
