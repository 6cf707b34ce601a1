import VesselRelay.Registry.Basic

/-!
Scans whose visitor may change the registry while they run. The members of a shard are noted when
the scan comes to the shard. A member is visited as it is by then; one removed before its visit is
visited as it was when it was removed, whatever is made under its identifier later.
-/
namespace VesselRelay.Registry

/-- What a visitor may do to the registry, each at a time of its own. -/
inductive Operation where
  | register (id : Identifier) (name : String) (now : Int64)
  | unregister (id : Identifier) (name : String) (now : Int64)
  | report (id : Identifier) (fix : Fix) (now : Int64)
  | setConnected (id : Identifier) (value : Bool) (now : Int64)
  | remove (id : Identifier)
  | sweep (now : Int64) (timeout : Float)

def Operation.apply : Operation → Registry → Registry
  | register id name now, r => (r.register id name now).2
  | unregister id name now, r => (r.unregister id name now).2
  | report id fix now, r => r.report id fix now
  | setConnected id value now, r => (r.setConnected id value now).2
  | remove id, r => (r.remove id).2
  | sweep now timeout, r => (r.sweep now timeout).2

/-- A member of a shard that a scan has still to visit. -/
inductive Pending where
  | known (id : Identifier)
  /-- Removed since it was noted. -/
  | removed (last : Target)

/-- The state in which a pending member is visited. -/
def Pending.current? (r : Registry) : Pending → Option Target
  | known id => r.find? id
  | removed last => some last

/-- A pending member after an operation has taken one registry to another. -/
def Pending.after (before after : Registry) : Pending → Pending
  | known id =>
    match before.find? id, after.find? id with
    | some last, none => removed last
    | _, _ => known id
  | removed last => removed last

/-- A visitor sees the registry and the target with its fix, and answers with what it does. -/
abbrev Visitor (σ : Type) := Registry → Target → Fix → σ → σ × List Operation

def applyAll (pending : List Pending) (r : Registry) : List Operation → List Pending × Registry
  | [] => (pending, r)
  | op :: rest =>
    let next := op.apply r
    applyAll (pending.map (Pending.after r next)) next rest

/-- Visits as many pending members as there are to visit, in order. -/
def visitPending {σ : Type} (visit : Visitor σ) : Nat → List Pending → Registry → σ → σ × Registry
  | 0, _, r, s => (s, r)
  | _ + 1, [], r, s => (s, r)
  | n + 1, member :: rest, r, s =>
    match member.current? r with
    | none => visitPending visit n rest r s
    | some t =>
      match t.fix with
      | none => visitPending visit n rest r s
      | some fix =>
        let (s, operations) := visit r t fix s
        let (rest, r) := applyAll rest r operations
        visitPending visit n rest r s

def scanShard {σ : Type} (visit : Visitor σ) (index : Nat) (r : Registry) (s : σ) : σ × Registry :=
  let members := r.shard index
  visitPending visit members.length (members.map fun t => .known t.id) r s

/-- Visits every target that has a fix, shard after shard. -/
def scan {σ : Type} (visit : Visitor σ) (r : Registry) (s : σ) : σ × Registry :=
  (List.range r.shards.size).foldl (fun (s, r) index => scanShard visit index r s) (s, r)

end VesselRelay.Registry
