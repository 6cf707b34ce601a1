import Mathlib.Data.Finset.Sort
import Mathlib.Data.String.Basic
import VesselRelay.Proofs.Registry.Census

/-!
What can be asked of a registry, and a directory that is asked the same: one map from identifiers to
profiles, without shards and without an order. Of the calls three make an unknown target known, a
first endpoint, a fix and a connection; every call that changes a known one notes its time.
-/
namespace VesselRelay

/-- What is known of one target, its endpoints as a set. -/
structure Profile where
  fix : Option Fix
  endpoints : Finset String
  connected : Bool
  lastActivity : Int64

/-- What is noted under an identifier that is not known counts for nothing. -/
structure Directory where
  known : Finset Identifier
  noted : Identifier → Profile

namespace Registry

inductive Call where
  | operate (op : Operation)
  | find (id : Identifier)
  | size
  | scan

/-- The visits of a scan are told without their order. -/
inductive Answer where
  | done
  | flag (value : Bool)
  | count (n : Nat)
  | target (t : Option Target)
  | visits (hits : Multiset (Target × Fix))
  deriving DecidableEq

def Operation.answer (r : Registry) : Operation → Answer
  | register id name now => .flag (r.register id name now).1
  | unregister id name now => .flag (r.unregister id name now).1
  | report _ _ _ => .done
  | setConnected id value now => .flag (r.setConnected id value now).1
  | remove id => .flag (r.remove id).1
  | sweep now timeout => .count (r.sweep now timeout).1

def step (call : Call) (r : Registry) : Answer × Registry :=
  match call with
  | .operate op => (op.answer r, op.apply r)
  | .find id => (.target (r.find? id), r)
  | .size => (.count r.size, r)
  | .scan => (.visits (r.scan observer []).1, (r.scan observer []).2)

end Registry

namespace Profile

/-- The profile as the registry shows it, the endpoints in order. -/
def target (id : Identifier) (x : Profile) : Target :=
  ⟨id, x.fix, x.endpoints.sort, x.connected, x.lastActivity⟩

def fresh (now : Int64) : Profile := ⟨none, ∅, false, now⟩

def expired (now timeout : Int64) (x : Profile) : Bool :=
  !x.connected && decide (timeout < now - x.lastActivity)

def addEndpoint (name : String) (x : Profile) : Profile :=
  { x with endpoints := insert name x.endpoints }

def removeEndpoint (name : String) (x : Profile) : Profile :=
  { x with endpoints := x.endpoints.erase name }

def report (fix : Fix) (x : Profile) : Profile := { x with fix := some fix }

def setConnected (value : Bool) (x : Profile) : Profile := { x with connected := value }

end Profile

namespace Directory
open Registry (Answer Call Operation)

def empty : Directory := ⟨∅, fun _ => .fresh 0⟩

def find? (d : Directory) (id : Identifier) : Option Profile :=
  if id ∈ d.known then some (d.noted id) else none

def offers (d : Directory) (id : Identifier) (name : String) : Bool :=
  (d.find? id).any fun x => decide (name ∈ x.endpoints)

/-- Changes a profile and notes the time; an unknown target is made known first. -/
def contact (id : Identifier) (now : Int64) (change : Profile → Profile) (d : Directory) :
    Directory where
  known := insert id d.known
  noted := Function.update d.noted id
    { change ((d.find? id).getD (.fresh now)) with lastActivity := now }

/-- Changes a profile and notes the time, where the target is known. -/
def amend (id : Identifier) (now : Int64) (change : Profile → Profile) (d : Directory) :
    Directory :=
  if id ∈ d.known then d.contact id now change else d

def gone (d : Directory) (now timeout : Int64) : Finset Identifier :=
  d.known.filter fun id => (d.noted id).expired now timeout

/-- What a scan shows under an identifier. -/
def visit? (d : Directory) (id : Identifier) : Option (Target × Fix) :=
  (d.noted id).fix.map fun fix => ((d.noted id).target id, fix)

def operate (d : Directory) : Operation → Answer × Directory
  | .register id name now => (.flag (!d.offers id name), d.contact id now (.addEndpoint name))
  | .unregister id name now => (.flag (d.offers id name), d.amend id now (.removeEndpoint name))
  | .report id fix now => (.done, d.contact id now (.report fix))
  | .setConnected id true now => (.flag true, d.contact id now (.setConnected true))
  | .setConnected id false now =>
    (.flag (decide (id ∈ d.known)), d.amend id now (.setConnected false))
  | .remove id => (.flag (decide (id ∈ d.known)), { d with known := d.known.erase id })
  | .sweep now timeout =>
    let gone := d.gone now (Registry.timeoutMillis timeout)
    (.count gone.card, { d with known := d.known \ gone })

def step (call : Call) (d : Directory) : Answer × Directory :=
  match call with
  | .operate op => d.operate op
  | .find id => (.target ((d.find? id).map (·.target id)), d)
  | .size => (.count d.known.card, d)
  | .scan => (.visits (d.known.val.filterMap d.visit?), d)

end Directory

/-- The answers to calls made one after the other, and the state that they leave. -/
def runCalls {σ : Type} (step : Registry.Call → σ → Registry.Answer × σ) :
    List Registry.Call → σ → List Registry.Answer × σ
  | [], s => ([], s)
  | call :: rest, s =>
    let (answer, s) := step call s
    let (answers, s) := runCalls step rest s
    (answer :: answers, s)

end VesselRelay
