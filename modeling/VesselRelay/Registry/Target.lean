import VesselRelay.Geo.Fix
import VesselRelay.Identifier.Basic

/-!
What is known of one target: its last fix, the endpoints that it offers, whether it is connected,
and when it was last heard of. Every change counts as hearing of it, one that changes nothing else
included.
-/
namespace VesselRelay

structure Target where
  id : Identifier
  fix : Option Fix
  /-- In order, each name once. -/
  endpoints : List String
  connected : Bool
  lastActivity : Int64
  deriving DecidableEq

namespace Target

/-- A target on first contact. -/
def fresh (id : Identifier) (now : Int64) : Target := ⟨id, none, [], false, now⟩

/-- Puts a name into a list in order, unless it is there. -/
def insertName (name : String) : List String → List String
  | [] => [name]
  | n :: rest =>
    if n = name then n :: rest
    else if name < n then name :: n :: rest
    else n :: insertName name rest

def offers (t : Target) (name : String) : Bool := t.endpoints.contains name

def addEndpoint (name : String) (now : Int64) (t : Target) : Target :=
  { t with endpoints := insertName name t.endpoints, lastActivity := now }

def removeEndpoint (name : String) (now : Int64) (t : Target) : Target :=
  { t with endpoints := t.endpoints.filter (· != name), lastActivity := now }

def report (fix : Fix) (now : Int64) (t : Target) : Target :=
  { t with fix := some fix, lastActivity := now }

def setConnected (value : Bool) (now : Int64) (t : Target) : Target :=
  { t with connected := value, lastActivity := now }

/-- Whether a target is neither connected nor heard of within a number of milliseconds. -/
def expired (now timeout : Int64) (t : Target) : Bool :=
  !t.connected && decide (timeout < now - t.lastActivity)

end Target
end VesselRelay
