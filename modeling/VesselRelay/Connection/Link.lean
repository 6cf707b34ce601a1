import VesselRelay.Connection.Dispatch
import VesselRelay.Relay

/-!
The live connection of a target. Its dispatcher's callback sets the link's flag and notes the state
in the registry, once, before any listener is called.
-/
namespace VesselRelay

structure Link (L : Type) where
  id : Identifier
  connected : Bool
  listeners : List L

/-- What surrounds the listeners of a link: its flag, the relay, and what the listeners keep for
themselves. -/
structure LinkHost (τ : Type) where
  connected : Bool
  relay : Relay
  own : τ

/-- What a listener of a link does to its surroundings: it makes entries in the journal, and notes
of its own for which it may look at the flag. -/
inductive LinkAction (τ : Type) where
  | log (level : Level) (event : List (String × Json))
  | note (change : Bool → τ → τ)

namespace LinkHost
variable {τ : Type}

/-- The connectivity callback of a link. -/
def notify (id : Identifier) (up : Bool) (host : LinkHost τ) : LinkHost τ :=
  { host with connected := up, relay := (host.relay.setConnected id up).2 }

def perform (action : LinkAction τ) (host : LinkHost τ) : LinkHost τ :=
  match action with
  | .log level event => { host with relay := host.relay.log level event }
  | .note change => { host with own := change host.connected host.own }

/-- The journal of a link is that of the relay. -/
def logbook : Logbook (LinkHost τ) where
  journal host := host.relay.journal
  alter change host := { host with relay.journal := change host.relay.journal }
  journal_alter _ _ := rfl

end LinkHost

namespace Link
variable {L τ : Type} [DecidableEq L]

/-- How the listeners of a link behave. -/
abbrev Behaviour (L τ : Type) := L → ConnectionEvent → LinkHost τ → Script L (LinkAction τ)

def wiring (id : Identifier) (react : Behaviour L τ) : Wiring L (LinkAction τ) (LinkHost τ) :=
  LinkHost.logbook.wiring (fun up host => (none, host.notify id up)) react LinkHost.perform
    fun _ _ => false

/-- A link that is not up, for listeners all of which are there. -/
def make (id : Identifier) (listeners : List (Option L)) : Except Failure (Link L) := do
  let d ← Dispatcher.make listeners ()
  return ⟨id, false, d.listeners⟩

/-- Appends a listener, unless the link has it. -/
def add (listener : Option L) (link : Link L) : Except Failure (Link L) := do
  let d ← Dispatcher.add listener ⟨link.listeners, ()⟩
  return { link with listeners := d.listeners }

/-- Takes a listener away. The answer says whether the link had it. -/
def remove (listener : Option L) (link : Link L) : Bool × Link L :=
  let (found, d) := Dispatcher.remove listener ⟨link.listeners, ()⟩
  (found, { link with listeners := d.listeners })

def dispatcher (link : Link L) (relay : Relay) (own : τ) : Dispatcher L (LinkHost τ) :=
  ⟨link.listeners, ⟨link.connected, relay, own⟩⟩

/-- A link, a relay and the listeners' own state after something has happened on the link. -/
structure After (L τ : Type) where
  thrown : Option Thrown
  link : Link L
  relay : Relay
  own : τ

def fire (depth : Nat) (react : Behaviour L τ) (event : ConnectionEvent) (link : Link L)
    (relay : Relay) (own : τ) : After L τ :=
  let (thrown, d) :=
    Dispatcher.dispatch (wiring link.id react) depth event (link.dispatcher relay own)
  ⟨thrown, { link with connected := d.host.connected, listeners := d.listeners }, d.host.relay,
    d.host.own⟩

end Link
end VesselRelay
