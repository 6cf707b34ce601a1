import VesselRelay.Connection.Event
import VesselRelay.Journal

/-!
Events go to the listeners of a connection one after the other. The list of listeners is taken as it
is when a dispatch begins: a change made on the way counts for later dispatches, those that a
listener starts included. A listener that throws is reported and the next one is called. An event
that announces a state runs the connectivity callback first, whose failure ends the dispatch before
any listener is called.
-/
namespace VesselRelay

/-- What a listener or a callback throws. -/
inductive Thrown where
  | failure (failure : Failure)
  /-- Something that carries no words. -/
  | foreign
  deriving DecidableEq, Repr

namespace Thrown

def text : Thrown → String
  | failure f => f.message
  | foreign => "unknown exception"

/-- The journal's event for a listener that throws. -/
def event (during : ConnectionEvent) (thrown : Thrown) : List (String × Json) :=
  [("component", .string "connection"), ("event", .string during.name),
   ("listener_failure", .string thrown.text)]

end Thrown

/-- What one call of a listener does, step by step. `L` names listeners, a missing name being no
listener at all, and `ω` is what listeners can do to their surroundings. -/
inductive Script (L ω : Type) where
  | done
  | throw (thrown : Thrown)
  | perform (op : ω) (next : Script L ω)
  /-- What comes next may depend on what the surroundings answer. -/
  | consult (op : ω) (next : Bool → Script L ω)
  | add (listener : Option L) (next : Script L ω)
  /-- What comes next may depend on whether the listener was there. -/
  | remove (listener : Option L) (next : Bool → Script L ω)
  | count (next : Nat → Script L ω)
  | fire (event : ConnectionEvent) (next : Script L ω)
  /-- Catches what the body throws. -/
  | guarded (body : Script L ω) (next : Option Thrown → Script L ω)

/-- The listeners of a connection and their surroundings. -/
structure Dispatcher (L σ : Type) where
  listeners : List L
  host : σ

/-- How listeners behave and how their surroundings take it. -/
structure Wiring (L ω σ : Type) where
  /-- The connectivity callback. -/
  notify : Bool → σ → Option Thrown × σ
  /-- What a listener does on an event. -/
  react : L → ConnectionEvent → σ → Script L ω
  perform : ω → σ → σ
  answer : ω → σ → Bool := fun _ _ => false
  /-- How a listener that throws is reported. -/
  report : ConnectionEvent → Thrown → σ → σ

/-- How surroundings keep a journal. -/
structure Logbook (σ : Type) where
  journal : σ → Journal
  alter : (Journal → Journal) → σ → σ
  journal_alter : ∀ change host, journal (alter change host) = change (journal host)

namespace Logbook
variable {L ω σ : Type}

/-- Enters in the journal that a listener has thrown. -/
def report (logbook : Logbook σ) (during : ConnectionEvent) (thrown : Thrown) : σ → σ :=
  logbook.alter (Journal.log .error (thrown.event during))

/-- The wiring of listeners whose failures go to the journal. -/
def wiring (logbook : Logbook σ) (notify : Bool → σ → Option Thrown × σ)
    (react : L → ConnectionEvent → σ → Script L ω) (perform : ω → σ → σ)
    (answer : ω → σ → Bool) : Wiring L ω σ where
  notify
  react
  perform
  answer
  report := logbook.report

end Logbook

namespace Dispatcher
variable {L ω σ : Type} [DecidableEq L]

/-- A dispatcher for listeners all of which are there. -/
def make (listeners : List (Option L)) (host : σ) : Except Failure (Dispatcher L σ) :=
  if listeners.any Option.isNone then .error (.argument .nullAmongListeners)
  else .ok ⟨listeners.filterMap id, host⟩

/-- Appends a listener, unless it is in the list. -/
def add (listener : Option L) (d : Dispatcher L σ) : Except Failure (Dispatcher L σ) :=
  match listener with
  | none => .error (.argument .nullListener)
  | some l => .ok (if l ∈ d.listeners then d else { d with listeners := d.listeners ++ [l] })

/-- Takes a listener out of the list, wherever it stands. The answer says whether it was there. -/
def remove (listener : Option L) (d : Dispatcher L σ) : Bool × Dispatcher L σ :=
  match listener with
  | none => (false, d)
  | some l => (decide (l ∈ d.listeners), { d with listeners := d.listeners.filter (· ≠ l) })

/-- The outcome of something that may throw, and the state it leaves. -/
abbrev Outcome (L σ : Type) := Option Thrown × Dispatcher L σ

/-- Runs a script, `fire` being how it fires further events. What it throws, and what these throw,
ends it where nothing catches it. -/
def run (w : Wiring L ω σ) (fire : ConnectionEvent → Dispatcher L σ → Outcome L σ) :
    Script L ω → Dispatcher L σ → Outcome L σ
  | .done, d => (none, d)
  | .throw thrown, d => (some thrown, d)
  | .perform op next, d => run w fire next { d with host := w.perform op d.host }
  | .consult op next, d =>
    run w fire (next (w.answer op d.host)) { d with host := w.perform op d.host }
  | .add listener next, d =>
    match d.add listener with
    | .error failure => (some (.failure failure), d)
    | .ok d => run w fire next d
  | .remove listener next, d =>
    let (found, d) := d.remove listener
    run w fire (next found) d
  | .count next, d => run w fire (next d.listeners.length) d
  | .fire event next, d =>
    match fire event d with
    | (some thrown, d) => (some thrown, d)
    | (none, d) => run w fire next d
  | .guarded body next, d =>
    let (thrown, d) := run w fire body d
    run w fire (next thrown) d

/-- Calls one listener, whatever it throws being reported. -/
def call (w : Wiring L ω σ) (fire : ConnectionEvent → Dispatcher L σ → Outcome L σ)
    (event : ConnectionEvent) (d : Dispatcher L σ) (listener : L) : Dispatcher L σ :=
  match run w fire (w.react listener event d.host) d with
  | (none, d) => d
  | (some thrown, d) => { d with host := w.report event thrown d.host }

/-- Runs the callback of an event that announces a state. -/
def announce (w : Wiring L ω σ) (event : ConnectionEvent) (d : Dispatcher L σ) : Outcome L σ :=
  match event.announces? with
  | none => (none, d)
  | some up =>
    let (thrown, host) := w.notify up d.host
    (thrown, { d with host })

/-- One dispatch: the callback, then the listeners in the list. -/
def deliver (w : Wiring L ω σ) (fire : ConnectionEvent → Dispatcher L σ → Outcome L σ)
    (event : ConnectionEvent) (d : Dispatcher L σ) : Outcome L σ :=
  match announce w event d with
  | (some thrown, d) => (some thrown, d)
  | (none, d) => (none, d.listeners.foldl (call w fire event) d)

/-- Dispatches an event. Events fired by listeners nest to a depth; a listener fires none at that
depth. -/
def dispatch (w : Wiring L ω σ) : Nat → ConnectionEvent → Dispatcher L σ → Outcome L σ
  | 0 => deliver w fun _ d => (none, d)
  | depth + 1 => deliver w (dispatch w depth)

end Dispatcher
end VesselRelay
