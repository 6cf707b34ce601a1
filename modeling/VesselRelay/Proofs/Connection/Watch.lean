import VesselRelay.Connection.Dispatch

/-!
A dispatcher watched at work. What listeners do is noted down as it happens: each call and how it
ended, each change of the list, each event fired. The notes are kept in the surroundings, by the
same dispatcher with the same listeners, and each tells in how many unfinished firings it was made.
-/
namespace VesselRelay

/-- What can be seen of a dispatcher at work. -/
inductive Sight (L : Type) where
  /-- The connectivity callback ran. -/
  | notified (up : Bool) (thrown : Option Thrown)
  | called (listener : L) (event : ConnectionEvent)
  | ended (listener : L) (event : ConnectionEvent) (thrown : Option Thrown)
  /-- A failure was reported. -/
  | logged (entry : List (String × Json))
  | added (listener : L)
  | removed (listener : L)
  /-- A listener fired an event. -/
  | fired (event : ConnectionEvent)
  /-- The listener that fired it got on, or got what the dispatch threw. -/
  | settled (event : ConnectionEvent) (thrown : Option Thrown)

/-- A note, and how many of the events fired before it were not settled. -/
structure Mark (L : Type) where
  level : Nat
  sight : Sight L

/-- Surroundings in which notes are kept. -/
structure Watch (L σ : Type) where
  host : σ
  level : Nat
  seen : List (Mark L)

namespace Watch
variable {L σ : Type}

def saw (watch : Watch L σ) (sight : Sight L) : Watch L σ :=
  match sight with
  | .fired _ => { watch with
      seen := watch.seen ++ [⟨watch.level, sight⟩], level := watch.level + 1 }
  | .settled _ _ => { watch with
      seen := watch.seen ++ [⟨watch.level - 1, sight⟩], level := watch.level - 1 }
  | _ => { watch with seen := watch.seen ++ [⟨watch.level, sight⟩] }

end Watch

namespace Script
variable {L ω : Type}

def see (sight : Sight L) (next : Script L (ω ⊕ Sight L)) : Script L (ω ⊕ Sight L) :=
  .perform (.inr sight) next

/-- Goes on where nothing was thrown. -/
def resume (next : Script L ω) : Option Thrown → Script L ω
  | none => next
  | some thrown => .throw thrown

/-- A script that notes down what it does. -/
def watched : Script L ω → Script L (ω ⊕ Sight L)
  | done => done
  | throw thrown => .throw thrown
  | perform op next => .perform (.inl op) next.watched
  | consult op next => .consult (.inl op) fun answer => (next answer).watched
  | add (some l) next => .add (some l) (see (.added l) next.watched)
  | add none next => .add none next.watched
  | remove (some l) next => .remove (some l) fun found => see (.removed l) (next found).watched
  | remove none next => .remove none fun found => (next found).watched
  | count next => .count fun n => (next n).watched
  | fire event next =>
    see (.fired event) (.guarded (.fire event done) fun thrown =>
      see (.settled event thrown) (resume next.watched thrown))
  | guarded body next => .guarded body.watched fun thrown => (next thrown).watched

end Script

/-- The same listeners in surroundings that keep notes. -/
def Wiring.watched {L ω σ : Type} (w : Wiring L ω σ) :
    Wiring L (ω ⊕ Sight L) (Watch L σ) where
  notify up watch :=
    let (thrown, host) := w.notify up watch.host
    (thrown, { watch with host }.saw (.notified up thrown))
  react l event watch :=
    Script.see (.called l event) (.guarded (w.react l event watch.host).watched fun thrown =>
      Script.see (.ended l event thrown) (Script.resume .done thrown))
  perform
    | .inl op, watch => { watch with host := w.perform op watch.host }
    | .inr sight, watch => watch.saw sight
  answer
    | .inl op, watch => w.answer op watch.host
    | .inr _, _ => false
  report event thrown watch :=
    { watch with host := w.report event thrown watch.host }.saw (.logged (thrown.event event))

namespace Dispatcher
variable {L ω σ : Type} [DecidableEq L]

/-- A dispatcher that is watched from now on. -/
def watch (d : Dispatcher L σ) : Dispatcher L (Watch L σ) := ⟨d.listeners, ⟨d.host, 0, []⟩⟩

/-- What is seen of a dispatch. -/
def course (w : Wiring L ω σ) (depth : Nat) (event : ConnectionEvent) (d : Dispatcher L σ) :
    List (Mark L) :=
  (dispatch w.watched depth event d.watch).2.host.seen

end Dispatcher
end VesselRelay
