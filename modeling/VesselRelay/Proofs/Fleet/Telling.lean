import Mathlib.Tactic.Common
import VesselRelay.Fleet
import VesselRelay.Proofs.Identifier.Spelling

/-!
What the session logs of a fleet tell. Whatever the journal holds and whichever level is in force, a
step of the fleet does the same and has the same notices for the journal. Those of a session log
tell how often a connection has begun and ended.
-/
namespace VesselRelay

theorem Journal.logAll_append (m n : List Notice) (j : Journal) :
    j.logAll (m ++ n) = (j.logAll m).logAll n :=
  List.foldl_append

/-! ### Session logs -/

/-- What the session log of a target says in a notice. -/
def session? (id : Identifier) : Notice → Option String
  | (_, ("component", .string "session") :: ("event", .string name) ::
      ("target", .string target) :: _) => if target = id.text then some name else none
  | _ => none

/-- What the session log of a target says, the first first. -/
def history (id : Identifier) (notices : List Notice) : List String :=
  notices.filterMap (session? id)

theorem history_append (id : Identifier) (m n : List Notice) :
    history id (m ++ n) = history id m ++ history id n :=
  List.filterMap_append

/-- What is done on a registry is not told by a session log. -/
theorem history_notices (id : Identifier) (r : Registry) (op : Registry.Operation) :
    history id (op.notices r) = [] := by
  have made (other : Identifier) : history id (r.creation other) = [] := by
    unfold Registry.creation
    split <;> rfl
  cases op with
  | register other name now => exact made other
  | unregister other name now => rfl
  | report other fix now => exact made other
  | setConnected other value now =>
    cases value with
    | true => exact made other
    | false => rfl
  | remove other =>
    simp only [Registry.Operation.notices]
    split <;> rfl
  | sweep now timeout =>
    simp only [Registry.Operation.notices]
    split <;> rfl

/-! ### Steps of a fleet -/

namespace Relay

variable {relay : Relay} {told told' : Identifier → List String}

/-- A relay with another journal. -/
def keeping (journal : Journal) (relay : Relay) : Relay := { relay with journal }

/-- What the session log of each target says when something is done on a relay. The same is done and
there are the same notices whatever journal the relay is given. -/
def Tells (change : Relay → Relay) (relay : Relay) (told : Identifier → List String) : Prop :=
  ∃ notices, (∀ j, change (relay.keeping j) = (change relay).keeping (j.logAll notices)) ∧
    ∀ id, history id notices = told id

theorem tells_perform (op : Int64 → Registry.Operation) (relay : Relay) :
    Tells (fun relay => relay.perform (op relay.clock)) relay fun _ => [] :=
  ⟨(op relay.clock).notices relay.registry, fun _ => rfl,
    fun id => history_notices id relay.registry (op relay.clock)⟩

theorem Tells.then {change next : Relay → Relay} (first : Tells change relay told)
    (rest : Tells next (change relay) told') :
    Tells (fun relay => next (change relay)) relay fun id => told id ++ told' id := by
  obtain ⟨m, same, tells⟩ := first
  obtain ⟨n, same', tells'⟩ := rest
  refine ⟨m ++ n, fun j => ?_, fun id => ?_⟩
  · dsimp only
    rw [same j, same', Journal.logAll_append]
  · rw [history_append, tells, tells']

end Relay

namespace Fleet

variable {α β : Type} {f f' : Fleet} {told told' : Identifier → List String}

/-- A fleet with another journal. -/
def keeping (journal : Journal) (f : Fleet) : Fleet := { f with relay := f.relay.keeping journal }

/-- What the session log of each target says in a step from a fleet. The step has the same outcome
and the same notices whatever journal it is given. -/
def Tells (step : Fleet → β × Fleet) (f : Fleet) (told : Identifier → List String) : Prop :=
  ∃ notices, (∀ j, step (f.keeping j) = ((step f).1, (step f).2.keeping (j.logAll notices))) ∧
    ∀ id, history id notices = told id

theorem Tells.congr {step : Fleet → β × Fleet} (tells : Tells step f told)
    (same : ∀ id, told id = told' id) : Tells step f told' :=
  funext same ▸ tells

theorem Tells.then {step : Fleet → α × Fleet} {k : α → Fleet → β × Fleet}
    (first : Tells step f told) (rest : Tells (k (step f).1) (step f).2 told') :
    Tells (fun f => k (step f).1 (step f).2) f fun id => told id ++ told' id := by
  obtain ⟨m, same, tells⟩ := first
  obtain ⟨n, same', tells'⟩ := rest
  refine ⟨m ++ n, fun j => ?_, fun id => ?_⟩
  · dsimp only
    rw [same j, same', Journal.logAll_append]
  · rw [history_append, tells, tells']

theorem Tells.bind {a : Action α} {k : α → Action β} {x : α} (first : Tells a f told)
    (ok : a f = (.ok x, f')) (rest : Tells (k x) f' told') :
    Tells (a >>= k) f fun id => told id ++ told' id := by
  have next : Tells (ExceptT.bindCont k (a f).1) (a f).2 told' := by
    rw [ok]
    exact rest
  exact first.then next

theorem Tells.lift {step : StateM Fleet α} (tells : Tells step f told) :
    Tells (liftM step : Action α) f told := by
  obtain ⟨notices, same, tells⟩ := tells
  refine ⟨notices, fun j => ?_, tells⟩
  change (Except.ok (step (f.keeping j)).1, (step (f.keeping j)).2) = _
  rw [same]
  rfl

theorem tells_nothing (value : α) : Tells (Prod.mk value) f fun _ => [] :=
  ⟨[], fun _ => rfl, fun _ => rfl⟩

theorem tells_draw (attempt : Generator.Attempt α) : Tells (draw attempt) f fun _ => [] :=
  ⟨[], fun _ => rfl, fun _ => rfl⟩

theorem tells_log (level : Level) (event : List (String × Json)) :
    Tells (modify (log level event) : Action Unit) f (history · [(level, event)]) :=
  ⟨[(level, event)], fun _ => rfl, fun _ => rfl⟩

end Fleet
end VesselRelay
