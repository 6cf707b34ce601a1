import Mathlib.Logic.Function.Basic
import VesselRelay.Connection.Link
import VesselRelay.Proofs.Registry.Bookkeeping

/-!
Links over one relay. What the registry notes of a target is what one of its links has announced
last: where all of them are up, the target counts as connected and no sweep forgets it. Links that
share a target write the same note, though, and whichever announces a state has the last word: one
that goes down takes back what another has announced.
-/
namespace VesselRelay

/-! ### What a dispatch does to its surroundings -/

section Surroundings
variable {L ω σ : Type} [DecidableEq L] {w : Wiring L ω σ} {R : σ → σ → Prop}
  {fire : ConnectionEvent → Dispatcher L σ → Dispatcher.Outcome L σ}

/-- A relation that holds between the surroundings before and after anything done to them. -/
structure Wiring.Keeps (w : Wiring L ω σ) (R : σ → σ → Prop) : Prop where
  refl : ∀ s, R s s
  trans : ∀ {a b c}, R a b → R b c → R a c
  notify : ∀ up s, R s (w.notify up s).2
  perform : ∀ op s, R s (w.perform op s)
  report : ∀ event thrown s, R s (w.report event thrown s)

namespace Dispatcher

theorem run_keeps (keeps : w.Keeps R) (fires : ∀ event d, R d.host (fire event d).2.host)
    (script : Script L ω) (d : Dispatcher L σ) : R d.host (run w fire script d).2.host := by
  induction script generalizing d with
  | done => exact keeps.refl _
  | throw thrown => exact keeps.refl _
  | perform op next ih =>
    exact keeps.trans (keeps.perform op d.host) (ih { d with host := w.perform op d.host })
  | consult op next ih =>
    exact keeps.trans (keeps.perform op d.host) (ih _ { d with host := w.perform op d.host })
  | add listener next ih =>
    rw [run]
    cases added : d.add listener with
    | error failure => exact keeps.refl _
    | ok d' =>
      have same : d'.host = d.host := by
        unfold add at added
        split at added
        · cases added
        · split at added <;> cases added <;> rfl
      exact same ▸ ih d'
  | remove listener next ih =>
    have same : (d.remove listener).2.host = d.host := by cases listener <;> rfl
    exact same ▸ ih _ (d.remove listener).2
  | count next ih => exact ih _ _
  | fire event next ih =>
    have fired := fires event d
    rw [run]
    generalize fire event d = out at fired ⊢
    obtain ⟨_ | thrown, d'⟩ := out
    · exact keeps.trans fired (ih d')
    · exact fired
  | guarded body next ihBody ih => exact keeps.trans (ihBody d) (ih _ _)

theorem call_keeps (keeps : w.Keeps R) (fires : ∀ event d, R d.host (fire event d).2.host)
    (event : ConnectionEvent) (d : Dispatcher L σ) (l : L) :
    R d.host (call w fire event d l).host := by
  have ran := run_keeps keeps fires (w.react l event d.host) d
  rw [call]
  generalize run w fire (w.react l event d.host) d = out at ran ⊢
  obtain ⟨_ | thrown, d'⟩ := out
  · exact ran
  · exact keeps.trans ran (keeps.report event thrown d'.host)

theorem round_keeps (keeps : w.Keeps R) (fires : ∀ event d, R d.host (fire event d).2.host)
    (event : ConnectionEvent) (due : List L) (d : Dispatcher L σ) :
    R d.host (due.foldl (call w fire event) d).host := by
  induction due generalizing d with
  | nil => exact keeps.refl _
  | cons l due ih => exact keeps.trans (call_keeps keeps fires event d l) (ih _)

theorem deliver_keeps (keeps : w.Keeps R) (fires : ∀ event d, R d.host (fire event d).2.host)
    (event : ConnectionEvent) (d : Dispatcher L σ) :
    R d.host (deliver w fire event d).2.host := by
  have announced : R d.host (announce w event d).2.host := by
    unfold announce
    split
    · exact keeps.refl _
    · exact keeps.notify _ d.host
  rw [deliver]
  generalize announce w event d = out at announced ⊢
  obtain ⟨_ | thrown, d'⟩ := out
  · exact keeps.trans announced (round_keeps keeps fires event _ d')
  · exact announced

/-- What is kept is kept from the callback on as well. -/
theorem deliver_keeps_of_announces (keeps : w.Keeps R)
    (fires : ∀ event d, R d.host (fire event d).2.host) {event : ConnectionEvent} {up : Bool}
    (announces : event.announces? = some up) (d : Dispatcher L σ) :
    R (w.notify up d.host).2 (deliver w fire event d).2.host := by
  have announced : announce w event d =
      ((w.notify up d.host).1, ⟨d.listeners, (w.notify up d.host).2⟩) := by
    rw [announce, announces]
  rw [deliver, announced]
  cases (w.notify up d.host).1 with
  | none => exact round_keeps keeps fires event _ ⟨_, (w.notify up d.host).2⟩
  | some thrown => exact keeps.refl _

theorem dispatch_keeps (keeps : w.Keeps R) (depth : Nat) (event : ConnectionEvent)
    (d : Dispatcher L σ) : R d.host (dispatch w depth event d).2.host := by
  induction depth generalizing event d with
  | zero => exact deliver_keeps keeps (fun _ d => keeps.refl d.host) event d
  | succ depth ih => exact deliver_keeps keeps ih event d

theorem dispatch_keeps_of_announces (keeps : w.Keeps R) (depth : Nat) {event : ConnectionEvent}
    {up : Bool} (announces : event.announces? = some up) (d : Dispatcher L σ) :
    R (w.notify up d.host).2 (dispatch w depth event d).2.host := by
  cases depth with
  | zero => exact deliver_keeps_of_announces keeps (fun _ d => keeps.refl d.host) announces d
  | succ depth => exact deliver_keeps_of_announces keeps (dispatch_keeps keeps depth) announces d

end Dispatcher
end Surroundings

/-! ### Marks -/

namespace Registry
variable {r : Registry}

/-- Whether a target is known and counts as connected. -/
def marks (r : Registry) (id : Identifier) : Bool := (r.find? id).any (·.connected)

theorem marks_empty (shardCount : Nat) (positive : 0 < shardCount) (id : Identifier) :
    (empty shardCount positive).marks id = false := by
  have none : (empty shardCount positive).shard ((empty shardCount positive).shardOf id) = [] := by
    simp [empty, shard, Array.getD]
  rw [marks, find?, none]
  rfl

/-- What an operation leaves of a mark. -/
def Operation.marked (id : Identifier) (held : Bool) : Operation → Bool
  | setConnected i value _ => if id = i then value else held
  | remove i => if id = i then false else held
  | register _ _ _ | unregister _ _ _ | report _ _ _ | sweep _ _ => held

theorem marks_apply (placed : r.Placed) (op : Operation) (id : Identifier) :
    (op.apply r).marks id = op.marked id (r.marks id) := by
  rw [marks, marks, find?_apply placed]
  generalize r.find? id = held
  cases op with
  | register i name now =>
    by_cases same : id = i
    · cases held <;> simp [Operation.outcome, Operation.marked, same, Target.addEndpoint,
        Target.fresh]
    · simp [Operation.outcome, Operation.marked, same]
  | unregister i name now =>
    by_cases same : id = i
    · cases held <;> simp [Operation.outcome, Operation.marked, same, Target.removeEndpoint]
    · simp [Operation.outcome, Operation.marked, same]
  | report i fix now =>
    by_cases same : id = i
    · cases held <;> simp [Operation.outcome, Operation.marked, same, Target.report, Target.fresh]
    · simp [Operation.outcome, Operation.marked, same]
  | setConnected i value now =>
    by_cases same : id = i
    · cases value <;> cases held <;>
        simp [Operation.outcome, Operation.marked, same, Target.setConnected]
    · cases value <;> simp [Operation.outcome, Operation.marked, same]
  | remove i =>
    by_cases same : id = i
    · simp [Operation.outcome, Operation.marked, same]
    · simp [Operation.outcome, Operation.marked, same]
  | sweep now timeout =>
    cases held with
    | none => rfl
    | some t =>
      cases up : t.connected with
      | true => simp [Operation.outcome, Operation.marked, Option.filter, Target.expired, up]
      | false =>
        simp only [Operation.outcome, Operation.marked, Option.filter]
        split <;> simp [up]

/-- A sweep leaves what counts as connected. -/
theorem find?_sweep_of_marks (placed : r.Placed) {id : Identifier} (marked : r.marks id)
    (now : Int64) (timeout : Float) : (r.sweep now timeout).2.find? id = r.find? id := by
  rw [find?_sweep now timeout placed]
  rw [marks] at marked
  cases found : r.find? id with
  | none => rfl
  | some t =>
    rw [found] at marked
    have up : t.connected = true := marked
    simp [Option.filter, Target.expired, up]

end Registry

/-! ### Sessions -/

/-- So many links over one relay, and what their listeners keep for themselves. -/
structure Sessions (L τ : Type) (n : Nat) where
  links : Fin n → Link L
  relay : Relay
  own : τ

namespace Sessions
variable {L τ : Type} [DecidableEq L] {n : Nat}

/-- What may happen: something on a link, and what targets and the relay do besides. -/
inductive Act (n : Nat) where
  /-- Listeners may fire more on the same link, to a depth. -/
  | fire (link : Fin n) (event : ConnectionEvent) (depth : Nat)
  | register (id : Identifier) (name : String)
  | unregister (id : Identifier) (name : String)
  | report (id : Identifier) (fix : Fix)
  | sweep (now : Int64) (timeout : Float)
  /-- Time passes. -/
  | turn (clock : Int64)

def step (react : Link.Behaviour L τ) (s : Sessions L τ n) : Act n → Sessions L τ n
  | .fire i event depth =>
    let after := (s.links i).fire depth react event s.relay s.own
    ⟨Function.update s.links i after.link, after.relay, after.own⟩
  | .register id name => { s with relay := (s.relay.register id name).2 }
  | .unregister id name => { s with relay := (s.relay.unregister id name).2 }
  | .report id fix => { s with relay := (s.relay.report id fix).2 }
  | .sweep now timeout => { s with relay := (s.relay.sweep now timeout).2 }
  | .turn clock => { s with relay.clock := clock }

def run (react : Link.Behaviour L τ) (s : Sessions L τ n) (acts : List (Act n)) :
    Sessions L τ n :=
  acts.foldl (step react) s

/-- What links that are not up yet and an empty registry come to. -/
inductive Reachable (react : Link.Behaviour L τ) : Sessions L τ n → Prop
  | opened {s : Sessions L τ n} (shardCount : Nat) (positive : 0 < shardCount)
      (empty : s.relay.registry = .empty shardCount positive)
      (down : ∀ i, (s.links i).connected = false) : Reachable react s
  | after {s : Sessions L τ n} (act : Act n) :
      Reachable react s → Reachable react (s.step react act)

theorem Reachable.run {react : Link.Behaviour L τ} {s : Sessions L τ n}
    (reachable : s.Reachable react) (acts : List (Act n)) : (s.run react acts).Reachable react := by
  induction acts generalizing s with
  | nil => exact reachable
  | cons act acts ih => exact ih (reachable.after act)

/-- What a dispatch on a link of a target does to the flag of the link and to the registry. -/
structure Carried (id : Identifier) (before after : LinkHost τ) : Prop where
  placed : before.relay.registry.Placed → after.relay.registry.Placed
  apart : before.relay.registry.Placed → ∀ other ≠ id,
    after.relay.registry.marks other = before.relay.registry.marks other
  /-- Either nothing was announced, or the registry notes what the flag says. -/
  noted : before.relay.registry.Placed →
    after.connected = before.connected ∧
      after.relay.registry.marks id = before.relay.registry.marks id ∨
    after.relay.registry.marks id = after.connected

/-- The callback leaves the mark as it leaves the flag. -/
theorem marks_notify {host : LinkHost τ} (placed : host.relay.registry.Placed) (id : Identifier)
    (up : Bool) : (host.notify id up).relay.registry.marks id = up :=
  (Registry.marks_apply placed (.setConnected id up host.relay.clock) id).trans (if_pos rfl)

omit [DecidableEq L] in
theorem wiring_keeps (id : Identifier) (react : Link.Behaviour L τ) :
    (Link.wiring id react).Keeps (Carried id) where
  refl host := ⟨fun placed => placed, fun _ _ _ => rfl, fun _ => .inl ⟨rfl, rfl⟩⟩
  trans {a b c} first second := by
    refine ⟨fun placed => second.placed (first.placed placed),
      fun placed other apart => (second.apart (first.placed placed) other apart).trans
        (first.apart placed other apart), fun placed => ?_⟩
    obtain ⟨flag, mark⟩ | told := second.noted (first.placed placed)
    · rw [flag, mark]
      exact first.noted placed
    · exact .inr told
  notify up host := by
    refine ⟨Registry.placed_apply (.setConnected id up host.relay.clock),
      fun placed other apart => ?_, fun placed => .inr (marks_notify placed id up)⟩
    exact (Registry.marks_apply placed (.setConnected id up host.relay.clock) other).trans
      (if_neg apart)
  perform op host := by
    cases op <;> exact ⟨fun placed => placed, fun _ _ _ => rfl, fun _ => .inl ⟨rfl, rfl⟩⟩
  report event thrown host :=
    ⟨fun placed => placed, fun _ _ _ => rfl, fun _ => .inl ⟨rfl, rfl⟩⟩

/-- The registry notes of each target what one of its links says of itself. -/
structure Spoken (s : Sessions L τ n) : Prop where
  placed : s.relay.registry.Placed
  said : ∀ i, ∃ j, (s.links j).id = (s.links i).id ∧
    (s.links j).connected = s.relay.registry.marks (s.links i).id

theorem carried_fire (react : Link.Behaviour L τ) (depth : Nat) (event : ConnectionEvent)
    (link : Link L) (relay : Relay) (own : τ) :
    (link.fire depth react event relay own).link.id = link.id ∧
      Carried link.id ⟨link.connected, relay, own⟩
        ⟨(link.fire depth react event relay own).link.connected,
          (link.fire depth react event relay own).relay,
          (link.fire depth react event relay own).own⟩ :=
  ⟨rfl, Dispatcher.dispatch_keeps (wiring_keeps link.id react) depth event
    (link.dispatcher relay own)⟩

/-- Whatever a link announces, it has announced last, and the others are as they were. -/
theorem Spoken.fire {react : Link.Behaviour L τ} {s : Sessions L τ n} (spoken : s.Spoken)
    (i : Fin n) (event : ConnectionEvent) (depth : Nat) :
    (s.step react (.fire i event depth)).Spoken := by
  obtain ⟨sameId, carried⟩ := carried_fire react depth event (s.links i) s.relay s.own
  rw [step]
  generalize (s.links i).fire depth react event s.relay s.own = after at sameId carried
  have ids (j : Fin n) : (Function.update s.links i after.link j).id = (s.links j).id := by
    by_cases here : j = i
    · rw [here, Function.update_self, sameId]
    · rw [Function.update_of_ne here]
  have marks := carried.noted spoken.placed
  refine ⟨carried.placed spoken.placed, fun k => ?_⟩
  dsimp only at marks ⊢
  rw [ids]
  obtain ⟨j, same, said⟩ := spoken.said k
  by_cases shared : (s.links k).id = (s.links i).id
  · obtain ⟨flag, mark⟩ | told := marks
    · refine ⟨j, (ids j).trans same, ?_⟩
      rw [shared, mark, ← shared, ← said]
      by_cases here : j = i
      · rw [here, Function.update_self, flag]
      · rw [Function.update_of_ne here]
    · refine ⟨i, (ids i).trans shared.symm, ?_⟩
      rw [Function.update_self, shared, told]
  · have apart : j ≠ i := fun here => shared (same.symm.trans (congrArg (s.links · |>.id) here))
    refine ⟨j, (ids j).trans same, ?_⟩
    rw [Function.update_of_ne apart, said]
    exact (carried.apart spoken.placed _ shared).symm

omit [DecidableEq L] in
/-- Operations on the registry leave the marks alone, unless they make or remove one. -/
theorem Spoken.operate {s : Sessions L τ n} (spoken : s.Spoken) {op : Registry.Operation}
    (keeps : ∀ id held, op.marked id held = held) :
    Spoken { s with relay := s.relay.perform op } where
  placed := Registry.placed_apply op spoken.placed
  said i := by
    obtain ⟨j, same, said⟩ := spoken.said i
    refine ⟨j, same, said.trans ?_⟩
    change _ = (op.apply s.relay.registry).marks _
    rw [Registry.marks_apply spoken.placed, keeps]

theorem Reachable.spoken {react : Link.Behaviour L τ} {s : Sessions L τ n}
    (reachable : s.Reachable react) : s.Spoken := by
  induction reachable with
  | opened shardCount positive empty down =>
    refine ⟨empty ▸ Registry.placed_empty shardCount positive, fun i => ⟨i, rfl, ?_⟩⟩
    rw [down, empty, Registry.marks_empty]
  | after act _ ih =>
    cases act with
    | fire i event depth => exact ih.fire i event depth
    | register id name => exact ih.operate fun _ _ => rfl
    | unregister id name => exact ih.operate fun _ _ => rfl
    | report id fix => exact ih.operate fun _ _ => rfl
    | sweep now timeout => exact ih.operate fun _ _ => rfl
    | turn clock => exact ⟨ih.placed, ih.said⟩

/-- What the registry tells of links. -/
structure Told (s : Sessions L τ n) : Prop where
  /-- Of each target it says what one of its links says. -/
  said : ∀ i, ∃ j, (s.links j).id = (s.links i).id ∧
    (s.links j).connected = s.relay.registry.marks (s.links i).id
  /-- Where all links of a target agree, it agrees with them; so it does where there is only one. -/
  agreed : ∀ i up, (∀ j, (s.links j).id = (s.links i).id → (s.links j).connected = up) →
    s.relay.registry.marks (s.links i).id = up
  /-- As long as they are all up, the target is known and no sweep forgets it. -/
  retained : ∀ i, (∀ j, (s.links j).id = (s.links i).id → (s.links j).connected = true) →
    (s.relay.registry.find? (s.links i).id).isSome ∧
    ∀ now timeout, (s.relay.registry.sweep now timeout).2.find? (s.links i).id =
      s.relay.registry.find? (s.links i).id

theorem told_of_reachable {react : Link.Behaviour L τ} {s : Sessions L τ n}
    (reachable : s.Reachable react) : s.Told := by
  have spoken := reachable.spoken
  have agreed (i : Fin n) (up : Bool)
      (all : ∀ j, (s.links j).id = (s.links i).id → (s.links j).connected = up) :
      s.relay.registry.marks (s.links i).id = up := by
    obtain ⟨j, same, said⟩ := spoken.said i
    rw [← said, all j same]
  refine ⟨spoken.said, agreed, fun i all => ⟨?_, fun now timeout => ?_⟩⟩
  · exact Option.isSome_of_any (agreed i true all)
  · exact Registry.find?_sweep_of_marks spoken.placed (agreed i true all) now timeout

/-! ### Links that share a target -/

/-- A link that announces a state has the last word on its target, whatever its listeners do. -/
theorem Reachable.marks_fire {react : Link.Behaviour L τ} {s : Sessions L τ n}
    (reachable : s.Reachable react) (i : Fin n) {event : ConnectionEvent} {up : Bool}
    (announces : event.announces? = some up) (depth : Nat) :
    (s.step react (.fire i event depth)).relay.registry.marks (s.links i).id =
      ((s.step react (.fire i event depth)).links i).connected := by
  have placed := reachable.spoken.placed
  have told : Carried (s.links i).id
      (LinkHost.notify (s.links i).id up ⟨(s.links i).connected, s.relay, s.own⟩) _ :=
    Dispatcher.dispatch_keeps_of_announces (wiring_keeps (s.links i).id react) depth announces
      ((s.links i).dispatcher s.relay s.own)
  rw [step]
  dsimp only
  rw [Function.update_self]
  obtain ⟨flag, mark⟩ | mark :=
    told.noted (Registry.placed_apply (.setConnected (s.links i).id up s.relay.clock) placed)
  · exact mark.trans ((marks_notify placed (s.links i).id up).trans flag.symm)
  · exact mark

/-- Once it is down, the target does not count as connected, however many other links of the same
target are still up. -/
theorem Reachable.unmarked_of_down {react : Link.Behaviour L τ} {s : Sessions L τ n}
    (reachable : s.Reachable react) {i j : Fin n} (apart : j ≠ i)
    (shared : (s.links j).id = (s.links i).id) {event : ConnectionEvent} {up : Bool}
    (announces : event.announces? = some up) (depth : Nat)
    (down : ((s.step react (.fire i event depth)).links i).connected = false) :
    (s.step react (.fire i event depth)).links j = s.links j ∧
      (s.step react (.fire i event depth)).relay.registry.marks (s.links j).id = false := by
  refine ⟨Function.update_of_ne apart _ _, ?_⟩
  rw [shared, reachable.marks_fire i announces depth, down]

/-! ### Without listeners -/

/-- Links that are not up, over a relay that knows of nothing. -/
def fresh (ids : Fin n → Identifier) : Sessions Empty Unit n :=
  ⟨fun i => ⟨ids i, false, []⟩, ⟨.empty 1 Nat.one_pos, .opened, 0⟩, ()⟩

def silent : Link.Behaviour Empty Unit := fun _ _ _ => .done

theorem fresh_reachable (ids : Fin n → Identifier) : (fresh ids).Reachable silent :=
  .opened 1 Nat.one_pos rfl fun _ => rfl

/-- Two links of one target come up, and the first goes down and comes up again: the target counts as
connected and is not forgotten. -/
theorem told_of_two_links :
    let s := (fresh fun _ : Fin 2 => .zero).run silent
      [.fire 0 (.connected "" false) 0, .fire 1 (.connected "" false) 0,
        .fire 0 (.disconnected .goingAway) 0, .fire 0 (.connected "" true) 0]
    s.Told ∧ (∀ i, (s.links i).connected = true) ∧ s.relay.registry.marks .zero = true ∧
      ((s.relay.registry.sweep 1001 1000).2.find? .zero).isSome :=
  ⟨told_of_reachable ((fresh_reachable _).run _), by decide +kernel⟩

/-- A link that has been replaced goes down after its successor has come up, and the target of a
link that is up does not count as connected any more: it may be forgotten. -/
theorem successor_lost :
    let s := (fresh fun _ : Fin 2 => .zero).run silent
      [.fire 0 (.connected "" false) 0, .fire 1 (.connected "" false) 0,
        .fire 0 (.disconnected .duplicateConnect) 0]
    s.Reachable silent ∧ (s.links 1).id = .zero ∧ (s.links 1).connected = true ∧
      s.relay.registry.marks .zero = false ∧
      (s.relay.registry.find? .zero).any (·.expired 1001 1000) :=
  ⟨(fresh_reachable _).run _, by decide⟩

end Sessions
end VesselRelay
