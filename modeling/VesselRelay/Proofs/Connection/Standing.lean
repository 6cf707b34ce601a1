import VesselRelay.Proofs.Connection.Attendance
import VesselRelay.Proofs.Connection.Sessions

/-!
A link that has its target to itself. Of the events that announce a state, the one that was the last
to begin tells what the link says of itself, and the registry counts the target as connected just
where the link says so. Every listener finds it so when it is called: in whichever event, however
deep, and also where an event that another listener has fired in between has turned the state.
-/
namespace VesselRelay

/-- The state that was announced last; before that, a link is not up. -/
def lastAnnounced (begun : List ConnectionEvent) : Bool :=
  (begun.findSome? ConnectionEvent.announces?).getD false

theorem lastAnnounced_of_none {event : ConnectionEvent} (announces : event.announces? = none)
    (begun : List ConnectionEvent) : lastAnnounced (event :: begun) = lastAnnounced begun := by
  rw [lastAnnounced, List.findSome?_cons, announces]
  rfl

theorem lastAnnounced_of_some {event : ConnectionEvent} {up : Bool}
    (announces : event.announces? = some up) (begun : List ConnectionEvent) :
    lastAnnounced (event :: begun) = up := by
  rw [lastAnnounced, List.findSome?_cons, announces]
  rfl

/-! ### What others leave alone -/

/-- Operations that do not set the mark of a target and do not remove it. -/
def Registry.Operation.Spares (id : Identifier) : Registry.Operation → Prop
  | setConnected i _ _ => i ≠ id
  | remove i => i ≠ id
  | register _ _ _ | unregister _ _ _ | report _ _ _ | sweep _ _ => True

theorem Registry.Operation.Spares.marked {id : Identifier} {op : Registry.Operation}
    (spares : op.Spares id) (held : Bool) : op.marked id held = held := by
  cases op with
  | setConnected i value now => exact if_neg fun same => spares same.symm
  | remove i => exact if_neg fun same => spares same.symm
  | _ => rfl

/-- A registry after operations that spare a target. -/
inductive Registry.SparedFrom (id : Identifier) (r : Registry) : Registry → Prop
  | same : SparedFrom id r r
  | after {r' : Registry} (op : Operation) (spares : op.Spares id) :
      SparedFrom id r r' → SparedFrom id r (op.apply r')

theorem Registry.SparedFrom.marks {id : Identifier} {r r' : Registry}
    (spared : r.SparedFrom id r') (placed : r.Placed) :
    r'.Placed ∧ r'.marks id = r.marks id := by
  induction spared with
  | same => exact ⟨placed, rfl⟩
  | after op spares _ ih =>
    exact ⟨placed_apply op ih.1, (marks_apply ih.1 op id).trans ((spares.marked _).trans ih.2)⟩

/-- What is done around a link by others: its flag stays, and its target is spared. -/
structure Apart {τ : Type} (id : Identifier) (before after : LinkHost τ) : Prop where
  flag : after.connected = before.connected
  registry : before.relay.registry.SparedFrom id after.relay.registry

/-- A wiring of a link's listeners who leave the mark of its target to the link. -/
structure Wiring.Serves {L ω τ : Type} (id : Identifier) (w : Wiring L ω (LinkHost τ)) :
    Prop where
  notify : ∀ up host, w.notify up host = (none, host.notify id up)
  perform : ∀ op host, Apart id host (w.perform op host)
  report : ∀ event thrown host, Apart id host (w.report event thrown host)

theorem Link.serves_wiring {L τ : Type} (id : Identifier) (react : Link.Behaviour L τ) :
    (Link.wiring id react).Serves id where
  notify _ _ := rfl
  perform op _ := by cases op <;> exact ⟨rfl, .same⟩
  report _ _ _ := ⟨rfl, .same⟩

/-! ### Flag and mark -/

/-- The flag of a link is what was announced last, and the registry has the same. -/
structure Standing {τ : Type} (id : Identifier) (begun : List ConnectionEvent)
    (host : LinkHost τ) : Prop where
  placed : host.relay.registry.Placed
  flag : host.connected = lastAnnounced begun
  marks : host.relay.registry.marks id = host.connected

section
variable {L ω τ : Type} {id : Identifier} {begun : List ConnectionEvent} {host host' : LinkHost τ}

theorem Standing.apart (standing : Standing id begun host) (apart : Apart id host host') :
    Standing id begun host' := by
  obtain ⟨placed, marks⟩ := apart.registry.marks standing.placed
  refine ⟨placed, apart.flag.trans standing.flag, ?_⟩
  rw [marks, standing.marks, apart.flag]

theorem Wiring.Serves.upholds {w : Wiring L ω (LinkHost τ)} (serves : w.Serves id) :
    w.Upholds (Standing id) where
  perform op standing := standing.apart (serves.perform op _)
  report event thrown standing := standing.apart (serves.report event thrown _)
  plain announces standing :=
    ⟨standing.placed, standing.flag.trans (lastAnnounced_of_none announces _).symm,
      standing.marks⟩
  announced {begun host event up} announces standing := by
    rw [serves.notify]
    exact ⟨Registry.placed_apply (.setConnected id up host.relay.clock) standing.placed,
      (lastAnnounced_of_some announces begun).symm, Sessions.marks_notify standing.placed id up⟩

end

/-! ### Runs -/

section
variable {L ω τ : Type} [DecidableEq L] {id : Identifier} {w : Wiring L ω (LinkHost τ)}

/-- An event comes to a link whose diary is kept, and is dispatched. -/
def Dispatcher.attend (w : Wiring L ω (LinkHost τ)) (depth : Nat) (event : ConnectionEvent)
    (d : Dispatcher L (Diary L (LinkHost τ))) : Dispatcher L (Diary L (LinkHost τ)) :=
  (dispatch (w.attended depth) depth event
    { d with host.begun := event :: d.host.begun }).2

/-- What a new link over a new registry may come to. -/
inductive Attended (id : Identifier) (w : Wiring L ω (LinkHost τ)) :
    Dispatcher L (Diary L (LinkHost τ)) → Prop
  | opened (listeners : List L) (host : LinkHost τ) (shardCount : Nat) (positive : 0 < shardCount)
      (empty : host.relay.registry = .empty shardCount positive)
      (down : host.connected = false) : Attended id w ⟨listeners, ⟨host, 0, [], []⟩⟩
  /-- Its listeners may fire more events, to a depth. -/
  | event {d} (depth : Nat) (event : ConnectionEvent) :
      Attended id w d → Attended id w (d.attend w depth event)
  /-- Between events its list may be changed as well, -/
  | edited {d} (listeners : List L) : Attended id w d → Attended id w { d with listeners }
  /-- and others may do what they do. -/
  | besides {d} (host : LinkHost τ) (apart : Apart id d.host.host host) :
      Attended id w d → Attended id w { d with host.host := host }

/-- What listeners find, and that the diary makes no difference. -/
structure Found (id : Identifier) (w : Wiring L ω (LinkHost τ))
    (d : Dispatcher L (Diary L (LinkHost τ))) : Prop where
  flag : ∀ moment ∈ d.host.moments, moment.host.connected = lastAnnounced moment.begun
  registry : ∀ moment ∈ d.host.moments,
    moment.host.relay.registry.marks id = moment.host.connected
  unattended : ∀ depth event,
    (d.attend w depth event).unattended = (Dispatcher.dispatch w depth event d.unattended).2

/-- The diary as it stands between events. -/
structure Composed (id : Identifier) (diary : Diary L (LinkHost τ)) : Prop where
  level : diary.level = 0
  kept : diary.Kept (Standing id)

theorem attend_attends (serves : w.Serves id) {d : Dispatcher L (Diary L (LinkHost τ))}
    (composed : Composed id d.host) (depth : Nat) (event : ConnectionEvent) :
    (d.attend w depth event).unattended = (Dispatcher.dispatch w depth event d.unattended).2 ∧
      Composed id (d.attend w depth event).host := by
  have held : d.host.level + depth = depth := by rw [composed.level, Nat.zero_add]
  obtain ⟨same, level, kept⟩ := Dispatcher.dispatch_attends serves.upholds event
    (d := { d with host.begun := event :: d.host.begun }) held
  have room : d.host.level ≤ depth := composed.level ▸ Nat.zero_le depth
  refine ⟨(congrArg Prod.snd same).symm, level.trans composed.level, kept ?_⟩
  exact (if_pos room).mpr ⟨d.host.begun, rfl, composed.kept⟩

theorem Attended.composed (serves : w.Serves id) {d : Dispatcher L (Diary L (LinkHost τ))}
    (attended : Attended id w d) : Composed id d.host := by
  induction attended with
  | opened listeners host shardCount positive empty down =>
    refine ⟨rfl, ⟨empty ▸ Registry.placed_empty shardCount positive, down, ?_⟩,
      fun _ none => nomatch none⟩
    rw [down, empty, Registry.marks_empty]
  | event depth event _ ih => exact (attend_attends serves ih depth event).2
  | edited listeners _ ih => exact ih
  | besides host apart _ ih => exact ⟨ih.level, ih.kept.now.apart apart, ih.kept.calls⟩

theorem found_of_attended (serves : w.Serves id) {d : Dispatcher L (Diary L (LinkHost τ))}
    (attended : Attended id w d) : Found id w d := by
  have composed := attended.composed serves
  exact {
    flag := fun moment called => (composed.kept.calls moment called).flag
    registry := fun moment called => (composed.kept.calls moment called).marks
    unattended := fun depth event => (attend_attends serves composed depth event).1 }

end

/-! ### A listener that hangs up -/

/-- On being connected, one of two listeners sends a text, takes the connection down and throws; the
other one does nothing. -/
def hangUp : Link.Behaviour Bool Unit
  | true, .connected _ _, _ =>
    .fire (.textSent "") (.fire (.disconnected .normal) (.throw .foreign))
  | _, _, _ => .done

/-- The other listener still has to be told of the connection when it is down already. -/
theorem found_after_hangUp :
    let w := Link.wiring .zero hangUp
    let d : Dispatcher Bool (Diary Bool (LinkHost Unit)) :=
      ⟨[true, false], ⟨⟨false, ⟨.empty 1 Nat.one_pos, .opened, 0⟩, ()⟩, 0, [], []⟩⟩
    w.Serves .zero ∧ Attended .zero w (d.attend w 1 (.connected "" false)) ∧
      Found .zero w (d.attend w 1 (.connected "" false)) ∧
      (d.attend w 1 (.connected "" false)).host.moments.map
        (fun moment => (moment.listener, moment.event.name, moment.host.connected)) =
          [(true, "connected", true), (true, "text_message_sent", true),
            (false, "text_message_sent", true), (true, "disconnected", false),
            (false, "disconnected", false), (false, "connected", false)] := by
  intro w d
  have serves := Link.serves_wiring .zero hangUp
  have attended : Attended .zero w (d.attend w 1 (.connected "" false)) :=
    (Attended.opened _ _ 1 Nat.one_pos rfl rfl).event 1 (.connected "" false)
  exact ⟨serves, attended, found_of_attended serves attended, by decide⟩

end VesselRelay
