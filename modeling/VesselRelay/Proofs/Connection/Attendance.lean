import VesselRelay.Proofs.Connection.Dispatching

/-!
What listeners find when they are called. A diary is kept, by the same dispatcher with the same
listeners, of the events that have begun and of each call with the surroundings that it was made in.
What holds between these and is upheld by all that a dispatcher does, every listener finds upheld,
however deep events are fired by listeners.
-/
namespace VesselRelay

/-- A call of a listener: what it was made in, and which events had begun, the latest first. -/
structure Moment (L σ : Type) where
  listener : L
  event : ConnectionEvent
  begun : List ConnectionEvent
  host : σ

/-- Surroundings in which a diary is kept. -/
structure Diary (L σ : Type) where
  host : σ
  /-- How many of the events fired by listeners are not settled. -/
  level : Nat
  begun : List ConnectionEvent
  moments : List (Moment L σ)

namespace Diary
variable {L σ : Type}

/-- An event that a listener fires begins, unless firing has come to the depth that it is held
to. -/
def saw (depth : Nat) (sight : Sight L) (diary : Diary L σ) : Diary L σ :=
  match sight with
  | .called listener event => { diary with
      moments := diary.moments ++ [⟨listener, event, diary.begun, diary.host⟩] }
  | .fired event => { diary with
      level := diary.level + 1
      begun := if diary.level < depth then event :: diary.begun else diary.begun }
  | .settled _ _ => { diary with level := diary.level - 1 }
  | _ => diary

/-- Something holds now between the events that have begun and the surroundings, and held at every
call. -/
structure Kept (Good : List ConnectionEvent → σ → Prop) (diary : Diary L σ) : Prop where
  now : Good diary.begun diary.host
  calls : ∀ moment ∈ diary.moments, Good moment.begun moment.host

/-- It held until an event was fired. -/
def Due (Good : List ConnectionEvent → σ → Prop) (depth : Nat) (event : ConnectionEvent)
    (diary : Diary L σ) : Prop :=
  if diary.level ≤ depth then
    ∃ begun, diary.begun = event :: begun ∧ Kept Good { diary with begun }
  else diary.Kept Good

theorem Kept.called {Good : List ConnectionEvent → σ → Prop} {diary : Diary L σ}
    (kept : diary.Kept Good) (depth : Nat) (listener : L) (event : ConnectionEvent) :
    (diary.saw depth (.called listener event)).Kept Good where
  now := kept.now
  calls := List.forall_mem_append.mpr ⟨kept.calls, List.forall_mem_singleton.mpr kept.now⟩

theorem Kept.fired {Good : List ConnectionEvent → σ → Prop} {diary : Diary L σ}
    (kept : diary.Kept Good) (depth : Nat) (event : ConnectionEvent) :
    (diary.saw depth (.fired event)).Due Good depth event := by
  by_cases room : diary.level < depth
  · refine (if_pos room).mpr ⟨diary.begun, if_pos room, ⟨kept.now, kept.calls⟩⟩
  · have begun : (diary.saw depth (.fired event)).begun = diary.begun := if_neg room
    exact (if_neg room).mpr ⟨begun ▸ kept.now, kept.calls⟩

end Diary

/-- The same listeners in surroundings where a diary is kept. -/
def Wiring.attended {L ω σ : Type} (depth : Nat) (w : Wiring L ω σ) :
    Wiring L (ω ⊕ Sight L) (Diary L σ) where
  notify up diary :=
    let (thrown, host) := w.notify up diary.host
    (thrown, { diary with host })
  react l event diary :=
    Script.see (.called l event) (.guarded (w.react l event diary.host).watched fun thrown =>
      Script.see (.ended l event thrown) (Script.resume .done thrown))
  perform
    | .inl op, diary => { diary with host := w.perform op diary.host }
    | .inr sight, diary => diary.saw depth sight
  answer
    | .inl op, diary => w.answer op diary.host
    | .inr _, _ => false
  report event thrown diary := { diary with host := w.report event thrown diary.host }

/-- What every step of a dispatcher upholds between the events that have begun and the
surroundings. An event that announces a state upholds it by the callback. -/
structure Wiring.Upholds {L ω σ : Type} (w : Wiring L ω σ)
    (Good : List ConnectionEvent → σ → Prop) : Prop where
  perform : ∀ {begun host} op, Good begun host → Good begun (w.perform op host)
  report : ∀ {begun host} event thrown,
    Good begun host → Good begun (w.report event thrown host)
  plain : ∀ {begun host event}, event.announces? = none → Good begun host →
    Good (event :: begun) host
  announced : ∀ {begun host event up}, event.announces? = some up → Good begun host →
    Good (event :: begun) (w.notify up host).2

namespace Dispatcher
variable {L ω σ : Type} [DecidableEq L]

def unattended (d : Dispatcher L (Diary L σ)) : Dispatcher L σ := ⟨d.listeners, d.host.host⟩

/-- A phase comes to the same attended and unattended. Where the diary was ready for it, what is
upheld is upheld in it and after it. -/
structure Attends (Good : List ConnectionEvent → σ → Prop) (ready : Prop) (level : Nat)
    (attended : Outcome L (Diary L σ)) (bare : Outcome L σ) : Prop where
  same : bare = (attended.1, attended.2.unattended)
  level : attended.2.host.level = level
  kept : ready → attended.2.host.Kept Good

/-- What is fired from a level is attended. -/
def FiresAttended (Good : List ConnectionEvent → σ → Prop) (depth level : Nat)
    (attended : ConnectionEvent → Dispatcher L (Diary L σ) → Outcome L (Diary L σ))
    (fire : ConnectionEvent → Dispatcher L σ → Outcome L σ) : Prop :=
  ∀ event d, d.host.level = level + 1 →
    Attends Good (d.host.Due Good depth event) (level + 1) (attended event d)
      (fire event d.unattended)

omit [DecidableEq L] in
theorem Attends.of_ready {Good : List ConnectionEvent → σ → Prop} {ready ready' : Prop}
    {level level' : Nat} {attended : Outcome L (Diary L σ)} {bare : Outcome L σ}
    (attends : Attends Good ready level attended bare) (same : level = level')
    (comes : ready' → ready) : Attends Good ready' level' attended bare :=
  ⟨attends.same, attends.level.trans same, attends.kept ∘ comes⟩

/-! ### Scripts -/

section
variable {depth : Nat} {w : Wiring L ω σ} {Good : List ConnectionEvent → σ → Prop}
  {attended : ConnectionEvent → Dispatcher L (Diary L σ) → Outcome L (Diary L σ)}
  {fire : ConnectionEvent → Dispatcher L σ → Outcome L σ}

theorem run_attended_fire (event : ConnectionEvent) (next : Script L ω)
    (d : Dispatcher L (Diary L σ)) :
    run (w.attended depth) attended (Script.fire event next).watched d =
      (let fired := attended event ⟨d.listeners, d.host.saw depth (.fired event)⟩
      run (w.attended depth) attended (next.watched.resume fired.1)
        ⟨fired.2.listeners, fired.2.host.saw depth (.settled event fired.1)⟩) :=
  run_fire_watched (w.attended depth) attended event next d

theorem run_attends (upholds : w.Upholds Good) (script : Script L ω)
    {d : Dispatcher L (Diary L σ)}
    (fires : FiresAttended Good depth d.host.level attended fire) :
    Attends Good (d.host.Kept Good) d.host.level
      (run (w.attended depth) attended script.watched d) (run w fire script d.unattended) := by
  induction script generalizing d with
  | done => exact ⟨rfl, rfl, id⟩
  | throw thrown => exact ⟨rfl, rfl, id⟩
  | perform op next ih =>
    obtain ⟨same, level, kept⟩ :=
      ih (d := { d with host.host := w.perform op d.host.host }) fires
    exact ⟨same, level, fun ready => kept ⟨upholds.perform op ready.now, ready.calls⟩⟩
  | consult op next ih =>
    obtain ⟨same, level, kept⟩ :=
      ih _ (d := { d with host.host := w.perform op d.host.host }) fires
    exact ⟨same, level, fun ready => kept ⟨upholds.perform op ready.now, ready.calls⟩⟩
  | add listener next ih =>
    cases listener with
    | none => exact ⟨rfl, rfl, id⟩
    | some l =>
      rw [Script.watched, run, run, add_some, add_some]
      exact ih (d := { d with
        listeners := if l ∈ d.listeners then d.listeners else d.listeners ++ [l] }) fires
  | remove listener next ih =>
    cases listener with
    | none => exact ih false fires
    | some l =>
      exact ih _ (d := { d with listeners := d.listeners.filter (· ≠ l) }) fires
  | count next ih => exact ih _ fires
  | fire event next ih =>
    -- Whatever the dispatch throws, the script goes on or ends from what was kept after it.
    have rest (thrown : Option Thrown) (d' : Dispatcher L (Diary L σ))
        (level : d'.host.level = d.host.level) :
        Attends Good (d'.host.Kept Good) d'.host.level
          (run (w.attended depth) attended (next.watched.resume thrown) d')
          (run w fire (next.resume thrown) d'.unattended) := by
      cases thrown with
      | none => exact ih (level ▸ fires)
      | some thrown => exact ⟨rfl, rfl, id⟩
    obtain ⟨same, level, kept⟩ :=
      fires event ⟨d.listeners, d.host.saw depth (.fired event)⟩ rfl
    change fire event d.unattended = _ at same
    rw [run_attended_fire, run_fire, same]
    dsimp only
    generalize attended event ⟨d.listeners, d.host.saw depth (.fired event)⟩ = out at *
    have settled : (out.2.host.saw depth (.settled event out.1)).level = d.host.level := by
      change out.2.host.level - 1 = _
      rw [level, Nat.add_sub_cancel]
    refine (rest out.1 ⟨_, out.2.host.saw depth (.settled event out.1)⟩ settled).of_ready settled
      fun ready => ?_
    have after := kept (ready.fired depth event)
    exact ⟨after.now, after.calls⟩
  | guarded body next ihBody ih =>
    obtain ⟨same, level, kept⟩ := ihBody fires
    rw [Script.watched, run, run, same]
    exact (ih _ (level ▸ fires)).of_ready level kept

/-! ### Calls -/

/-- What a listener finds is noted down before it does anything. -/
theorem call_attends (upholds : w.Upholds Good) (l : L) (event : ConnectionEvent)
    {d : Dispatcher L (Diary L σ)}
    (fires : FiresAttended Good depth d.host.level attended fire) :
    Attends Good (d.host.Kept Good) d.host.level
      (none, call (w.attended depth) attended event d l) (none, call w fire event d.unattended l)
      := by
  obtain ⟨same, level, kept⟩ := run_attends upholds (w.react l event d.host.host)
    (d := ⟨d.listeners, d.host.saw depth (.called l event)⟩) fires
  change run w fire (w.react l event d.unattended.host) d.unattended = _ at same
  have called : run (w.attended depth) attended ((w.attended depth).react l event d.host) d =
      (let body := run (w.attended depth) attended (w.react l event d.host.host).watched
        ⟨d.listeners, d.host.saw depth (.called l event)⟩
      run (w.attended depth) attended (Script.done.resume body.1) body.2) := rfl
  rw [call, call, called, same]
  generalize run (w.attended depth) attended (w.react l event d.host.host).watched _ = out at *
  obtain ⟨_ | thrown, d'⟩ := out
  · exact ⟨rfl, level, fun ready => kept (ready.called depth l event)⟩
  · refine ⟨rfl, level, fun ready => ?_⟩
    have after := kept (ready.called depth l event)
    exact ⟨upholds.report event thrown after.now, after.calls⟩

theorem round_attends (upholds : w.Upholds Good) (due : List L) (event : ConnectionEvent)
    {d : Dispatcher L (Diary L σ)}
    (fires : FiresAttended Good depth d.host.level attended fire) :
    Attends Good (d.host.Kept Good) d.host.level
      (none, due.foldl (call (w.attended depth) attended event) d)
      (none, due.foldl (call w fire event) d.unattended) := by
  induction due generalizing d with
  | nil => exact ⟨rfl, rfl, id⟩
  | cons l due ih =>
    obtain ⟨same, level, kept⟩ := call_attends upholds l event fires
    rw [List.foldl_cons, List.foldl_cons, (Prod.mk.inj same).2]
    exact (ih (level ▸ fires)).of_ready level kept

/-! ### Dispatches -/

theorem deliver_attends (upholds : w.Upholds Good) (event : ConnectionEvent)
    {d : Dispatcher L (Diary L σ)} (room : d.host.level ≤ depth)
    (fires : FiresAttended Good depth d.host.level attended fire) :
    Attends Good (d.host.Due Good depth event) d.host.level
      (deliver (w.attended depth) attended event d) (deliver w fire event d.unattended) := by
  cases announces : event.announces? with
  | none =>
    rw [deliver_of_none announces, deliver_of_none announces]
    refine (round_attends upholds d.listeners event fires).of_ready rfl fun due => ?_
    obtain ⟨begun, begins, kept⟩ := (if_pos room).mp due
    exact ⟨begins ▸ upholds.plain announces kept.now, kept.calls⟩
  | some up =>
    obtain ⟨thrown, host, told⟩ :
        ∃ thrown host, w.notify up d.unattended.host = (thrown, host) := ⟨_, _, rfl⟩
    have toldAttended : (w.attended depth).notify up d.host = (thrown, { d.host with host }) :=
      congrArg (fun out : Option Thrown × σ => (out.1, { d.host with host := out.2 })) told
    have noted (due : d.host.Due Good depth event) :
        ({ d.host with host } : Diary L σ).Kept Good := by
      obtain ⟨begun, begins, kept⟩ := (if_pos room).mp due
      have left : (w.notify up d.host.host).2 = host := congrArg Prod.snd told
      exact ⟨begins ▸ left ▸ upholds.announced announces kept.now, kept.calls⟩
    rw [deliver_of_some announces told, deliver_of_some announces toldAttended]
    cases thrown with
    | some thrown => exact ⟨rfl, rfl, noted⟩
    | none =>
      exact (round_attends upholds d.listeners event (d := ⟨d.listeners, { d.host with host }⟩)
        fires).of_ready rfl noted

end

theorem dispatch_attends {w : Wiring L ω σ} {Good : List ConnectionEvent → σ → Prop}
    (upholds : w.Upholds Good) {depth fuel : Nat} (event : ConnectionEvent)
    {d : Dispatcher L (Diary L σ)} (held : d.host.level + fuel = depth) :
    Attends Good (d.host.Due Good depth event) d.host.level
      (dispatch (w.attended depth) fuel event d) (dispatch w fuel event d.unattended) := by
  induction fuel generalizing event d with
  | zero =>
    refine deliver_attends upholds event (by omega) fun event d' above => ?_
    -- What is fired at this depth is dropped, and has not begun.
    have beyond : ¬ d'.host.level ≤ depth := by omega
    exact ⟨rfl, above, fun due => (if_neg beyond).mp due⟩
  | succ fuel ih =>
    exact deliver_attends upholds event (by omega) fun event d' above =>
      above ▸ ih event (by omega)

end Dispatcher
end VesselRelay
