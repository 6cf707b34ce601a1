import VesselRelay.Proofs.Connection.Account
import VesselRelay.Proofs.Connection.Course

/-!
Every dispatch keeps the order, whatever its listeners do and however deep they nest it. It is shown
together with three things that make it worth something: a dispatcher does the same watched and
unwatched, what is seen accounts for the state of its surroundings, and the depth that firing is
held to makes no difference until it is reached.
-/
namespace VesselRelay.Dispatcher

variable {L ω σ : Type} [DecidableEq L]

/-- Nothing was fired at the depth that firing is held to. -/
def Quiet (depth : Nat) (marks : List (Mark L)) : Prop :=
  ∀ event, ⟨depth, .fired event⟩ ∉ marks

omit [DecidableEq L] in
theorem quiet_append {depth : Nat} {marks later : List (Mark L)} :
    Quiet depth (marks ++ later) ↔ Quiet depth marks ∧ Quiet depth later := by
  simp only [Quiet, List.mem_append, not_or, forall_and]

def unwatched (d : Dispatcher L (Watch L σ)) : Dispatcher L σ := ⟨d.listeners, d.host.host⟩

/-- A dispatcher after something more has been seen of it. -/
def noted (d : Dispatcher L (Watch L σ)) (marks : List (Mark L)) (after : Dispatcher L σ) :
    Dispatcher L (Watch L σ) :=
  ⟨after.listeners, ⟨after.host, d.host.level, d.host.seen ++ marks⟩⟩

/-- A phase is in order, and what is seen of it accounts for the surroundings. What it comes to is
the same watched and unwatched, and also where firing goes deeper, unless it fires at the depth that
it was held to. -/
def InOrder (w : Wiring L ω σ) (depth : Nat) (phase : Option Thrown → Phase L)
    (d : Dispatcher L (Watch L σ)) (watched : Outcome L (Watch L σ)) (bare deeper : Outcome L σ) :
    Prop :=
  ∃ marks, watched = (bare.1, noted d marks bare.2) ∧
    Orderly depth d.host.level (phase bare.1) d.listeners marks bare.2.listeners ∧
    w.Accounts marks d.host.host bare.2.host ∧
    (Quiet depth marks → deeper = bare)

/-- What is fired from a level is in order. -/
def FiresInOrder (w : Wiring L ω σ) (depth level : Nat)
    (watched : ConnectionEvent → Dispatcher L (Watch L σ) → Outcome L (Watch L σ))
    (fire deeper : ConnectionEvent → Dispatcher L σ → Outcome L σ) : Prop :=
  ∀ event d, d.host.level = level + 1 → ∃ marks,
    watched event d = ((fire event d.unwatched).1, noted d marks (fire event d.unwatched).2) ∧
    Orderly depth level .body d.listeners
      (⟨level, .fired event⟩ :: marks ++ [⟨level, .settled event (fire event d.unwatched).1⟩])
      (fire event d.unwatched).2.listeners ∧
    w.Accounts marks d.host.host (fire event d.unwatched).2.host ∧
    (Quiet depth (⟨level, .fired event⟩ :: marks) →
      deeper event d.unwatched = fire event d.unwatched)

/-! ### Scripts -/

section
variable {depth : Nat} {w : Wiring L ω σ}
  {watched : ConnectionEvent → Dispatcher L (Watch L σ) → Outcome L (Watch L σ)}
  {fire deeper : ConnectionEvent → Dispatcher L σ → Outcome L σ}

theorem add_some (l : L) (d : Dispatcher L σ) :
    d.add (some l) =
      .ok { d with listeners := if l ∈ d.listeners then d.listeners else d.listeners ++ [l] } := by
  by_cases known : l ∈ d.listeners
  · simp [add, known]
  · simp [add, known]

theorem run_fire (w : Wiring L ω σ) (fire : ConnectionEvent → Dispatcher L σ → Outcome L σ)
    (event : ConnectionEvent) (next : Script L ω) (d : Dispatcher L σ) :
    run w fire (.fire event next) d =
      run w fire (next.resume (fire event d).1) (fire event d).2 := by
  rw [run]
  obtain ⟨_ | thrown, d'⟩ := fire event d <;> rfl

theorem run_fire_done (w : Wiring L ω σ) (fire : ConnectionEvent → Dispatcher L σ → Outcome L σ)
    (event : ConnectionEvent) (d : Dispatcher L σ) :
    run w fire (.fire event .done) d = fire event d := by
  rw [run_fire]
  obtain ⟨_ | thrown, d'⟩ := fire event d <;> rfl

/-- An event that a listener fires is noted down before it is dispatched and after. -/
theorem run_fire_watched {ν : Type} (v : Wiring L (ω ⊕ Sight L) ν)
    (fire : ConnectionEvent → Dispatcher L ν → Outcome L ν) (event : ConnectionEvent)
    (next : Script L ω) (d : Dispatcher L ν) :
    run v fire (Script.fire event next).watched d =
      (let fired := fire event ⟨d.listeners, v.perform (.inr (.fired event)) d.host⟩
      run v fire (next.watched.resume fired.1)
        ⟨fired.2.listeners, v.perform (.inr (.settled event fired.1)) fired.2.host⟩) :=
  congrArg (fun fired : Outcome L ν => run v fire
    (Script.see (.settled event fired.1) (next.watched.resume fired.1)) fired.2)
    (run_fire_done v fire event ⟨d.listeners, v.perform (.inr (.fired event)) d.host⟩)

theorem run_watched_fire (event : ConnectionEvent) (next : Script L ω)
    (d : Dispatcher L (Watch L σ)) :
    run w.watched watched (Script.fire event next).watched d =
      (let fired := watched event ⟨d.listeners, d.host.saw (.fired event)⟩
      run w.watched watched (next.watched.resume fired.1)
        ⟨fired.2.listeners, fired.2.host.saw (.settled event fired.1)⟩) :=
  run_fire_watched w.watched watched event next d

theorem inOrder_nothing (thrown : Option Thrown) (d : Dispatcher L (Watch L σ)) :
    InOrder w depth (fun _ => .body) d (thrown, d) (thrown, d.unwatched) (thrown, d.unwatched) :=
  ⟨[], by simp [noted, unwatched], .idle, .refl _, fun _ => rfl⟩

/-- What begins in order and goes on in order is in order. -/
theorem InOrder.after {d d' : Dispatcher L (Watch L σ)} {first : List (Mark L)}
    {ran : Outcome L (Watch L σ)} {bare deep deep' : Outcome L σ}
    (rest : InOrder w depth (fun _ => .body) d' ran bare deep')
    (level : d'.host.level = d.host.level) (seen : d'.host.seen = d.host.seen ++ first)
    (did : Orderly depth d.host.level .body d.listeners first d'.listeners)
    (accounts : w.Accounts first d.host.host d'.host.host)
    (same : Quiet depth first → deep = deep') :
    InOrder w depth (fun _ => .body) d ran bare deep := by
  obtain ⟨marks, told, later, accountsLater, deepLater⟩ := rest
  refine ⟨first ++ marks, ?_, did.after (level ▸ later), accounts.append accountsLater,
    fun quiet => ?_⟩
  · rw [told, noted, noted, level, seen, List.append_assoc]
  · obtain ⟨quietFirst, quietLater⟩ := quiet_append.mp quiet
    exact (same quietFirst).trans (deepLater quietLater)

theorem run_inOrder (script : Script L ω) {d : Dispatcher L (Watch L σ)}
    (fires : FiresInOrder w depth d.host.level watched fire deeper) :
    InOrder w depth (fun _ => .body) d (run w.watched watched script.watched d)
      (run w fire script d.unwatched) (run w deeper script d.unwatched) := by
  induction script generalizing d with
  | done => exact inOrder_nothing none d
  | throw thrown => exact inOrder_nothing (some thrown) d
  | perform op next ih =>
    obtain ⟨marks, told, did, accounts, same⟩ :=
      ih (d := { d with host.host := w.perform op d.host.host }) fires
    exact ⟨marks, told, did, accounts.performed op, same⟩
  | consult op next ih =>
    obtain ⟨marks, told, did, accounts, same⟩ := ih (w.answer op d.host.host)
      (d := { d with host.host := w.perform op d.host.host }) fires
    exact ⟨marks, told, did, accounts.performed op, same⟩
  | add listener next ih =>
    cases listener with
    | none => exact inOrder_nothing _ d
    | some l =>
      rw [Script.watched, run, run, run, add_some, add_some]
      exact (ih (d := ⟨_, d.host.saw (.added l)⟩) fires).after rfl rfl .added (.seen _ (.refl _))
        fun _ => rfl
  | remove listener next ih =>
    cases listener with
    | none => exact ih false fires
    | some l =>
      exact (ih _ (d := ⟨_, d.host.saw (.removed l)⟩) fires).after rfl rfl .removed
        (.seen _ (.refl _)) fun _ => rfl
  | count next ih => exact ih _ fires
  | fire event next ih =>
    obtain ⟨marks, told, did, accounts, same⟩ :=
      fires event ⟨d.listeners, d.host.saw (.fired event)⟩ rfl
    have rest (thrown : Option Thrown) (d' : Dispatcher L (Watch L σ))
        (level : d'.host.level = d.host.level) :
        InOrder w depth (fun _ => .body) d' (run w.watched watched (next.watched.resume thrown) d')
          (run w fire (next.resume thrown) d'.unwatched)
          (run w deeper (next.resume thrown) d'.unwatched) := by
      cases thrown with
      | none => exact ih (level ▸ fires)
      | some thrown => exact inOrder_nothing _ _
    rw [run_watched_fire, told, run_fire, run_fire]
    refine (rest _ ⟨_, Watch.saw _ _⟩ rfl).after rfl (by simp [Watch.saw, noted]) did
      ((accounts.seen _).snoc _) fun quiet => ?_
    obtain ⟨quiet, _⟩ := quiet_append.mp quiet
    exact congrArg (fun fired : Outcome L σ => run w deeper (next.resume fired.1) fired.2)
      (same quiet)
  | guarded body next ihBody ih =>
    obtain ⟨marks, told, did, accounts, same⟩ := ihBody fires
    rw [Script.watched, run, run, run, told]
    exact (ih _ (d := noted d marks _) fires).after rfl rfl did accounts fun quiet =>
      congrArg (fun ended : Outcome L σ => run w deeper (next ended.1) ended.2) (same quiet)

/-! ### Calls -/

/-- What a call comes to is told by how its script ended. -/
theorem call_congr {deeper : ConnectionEvent → Dispatcher L σ → Outcome L σ} {l : L}
    {event : ConnectionEvent} {d : Dispatcher L σ}
    (same : run w deeper (w.react l event d.host) d = run w fire (w.react l event d.host) d) :
    call w deeper event d l = call w fire event d l := by
  rw [call, call, same]

/-- A call is noted down with what is done in it, how it ended and what was reported. -/
theorem call_inOrder (l : L) (event : ConnectionEvent) {d : Dispatcher L (Watch L σ)}
    (fires : FiresInOrder w depth d.host.level watched fire deeper) :
    ∃ marks, call w.watched watched event d l =
        noted d marks (call w fire event d.unwatched l) ∧
      (∀ {due later ls}, Orderly depth d.host.level (.round due event)
          (call w fire event d.unwatched l).listeners later ls →
        Orderly depth d.host.level (.round (l :: due) event) d.listeners (marks ++ later) ls) ∧
      w.Accounts marks d.host.host (call w fire event d.unwatched l).host ∧
      (Quiet depth marks →
        call w deeper event d.unwatched l = call w fire event d.unwatched l) := by
  obtain ⟨marks, told, did, accounts, same⟩ := run_inOrder (w.react l event d.host.host)
    (d := ⟨d.listeners, d.host.saw (.called l event)⟩) fires
  have called : run w.watched watched (w.watched.react l event d.host) d =
      (let body := run w.watched watched (w.react l event d.host.host).watched
        ⟨d.listeners, d.host.saw (.called l event)⟩
      run w.watched watched (Script.done.resume body.1)
        ⟨body.2.listeners, body.2.host.saw (.ended l event body.1)⟩) := rfl
  change run w.watched watched _ _ =
    ((run w fire (w.react l event d.unwatched.host) d.unwatched).1,
      noted _ marks (run w fire (w.react l event d.unwatched.host) d.unwatched).2) at told
  change Orderly depth d.host.level .body d.listeners marks
    (run w fire (w.react l event d.unwatched.host) d.unwatched).2.listeners at did
  change w.Accounts marks d.host.host
    (run w fire (w.react l event d.unwatched.host) d.unwatched).2.host at accounts
  have deep (before after : List (Mark L)) (quiet : Quiet depth (before ++ marks ++ after)) :
      call w deeper event d.unwatched l = call w fire event d.unwatched l :=
    call_congr (same (quiet_append.mp (quiet_append.mp quiet).1).2)
  rw [call, called, told]
  obtain ⟨thrown, after, ran⟩ : ∃ thrown after,
      run w fire (w.react l event d.unwatched.host) d.unwatched = (thrown, after) := ⟨_, _, rfl⟩
  rw [ran] at did accounts ⊢
  cases thrown with
  | none =>
    have came : call w fire event d.unwatched l = after := by rw [call, ran]
    refine ⟨[⟨d.host.level, .called l event⟩] ++ marks ++ [⟨d.host.level, .ended l event none⟩],
      ?_, fun rest => ?_, came ▸ (accounts.seen _).snoc _, deep _ _⟩
    · rw [came]
      simp [Script.resume, run, noted, Watch.saw]
    · rw [List.append_assoc]
      exact .returned did (came ▸ rest)
  | some thrown =>
    have came : call w fire event d.unwatched l =
        { after with host := w.report event thrown after.host } := by rw [call, ran]
    refine ⟨[⟨d.host.level, .called l event⟩] ++ marks ++
      [⟨d.host.level, .ended l event (some thrown)⟩, ⟨d.host.level, .logged (thrown.event event)⟩],
      ?_, fun rest => ?_, came ▸ (accounts.seen _).append (.seen _ (.seen _ (.refl _))), deep _ _⟩
    · rw [came]
      simp [Script.resume, run, noted, Watch.saw, Wiring.watched]
    · rw [List.append_assoc]
      rw [came] at rest
      exact .threw did rest

theorem round_inOrder (due : List L) (event : ConnectionEvent) {d : Dispatcher L (Watch L σ)}
    (fires : FiresInOrder w depth d.host.level watched fire deeper) :
    ∃ marks, due.foldl (call w.watched watched event) d =
        noted d marks (due.foldl (call w fire event) d.unwatched) ∧
      Orderly depth d.host.level (.round due event) d.listeners marks
        (due.foldl (call w fire event) d.unwatched).listeners ∧
      w.Accounts marks d.host.host (due.foldl (call w fire event) d.unwatched).host ∧
      (Quiet depth marks → due.foldl (call w deeper event) d.unwatched =
        due.foldl (call w fire event) d.unwatched) := by
  induction due generalizing d with
  | nil => exact ⟨[], by simp [noted, unwatched], .done, .refl _, fun _ => rfl⟩
  | cons l due ih =>
    obtain ⟨marks, told, goesOn, accounts, same⟩ := call_inOrder (w := w) l event fires
    obtain ⟨later, rest, served, accountsLater, sameLater⟩ :=
      ih (d := noted d marks (call w fire event d.unwatched l)) fires
    refine ⟨marks ++ later, ?_, goesOn served, accounts.append accountsLater, fun quiet => ?_⟩
    · rw [List.foldl_cons, List.foldl_cons, told, rest]
      simp [noted, unwatched]
    · obtain ⟨quiet, quietLater⟩ := quiet_append.mp quiet
      rw [List.foldl_cons, List.foldl_cons, same quiet]
      exact sameLater quietLater

/-! ### Dispatches -/

theorem deliver_of_none {event : ConnectionEvent} (announces : event.announces? = none)
    (d : Dispatcher L σ) :
    deliver w fire event d = (none, d.listeners.foldl (call w fire event) d) := by
  rw [deliver, announce, announces]

theorem deliver_of_some {event : ConnectionEvent} {up : Bool} {thrown : Option Thrown} {host : σ}
    {d : Dispatcher L σ} (announces : event.announces? = some up)
    (told : w.notify up d.host = (thrown, host)) :
    deliver w fire event d =
      (thrown, if thrown.isSome then ⟨d.listeners, host⟩
        else d.listeners.foldl (call w fire event) ⟨d.listeners, host⟩) := by
  have announced : announce w event d = (thrown, ⟨d.listeners, host⟩) := by
    simp only [announce, announces, told]
  rw [deliver, announced]
  cases thrown <;> rfl

theorem deliver_inOrder (event : ConnectionEvent) {d : Dispatcher L (Watch L σ)}
    (fires : FiresInOrder w depth d.host.level watched fire deeper) :
    InOrder w depth (.dispatch event) d (deliver w.watched watched event d)
      (deliver w fire event d.unwatched) (deliver w deeper event d.unwatched) := by
  cases announces : event.announces? with
  | none =>
    obtain ⟨marks, told, served, accounts, same⟩ := round_inOrder (w := w) d.listeners event fires
    rw [deliver_of_none announces, deliver_of_none announces, deliver_of_none announces]
    exact ⟨marks, congrArg (Prod.mk none) told, .plain announces served, accounts,
      fun quiet => congrArg (Prod.mk none) (same quiet)⟩
  | some up =>
    obtain ⟨thrown, host, told⟩ :
        ∃ thrown host, w.notify up d.unwatched.host = (thrown, host) := ⟨_, _, rfl⟩
    have toldWatched : w.watched.notify up d.host =
        (thrown, { d.host with host := host }.saw (.notified up thrown)) :=
      congrArg (fun out : Option Thrown × σ =>
        (out.1, { d.host with host := out.2 }.saw (.notified up out.1))) told
    have notified {marks : List (Mark L)} {after : σ} (rest : w.Accounts marks host after) :
        w.Accounts (⟨d.host.level, .notified up thrown⟩ :: marks) d.host.host after := by
      have left : w.undergo d.host.host (.inr ⟨d.host.level, .notified up thrown⟩) = host :=
        congrArg Prod.snd told
      exact .seen _ (left ▸ rest)
    rw [deliver_of_some announces told, deliver_of_some announces told,
      deliver_of_some announces toldWatched]
    cases thrown with
    | some thrown => exact ⟨_, rfl, .refused announces, notified (.refl _), fun _ => rfl⟩
    | none =>
      obtain ⟨marks, served, orderly, accounts, same⟩ := round_inOrder (w := w) d.listeners event
        (d := ⟨d.listeners, { d.host with host := host }.saw (.notified up none)⟩) fires
      refine ⟨_ :: marks, congrArg (Prod.mk none) ?_, .announced announces orderly,
        notified accounts, fun quiet => ?_⟩
      · exact served.trans (by simp [noted, unwatched, Watch.saw])
      · exact congrArg (Prod.mk none) (same fun event fired => quiet event (.tail _ fired))

end

theorem dispatch_inOrder (w : Wiring L ω σ) {depth fuel : Nat} (more : Nat)
    (event : ConnectionEvent) {d : Dispatcher L (Watch L σ)} (held : d.host.level + fuel = depth) :
    InOrder w depth (.dispatch event) d (dispatch w.watched fuel event d)
      (dispatch w fuel event d.unwatched) (dispatch w (fuel + more) event d.unwatched) := by
  induction fuel generalizing event d with
  | zero =>
    obtain rfl : d.host.level = depth := held
    obtain ⟨deeper, opened⟩ : ∃ deeper, dispatch w (0 + more) = deliver w deeper := by
      cases more with
      | zero => exact ⟨_, rfl⟩
      | succ more => exact ⟨_, rfl⟩
    rw [opened]
    exact deliver_inOrder event fun event d' above => ⟨[], by simp [noted, unwatched], .dropped,
      .refl _, fun quiet => absurd (List.mem_singleton_self _) (quiet event)⟩
  | succ fuel ih =>
    rw [Nat.add_right_comm]
    refine deliver_inOrder event fun event d' above => ?_
    obtain ⟨marks, told, did, accounts, same⟩ := ih event (d := d') (by omega)
    exact ⟨marks, told, .fired (by omega) (above ▸ did), accounts, fun quiet =>
      same fun event fired => quiet event (.tail _ fired)⟩

/-! ### What a dispatch keeps to -/

/-- What is kept to by a dispatch of an event, to whichever depth its listeners fire others. -/
structure Kept (w : Wiring L ω σ) (depth : Nat) (event : ConnectionEvent)
    (d : Dispatcher L σ) : Prop where
  /-- It is the same watched and unwatched. -/
  watched : dispatch w.watched depth event d.watch =
    ((dispatch w depth event d).1, ⟨(dispatch w depth event d).2.listeners,
      ⟨(dispatch w depth event d).2.host, 0, course w depth event d⟩⟩)
  /-- The callback, the calls, and all that is fired in them keep the order. -/
  orderly : Orderly depth 0 (.dispatch event (dispatch w depth event d).1) d.listeners
    (course w depth event d) (dispatch w depth event d).2.listeners
  /-- First the callback has its only run, if the event announces a state. Unless it throws, each
  listener that was in the list is then called with the event, in the order of the list. -/
  outline : outline 0 (course w depth event d) =
    event.announces?.toList.map (.notified · (dispatch w depth event d).1) ++
      (if (dispatch w depth event d).1 = none then d.listeners.map (.called · event) else [])
  /-- What is thrown out of it, the callback has thrown. -/
  thrown : (dispatch w depth event d).1 =
    event.announces?.bind fun up => (w.notify up d.host).1
  /-- Calls that throw, at whatever depth, are reported one by one. -/
  reports : (course w depth event d).filterMap Mark.entry? =
    (course w depth event d).filterMap Mark.failure?
  /-- Changes of the list that are made on the way stay. -/
  changes : (course w depth event d).foldl change d.listeners =
    (dispatch w depth event d).2.listeners
  /-- Firing may go deeper as well, unless it goes on at the depth that it is held to. -/
  deeper : Quiet depth (course w depth event d) →
    ∀ more, dispatch w (depth + more) event d = dispatch w depth event d

theorem dispatch_thrown (w : Wiring L ω σ) (depth : Nat) (event : ConnectionEvent)
    (d : Dispatcher L σ) :
    (dispatch w depth event d).1 = event.announces?.bind fun up => (w.notify up d.host).1 := by
  obtain ⟨fire, opened⟩ : ∃ fire, dispatch w depth = deliver w fire := by
    cases depth with
    | zero => exact ⟨_, rfl⟩
    | succ depth => exact ⟨_, rfl⟩
  rw [opened]
  cases announces : event.announces? with
  | none => rw [deliver_of_none announces, Option.bind_none]
  | some up => rw [deliver_of_some announces rfl, Option.bind_some]

theorem course_inOrder (w : Wiring L ω σ) (depth more : Nat) (event : ConnectionEvent)
    (d : Dispatcher L σ) :
    dispatch w.watched depth event d.watch =
        ((dispatch w depth event d).1, ⟨(dispatch w depth event d).2.listeners,
          ⟨(dispatch w depth event d).2.host, 0, course w depth event d⟩⟩) ∧
      Orderly depth 0 (.dispatch event (dispatch w depth event d).1) d.listeners
        (course w depth event d) (dispatch w depth event d).2.listeners ∧
      w.Accounts (course w depth event d) d.host (dispatch w depth event d).2.host ∧
      (Quiet depth (course w depth event d) →
        dispatch w (depth + more) event d = dispatch w depth event d) := by
  obtain ⟨marks, told, orderly, accounts, same⟩ :=
    dispatch_inOrder w more event (d := d.watch) (Nat.zero_add depth)
  obtain rfl : course w depth event d = marks := by
    rw [course, told]
    rfl
  exact ⟨told, orderly, accounts, same⟩

theorem dispatch_kept (w : Wiring L ω σ) (depth : Nat) (event : ConnectionEvent)
    (d : Dispatcher L σ) : Kept w depth event d := by
  obtain ⟨watched, orderly, _⟩ := course_inOrder w depth 0 event d
  exact {
    watched := watched
    orderly := orderly
    outline := (orderly.outline_eq (Nat.le_refl 0)).trans (if_pos rfl)
    thrown := dispatch_thrown w depth event d
    reports := orderly.reports
    changes := orderly.changes
    deeper := fun quiet more => (course_inOrder w depth more event d).2.2.2 quiet }

end VesselRelay.Dispatcher
