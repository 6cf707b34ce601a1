import VesselRelay.Proofs.Fleet.Telling

/-!
What the parts of a fleet's rounds come to where they succeed: which draws have been made, what the
relay has been told, and which vessels are still connected.
-/
namespace VesselRelay

/-- The entry of a session log. -/
def sessionEntry (id : Identifier) (name : String) (details : List (String × Json)) :
    List (String × Json) :=
  [("component", .string "session"), ("event", .string name), ("target", .string id.text)]
    ++ details

namespace Relay
open Registry (Operation)

variable {relay : Relay} {id : Identifier}

@[simp] theorem registry_perform (op : Operation) :
    (relay.perform op).registry = op.apply relay.registry := rfl

@[simp] theorem clock_perform (op : Operation) : (relay.perform op).clock = relay.clock := rfl

/-- The beginning of a connection, for which a session log is kept. -/
def greet (id : Identifier) (uri : String) (relay : Relay) : Relay :=
  (relay.perform (.setConnected id true relay.clock)).log .info
    (sessionEntry id "connected" [("uri", .string uri), ("resumed", .bool false)])

@[simp] theorem registry_greet (uri : String) : (relay.greet id uri).registry =
    (Operation.setConnected id true relay.clock).apply relay.registry := rfl

@[simp] theorem clock_greet (uri : String) : (relay.greet id uri).clock = relay.clock := rfl

/-- The end of a connection, for which a session log is kept. -/
def dismiss (id : Identifier) (code : CloseCode) (relay : Relay) : Relay :=
  (relay.perform (.setConnected id false relay.clock)).log .info
    (sessionEntry id "disconnected" [("code", .string code.name)])

/-- An endpoint is entered under a name that is not empty. -/
def enlist (id : Identifier) (name : String) (relay : Relay) : Relay :=
  (relay.perform (.register id name relay.clock)).log .debug
    (endpointEvent "register" id name (relay.registry.register id name relay.clock).1)

@[simp] theorem registry_enlist (name : String) : (relay.enlist id name).registry =
    (Operation.register id name relay.clock).apply relay.registry := rfl

theorem offer_eq {name : String} (named : name.isEmpty = false) (id : Identifier) (relay : Relay) :
    offer id name relay = (.ok (), relay.enlist id name) := by
  have required : requireName name = pure () := by
    rw [requireName, named]
    rfl
  rw [offer, required]
  rfl

/-- All that the relay is told of a vessel that is launched. -/
def board (id : Identifier) (uri : String) (departure : Fix) (relay : Relay) : Relay :=
  (report id departure (relay.greet id uri)).2.enlist id Fleet.endpoint

@[simp] theorem registry_board (uri : String) (departure : Fix) :
    (relay.board id uri departure).registry =
      (Operation.register id Fleet.endpoint relay.clock).apply
        ((Operation.report id departure relay.clock).apply
          ((Operation.setConnected id true relay.clock).apply relay.registry)) := by
  simp [board, report]

end Relay

/-- What may become of a vessel. -/
inductive Fate where
  /-- It is not connected. -/
  | idle
  | goesOn (fix : Fix)
  | departs

namespace Fate

/-- What the relay is told of a vessel. -/
def tell (id : Identifier) (relay : Relay) : Fate → Relay
  | idle => relay
  | goesOn fix => (Relay.report id fix relay).2
  | departs => relay.dismiss id .goingAway

def goesOn? : Fate → Bool
  | goesOn _ => true
  | idle | departs => false

end Fate

namespace Vessel

def down (v : Vessel) : Vessel := { v with link.connected := false }

def after (v : Vessel) : Fate → Vessel
  | .departs => v.down
  | .idle | .goesOn _ => v

/-- What becomes of a vessel in a round, unless its place cannot be reckoned. -/
def fate [Trigonometry] (area : Area) (now : Int64) (v : Vessel) : Except Failure Fate := do
  if !v.link.connected then return .idle
  let fix ← v.departure.extrapolate v.course v.knots now
  return if area.contains fix.position then .goesOn fix else .departs

/-- What becomes of a vessel at the end. -/
def lastFate (v : Vessel) : Fate := if v.link.connected then .departs else .idle

end Vessel

/-- What the relay is told of vessels one after the other. -/
def Relay.carry (turn : Vessel → Fate) (vessels : List Vessel) (relay : Relay) : Relay :=
  vessels.foldl (fun relay v => (turn v).tell v.link.id relay) relay

namespace Fleet

variable {α β : Type} {f f' f'' : Fleet}

/-! ### Actions that succeed -/

theorem bind_eq_ok {a : Action α} {k : α → Action β} {y : β} :
    (a >>= k) f = (.ok y, f'') ↔ ∃ x f', a f = (.ok x, f') ∧ k x f' = (.ok y, f'') := by
  change ExceptT.bindCont k (a f).1 (a f).2 = _ ↔ _
  obtain ⟨result, after⟩ := a f
  cases result with
  | error failure =>
    constructor
    · intro failed
      cases failed
    · rintro ⟨x, f', ⟨⟩, _⟩
  | ok x =>
    constructor
    · exact fun rest => ⟨x, after, rfl, rest⟩
    · rintro ⟨_, _, ⟨⟩, rest⟩
      exact rest

theorem bind_of_ok {a : Action α} {k : α → Action β} {x : α} (ok : a f = (.ok x, f')) :
    (a >>= k) f = k x f' := by
  change ExceptT.bindCont k (a f).1 (a f).2 = _
  rw [ok]
  rfl

theorem bind_of_error {a : Action α} {k : α → Action β} {failure : Failure}
    (failed : (a f).1 = .error failure) : ((a >>= k) f).1 = .error failure := by
  change (ExceptT.bindCont k (a f).1 (a f).2).1 = _
  rw [failed]
  rfl

theorem bind_of_failed {a : Action α} {k : α → Action β} {failure : Failure}
    (failed : a f = (.error failure, f')) : (a >>= k) f = (.error failure, f') := by
  change ExceptT.bindCont k (a f).1 (a f).2 = _
  rw [failed]
  rfl

theorem get_bind (k : Fleet → Action α) : ((get : Action Fleet) >>= k) f = k f f := rfl

theorem modify_eq (g : Fleet → Fleet) : (modify g : Action Unit) f = (.ok (), g f) := rfl

theorem run_bind (a : StateM Fleet α) (k : α → StateM Fleet β) :
    (a >>= k) f = k (a f).1 (a f).2 := rfl

theorem draw_eq_ok {attempt : Generator.Attempt α} {x : α} :
    draw attempt f = (.ok x, f') ↔
      ∃ random, f.random.draw attempt = (.ok x, random) ∧ { f with random } = f' := by
  change ((f.random.draw attempt).1, { f with random := (f.random.draw attempt).2 }) = _ ↔ _
  obtain ⟨result, random⟩ := f.random.draw attempt
  constructor
  · rintro ⟨⟩
    exact ⟨_, rfl, rfl⟩
  · rintro ⟨random, ⟨⟩, rfl⟩
    rfl

/-! ### Connections -/

theorem fireOn_disconnected {link : Link SessionLog} (logged : link.listeners = [.mk])
    (code : CloseCode) :
    fireOn (.disconnected code) link f =
      ({ link with connected := false }, { f with relay := f.relay.dismiss link.id code }) := by
  obtain ⟨id, up, _⟩ := link
  subst logged
  rfl

/-- A vessel connects without fail. -/
theorem connect_bind (id : Identifier) (uri : String) (k : Link SessionLog → Action Unit) :
    ((fireOn (.connecting uri) ⟨id, false, [.mk]⟩ : StateM Fleet _) >>= fun link =>
      (fireOn (.connected uri false) link : StateM Fleet _) >>= k : Action Unit) f =
    k ⟨id, true, [.mk]⟩ { f with relay := f.relay.greet id uri } := rfl

/-- A fleet whose vessels have met their fates. -/
def moved (turn : Vessel → Fate) (f : Fleet) : Fleet :=
  { f with
    relay := f.relay.carry turn f.vessels
    vessels := f.vessels.map fun v => v.after (turn v) }

/-! ### The start -/

variable [Trigonometry]

theorem launch_eq_ok {number : Nat} :
    launch number f = (.ok (), f') ↔
      ∃ id position course knots r₁ r₂ r₃ r₄,
        f.random.draw Generator.identifier = (.ok id, r₁) ∧
        r₁.draw f.area.sample = (.ok position, r₂) ∧
        r₂.draw (Generator.doubleBelow 360.0) = (.ok course, r₃) ∧
        r₃.draw (Generator.doubleBetween leastKnots mostKnots) = (.ok knots, r₄) ∧
        f' = { f with
          relay := f.relay.board id ("sim://vessel-" ++ toString number) ⟨position, f.relay.clock⟩
          vessels := f.vessels ++ [⟨⟨id, true, [.mk]⟩, ⟨position, f.relay.clock⟩, course, knots⟩]
          random := r₄ } := by
  -- Between the draws only the relay is told, and nothing of that fails.
  have tells (id : Identifier) (fix : Fix) (k : Unit → Action Unit) (f : Fleet) :
      (onRelay (Relay.report id fix) >>= fun _ => service (Relay.offer id endpoint) >>= k) f =
      k () { f with
        relay := (f.relay.perform (.report id fix f.relay.clock)).enlist id endpoint } := by
    have offered : service (Relay.offer id endpoint)
        { f with relay := f.relay.perform (.report id fix f.relay.clock) } =
      (.ok (), { f with
        relay := (f.relay.perform (.report id fix f.relay.clock)).enlist id endpoint }) := by
      rw [service, Relay.offer_eq (by decide)]
    have reported : onRelay (Relay.report id fix) f =
      (.ok (), { f with relay := f.relay.perform (.report id fix f.relay.clock) }) := rfl
    rw [bind_of_ok reported, bind_of_ok offered]
  simp only [launch, bind_eq_ok, draw_eq_ok, connect_bind, get_bind, tells, modify_eq]
  constructor
  · rintro ⟨id, _, ⟨r₁, named, rfl⟩, position, _, ⟨r₂, placed, rfl⟩, course, _, ⟨r₃, headed, rfl⟩,
      knots, _, ⟨r₄, sped, rfl⟩, ⟨⟩⟩
    exact ⟨id, position, course, knots, r₁, r₂, r₃, r₄, named, placed, headed, sped, rfl⟩
  · rintro ⟨id, position, course, knots, r₁, r₂, r₃, r₄, named, placed, headed, sped, rfl⟩
    exact ⟨id, _, ⟨r₁, named, rfl⟩, position, _, ⟨r₂, placed, rfl⟩, course, _, ⟨r₃, headed, rfl⟩,
      knots, _, ⟨r₄, sped, rfl⟩, rfl⟩

/-! ### Rounds -/

section
variable {v : Vessel} {now : Int64}

theorem advance_eq (logged : v.link.listeners = [.mk]) :
    advance now v f =
      match v.fate f.area now with
      | .ok fate =>
        (.ok (fate.goesOn?, v.after fate), { f with relay := fate.tell v.link.id f.relay })
      | .error failure => (.error failure, f) := by
  unfold advance Vessel.fate
  cases up : v.link.connected with
  | false => rfl
  | true =>
    cases v.departure.extrapolate v.course v.knots now with
    | error failure => rfl
    | ok fix =>
      have left (k : Link SessionLog → Action (Bool × Vessel)) :
          ((fireOn (.disconnected .goingAway) v.link : StateM Fleet _) >>= k : Action _) f =
            k v.down.link { f with relay := f.relay.dismiss v.link.id .goingAway } := by
        change k (fireOn (.disconnected .goingAway) v.link f).1
          (fireOn (.disconnected .goingAway) v.link f).2 = _
        rw [fireOn_disconnected logged]
        rfl
      change (ite (f.area.contains fix.position = true) (_ : Action (Bool × Vessel)) _) f =
        match Except.ok (if f.area.contains fix.position then Fate.goesOn fix else .departs) with
        | .ok fate =>
          (.ok (fate.goesOn?, v.after fate), { f with relay := fate.tell v.link.id f.relay })
        | .error failure => (.error failure, f)
      split
      · rfl
      · rw [left]
        rfl

omit [Trigonometry] in
theorem retire_eq (logged : v.link.listeners = [.mk]) :
    retire v f =
      (v.after v.lastFate, { f with relay := v.lastFate.tell v.link.id f.relay }) := by
  unfold retire Vessel.lastFate
  cases up : v.link.connected with
  | false => rfl
  | true =>
    change (({ v with link := (fireOn (.disconnected .goingAway) v.link f).1 } : Vessel),
      (fireOn (.disconnected .goingAway) v.link f).2) = _
    rw [fireOn_disconnected logged]
    rfl

end

section
variable {now : Int64} {turn : Vessel → Fate} {before vessels : List Vessel}

/-- The vessels move where each of their places can be reckoned. -/
theorem advanceFrom_eq (logged : ∀ v ∈ vessels, v.link.listeners = [.mk])
    (manned : f.vessels = before ++ vessels)
    (reckoned : ∀ v ∈ vessels, v.fate f.area now = .ok (turn v)) :
    advanceFrom now before.length vessels f =
      (.ok (vessels.countP fun v => (turn v).goesOn?),
        { f with
          relay := f.relay.carry turn vessels
          vessels := before ++ vessels.map fun v => v.after (turn v) }) := by
  induction vessels generalizing f before with
  | nil =>
    rw [List.append_nil] at manned
    rw [List.map_nil, List.append_nil, ← manned]
    rfl
  | cons v rest ih =>
    obtain ⟨loggedHere, loggedThere⟩ := List.forall_mem_cons.mp logged
    obtain ⟨reckonedHere, reckonedThere⟩ := List.forall_mem_cons.mp reckoned
    have advanced : advance now v f = (.ok ((turn v).goesOn?, v.after (turn v)),
        { f with relay := (turn v).tell v.link.id f.relay }) := by
      rw [advance_eq loggedHere, reckonedHere]
    have placed : (modify (replace before.length (v.after (turn v))) : Action Unit)
          { f with relay := (turn v).tell v.link.id f.relay } =
        (.ok (), { f with
          relay := (turn v).tell v.link.id f.relay
          vessels := before ++ [v.after (turn v)] ++ rest }) := by
      refine congrArg (Prod.mk _) ?_
      simp [replace, manned]
    have others := ih (f := { f with
      relay := (turn v).tell v.link.id f.relay
      vessels := before ++ [v.after (turn v)] ++ rest }) loggedThere rfl reckonedThere
    rw [List.length_append, List.length_singleton] at others
    rw [advanceFrom, bind_of_ok advanced]
    dsimp only
    rw [bind_of_ok placed, bind_of_ok others]
    simp [Relay.carry, List.countP_cons, Nat.add_comm]
    rfl

/-- Vessels that have moved have had their places reckoned. -/
theorem reckoned_of_advanceFrom {index count : Nat}
    (logged : ∀ v ∈ vessels, v.link.listeners = [.mk])
    (moved : advanceFrom now index vessels f = (.ok count, f')) :
    ∀ v ∈ vessels, ∃ fate, v.fate f.area now = .ok fate := by
  induction vessels generalizing f f' index count with
  | nil => simp
  | cons v rest ih =>
    obtain ⟨loggedHere, loggedThere⟩ := List.forall_mem_cons.mp logged
    obtain ⟨_, _, advanced, placed⟩ := bind_eq_ok.mp moved
    obtain ⟨_, _, ⟨⟩, others⟩ := bind_eq_ok.mp placed
    obtain ⟨_, _, others, _⟩ := bind_eq_ok.mp others
    rw [advance_eq loggedHere] at advanced
    cases reckoned : v.fate f.area now with
    | error failure =>
      rw [reckoned] at advanced
      cases advanced
    | ok fate =>
      rw [reckoned] at advanced
      cases advanced
      have reckonedThere := ih loggedThere others
      exact List.forall_mem_cons.mpr ⟨⟨fate, reckoned⟩, reckonedThere⟩

theorem advanceFrom_of_tick (ran : tick now f = (.ok (), f')) :
    ∃ count g, advanceFrom now 0 f.vessels f = (.ok count, g) := by
  change (advanceFrom now 0 f.vessels >>= _ : Action Unit) f = _ at ran
  obtain ⟨count, g, moved, _⟩ := bind_eq_ok.mp ran
  exact ⟨count, g, moved⟩

/-- After the vessels have moved nothing of a round fails. What it then enters does not depend on
the journal. -/
theorem exists_closing (now : Int64) (count : Nat) (g : Fleet) :
    ∃ notices : List Notice, (∀ id, history id notices = []) ∧
      ∀ f j, advanceFrom now 0 f.vessels f = (.ok count, { g with relay.journal := j }) →
        tick now f = (.ok (), { g with
          relay.registry := (g.relay.registry.sweep now g.settings.timeout).2
          relay.journal := j.logAll notices }) := by
  let swept := g.relay.registry.sweep now g.settings.timeout
  let report (located : Nat) : List Notice :=
    (Registry.Operation.sweep now g.settings.timeout).notices g.relay.registry ++
      [(.info, runtimeEvent "tick"
        [("targets", .int swept.2.size), ("connected", .int count), ("located", .int located),
         ("swept", .int swept.1)])]
  have quiet (located : Nat) (id : Identifier) : history id (report located) = [] := by
    rw [history_append, history_notices]
    rfl
  cases manned : g.vessels with
  | nil =>
    refine ⟨report 0, quiet 0, fun f j moved => ?_⟩
    change (advanceFrom now 0 f.vessels >>= _ : Action Unit) f = _
    rw [bind_of_ok moved, Journal.logAll_append]
    rfl
  | cons v rest =>
    let around : LocateRequest := ⟨endpoint, some locateRadius, some locateLimit,
      ((g.relay.registry.find? v.link.id).bind (·.fix)).map (·.position)⟩
    let found := (g.relay.registry.findServices v.link.id around).map (·.id.text)
    let asked : Notice := (.debug,
      [("component", .string "locator"), ("requester", .string v.link.id.text),
       ("endpoint", .string endpoint), ("positioned", .bool around.sender.isSome),
       ("results", .int found.length)])
    refine ⟨[asked] ++ report found.length, fun id => ?_, fun f j moved => ?_⟩
    · rw [history_append, quiet]
      rfl
    · change (advanceFrom now 0 f.vessels >>= _ : Action Unit) f = _
      rw [bind_of_ok moved, Journal.logAll_append, Journal.logAll_append]
      rfl

end

/-! ### The end -/

omit [Trigonometry] in
theorem mapM_retire {vessels : List Vessel} (logged : ∀ v ∈ vessels, v.link.listeners = [.mk]) :
    vessels.mapM retire f =
      (vessels.map fun v => v.after v.lastFate,
        { f with relay := f.relay.carry Vessel.lastFate vessels }) := by
  induction vessels generalizing f with
  | nil => rfl
  | cons v rest ih =>
    obtain ⟨loggedHere, loggedThere⟩ := List.forall_mem_cons.mp logged
    rw [List.mapM_cons, run_bind, retire_eq loggedHere, run_bind, ih loggedThere]
    rfl

/-- What is entered when the rounds of a fleet are over. -/
def farewell (f : Fleet) : List Notice :=
  if f.running then [(.info, runtimeEvent "shutting_down" [])] else []

/-- A fleet whose rounds are over. -/
def stopped (f : Fleet) : Fleet :=
  { f with relay.journal := f.relay.journal.logAll f.farewell, running := false }

omit [Trigonometry] in
theorem shutdown_eq (logged : ∀ v ∈ f.vessels, v.link.listeners = [.mk]) :
    shutdown f = ((), f.stopped.moved Vessel.lastFate) := by
  have looks {γ : Type} (k : Fleet → StateM Fleet γ) (f : Fleet) :
      ((get : StateM Fleet Fleet) >>= k) f = k f f := rfl
  have changes {γ : Type} (g : Fleet → Fleet) (k : Unit → StateM Fleet γ) (f : Fleet) :
      ((modify g : StateM Fleet Unit) >>= k) f = k () (g f) := rfl
  have stops : (if f.running then
      log .info (runtimeEvent "shutting_down" []) { f with running := false } else f) =
        f.stopped := by
    unfold stopped farewell
    cases running : f.running with
    | true => rfl
    | false => rw [if_neg Bool.false_ne_true, if_neg Bool.false_ne_true, ← running]; rfl
  have retired : f.stopped.vessels.mapM retire f.stopped = _ := mapM_retire logged
  rw [shutdown, changes, looks, stops, run_bind, retired]
  rfl

end Fleet
end VesselRelay
