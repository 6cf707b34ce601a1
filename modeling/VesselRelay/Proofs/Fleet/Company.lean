import VesselRelay.Proofs.Connection.Sessions
import VesselRelay.Proofs.Fleet.Steps
import VesselRelay.Proofs.Reading

/-!
The vessels of a fleet, the registry and the session logs stay in step. A vessel that is connected
is known to the registry as connected and with its endpoint, wherever it has been reported, and no
sweep takes it away; its log has a beginning without an end. The log of one that is not has both.
-/
namespace VesselRelay

open Registry (Operation Placed)

/-! ### What the relay is told -/

theorem history_session (other id : Identifier) (name : String) (details : List (String × Json)) :
    history other [(.info, sessionEntry id name details)] = if other = id then [name] else [] := by
  have told : session? other (.info, sessionEntry id name details) =
      if id.text = other.text then some name else none := rfl
  rw [history, List.filterMap_cons, told]
  by_cases same : other = id
  · subst same
    rw [if_pos rfl, if_pos rfl]
    rfl
  · rw [if_neg same, if_neg fun alike => same (Identifier.text_inj.mp alike).symm]
    rfl

namespace Fate

variable {id other : Identifier} {relay : Relay}

/-- What is left of a target. -/
def leaves (id : Identifier) (now : Int64) (held : Option Target) : Fate → Option Target
  | idle => held
  | goesOn fix => (Operation.report id fix now).outcome id held
  | departs => (Operation.setConnected id false now).outcome id held

/-- What the session log of a vessel says. -/
def entered : Fate → List String
  | idle | goesOn _ => []
  | departs => ["disconnected"]

theorem clock_tell (fate : Fate) : (fate.tell id relay).clock = relay.clock := by
  cases fate <;> rfl

theorem placed_tell (fate : Fate) (id : Identifier) (placed : relay.registry.Placed) :
    (fate.tell id relay).registry.Placed := by
  cases fate with
  | idle => exact placed
  | goesOn fix => exact Registry.placed_apply (.report id fix relay.clock) placed
  | departs => exact Registry.placed_apply (.setConnected id false relay.clock) placed

theorem find?_tell (fate : Fate) (placed : relay.registry.Placed) :
    (fate.tell id relay).registry.find? id =
      fate.leaves id relay.clock (relay.registry.find? id) := by
  cases fate with
  | idle => rfl
  | goesOn fix => exact Registry.find?_apply placed (.report id fix relay.clock) id
  | departs => exact Registry.find?_apply placed (.setConnected id false relay.clock) id

theorem find?_tell_of_ne (fate : Fate) (placed : relay.registry.Placed) (apart : other ≠ id) :
    (fate.tell id relay).registry.find? other = relay.registry.find? other := by
  cases fate with
  | idle => rfl
  | goesOn fix =>
    exact (Registry.find?_apply placed (.report id fix relay.clock) other).trans (if_neg apart)
  | departs =>
    exact (Registry.find?_apply placed (.setConnected id false relay.clock) other).trans
      (if_neg apart)

theorem exists_told (fate : Fate) (id : Identifier) (relay : Relay) :
    ∃ notices, (∀ j, fate.tell id (relay.keeping j) =
        (fate.tell id relay).keeping (j.logAll notices)) ∧
      ∀ other, history other notices = if other = id then fate.entered else [] := by
  cases fate with
  | idle => exact ⟨[], fun j => rfl, fun other => (ite_self _).symm⟩
  | goesOn fix =>
    refine ⟨(Operation.report id fix relay.clock).notices relay.registry, fun j => rfl,
      fun other => ?_⟩
    rw [history_notices, entered, ite_self]
  | departs =>
    refine ⟨[(.info, sessionEntry id "disconnected" [("code", .string CloseCode.goingAway.name)])],
      fun j => rfl, fun other => history_session other id _ _⟩

end Fate

namespace Relay

variable {relay : Relay} {turn : Vessel → Fate} {vessels : List Vessel}

/-- Each of the vessels is told of once, and nobody else is. -/
structure Carried (turn : Vessel → Fate) (vessels : List Vessel) (relay after : Relay) : Prop where
  clock : after.clock = relay.clock
  placed : after.registry.Placed
  found : ∀ v ∈ vessels, after.registry.find? v.link.id =
    (turn v).leaves v.link.id relay.clock (relay.registry.find? v.link.id)
  apart : ∀ id ∉ vessels.map (·.link.id), after.registry.find? id = relay.registry.find? id

theorem carried_carry (placed : relay.registry.Placed)
    (apart : (vessels.map (·.link.id)).Nodup) :
    Carried turn vessels relay (relay.carry turn vessels) := by
  induction vessels generalizing relay with
  | nil => exact ⟨rfl, placed, by simp, fun _ _ => rfl⟩
  | cons v rest ih =>
    rw [List.map_cons, List.nodup_cons] at apart
    obtain ⟨clock, placed', found, others⟩ :=
      ih ((turn v).placed_tell v.link.id placed) apart.2
    have same (id : Identifier) (ne : id ≠ v.link.id) :
        ((turn v).tell v.link.id relay).registry.find? id = relay.registry.find? id :=
      (turn v).find?_tell_of_ne placed ne
    rw [(turn v).clock_tell] at clock found
    refine ⟨clock, placed', List.forall_mem_cons.mpr ⟨?_, fun w member => ?_⟩, fun id absent => ?_⟩
    · exact (others _ apart.1).trans ((turn v).find?_tell placed)
    · have ne : w.link.id ≠ v.link.id := by
        intro alike
        exact apart.1 (alike ▸ List.mem_map_of_mem member)
      rw [← same _ ne]
      exact found w member
    · rw [List.map_cons, List.mem_cons, not_or] at absent
      exact (others id absent.2).trans (same id absent.1)

theorem exists_told_carry (turn : Vessel → Fate) (apart : (vessels.map (·.link.id)).Nodup)
    (relay : Relay) :
    ∃ notices, (∀ j, (relay.keeping j).carry turn vessels =
        (relay.carry turn vessels).keeping (j.logAll notices)) ∧
      (∀ v ∈ vessels, history v.link.id notices = (turn v).entered) ∧
      ∀ id ∉ vessels.map (·.link.id), history id notices = [] := by
  induction vessels generalizing relay with
  | nil => exact ⟨[], fun j => rfl, by simp, fun _ _ => rfl⟩
  | cons v rest ih =>
    rw [List.map_cons, List.nodup_cons] at apart
    obtain ⟨m, same, told⟩ := (turn v).exists_told v.link.id relay
    obtain ⟨n, same', told', quiet⟩ := ih apart.2 ((turn v).tell v.link.id relay)
    refine ⟨m ++ n, fun j => ?_, List.forall_mem_cons.mpr ⟨?_, fun w member => ?_⟩,
      fun id absent => ?_⟩
    · change ((turn v).tell v.link.id (relay.keeping j)).carry turn rest = _
      rw [same, same', Journal.logAll_append]
      rfl
    · rw [history_append, told, if_pos rfl, quiet _ apart.1, List.append_nil]
    · have ne : w.link.id ≠ v.link.id := by
        intro alike
        exact apart.1 (alike ▸ List.mem_map_of_mem member)
      rw [history_append, told, if_neg ne, told' w member, List.nil_append]
    · rw [List.map_cons, List.mem_cons, not_or] at absent
      rw [history_append, told, if_neg absent.1, quiet id absent.2, List.append_nil]

end Relay

/-! ### Vessels -/

namespace Vessel

variable {v : Vessel} {area : Area} {now : Int64} {fate : Fate}

@[simp] theorem id_after : (v.after fate).link.id = v.link.id := by
  cases fate <;> rfl

@[simp] theorem listeners_after : (v.after fate).link.listeners = v.link.listeners := by
  cases fate <;> rfl

@[simp] theorem down_after : (v.after fate).down = v.down := by
  cases fate <;> rfl

/-- What the session log of a vessel has said by now. -/
def story (v : Vessel) : List String :=
  if v.link.connected then ["connected"] else ["connected", "disconnected"]

/-- A fate that may be that of a vessel. -/
def Fits (v : Vessel) : Fate → Prop
  | .idle => v.link.connected = false
  | .goesOn _ | .departs => v.link.connected = true

theorem story_after (fits : v.Fits fate) : (v.after fate).story = v.story ++ fate.entered := by
  cases fate with
  | idle | goesOn fix => exact (List.append_nil _).symm
  | departs =>
    have up : v.link.connected = true := fits
    simp [story, after, down, up, Fate.entered]

theorem after_lastFate : v.after v.lastFate = v.down := by
  unfold lastFate
  cases up : v.link.connected with
  | true => rfl
  | false =>
    obtain ⟨⟨id, _, listeners⟩, departure, course, knots⟩ := v
    cases up
    rfl

theorem lastFate_ne_goesOn (fix : Fix) : v.lastFate ≠ .goesOn fix := by
  unfold lastFate
  split <;> exact Fate.noConfusion

theorem fits_lastFate : v.Fits v.lastFate := by
  unfold lastFate
  cases up : v.link.connected with
  | true => exact up
  | false => exact up

variable [Trigonometry]

theorem fate_of_up (up : v.link.connected = true) :
    v.fate area now = (v.departure.extrapolate v.course v.knots now).map fun fix =>
      if area.contains fix.position then .goesOn fix else .departs := by
  unfold fate
  rw [up]
  cases v.departure.extrapolate v.course v.knots now <;> rfl

theorem fits_fate (reckoned : v.fate area now = .ok fate) : v.Fits fate := by
  cases up : v.link.connected with
  | false =>
    simp only [Vessel.fate, up] at reckoned
    cases reckoned
    exact up
  | true =>
    rw [fate_of_up up] at reckoned
    obtain ⟨fix, _, became⟩ := map_eq_ok.mp reckoned
    split at became <;> cases became <;> exact up

/-- A vessel that goes on is where it is reckoned to be, within the area. -/
theorem fate_eq_goesOn {fix : Fix} (reckoned : v.fate area now = .ok (.goesOn fix)) :
    v.departure.extrapolate v.course v.knots now = .ok fix ∧ area.contains fix.position := by
  rw [fate_of_up (fits_fate reckoned)] at reckoned
  obtain ⟨fix', there, became⟩ := map_eq_ok.mp reckoned
  split at became
  · cases became
    exact ⟨there, ‹_›⟩
  · cases became

end Vessel

/-! ### The company -/

namespace Fleet

variable {f f' : Fleet}

/-- The vessels of a fleet and the registry are in step. -/
structure Sound (f : Fleet) : Prop where
  placed : f.relay.registry.Placed
  apart : (f.vessels.map (·.link.id)).Nodup
  logged : ∀ v ∈ f.vessels, v.link.listeners = [.mk]
  present : ∀ v ∈ f.vessels, v.link.connected = true →
    ∃ t, f.relay.registry.find? v.link.id = some t ∧ t.connected = true ∧ t.offers endpoint

/-- No sweep takes a vessel away that is connected. -/
theorem Sound.find?_sweep (sound : f.Sound) {v : Vessel} (member : v ∈ f.vessels)
    (up : v.link.connected = true) (now : Int64) (timeout : Float) :
    (f.relay.registry.sweep now timeout).2.find? v.link.id =
      f.relay.registry.find? v.link.id := by
  obtain ⟨t, found, marked, _⟩ := sound.present v member up
  refine Registry.find?_sweep_of_marks sound.placed ?_ now timeout
  rw [Registry.marks, found]
  exact marked

theorem Sound.swept (sound : f.Sound) {now : Int64} {timeout : Float}
    (registry : f'.relay.registry = (f.relay.registry.sweep now timeout).2)
    (vessels : f'.vessels = f.vessels) : f'.Sound where
  placed := registry ▸ Registry.placed_sweep now timeout sound.placed
  apart := vessels ▸ sound.apart
  logged := vessels ▸ sound.logged
  present v member up := by
    rw [vessels] at member
    rw [registry, sound.find?_sweep member up]
    exact sound.present v member up

/-- What is known of a target after something has happened, was known before and with its fix. -/
def Still (f f' : Fleet) (id : Identifier) : Prop :=
  ∀ t', f'.relay.registry.find? id = some t' →
    ∃ t, f.relay.registry.find? id = some t ∧ t'.fix = t.fix

theorem still_of_eq {id : Identifier}
    (same : f'.relay.registry.find? id = f.relay.registry.find? id) : Still f f' id :=
  fun t' found => ⟨t', same ▸ found, rfl⟩

theorem Still.trans {f'' : Fleet} {id : Identifier} (first : Still f f' id)
    (next : Still f' f'' id) : Still f f'' id := by
  intro t'' found
  obtain ⟨t', found', same'⟩ := next t'' found
  obtain ⟨t, found, same⟩ := first t' found'
  exact ⟨t, found, same'.trans same⟩

theorem Sound.still_sweep (sound : f.Sound) {now : Int64} {timeout : Float}
    (registry : f'.relay.registry = (f.relay.registry.sweep now timeout).2) (id : Identifier) :
    Still f f' id := by
  intro t found
  rw [registry, Registry.find?_sweep now timeout sound.placed] at found
  exact ⟨t, (Option.filter_eq_some_iff.mp found).1, rfl⟩

/-! ### Turns -/

/-- What the relay has been told of all vessels, and what has become of them. -/
structure Turned (turn : Vessel → Fate) (f f' : Fleet) : Prop where
  fits : ∀ v ∈ f.vessels, v.Fits (turn v)
  vessels : f'.vessels = f.vessels.map fun v => v.after (turn v)
  carried : Relay.Carried turn f.vessels f.relay f'.relay

section
variable {turn : Vessel → Fate}

theorem Turned.goesOn (turned : Turned turn f f') {v : Vessel} (member : v ∈ f.vessels)
    (up : (v.after (turn v)).link.connected = true) : ∃ fix, turn v = .goesOn fix := by
  have fits := turned.fits v member
  cases became : turn v with
  | goesOn fix => exact ⟨fix, rfl⟩
  | idle =>
    rw [became] at fits up
    exact absurd up (Bool.eq_false_iff.mp fits)
  | departs =>
    rw [became] at up
    cases up

/-- A vessel that goes on is reported, and nothing else of it changes. -/
theorem Turned.find?_goesOn (turned : Turned turn f f') (sound : f.Sound) {v : Vessel} {fix : Fix}
    (member : v ∈ f.vessels) (became : turn v = .goesOn fix) :
    ∃ t, f'.relay.registry.find? v.link.id = some t ∧ t.fix = some fix ∧ t.connected = true ∧
      t.offers endpoint := by
  have up := turned.fits v member
  rw [became] at up
  obtain ⟨t, found, marked, offered⟩ := sound.present v member up
  refine ⟨t.report fix f.relay.clock, ?_, rfl, marked, offered⟩
  rw [turned.carried.found v member, became, found]
  exact if_pos rfl

/-- A vessel that does not go on is where it was. -/
theorem Turned.still (turned : Turned turn f f') {v : Vessel} (member : v ∈ f.vessels)
    (stays : ∀ fix, turn v ≠ .goesOn fix) : Still f f' v.link.id := by
  intro t' found
  rw [turned.carried.found v member] at found
  cases became : turn v with
  | goesOn fix => exact absurd became (stays fix)
  | idle =>
    rw [became] at found
    exact ⟨t', found, rfl⟩
  | departs =>
    rw [became] at found
    obtain ⟨t, held, rfl⟩ := Option.map_eq_some_iff.mp ((if_pos rfl).symm.trans found)
    exact ⟨t, held, rfl⟩

theorem Turned.sound (turned : Turned turn f f') (sound : f.Sound) : f'.Sound where
  placed := turned.carried.placed
  apart := by
    rw [turned.vessels, List.map_map]
    simpa only [Function.comp_def, Vessel.id_after] using sound.apart
  logged := by
    rw [turned.vessels]
    rintro _ member
    obtain ⟨v, held, rfl⟩ := List.mem_map.mp member
    rw [Vessel.listeners_after]
    exact sound.logged v held
  present := by
    rw [turned.vessels]
    rintro _ member up
    obtain ⟨v, held, rfl⟩ := List.mem_map.mp member
    obtain ⟨fix, became⟩ := turned.goesOn held up
    obtain ⟨t, found, _, marked, offered⟩ := turned.find?_goesOn sound held became
    rw [Vessel.id_after]
    exact ⟨t, found, marked, offered⟩

end

/-! ### Rounds -/

theorem Sound.turned {turn : Vessel → Fate} (sound : f.Sound)
    (fits : ∀ v ∈ f.vessels, v.Fits (turn v)) : Turned turn f (f.moved turn) :=
  ⟨fits, rfl, Relay.carried_carry sound.placed sound.apart⟩

variable [Trigonometry]

/-- A round whose vessels' places can be reckoned succeeds, whatever the journal. -/
theorem exists_tick {turn : Vessel → Fate} {now : Int64} (sound : f.Sound)
    (reckoned : ∀ v ∈ f.vessels, v.fate f.area now = .ok (turn v)) :
    ∃ notices, (∀ v ∈ f.vessels, history v.link.id notices = (turn v).entered) ∧
      ∀ j, tick now (f.keeping j) = (.ok (), { f.moved turn with
        relay.registry := ((f.moved turn).relay.registry.sweep now f.settings.timeout).2
        relay.journal := j.logAll notices }) := by
  obtain ⟨m, same, entered, _⟩ := Relay.exists_told_carry turn sound.apart f.relay
  obtain ⟨n, quiet, closes⟩ :=
    exists_closing now (f.vessels.countP fun v => (turn v).goesOn?) (f.moved turn)
  refine ⟨m ++ n, fun v member => ?_, fun j => ?_⟩
  · rw [history_append, quiet, entered v member, List.append_nil]
  · have moves : advanceFrom now ([] : List Vessel).length f.vessels (f.keeping j) = _ :=
      advanceFrom_eq sound.logged rfl reckoned
    have told : (f.keeping j).relay.carry turn f.vessels = _ := same j
    rw [told] at moves
    rw [Journal.logAll_append]
    exact closes (f.keeping j) (j.logAll m) moves

/-- A round when the clock has moved on. -/
def round (clock now : Int64) : Action Unit := do
  modify fun f => { f with relay.clock := clock }
  tick now

/-- What a round comes to. -/
structure Rounded (now : Int64) (turn : Vessel → Fate) (f f' : Fleet) : Prop where
  sound : f'.Sound
  area : f'.area = f.area
  fits : ∀ v ∈ f.vessels, v.Fits (turn v)
  vessels : f'.vessels = f.vessels.map fun v => v.after (turn v)
  underway : ∀ v ∈ f'.vessels, v.link.connected = true →
    ∃ fix t, v.departure.extrapolate v.course v.knots now = .ok fix ∧
      f'.area.contains fix.position ∧
      f'.relay.registry.find? v.link.id = some t ∧ t.fix = some fix
  adrift : ∀ v ∈ f'.vessels, v.link.connected = false → Still f f' v.link.id

theorem rounded_of_round {clock now : Int64} (sound : f.Sound)
    (ran : round clock now f = (.ok (), f')) :
    ∃ turn, Rounded now turn f f' ∧ ∃ told, Tells (round clock now) f told ∧
      ∀ v ∈ f.vessels, told v.link.id = (turn v).entered := by
  let start : Fleet := { f with relay.clock := clock }
  change tick now start = (.ok (), f') at ran
  have soundAtStart : start.Sound := ⟨sound.placed, sound.apart, sound.logged, sound.present⟩
  obtain ⟨count, g, advanced⟩ := advanceFrom_of_tick ran
  let turn (v : Vessel) : Fate := (v.fate f.area now).toOption.getD .idle
  have reckoned : ∀ v ∈ f.vessels, v.fate f.area now = .ok (turn v) := by
    intro v member
    obtain ⟨fate, became⟩ := reckoned_of_advanceFrom sound.logged advanced v member
    have same : turn v = fate := by
      change v.fate f.area now = .ok fate at became
      simp [turn, became, Except.toOption]
    rw [same]
    exact became
  obtain ⟨notices, entered, ticks⟩ := exists_tick soundAtStart reckoned
  have turned := soundAtStart.turned fun v member => Vessel.fits_fate (reckoned v member)
  have soundMoved := turned.sound soundAtStart
  obtain rfl : _ = f' := (Prod.mk.inj ((ticks f.relay.journal).symm.trans ran)).2
  refine ⟨turn, ⟨soundMoved.swept rfl rfl, rfl, turned.fits, rfl, ?_, ?_⟩, (history · notices),
    ⟨notices, ?_, fun _ => rfl⟩, entered⟩
  · rintro _ member up
    obtain ⟨v, held, rfl⟩ := List.mem_map.mp member
    obtain ⟨fix, became⟩ := turned.goesOn held up
    obtain ⟨t, found, fixed, _⟩ := turned.find?_goesOn soundAtStart held became
    obtain ⟨there, inside⟩ := Vessel.fate_eq_goesOn ((reckoned v held).trans (congrArg _ became))
    refine ⟨fix, t, ?_, inside, ?_, fixed⟩
    · rw [became]
      exact there
    · have kept := soundMoved.find?_sweep member up now f.settings.timeout
      rw [Vessel.id_after] at kept ⊢
      exact kept.trans found
  · rintro _ member down
    obtain ⟨v, held, rfl⟩ := List.mem_map.mp member
    rw [Vessel.id_after]
    refine Still.trans (turned.still held fun fix became => ?_) (soundMoved.still_sweep rfl _)
    have up := turned.fits v held
    rw [became] at up down
    exact Bool.eq_false_iff.mp down up
  · intro j
    change tick now (start.keeping j) = ((tick now start).1, (tick now start).2.keeping _)
    rw [ticks, ran]
    rfl

end Fleet

end VesselRelay
