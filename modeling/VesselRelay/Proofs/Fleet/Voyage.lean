import VesselRelay.Proofs.Fleet.Company

/-!
Fleets from their start to their end. Every vessel is connected once, at the start; it goes on as it
is reckoned to, round after round, until it has left the area; and by the first shutdown it has been
disconnected once. From then on it stays where it was heard of last.
-/
namespace VesselRelay

open Registry (Operation Placed)

/-! ### Launches -/

namespace Relay

variable {relay : Relay} {id : Identifier} {uri : String} {departure : Fix}

theorem placed_board (placed : relay.registry.Placed) :
    (relay.board id uri departure).registry.Placed := by
  rw [registry_board]
  exact Registry.placed_apply _ (Registry.placed_apply _ (Registry.placed_apply _ placed))

theorem find?_board (placed : relay.registry.Placed) (other : Identifier) :
    (relay.board id uri departure).registry.find? other =
      (Operation.register id Fleet.endpoint relay.clock).outcome other
        ((Operation.report id departure relay.clock).outcome other
          ((Operation.setConnected id true relay.clock).outcome other
            (relay.registry.find? other))) := by
  have connected := Registry.placed_apply (.setConnected id true relay.clock) placed
  have reported := Registry.placed_apply (.report id departure relay.clock) connected
  rw [registry_board, Registry.find?_apply reported, Registry.find?_apply connected,
    Registry.find?_apply placed]

theorem find?_board_of_ne (placed : relay.registry.Placed) {other : Identifier}
    (apart : other ≠ id) (uri : String) (departure : Fix) :
    (relay.board id uri departure).registry.find? other = relay.registry.find? other := by
  rw [find?_board placed, Operation.outcome_apart rfl apart, Operation.outcome_apart rfl apart,
    Operation.outcome_apart rfl apart]

theorem find?_board_self (placed : relay.registry.Placed) :
    ∃ t, (relay.board id uri departure).registry.find? id = some t ∧ t.connected = true ∧
      t.offers Fleet.endpoint := by
  let known := (relay.registry.find? id).getD (.fresh id relay.clock)
  have connected : (Operation.setConnected id true relay.clock).outcome id
      (relay.registry.find? id) = some (known.setConnected true relay.clock) := if_pos rfl
  have reported (t : Target) : (Operation.report id departure relay.clock).outcome id (some t) =
      some (t.report departure relay.clock) := if_pos rfl
  have offered (t : Target) : (Operation.register id Fleet.endpoint relay.clock).outcome id
      (some t) = some (t.addEndpoint Fleet.endpoint relay.clock) := if_pos rfl
  rw [find?_board placed, connected, reported, offered]
  refine ⟨_, rfl, rfl, ?_⟩
  simp [Target.offers, Target.addEndpoint, Target.mem_insertName]

theorem tells_greet (id : Identifier) (uri : String) (relay : Relay) :
    Tells (greet id uri) relay fun other => if other = id then ["connected"] else [] := by
  refine ⟨(Operation.setConnected id true relay.clock).notices relay.registry ++
    [(.info, sessionEntry id "connected" [("uri", .string uri), ("resumed", .bool false)])],
    fun j => ?_, fun other => ?_⟩
  · rw [Journal.logAll_append]
    rfl
  · rw [history_append, history_notices, history_session, List.nil_append]

theorem tells_enlist (id : Identifier) (name : String) (relay : Relay) :
    Tells (enlist id name) relay fun _ => [] := by
  refine ⟨(Operation.register id name relay.clock).notices relay.registry ++
    [(.debug, endpointEvent "register" id name (relay.registry.register id name relay.clock).1)],
    fun j => ?_, fun other => ?_⟩
  · rw [Journal.logAll_append]
    rfl
  · rw [history_append, history_notices]
    rfl

theorem tells_board (id : Identifier) (uri : String) (departure : Fix) (relay : Relay) :
    Tells (board id uri departure) relay fun other => if other = id then ["connected"] else [] := by
  have reported := tells_perform (.report id departure) (relay.greet id uri)
  have boarded := ((tells_greet id uri relay).then reported).then
    (tells_enlist id Fleet.endpoint _)
  simp only [List.append_nil] at boarded
  exact boarded

end Relay

namespace Fleet

variable [Trigonometry] {α β : Type} {f f' f'' : Fleet}

/-- What a step comes to that has launched vessels: all of them are connected, and the log of each
has said so. -/
structure Joined (step : Fleet → Except Failure Unit × Fleet) (f f' : Fleet) (crew : List Vessel) :
    Prop where
  area : f'.area = f.area
  vessels : f'.vessels = f.vessels ++ crew
  up : ∀ v ∈ crew, v.link.connected = true
  sound : f.Sound → (f'.vessels.map (·.link.id)).Nodup → f'.Sound
  told : Tells step f fun id => List.replicate ((crew.map (·.link.id)).count id) "connected"

theorem joined_of_launch {number : Nat} (launched : launch number f = (.ok (), f')) :
    ∃ v, Joined (launch number) f f' [v] := by
  obtain ⟨id, position, course, knots, r₁, r₂, r₃, r₄, named, placed, headed, sped, rfl⟩ :=
    launch_eq_ok.mp launched
  refine ⟨⟨⟨id, true, [.mk]⟩, ⟨position, f.relay.clock⟩, course, knots⟩, rfl, rfl,
    List.forall_mem_singleton.mpr rfl, ?_, ?_⟩
  · intro sound apart
    rw [List.map_append, List.nodup_append] at apart
    have other : ∀ v ∈ f.vessels, v.link.id ≠ id := by
      intro v member
      exact apart.2.2 v.link.id (List.mem_map_of_mem member) id (List.mem_singleton_self _)
    refine ⟨Relay.placed_board sound.placed, ?_, ?_, ?_⟩
    · rw [List.map_append, List.nodup_append]
      exact apart
    · exact List.forall_mem_append.mpr ⟨sound.logged, List.forall_mem_singleton.mpr rfl⟩
    · refine List.forall_mem_append.mpr ⟨fun v member up => ?_, List.forall_mem_singleton.mpr ?_⟩
      · dsimp only
        rw [Relay.find?_board_of_ne sound.placed (other v member)]
        exact sound.present v member up
      · exact fun _ => Relay.find?_board_self sound.placed
  · obtain ⟨notices, same, told⟩ := Relay.tells_board id ("sim://vessel-" ++ toString number)
      ⟨position, f.relay.clock⟩ f.relay
    have once (other : Identifier) :
        (if other = id then ["connected"] else []) =
          List.replicate ([id].count other) "connected" := by
      by_cases here : other = id
      · simp [here]
      · simp [here, Ne.symm here]
    refine ⟨notices, fun j => ?_, fun other => (told other).trans (once other)⟩
    have again : launch number (f.keeping j) = _ := launch_eq_ok.mpr
      ⟨id, position, course, knots, r₁, r₂, r₃, r₄, named, placed, headed, sped, rfl⟩
    rw [launched, again]
    let joined (relay : Relay) : Except Failure Unit × Fleet := (.ok (), { f with
      relay
      vessels := f.vessels ++ [⟨⟨id, true, [.mk]⟩, ⟨position, f.relay.clock⟩, course, knots⟩]
      random := r₄ })
    exact congrArg joined (same j)

theorem joined_of_launchAll {first count : Nat}
    (launched : launchAll first count f = (.ok (), f')) :
    ∃ crew, Joined (launchAll first count) f f' crew := by
  induction count generalizing first f with
  | zero =>
    cases launched
    exact ⟨[], rfl, (List.append_nil _).symm, by simp, fun sound _ => sound,
      [], fun _ => rfl, fun _ => rfl⟩
  | succ count ih =>
    obtain ⟨_, g, here, rest⟩ := bind_eq_ok.mp launched
    obtain ⟨v, joined⟩ := joined_of_launch here
    obtain ⟨crew, others⟩ := ih rest
    have vessels : f'.vessels = f.vessels ++ v :: crew := by
      rw [others.vessels, joined.vessels, List.append_assoc]
      rfl
    refine ⟨v :: crew, others.area.trans joined.area, vessels, ?_, fun sound apart => ?_, ?_⟩
    · exact List.forall_mem_cons.mpr ⟨joined.up v (List.mem_singleton_self v), others.up⟩
    · refine others.sound (joined.sound sound ?_) apart
      rw [others.vessels, List.map_append] at apart
      exact apart.of_append_left
    · have both := Tells.bind (k := fun _ => launchAll (first + 1) count) joined.told here
        others.told
      refine both.congr fun id => ?_
      rw [← List.replicate_add, ← List.count_append]
      rfl

theorem joined_of_assemble (assembled : assemble f = (.ok (), f')) :
    ∃ crew, Joined assemble f f' crew := by
  let entered : Fleet :=
    f.log .info (runtimeEvent "initializing" [("vessels", .int f.settings.vessels)])
  obtain ⟨_, _, ⟨⟩, rest⟩ := bind_eq_ok.mp assembled
  obtain ⟨_, _, ⟨⟩, rest⟩ := bind_eq_ok.mp rest
  obtain ⟨_, g, ready, launched⟩ := bind_eq_ok.mp rest
  obtain ⟨random, drawn, rfl⟩ := draw_eq_ok.mp ready
  obtain ⟨crew, joined⟩ := joined_of_launchAll launched
  refine ⟨crew, joined.area, joined.vessels, joined.up, ?_, ?_⟩
  · intro sound apart
    exact joined.sound ⟨sound.placed, sound.apart, sound.logged, sound.present⟩ apart
  · have drawing := Tells.bind (k := fun _ => launchAll 1 f.settings.vessels)
      (tells_draw (f := entered) (pure ())) ready joined.told
    obtain ⟨notices, same, told⟩ := Tells.bind (f := f)
      (k := fun _ => draw (pure ()) >>= fun _ => launchAll 1 f.settings.vessels)
      (tells_log .info (runtimeEvent "initializing" [("vessels", .int f.settings.vessels)]))
      rfl drawing
    exact ⟨notices, same, told⟩

/-! ### Rounds -/

/-- Rounds one after the other, each with the time of the clock and its own. -/
def rounds : List (Int64 × Int64) → Action Unit
  | [] => pure ()
  | (clock, now) :: rest => do
    round clock now
    rounds rest

/-- What rounds and shutdowns come to, given what the session logs have said. -/
structure Sailed (f f' : Fleet) (told : Identifier → List String) : Prop where
  sound : f'.Sound
  area : f'.area = f.area
  same : f'.vessels.map Vessel.down = f.vessels.map Vessel.down
  story : ∀ v' ∈ f'.vessels, ∃ v ∈ f.vessels,
    v.link.id = v'.link.id ∧ v'.story = v.story ++ told v'.link.id
  adrift : ∀ v ∈ f.vessels, v.link.connected = false → v ∈ f'.vessels ∧ Still f f' v.link.id

section
variable {told told' : Identifier → List String} {turn : Vessel → Fate}

omit [Trigonometry] in
theorem Sailed.refl (sound : f.Sound) : Sailed f f fun _ => [] where
  sound := sound
  area := rfl
  same := rfl
  story _ member := ⟨_, member, rfl, (List.append_nil _).symm⟩
  adrift _ member _ := ⟨member, still_of_eq rfl⟩

omit [Trigonometry] in
theorem Sailed.trans (first : Sailed f f' told) (rest : Sailed f' f'' told') :
    Sailed f f'' fun id => told id ++ told' id where
  sound := rest.sound
  area := rest.area.trans first.area
  same := rest.same.trans first.same
  story v'' member := by
    obtain ⟨v', member', id', story'⟩ := rest.story v'' member
    obtain ⟨v, held, id, story⟩ := first.story v' member'
    refine ⟨v, held, id.trans id', ?_⟩
    rw [story', story, id', List.append_assoc]
  adrift v member down := by
    obtain ⟨kept, still⟩ := first.adrift v member down
    obtain ⟨kept', still'⟩ := rest.adrift v kept down
    exact ⟨kept', still.trans still'⟩

omit [Trigonometry] in
/-- Vessels that take their turns sail. -/
theorem sailed_of_turns (sound : f'.Sound) (area : f'.area = f.area)
    (fits : ∀ v ∈ f.vessels, v.Fits (turn v))
    (vessels : f'.vessels = f.vessels.map fun v => v.after (turn v))
    (told_eq : ∀ v ∈ f.vessels, told v.link.id = (turn v).entered)
    (adrift : ∀ v ∈ f'.vessels, v.link.connected = false → Still f f' v.link.id) :
    Sailed f f' told where
  sound := sound
  area := area
  same := by
    rw [vessels, List.map_map]
    simp [Function.comp_def]
  story := by
    rw [vessels]
    rintro _ member
    obtain ⟨v, held, rfl⟩ := List.mem_map.mp member
    refine ⟨v, held, v.id_after.symm, ?_⟩
    rw [Vessel.id_after, told_eq v held, Vessel.story_after (fits v held)]
  adrift := by
    intro v held down
    have idle : v.after (turn v) = v := by
      have fitting := fits v held
      cases became : turn v with
      | idle => rfl
      | goesOn fix => rfl
      | departs =>
        rw [became] at fitting
        exact absurd fitting (Bool.eq_false_iff.mp down)
    have member : v ∈ f'.vessels := by
      rw [vessels]
      exact List.mem_map.mpr ⟨v, held, idle⟩
    exact ⟨member, adrift v member down⟩

theorem sailed_of_rounds {times : List (Int64 × Int64)} (sound : f.Sound)
    (ran : rounds times f = (.ok (), f')) :
    ∃ told, Tells (rounds times) f told ∧ Sailed f f' told := by
  induction times generalizing f with
  | nil =>
    cases ran
    exact ⟨_, tells_nothing _, .refl sound⟩
  | cons time times ih =>
    obtain ⟨clock, now⟩ := time
    obtain ⟨_, g, here, rest⟩ := bind_eq_ok.mp ran
    obtain ⟨turn, rounded, told, tells, entered⟩ := rounded_of_round sound here
    have sailed := sailed_of_turns rounded.sound rounded.area rounded.fits rounded.vessels entered
      rounded.adrift
    obtain ⟨told', tells', sailed'⟩ := ih sailed.sound rest
    exact ⟨_, Tells.bind (k := fun _ => rounds times) tells here tells', sailed.trans sailed'⟩

end

/-! ### The end -/

omit [Trigonometry] in
theorem sailed_of_shutdown (sound : f.Sound) :
    ∃ told, Tells shutdown f told ∧ Sailed f (shutdown f).2 told ∧
      (shutdown f).2.vessels = f.vessels.map Vessel.down ∧ ∀ id, Still f (shutdown f).2 id := by
  have soundStopped : f.stopped.Sound :=
    ⟨sound.placed, sound.apart, sound.logged, sound.present⟩
  have turned := soundStopped.turned fun v _ => v.fits_lastFate
  obtain ⟨m, same, entered, _⟩ :=
    Relay.exists_told_carry Vessel.lastFate sound.apart f.stopped.relay
  have still (id : Identifier) : Still f (f.stopped.moved Vessel.lastFate) id := by
    by_cases known : id ∈ f.vessels.map (·.link.id)
    · obtain ⟨v, member, rfl⟩ := List.mem_map.mp known
      exact turned.still member v.lastFate_ne_goesOn
    · exact still_of_eq (turned.carried.apart id known)
  rw [shutdown_eq sound.logged]
  refine ⟨(history · (f.farewell ++ m)), ⟨_, fun j => ?_, fun _ => rfl⟩,
    sailed_of_turns (turned.sound soundStopped) rfl turned.fits turned.vessels ?_
      fun v _ _ => still v.link.id, ?_, still⟩
  · let retired (relay : Relay) : Unit × Fleet := ((), { f.stopped with
      relay
      vessels := f.vessels.map fun v => v.after v.lastFate })
    rw [shutdown_eq sound.logged, shutdown_eq (f := f.keeping j) sound.logged,
      Journal.logAll_append]
    exact congrArg retired (same (j.logAll f.farewell))
  · intro v member
    have quiet : history v.link.id f.farewell = [] := by
      unfold farewell
      split <;> rfl
    rw [history_append, quiet, List.nil_append]
    exact entered v member
  · exact List.map_congr_left fun v _ => v.after_lastFate

/-- So many shutdowns. -/
def shutdowns : ℕ → StateM Fleet Unit
  | 0 => pure ()
  | n + 1 => do
    shutdown
    shutdowns n

omit [Trigonometry] in
theorem sailed_of_shutdowns (sound : f.Sound) (n : ℕ) :
    ∃ told, Tells (shutdowns n) f told ∧ Sailed f (shutdowns n f).2 told ∧
      (n ≠ 0 → (shutdowns n f).2.vessels = f.vessels.map Vessel.down) ∧
      ∀ id, Still f (shutdowns n f).2 id := by
  induction n generalizing f with
  | zero => exact ⟨_, tells_nothing _, .refl sound, absurd rfl, fun _ => still_of_eq rfl⟩
  | succ n ih =>
    obtain ⟨told, tells, sailed, down, still⟩ := sailed_of_shutdown sound
    obtain ⟨told', tells', sailed', down', still'⟩ := ih sailed.sound
    refine ⟨_, Tells.then (k := fun _ => shutdowns n) tells tells', sailed.trans sailed',
      fun _ => ?_, fun id => (still id).trans (still' id)⟩
    change (shutdowns n (shutdown f).2).2.vessels = _
    rcases Nat.eq_zero_or_pos n with rfl | more
    · exact down
    · rw [down' more.ne', down, List.map_map]
      rfl

/-! ### Voyages -/

/-- A fleet from its start on: rounds, and then so many shutdowns. -/
def voyage (times : List (Int64 × Int64)) (ends : ℕ) : Action Unit := do
  assemble
  rounds times
  shutdowns ends

/-- A fleet after its start and some rounds. -/
structure InStep (fleet moored : Fleet) (times : List (Int64 × Int64)) (sailed : Fleet) : Prop where
  area : sailed.area = fleet.area
  /-- The vessels are those of the start, with their departures and courses. -/
  crew : sailed.vessels.map Vessel.down = moored.vessels.map Vessel.down
  told : ∃ told, Tells (voyage times 0) fleet told ∧
    ∀ v ∈ sailed.vessels, told v.link.id = v.story
  underway : ∀ clock now, times.getLast? = some (clock, now) →
    ∀ v ∈ sailed.vessels, v.link.connected = true →
      ∃ fix t, v.departure.extrapolate v.course v.knots now = .ok fix ∧
        sailed.area.contains fix.position ∧
        sailed.relay.registry.find? v.link.id = some t ∧ t.fix = some fix ∧
        t.connected = true ∧ t.offers endpoint
  /-- No sweep takes a vessel away that is connected. -/
  spared : ∀ v ∈ sailed.vessels, v.link.connected = true → ∀ now timeout,
    ∃ t, (sailed.relay.registry.sweep now timeout).2.find? v.link.id = some t ∧
      sailed.relay.registry.find? v.link.id = some t
  /-- A vessel that a round disconnects stays where it was before. -/
  parted : ∀ clock now next, round clock now sailed = (.ok (), next) →
    ∀ v ∈ next.vessels, v.link.connected = false → Still sailed next v.link.id
  /-- A vessel that is not connected stays so, and where it is, in all rounds and shutdowns. -/
  adrift : ∀ later last, rounds later sailed = (.ok (), last) →
    ∀ v ∈ sailed.vessels, v.link.connected = false →
      v ∈ last.vessels ∧ ∀ n, Still sailed (shutdowns n last).2 v.link.id
  /-- From the first shutdown on each vessel has been disconnected once, where it was. -/
  ended : ∀ n, ∃ last told, voyage times (n + 1) fleet = (.ok (), last) ∧
    Tells (voyage times (n + 1)) fleet told ∧
    last.vessels = sailed.vessels.map Vessel.down ∧
    ∀ v ∈ last.vessels, told v.link.id = ["connected", "disconnected"] ∧
      Still sailed last v.link.id

omit [Trigonometry] in
theorem sound_of_make {settings : FleetSettings} {journal : Journal} {clock : Int64}
    {random : RandomSource} (made : make settings journal clock random = .ok f) :
    f.Sound ∧ f.vessels = [] := by
  obtain ⟨relay, started, rest⟩ := VesselRelay.bind_eq_ok.mp made
  obtain ⟨circle, _, ⟨⟩⟩ := VesselRelay.bind_eq_ok.mp rest
  unfold Relay.start at started
  split at started
  · rename_i positive
    cases started
    exact ⟨⟨Registry.placed_empty settings.shards positive, List.nodup_nil, by simp, by simp⟩, rfl⟩
  · cases started

/-- The last of some rounds is a round of its own. -/
theorem last_round {times : List (Int64 × Int64)} {clock now : Int64}
    (ran : rounds (times ++ [(clock, now)]) f = (.ok (), f')) :
    ∃ g, rounds times f = (.ok (), g) ∧ round clock now g = (.ok (), f') := by
  induction times generalizing f with
  | nil =>
    obtain ⟨_, _, here, ⟨⟩⟩ := bind_eq_ok.mp ran
    exact ⟨f, rfl, here⟩
  | cons time times ih =>
    obtain ⟨_, g, here, rest⟩ := bind_eq_ok.mp ran
    obtain ⟨h, earlier, last⟩ := ih rest
    exact ⟨h, bind_eq_ok.mpr ⟨_, g, here, earlier⟩, last⟩

/-- At the start each vessel's log has told what it has to tell by then. -/
theorem Joined.told_story {crew : List Vessel} (joined : Joined assemble f f' crew)
    (apart : (crew.map (·.link.id)).Nodup) {v : Vessel} (member : v ∈ crew) :
    List.replicate ((crew.map (·.link.id)).count v.link.id) "connected" = v.story := by
  rw [List.count_eq_one_of_mem apart (List.mem_map_of_mem member), Vessel.story,
    if_pos (joined.up v member)]
  rfl

/-- The session logs of a whole voyage tell of each vessel what it has to tell in the end. -/
theorem told_of_voyage {crew : List Vessel} {g : Fleet} {times : List (Int64 × Int64)}
    (joined : Joined assemble f f' crew) (assembled : assemble f = (.ok (), f'))
    (start : f'.vessels = crew) (sound : f'.Sound) (ran : rounds times f' = (.ok (), g))
    (n : ℕ) :
    voyage times n f = (.ok (), (shutdowns n g).2) ∧
      ∃ told, Tells (voyage times n) f told ∧
        ∀ v ∈ (shutdowns n g).2.vessels, told v.link.id = v.story := by
  subst start
  obtain ⟨_, tells, sails⟩ := sailed_of_rounds sound ran
  obtain ⟨_, tells', ends, _⟩ := sailed_of_shutdowns sails.sound n
  have here : (liftM (shutdowns n) : Action Unit) g = (.ok (), (shutdowns n g).2) := rfl
  have told := Tells.bind (k := fun _ => rounds times >>= fun _ => liftM (shutdowns n))
    joined.told assembled (Tells.bind (k := fun _ => liftM (shutdowns n)) tells ran tells'.lift)
  refine ⟨?_, _, told, fun v member => ?_⟩
  · exact bind_eq_ok.mpr ⟨_, _, assembled, bind_eq_ok.mpr ⟨_, _, ran, here⟩⟩
  · obtain ⟨w, held, same, story⟩ := (sails.trans ends).story v member
    rw [story, ← joined.told_story sound.apart held, same]

/-- A vessel that is still connected is where the last round has reckoned it to be. -/
theorem underway_of_rounds {times : List (Int64 × Int64)} {clock now : Int64} (sound : f.Sound)
    (ran : rounds times f = (.ok (), f')) (last : times.getLast? = some (clock, now)) :
    ∀ v ∈ f'.vessels, v.link.connected = true →
      ∃ fix t, v.departure.extrapolate v.course v.knots now = .ok fix ∧
        f'.area.contains fix.position ∧ f'.relay.registry.find? v.link.id = some t ∧
        t.fix = some fix ∧ t.connected = true ∧ t.offers endpoint := by
  intro v member up
  obtain ⟨earlier, rfl⟩ := List.getLast?_eq_some_iff.mp last
  obtain ⟨g, ranEarlier, ranLast⟩ := last_round ran
  obtain ⟨_, _, before⟩ := sailed_of_rounds sound ranEarlier
  obtain ⟨turn, rounded, _⟩ := rounded_of_round before.sound ranLast
  obtain ⟨fix, t, there, inside, found, fixed⟩ := rounded.underway v member up
  obtain ⟨t', found', marked, offered⟩ := rounded.sound.present v member up
  obtain rfl : t = t' := Option.some.inj (found.symm.trans found')
  exact ⟨fix, t, there, inside, found, fixed, marked, offered⟩

theorem inStep_of_voyage {settings : FleetSettings} {journal : Journal} {clock : Int64}
    {random : RandomSource} {fleet moored sailed : Fleet} {times : List (Int64 × Int64)}
    (made : make settings journal clock random = .ok fleet)
    (assembled : assemble fleet = (.ok (), moored))
    (apart : (moored.vessels.map (·.link.id)).Nodup)
    (ran : rounds times moored = (.ok (), sailed)) : InStep fleet moored times sailed := by
  obtain ⟨sound, empty⟩ := sound_of_make made
  obtain ⟨crew, joined⟩ := joined_of_assemble assembled
  have start : moored.vessels = crew := by rw [joined.vessels, empty, List.nil_append]
  have soundMoored := joined.sound sound apart
  obtain ⟨_, _, sails⟩ := sailed_of_rounds soundMoored ran
  have whole (n : ℕ) := told_of_voyage joined assembled start soundMoored ran n
  constructor
  case area => exact sails.area.trans joined.area
  case crew => exact sails.same
  case told => exact (whole 0).2
  case underway => exact fun _ _ last => underway_of_rounds soundMoored ran last
  case spared =>
    intro v member up now timeout
    obtain ⟨t, found, _⟩ := sails.sound.present v member up
    exact ⟨t, (sails.sound.find?_sweep member up now timeout).trans found, found⟩
  case parted =>
    intro clock now next ranNext
    obtain ⟨turn, rounded, _⟩ := rounded_of_round sails.sound ranNext
    exact rounded.adrift
  case adrift =>
    intro later last ranLater v member down
    obtain ⟨_, _, after⟩ := sailed_of_rounds sails.sound ranLater
    obtain ⟨kept, still⟩ := after.adrift v member down
    refine ⟨kept, fun n => ?_⟩
    obtain ⟨_, _, _, _, ends⟩ := sailed_of_shutdowns after.sound n
    exact still.trans (ends v.link.id)
  case ended =>
    intro n
    obtain ⟨sets, told, tells, stories⟩ := whole (n + 1)
    obtain ⟨_, _, _, down, still⟩ := sailed_of_shutdowns sails.sound (n + 1)
    refine ⟨_, told, sets, tells, down n.succ_ne_zero, fun v member => ⟨?_, still v.link.id⟩⟩
    rw [stories v member]
    rw [down n.succ_ne_zero] at member
    obtain ⟨w, _, rfl⟩ := List.mem_map.mp member
    rfl

/-! ### Two vessels that sail north -/

/-- The functions as far as two vessels ask for them that start near the harbour and sail north: the
latitude of the harbour and those that they come to, the direction to the north, and the random
direction of their start, which is next to zero for one of them. -/
@[reducible]
def northward : Trigonometry where
  sin x :=
    if x == 1.5707963267948966 then 1.0
    else if x == 0.14726215563702155 then 0.14673047445536175
    else x
  cos x :=
    if x == 1.5707963267948966 then 6.123233995736766e-17
    else if x == 0.972008767020682 then 0.563641388525554
    else if x == 0.14726215563702155 then 0.989176509964781
    else 1.0
  tan x :=
    if x == 1.2714025469077892 then 3.239683317331173
    else if x == 1.2716931332527035 then 3.2430269143885306
    else 3.2437591664354977
  atan2 y _ := y
  log x :=
    if x == 1.0010320752770712 then 0.0010315430535474102
    else if x == 1.001258101087387 then 0.0012573103413701953
    else 0.0

omit [Trigonometry] in
/-- The second round takes both out of the area. -/
theorem inStep_of_voyage_of_pair :
    let _ := northward
    let random : RandomSource := ⟨fun _ b => b, .repeating [], some ⟨fun b => b, .zero, [], none⟩⟩
    let times : List (Int64 × Int64) := [(8, 9), (8, 3600000)]
    ∃ fleet moored sailed, make ⟨4, 60.0, 2, 1000.0⟩ .opened 7 random = .ok fleet ∧
      assemble fleet = (.ok (), moored) ∧ (moored.vessels.map (·.link.id)).Nodup ∧
      rounds times moored = (.ok (), sailed) ∧ moored.vessels.length = 2 ∧
      (∀ v ∈ sailed.vessels, v.link.connected = false) ∧ InStep fleet moored times sailed := by
  intro _ random times
  have sails : (match make ⟨4, 60.0, 2, 1000.0⟩ .opened 7 random with
    | .error _ => false
    | .ok fleet => decide ((assemble fleet).1 = .ok () ∧
      ((assemble fleet).2.vessels.map (·.link.id)).Nodup ∧
      (rounds times (assemble fleet).2).1 = .ok () ∧ (assemble fleet).2.vessels.length = 2 ∧
      ∀ v ∈ (rounds times (assemble fleet).2).2.vessels, v.link.connected = false)) = true := by
    decide +kernel
  cases made : make ⟨4, 60.0, 2, 1000.0⟩ .opened 7 random with
  | error failure =>
    rw [made] at sails
    cases sails
  | ok fleet =>
    rw [made] at sails
    obtain ⟨started, apart, ran, pair, adrift⟩ := of_decide_eq_true sails
    have assembled : assemble fleet = (.ok (), (assemble fleet).2) := Prod.ext started rfl
    have sailed : rounds times (assemble fleet).2 = (.ok (), (rounds times (assemble fleet).2).2) :=
      Prod.ext ran rfl
    exact ⟨fleet, _, _, rfl, assembled, apart, sailed, pair, adrift,
      inStep_of_voyage made assembled apart sailed⟩

end Fleet

end VesselRelay
