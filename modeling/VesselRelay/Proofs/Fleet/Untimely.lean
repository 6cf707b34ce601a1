import VesselRelay.Proofs.Fleet.Voyage
import VesselRelay.Proofs.Geo.Reckoning

/-!
Rounds of a time before the start. All vessels depart at the time of the start and keep their
departures in every round, one that is refused on the way included. So a round of an earlier time
is refused at the first vessel that is connected, and what comes before that vessel does nothing;
where nobody is connected no departure is looked at, and the round takes place.
-/
namespace VesselRelay

namespace Vessel

variable {v : Vessel} {area : Area} {now : Int64}

@[simp] theorem departure_after (fate : Fate) : (v.after fate).departure = v.departure := by
  cases fate <;> rfl

variable [Trigonometry]

theorem fate_of_down (down : v.link.connected = false) : v.fate area now = .ok .idle := by
  unfold fate
  rw [down]
  rfl

theorem fate_of_early (up : v.link.connected = true) (early : now < v.departure.time) :
    v.fate area now = .error (.argument (.beforeFix now v.departure.time)) := by
  rw [fate_of_up up, Fix.extrapolate_of_early early]
  rfl

end Vessel

namespace Fleet

variable {α β : Type} {P : Fleet → Prop} {f : Fleet} {start now : Int64}

/-! ### What an action leaves, also where it fails -/

/-- Whether something that holds before an action holds after it, however it ends. -/
def Upholds (P : Fleet → Prop) (a : Action α) : Prop := ∀ f, P f → P (a f).2

theorem Upholds.bind {a : Action α} {k : α → Action β} (first : Upholds P a)
    (rest : ∀ x, Upholds P (k x)) : Upholds P (a >>= k) := by
  intro f holds
  change P (ExceptT.bindCont k (a f).1 (a f).2).2
  have after := first f holds
  cases (a f).1 with
  | error failure => exact after
  | ok x => exact rest x _ after

/-- Whether a vessel has departed at a time, and keeps a session log. -/
def Departed (start : Int64) (v : Vessel) : Prop :=
  v.departure.time = start ∧ v.link.listeners = [.mk]

/-- Whether it is the time of the start, at which all vessels depart. -/
def Starting (start : Int64) (f : Fleet) : Prop :=
  f.relay.clock = start ∧ ∀ v ∈ f.vessels, Departed start v

variable [Trigonometry]

/-- A launch that fails on the way has not put its vessel to the others. -/
theorem upholds_launch (number : Nat) : Upholds (Starting start) (launch number) := by
  unfold launch
  refine .bind (fun f starting => starting) fun id => ?_
  intro f starting
  rw [connect_bind, get_bind]
  refine Upholds.bind (P := Starting start) (fun f starting => starting) (fun position => ?_) _
    starting
  refine .bind (fun f starting => starting) fun _ => ?_
  refine .bind (fun f starting => ?_) fun _ => ?_
  · unfold service
    rw [Relay.offer_eq (by decide)]
    exact starting
  refine .bind (fun f starting => starting) fun course => ?_
  refine .bind (fun f starting => starting) fun knots => ?_
  intro g present
  exact ⟨present.1, List.forall_mem_append.mpr
    ⟨present.2, List.forall_mem_singleton.mpr ⟨starting.1, rfl⟩⟩⟩

theorem upholds_launchAll (first count : Nat) :
    Upholds (Starting start) (launchAll first count) := by
  induction count generalizing first with
  | zero => exact fun f starting => starting
  | succ count ih => exact .bind (upholds_launch first) fun _ => ih (first + 1)

theorem upholds_assemble : Upholds (Starting start) assemble := by
  unfold assemble
  intro f starting
  rw [get_bind]
  refine Upholds.bind (P := Starting start) (fun f starting => starting) (fun _ => ?_) _ starting
  exact .bind (fun f starting => starting) fun _ => upholds_launchAll 1 _

/-! ### Rounds -/

/-- Whether all vessels of a fleet have departed at a time. -/
def AllDeparted (start : Int64) (f : Fleet) : Prop := ∀ v ∈ f.vessels, Departed start v

theorem upholds_advanceFrom {vessels : List Vessel} (departed : ∀ v ∈ vessels, Departed start v)
    (now : Int64) (index : Nat) :
    Upholds (AllDeparted start) (advanceFrom now index vessels) := by
  induction vessels generalizing index with
  | nil => exact fun f all => all
  | cons v rest ih =>
    obtain ⟨here, there⟩ := List.forall_mem_cons.mp departed
    intro f all
    unfold advanceFrom
    cases reckoned : v.fate f.area now with
    | error failure =>
      have failed : advance now v f = (.error failure, f) := by rw [advance_eq here.2, reckoned]
      rw [bind_of_failed failed]
      exact all
    | ok fate =>
      have advanced : advance now v f = (.ok (fate.goesOn?, v.after fate),
          { f with relay := fate.tell v.link.id f.relay }) := by
        rw [advance_eq here.2, reckoned]
      rw [bind_of_ok advanced]
      refine Upholds.bind (P := AllDeparted start) (fun f all w member => ?_)
        (fun _ => .bind (ih there _) fun _ f all => all) _ all
      rcases List.mem_or_eq_of_mem_set member with member | rfl
      · exact all w member
      · simpa [Departed] using here

/-- What comes after the moves of a round leaves the vessels alone. -/
theorem upholds_tick (now : Int64) : Upholds (AllDeparted start) (tick now) := by
  intro f all
  have kept := upholds_advanceFrom all now 0 f all
  cases moved : advanceFrom now 0 f.vessels f with
  | mk result g =>
    rw [moved] at kept
    cases result with
    | error failure =>
      change AllDeparted start ((advanceFrom now 0 f.vessels >>= _ : Action Unit) f).2
      rw [bind_of_failed moved]
      exact kept
    | ok count =>
      obtain ⟨notices, _, closes⟩ := exists_closing now count g
      rw [closes f g.relay.journal moved]
      exact kept

/-- A fleet after rounds one after the other, whether they are refused or not. -/
def afterRounds (times : List (Int64 × Int64)) (f : Fleet) : Fleet :=
  times.foldl (fun f time => (round time.1 time.2 f).2) f

theorem allDeparted_afterRounds {times : List (Int64 × Int64)} (all : AllDeparted start f) :
    AllDeparted start (afterRounds times f) := by
  induction times generalizing f with
  | nil => exact all
  | cons time times ih => exact ih (upholds_tick time.2 _ all)

/-! ### Rounds that come too early -/

omit [Trigonometry] in
theorem replace_self {v : Vessel} {before rest : List Vessel}
    (manned : f.vessels = before ++ v :: rest) : replace before.length v f = f := by
  have same : f.vessels.set before.length v = f.vessels := by simp [manned]
  rw [replace, same]

/-- Vessels before any connected one are passed over, and that one cannot be reckoned. -/
theorem advanceFrom_of_early {before vessels : List Vessel} (early : now < start)
    (departed : ∀ v ∈ vessels, Departed start v) (manned : f.vessels = before ++ vessels)
    (someone : ∃ v ∈ vessels, v.link.connected = true) :
    advanceFrom now before.length vessels f =
      (.error (.argument (.beforeFix now start)), f) := by
  induction vessels generalizing before with
  | nil => simp at someone
  | cons v rest ih =>
    obtain ⟨⟨time, logged⟩, there⟩ := List.forall_mem_cons.mp departed
    unfold advanceFrom
    cases up : v.link.connected with
    | true =>
      have refused : advance now v f = (.error (.argument (.beforeFix now start)), f) := by
        rw [advance_eq logged, Vessel.fate_of_early up (time ▸ early), time]
      exact bind_of_failed refused
    | false =>
      have passed : advance now v f = (.ok (false, v), f) := by
        rw [advance_eq logged, Vessel.fate_of_down up]
        rfl
      have same : (modify (replace before.length v) : Action Unit) f = (.ok (), f) := by
        rw [modify_eq, replace_self manned]
      have manned' : f.vessels = (before ++ [v]) ++ rest := by simp [manned]
      have later := ih there manned' (by simpa [up] using someone)
      rw [List.length_append, List.length_singleton] at later
      rw [bind_of_ok passed]
      dsimp only
      rw [bind_of_ok same, bind_of_failed later]

theorem tick_of_early (early : now < start) (all : AllDeparted start f)
    (someone : ∃ v ∈ f.vessels, v.link.connected = true) :
    tick now f = (.error (.argument (.beforeFix now start)), f) := by
  have manned : f.vessels = [] ++ f.vessels := rfl
  change (advanceFrom now 0 f.vessels >>= _ : Action Unit) f = _
  exact bind_of_failed (advanceFrom_of_early early all manned someone)

/-- Where nobody is connected nothing of a round fails, whatever its time. -/
theorem tick_of_idle (all : AllDeparted start f)
    (idle : ∀ v ∈ f.vessels, v.link.connected = false) : ∃ f', tick now f = (.ok (), f') := by
  have manned : f.vessels = [] ++ f.vessels := rfl
  have logged : ∀ v ∈ f.vessels, v.link.listeners = [.mk] := fun v member => (all v member).2
  have reckoned : ∀ v ∈ f.vessels, v.fate f.area now = .ok ((fun _ => .idle) v) :=
    fun v member => Vessel.fate_of_down (idle v member)
  obtain ⟨count, g, moved⟩ : ∃ count g, advanceFrom now 0 f.vessels f = (.ok count, g) :=
    ⟨_, _, advanceFrom_eq logged manned reckoned⟩
  obtain ⟨notices, _, closes⟩ := exists_closing now count g
  exact ⟨_, closes f g.relay.journal moved⟩

/-- What a round of an earlier time does to a fleet that has been at sea. -/
structure HoldsBack (start clock now : Int64) (f : Fleet) : Prop where
  refused_iff : (∃ fault, (round clock now f).1 = .error (.argument fault)) ↔
    ∃ v ∈ f.vessels, v.link.connected = true
  /-- A round that is refused leaves everything as it is, while the clock goes on. -/
  untouched : ∀ failure, (round clock now f).1 = .error failure →
    failure = .argument (.beforeFix now start) ∧
      (round clock now f).2 = { f with relay.clock := clock }

theorem holdsBack_of_departed {clock : Int64} (early : now < start) (all : AllDeparted start f) :
    HoldsBack start clock now f := by
  let f' : Fleet := { f with relay.clock := clock }
  have same : round clock now f = tick now f' := rfl
  by_cases someone : ∃ v ∈ f.vessels, v.link.connected = true
  · have refused := tick_of_early (f := f') early all someone
    rw [← same] at refused
    refine ⟨iff_of_true ⟨_, congrArg Prod.fst refused⟩ someone, fun failure failed => ?_⟩
    rw [refused] at failed ⊢
    cases failed
    exact ⟨rfl, rfl⟩
  · have idle : ∀ v ∈ f.vessels, v.link.connected = false := by simpa using someone
    obtain ⟨g, ran⟩ : ∃ g, tick now f' = (.ok (), g) := tick_of_idle all idle
    rw [← same] at ran
    refine ⟨iff_of_false ?_ someone, fun failure failed => ?_⟩
    · rintro ⟨fault, failed⟩
      rw [ran] at failed
      cases failed
    · rw [ran] at failed
      cases failed

/-- Whatever rounds there have been since the start, refused ones included, a round of an earlier
time is refused exactly while somebody is connected, and nothing has happened then. -/
theorem early_round_holdsBack {settings : FleetSettings} {journal : Journal} {begun start : Int64}
    {random : RandomSource} {fleet : Fleet} (made : make settings journal begun random = .ok fleet)
    (times : List (Int64 × Int64)) {clock now : Int64} (early : now < start) :
    HoldsBack start clock now
      (afterRounds times (assemble { fleet with relay.clock := start }).2) := by
  obtain ⟨_, empty⟩ := sound_of_make made
  have starting : Starting start { fleet with relay.clock := start } := by
    refine ⟨rfl, ?_⟩
    dsimp only
    rw [empty]
    exact List.forall_mem_nil _
  exact holdsBack_of_departed early (allDeparted_afterRounds (upholds_assemble _ starting).2)

omit [Trigonometry] in
theorem early_round_holdsBack_of_pair :
    let _ := northward
    let random : RandomSource := ⟨fun _ b => b, .repeating [], some ⟨fun b => b, .zero, [], none⟩⟩
    let times : List (Int64 × Int64) := [(8, 9), (8, 6)]
    ∃ fleet, make ⟨4, 60.0, 2, 1000.0⟩ .opened 7 random = .ok fleet ∧ (3 : Int64) < 7 ∧
      (∃ v ∈ (afterRounds times (assemble { fleet with relay.clock := 7 }).2).vessels,
        v.link.connected = true) ∧
      HoldsBack 7 10 3 (afterRounds times (assemble { fleet with relay.clock := 7 }).2) := by
  intro _ random times
  have manned : (match make ⟨4, 60.0, 2, 1000.0⟩ .opened 7 random with
    | .error _ => false
    | .ok fleet => decide (∃ v ∈ (afterRounds times
        (assemble { fleet with relay.clock := 7 }).2).vessels, v.link.connected = true)) =
      true := by
    decide +kernel
  cases made : make ⟨4, 60.0, 2, 1000.0⟩ .opened 7 random with
  | error failure =>
    rw [made] at manned
    cases manned
  | ok fleet =>
    rw [made] at manned
    exact ⟨fleet, rfl, by decide, of_decide_eq_true manned,
      early_round_holdsBack made times (by decide)⟩

end Fleet
end VesselRelay
