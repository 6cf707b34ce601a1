import VesselRelay.Proofs.Fleet.Steps
import VesselRelay.Proofs.Geo.Landing
import VesselRelay.Proofs.Random.Keying

/-!
Whether a fleet can be connected. All that it takes is a generator that is there or can be keyed,
and an area that gives a position at every draw; the draws of identifiers, courses and speeds cannot
be refused, nor can what the relay is told.
-/
namespace VesselRelay
open Generator (Attempt)

/-! ### The generator -/

namespace RandomSource

variable {α : Type} {s : RandomSource}

/-- Whether there is a generator, or the next two reads give what it is keyed from. -/
def Keyed (s : RandomSource) : Prop :=
  s.generator.isSome ∨
    s.entropy.failsAt s.entropy.reads = false ∧ s.entropy.failsAt (s.entropy.reads + 1) = false

theorem current_of_keyed (keyed : s.Keyed) : ∃ g s', s.current = (.ok g, s') := by
  cases present : s.generator with
  | some g => exact ⟨g, s, by rw [current, present]⟩
  | none =>
    have reading := keyed.resolve_left (by rw [present]; decide)
    exact ⟨_, _, current_of_yields present reading⟩

theorem draw_of_not_keyed (keyless : ¬ s.Keyed) (attempt : Attempt α) :
    ∃ s', s.draw attempt = (.error .entropy, s') := by
  obtain ⟨absent, failing⟩ := not_or.mp keyless
  exact ⟨_, draw_of_not_yields (Option.not_isSome_iff_eq_none.mp absent) failing attempt⟩

/-- A draw from a keyed source is a draw from a generator, which is kept. -/
theorem draw_of_keyed (keyed : s.Keyed) (attempt : Attempt α) :
    ∃ g s', s.draw attempt = ((attempt g).1, s') ∧ s'.Keyed := by
  obtain ⟨g, s', current⟩ := current_of_keyed keyed
  exact ⟨g, _, draw_of_current_ok current attempt, .inl rfl⟩

/-- A draw that is never refused succeeds. -/
theorem exists_draw (keyed : s.Keyed) (attempt : Attempt α)
    (drawn : ∀ g, ∃ x, (attempt g).1 = .ok x) :
    ∃ x s', s.draw attempt = (.ok x, s') ∧ s'.Keyed := by
  obtain ⟨g, s', result, keyed'⟩ := draw_of_keyed keyed attempt
  obtain ⟨x, exact⟩ := drawn g
  exact ⟨x, s', result.trans (by rw [exact]), keyed'⟩

end RandomSource

/-! ### Launches -/

namespace Fleet

variable [Trigonometry] {f : Fleet}

theorem exists_launch (keyed : f.random.Keyed) (drawn : ∀ g, ∃ p, (f.area.sample g).1 = .ok p)
    (number : ℕ) :
    ∃ f', launch number f = (.ok (), f') ∧ f'.random.Keyed ∧ f'.area = f.area ∧
      f'.vessels.length = f.vessels.length + 1 := by
  obtain ⟨id, r₁, named, keyed⟩ := RandomSource.exists_draw keyed Generator.identifier
    fun g => ⟨(Generator.identifier g).1, rfl⟩
  obtain ⟨position, r₂, placed, keyed⟩ := RandomSource.exists_draw keyed _ drawn
  obtain ⟨course, r₃, headed, keyed⟩ := RandomSource.exists_draw keyed (Generator.doubleBelow 360.0)
    fun g => ⟨_, Generator.doubleBelow_fst_eq_ok.mpr ⟨by decide +kernel, rfl⟩⟩
  obtain ⟨knots, r₄, sped, keyed⟩ := RandomSource.exists_draw keyed
    (Generator.doubleBetween leastKnots mostKnots)
    fun g => ⟨_, Generator.doubleBetween_fst_eq_ok.mpr ⟨by decide +kernel, rfl⟩⟩
  exact ⟨_, launch_eq_ok.mpr ⟨id, position, course, knots, r₁, r₂, r₃, r₄, named, placed, headed,
    sped, rfl⟩, keyed, rfl, List.length_append⟩

theorem exists_launchAll (keyed : f.random.Keyed)
    (drawn : ∀ g, ∃ p, (f.area.sample g).1 = .ok p) (first count : ℕ) :
    ∃ f', launchAll first count f = (.ok (), f') ∧
      f'.vessels.length = f.vessels.length + count := by
  induction count generalizing first f with
  | zero => exact ⟨f, rfl, rfl⟩
  | succ count ih =>
    obtain ⟨g, launched, keyed', area, grown⟩ := exists_launch keyed drawn first
    obtain ⟨f', others, grown'⟩ := ih keyed' (by rwa [area]) (first + 1)
    exact ⟨f', (bind_of_ok launched).trans others, by omega⟩

/-- Where no position can be drawn a launch is refused. -/
theorem launch_of_refused (keyed : f.random.Keyed)
    (refused : ∀ g, ∃ fault, (f.area.sample g).1 = .error (.argument fault)) (number : ℕ) :
    ∃ fault, (launch number f).1 = .error (.argument fault) := by
  obtain ⟨id, r₁, named, keyed⟩ := RandomSource.exists_draw keyed Generator.identifier
    fun g => ⟨(Generator.identifier g).1, rfl⟩
  obtain ⟨g, r₂, drawn, _⟩ := RandomSource.draw_of_keyed keyed f.area.sample
  obtain ⟨fault, failed⟩ := refused g
  have identified := draw_eq_ok (f := f).mpr ⟨r₁, named, rfl⟩
  have sampled : (r₁.draw f.area.sample).1 = .error (.argument fault) := by rw [drawn, failed]
  refine ⟨fault, ?_⟩
  unfold launch
  rw [bind_of_ok identified, connect_bind, get_bind]
  exact bind_of_error sampled

/-! ### The whole fleet -/

/-- A fleet that has been keyed and has entered that it begins. -/
def ready (f : Fleet) (random : RandomSource) : Fleet :=
  { f.log .info (runtimeEvent "initializing" [("vessels", .int f.settings.vessels)]) with random }

theorem assemble_of_keyed (keyed : f.random.Keyed) :
    ∃ random, random.Keyed ∧ assemble f = launchAll 1 f.settings.vessels (f.ready random) := by
  obtain ⟨_, random, drawn, keyed'⟩ := RandomSource.exists_draw keyed (pure ())
    fun _ => ⟨(), rfl⟩
  refine ⟨random, keyed', ?_⟩
  unfold assemble
  rw [get_bind, bind_of_ok (modify_eq _)]
  exact bind_of_ok (draw_eq_ok.mpr ⟨random, drawn, rfl⟩)

theorem exists_assemble (keyed : f.random.Keyed)
    (drawn : ∀ g, ∃ p, (f.area.sample g).1 = .ok p) :
    ∃ f', assemble f = (.ok (), f') ∧
      f'.vessels.length = f.vessels.length + f.settings.vessels := by
  obtain ⟨random, keyed', begun⟩ := assemble_of_keyed keyed
  rw [begun]
  exact exists_launchAll (f := f.ready random) keyed' drawn 1 f.settings.vessels

theorem assemble_of_refused (keyed : f.random.Keyed) (manned : 0 < f.settings.vessels)
    (refused : ∀ g, ∃ fault, (f.area.sample g).1 = .error (.argument fault)) :
    ∃ fault, (assemble f).1 = .error (.argument fault) := by
  obtain ⟨random, keyed', begun⟩ := assemble_of_keyed keyed
  obtain ⟨fault, failed⟩ := launch_of_refused (f := f.ready random) keyed' refused 1
  obtain ⟨count, more⟩ := Nat.exists_eq_succ_of_ne_zero manned.ne'
  refine ⟨fault, ?_⟩
  rw [begun, more]
  exact bind_of_error failed

theorem assemble_of_not_keyed (keyless : ¬ f.random.Keyed) :
    (assemble f).1 = .error .entropy := by
  obtain ⟨_, failed⟩ := RandomSource.draw_of_not_keyed keyless (pure ())
  unfold assemble
  rw [get_bind, bind_of_ok (modify_eq _)]
  exact bind_of_error (congrArg Prod.fst failed)

end Fleet
end VesselRelay
