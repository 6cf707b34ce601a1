import VesselRelay.Proofs.Fleet.Outset
import VesselRelay.Proofs.Settings.Loaded

/-!
Whether a relay runs with the settings that an environment gives it. It always can be made, and its
fleet is connected as soon as there is a generator, but for one setting: a region of operation
whose radius is said to be infinite is accepted, and no position is ever drawn from it.
-/
namespace VesselRelay
open Binary64 (number? number?_one)

/-- Whether the radius of the region of operation is said to be infinite. -/
def Environment.boundless (env : Environment) : Bool :=
  env.regionRadius.any fun raw => Settings.namesInfinity (beforeNul raw).toList

/-! ### Settings -/

namespace Settings

structure Positive (s : Settings) : Prop where
  shards : 0 < s.shards
  timeout : 0.0 < s.timeout
  sweepRate : 0.0 < s.sweepRate
  vessels : 0 < s.vessels
  regionRadius : 0.0 < s.regionRadius

/-- The settings that a fleet is made with. -/
def fleet (s : Settings) : FleetSettings := ⟨s.shards, s.timeout, s.vessels, s.regionRadius⟩

section
variable (env : Environment) (journal : Journal)

theorem positive_load : (load env journal).1.Positive := by
  rw [load_fst]
  exact
    { shards := whole_pos (by decide)
      timeout := real_pos (by decide +kernel)
      sweepRate := real_pos (by decide +kernel)
      vessels := whole_pos (by decide)
      regionRadius := real_pos (by decide +kernel) }

theorem isFinite_regionRadius_load :
    (load env journal).1.regionRadius.isFinite = !env.boundless := by
  rw [load_fst]
  exact isFinite_real env.regionRadius (by decide +kernel)

end
end Settings

/-! ### The fleet -/

namespace Fleet

/-- The region of operation. -/
def region (radius : Float) (positive : 0.0 < radius) : Area :=
  .shape (.circle ⟨harbour, radius, .cartesian, positive⟩)

theorem exists_make (settings : FleetSettings) (shards : 0 < settings.shards)
    (positive : 0.0 < settings.radius) (journal : Journal) (clock : Int64)
    (random : RandomSource) :
    ∃ fleet, make settings journal clock random = .ok fleet ∧ fleet.settings = settings ∧
      fleet.area = region settings.radius positive ∧ fleet.vessels = [] ∧
      fleet.random = random := by
  have started : Relay.start settings.shards journal clock = .ok _ := dif_pos shards
  have circle : Circle.make harbour settings.radius .cartesian = .ok _ := dif_pos positive
  rw [make, started, circle]
  exact ⟨_, rfl, rfl, rfl, rfl, rfl⟩

variable [lib : Trigonometry] {radius : Float}

theorem exists_sample_region (known : lib.Circular) (positive : 0.0 < radius)
    (finite : radius.isFinite) (g : Generator) :
    ∃ p, ((region radius positive).sample g).1 = .ok p := by
  rw [Binary64.isFinite_eq_isSome] at finite
  obtain ⟨r, number⟩ := Option.isSome_iff_exists.mp finite
  obtain ⟨s, scale, wide⟩ := LocalFrame.exists_scale known harbour (by decide +kernel)
    (by decide +kernel)
  exact Circle.exists_sample known (c := ⟨harbour, radius, .cartesian, positive⟩) number scale
    wide g

theorem sample_region_of_endless (positive : 0.0 < radius) (endless : radius.isFinite = false)
    (g : Generator) :
    ∃ fault, ((region radius positive).sample g).1 = .error (.argument fault) := by
  rw [Binary64.isFinite_eq_isSome, Option.isSome_eq_false_iff, Option.isNone_iff_eq_none] at endless
  exact Circle.sample_of_endless (c := ⟨harbour, radius, .cartesian, positive⟩) endless g

end Fleet

/-! ### The relay -/

section
variable [lib : Trigonometry]

/-- What becomes of a relay in an environment: of its settings, of the fleet that is made with them,
and of that when it is to be connected. -/
structure Environment.Outcome (env : Environment) (journal : Journal) (clock : Int64)
    (random : RandomSource) (fleet : Fleet) : Prop where
  positive : (Settings.load env journal).1.Positive
  made : Fleet.make (Settings.load env journal).1.fleet (Settings.load env journal).2 clock random =
    .ok fleet
  connected : env.boundless = false → random.Keyed → ∃ fleet',
    fleet.assemble = (.ok (), fleet') ∧
      fleet'.vessels.length = (Settings.load env journal).1.vessels
  refused : env.boundless = true → random.Keyed →
    ∃ fault, fleet.assemble.1 = .error (.argument fault)
  keyless : ¬ random.Keyed → fleet.assemble.1 = .error .entropy

theorem Environment.exists_outcome (known : lib.Circular) (env : Environment) (journal : Journal)
    (clock : Int64) (random : RandomSource) : ∃ fleet, env.Outcome journal clock random fleet := by
  have positive := Settings.positive_load env journal
  have finite := Settings.isFinite_regionRadius_load env journal
  obtain ⟨fleet, made, settings, area, empty, rfl⟩ :=
    Fleet.exists_make (Settings.load env journal).1.fleet positive.shards
      positive.regionRadius (Settings.load env journal).2 clock random
  refine ⟨fleet, positive, made, ?_, ?_, ?_⟩
  · intro bounded keyed
    rw [bounded] at finite
    have drawn := Fleet.exists_sample_region known positive.regionRadius finite
    obtain ⟨fleet', assembled, grown⟩ := Fleet.exists_assemble keyed (area ▸ drawn)
    rw [empty, settings, List.length_nil, Nat.zero_add] at grown
    exact ⟨fleet', assembled, grown⟩
  · intro boundless keyed
    rw [boundless] at finite
    have refused := Fleet.sample_region_of_endless positive.regionRadius finite
    exact Fleet.assemble_of_refused keyed (settings ▸ positive.vessels) (area ▸ refused)
  · intro keyless
    exact Fleet.assemble_of_not_keyed keyless

end

/-! ### West of the harbour -/

/-- The functions as far as they are asked for here: the sine is that of a direction a little south
of west, the cosine that of the direction and of the latitude of the harbour. -/
@[reducible]
def westward : Trigonometry where
  sin _ := -4.681337838451772e-8
  cos x := if x == 3.1415927004031716 then -0.9999999999999989 else 0.563641388525554
  tan x := x
  atan2 y _ := y
  log x := x

/-- A source of which every word has its highest bit alone, so that every direction is that one. -/
def middling : RandomSource where
  cipher _ _ := ⟨[128, 0, 0, 0, 128, 0, 0, 0, 128, 0, 0, 0, 128, 0, 0, 0], rfl⟩
  entropy := .repeating []

theorem circular_westward : westward.Circular := by
  have unit {x : Float} (low : -1.0 ≤ x) (high : x ≤ 1.0) : ∃ b, number? x = some b ∧ |b| ≤ 1 := by
    obtain ⟨b, exact, low', high'⟩ :=
      Binary64.number?_of_between (Binary64.number?_neg number?_one) number?_one low high
    exact ⟨b, exact, abs_le.mpr ⟨low', high'⟩⟩
  constructor
  case sin =>
    intro x a _
    change ∃ b, number? (-4.681337838451772e-8) = some b ∧ |b| ≤ 1
    exact unit (by decide +kernel) (by decide +kernel)
  case cos =>
    intro x a _
    change ∃ b, number? (if x == 3.1415927004031716 then -0.9999999999999989
      else 0.563641388525554) = some b ∧ |b| ≤ 1
    split
    · exact unit (by decide +kernel) (by decide +kernel)
    · exact unit (by decide +kernel) (by decide +kernel)
  case half_le_cos =>
    intro x start short
    have apart : ¬ x == 3.1415927004031716 := by
      intro same
      obtain ⟨m, here, there⟩ := Binary64.beq_iff.mp same
      have above : 3.1415927004031716 ≤ x :=
        Binary64.le_iff.mpr ⟨m, m, there, here, by simp [Binary64.RankLt]⟩
      exact absurd (Binary64.le_trans above short) (by decide +kernel)
    change 0.5 ≤ ite (x == 3.1415927004031716) (-0.9999999999999989) 0.563641388525554
    rw [if_neg apart]
    decide +kernel

/-- Nothing is said of the region of operation, which therefore has its default radius. -/
theorem Environment.exists_outcome_westward :
    let _ := westward
    let env : Environment :=
      ⟨none, some "", some "4", some "-60", some "1e400", some " 12 ships", none⟩
    env.boundless = false ∧ middling.Keyed ∧ westward.Circular ∧
      ∃ fleet, env.Outcome .opened 11 middling fleet := by
  intro _ env
  exact ⟨by decide, .inr ⟨rfl, rfl⟩, circular_westward,
    env.exists_outcome circular_westward .opened 11 middling⟩

/-- All settings but one have their defaults, and the fleet is not connected. -/
theorem Environment.refused_without_bounds :
    let _ := westward
    let env : Environment := ⟨none, none, none, none, none, none, some "inf"⟩
    let settings := (Settings.load env .opened).1
    settings.Positive ∧ middling.Keyed ∧
      ∃ fleet, Fleet.make settings.fleet (Settings.load env .opened).2 11 middling = .ok fleet ∧
        fleet.assemble.1 = .error (.argument (.longitude Binary64.undefined)) := by
  intro _ env settings
  have refused : (match Fleet.make settings.fleet (Settings.load env .opened).2 11 middling with
    | .error _ => false
    | .ok fleet => decide (fleet.assemble.1 =
        .error (.argument (.longitude Binary64.undefined)))) = true := by
    decide +kernel
  cases made : Fleet.make settings.fleet (Settings.load env .opened).2 11 middling with
  | error failure =>
    rw [made] at refused
    cases refused
  | ok fleet =>
    rw [made] at refused
    exact ⟨Settings.positive_load env .opened, .inr ⟨rfl, rfl⟩, fleet, rfl,
      of_decide_eq_true refused⟩

end VesselRelay
