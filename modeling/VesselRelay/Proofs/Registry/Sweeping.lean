import VesselRelay.Proofs.Binary64.Value
import VesselRelay.Proofs.Registry.Refinement

/-!
What a sweep forgets. The timeout is a double of seconds, turned into milliseconds and cut to 64
bits. Where the milliseconds fit, the sweep forgets the targets that are disconnected and have been
idle for longer; beyond that they become the least number of 64 bits, and so it forgets every
disconnected target whose idle time is not that number itself.
-/
namespace VesselRelay

/-! ### Idle targets -/

namespace Target

/-- Milliseconds since a target was last heard of. -/
def idle (now : Int64) (t : Target) : Int := now.toInt - t.lastActivity.toInt

/-- Whether a target is disconnected and has been idle for longer than some milliseconds, which are
not negative. Nothing is longer than infinity. -/
def IdleBeyond (now : Int64) (millis : Float) (t : Target) : Prop :=
  t.connected = false ∧ ∃ p, Binary64.parts? millis = some p ∧ p.value < t.idle now

/-- Whether the time a target has been idle is told in 64 bits. -/
def Timely (now : Int64) (t : Target) : Prop := -2 ^ 63 ≤ t.idle now ∧ t.idle now < 2 ^ 63

variable {now : Int64} {t : Target}

theorem Timely.toInt_sub (timely : t.Timely now) : (now - t.lastActivity).toInt = t.idle now := by
  obtain ⟨low, high⟩ := timely
  unfold idle at low high ⊢
  rw [Int64.toInt_sub]
  exact Int.bmod_eq_of_le (by omega) (by omega)

theorem Timely.expired_iff (timely : t.Timely now) (timeout : Int64) :
    t.expired now timeout = true ↔ t.connected = false ∧ timeout.toInt < t.idle now := by
  rw [expired, Bool.and_eq_true, Bool.not_eq_true', decide_eq_true_iff, Int64.lt_iff_toInt_lt,
    timely.toInt_sub]

end Target

namespace Registry
open Binary64 (FitsWord negative_mul toInt_truncate_lt truncate_of_not_fitsWord)

variable {r : Registry} {now : Int64} {timeout : Float}

theorem millis_not_negative (positive : 0.0 < timeout) :
    Binary64.negative (timeout * 1000.0) = false :=
  negative_mul positive (by decide +kernel)

theorem expired_iff_idleBeyond {t : Target} (timely : t.Timely now) (positive : 0.0 < timeout)
    (fits : FitsWord (timeout * 1000.0)) :
    t.expired now (timeoutMillis timeout) = true ↔ t.IdleBeyond now (timeout * 1000.0) := by
  obtain ⟨p, finite, small⟩ := fits
  rw [timely.expired_iff, Target.IdleBeyond, timeoutMillis,
    toInt_truncate_lt finite (millis_not_negative positive) small]
  refine and_congr_right fun _ => ⟨fun longer => ⟨p, finite, longer⟩, ?_⟩
  rintro ⟨q, same, longer⟩
  cases finite.symm.trans same
  exact longer

/-- Milliseconds that do not fit become the least number there is. -/
theorem expired_iff_of_not_fitsWord {t : Target} (timely : t.Timely now)
    (wide : ¬ FitsWord (timeout * 1000.0)) :
    t.expired now (timeoutMillis timeout) = true ↔
      t.connected = false ∧ t.idle now ≠ -2 ^ 63 := by
  rw [timely.expired_iff, timeoutMillis, truncate_of_not_fitsWord wide, Int64.toInt_minValue]
  refine and_congr_right fun _ => ?_
  have low := timely.1
  omega

/-! ### What a sweep does -/

/-- Some targets are forgotten, every other one is as it was, and the answer is their number. -/
structure Forgets (r : Registry) (swept : Nat × Registry) (gone : Target → Prop) : Prop where
  forgotten : ∀ id t, r.find? id = some t → gone t → swept.2.find? id = none
  kept : ∀ id t, r.find? id = some t → ¬ gone t → swept.2.find? id = some t
  unknown : ∀ id, r.find? id = none → swept.2.find? id = none
  counted : ∃ ids : Finset Identifier,
    (∀ id, id ∈ ids ↔ ∃ t, r.find? id = some t ∧ gone t) ∧ swept.1 = ids.card

theorem Reachable.reflects (reachable : r.Reachable) : ∃ d, Reflects r d := by
  induction reachable with
  | empty shardCount positive => exact ⟨_, Reflects.empty shardCount positive⟩
  | operate op _ ih =>
    obtain ⟨d, alike⟩ := ih
    exact ⟨_, (alike.operate op).2⟩

theorem mem_gone {d : Directory} (alike : Reflects r d) (timeout : Int64) (id : Identifier) :
    id ∈ d.gone now timeout ↔ ∃ t, r.find? id = some t ∧ t.expired now timeout = true := by
  rw [alike.lookups, Directory.find?, Directory.gone, Finset.mem_filter]
  by_cases known : id ∈ d.known
  · simp only [known, true_and, if_true, Option.map_some, Option.some.injEq, exists_eq_left']
    rfl
  · simp [known]

/-- A sweep forgets the targets that have expired. -/
theorem forgets_sweep (reachable : r.Reachable) {gone : Target → Prop}
    (same : ∀ id t, r.find? id = some t →
      (t.expired now (timeoutMillis timeout) = true ↔ gone t)) :
    Forgets r (r.sweep now timeout) gone := by
  have lookup (id : Identifier) : (r.sweep now timeout).2.find? id = _ :=
    find?_sweep now timeout reachable.placed
  obtain ⟨d, alike⟩ := reachable.reflects
  refine ⟨fun id t found goes => ?_, fun id t found stays => ?_, fun id absent => ?_,
    d.gone now (timeoutMillis timeout), fun id => ?_, alike.swept now timeout⟩
  · rw [lookup, found]
    simp [Option.filter, (same id t found).mpr goes]
  · have fresh := (not_congr (same id t found)).mpr stays
    rw [lookup, found]
    simp [Option.filter, fresh]
  · rw [lookup, absent]
    rfl
  · rw [mem_gone alike]
    exact exists_congr fun t => and_congr_right fun found => same id t found

/-- A sweep forgets the disconnected targets that have been idle for longer than the timeout, as
long as its milliseconds fit 64 bits. A longer timeout spares no disconnected target, but one whose
idle time is the least number of 64 bits. -/
theorem sweep_forgets (reachable : r.Reachable) (positive : 0.0 < timeout)
    (timely : ∀ id t, r.find? id = some t → t.Timely now) :
    (FitsWord (timeout * 1000.0) →
      Forgets r (r.sweep now timeout) fun t => t.IdleBeyond now (timeout * 1000.0)) ∧
    (¬ FitsWord (timeout * 1000.0) →
      Forgets r (r.sweep now timeout) fun t => t.connected = false ∧ t.idle now ≠ -2 ^ 63) := by
  constructor
  · intro fits
    exact forgets_sweep reachable fun id t found =>
      expired_iff_idleBeyond (timely id t found) positive fits
  · intro wide
    exact forgets_sweep reachable fun id t found =>
      expired_iff_of_not_fitsWord (timely id t found) wide

/-- A buoy that was heard of once is forgotten after five minutes, and with a timeout of `1e300`
seconds after a millisecond. -/
theorem sweep_forgets_a_buoy :
    let r := (Operation.register .zero "ais" 0).apply (.empty 1 Nat.one_pos)
    Forgets r (r.sweep 300001 300.0) (Target.IdleBeyond 300001 (300.0 * 1000.0)) ∧
      Forgets r (r.sweep 1 1e300) fun t => t.connected = false ∧ t.idle 1 ≠ -2 ^ 63 := by
  intro r
  have reachable : r.Reachable := .operate _ (.empty 1 Nat.one_pos)
  have buoy (id : Identifier) (t : Target) (found : r.find? id = some t) : t.lastActivity = 0 := by
    have member := (reachable.placed.find?_eq_some.mp found).1
    have index : r.shardOf id = 0 := Nat.lt_one_iff.mp (shardOf_lt r id)
    have only : r.shard 0 = [⟨.zero, none, ["ais"], false, 0⟩] := by decide +kernel
    rw [index, only] at member
    rw [List.mem_singleton.mp member]
  have fits : FitsWord (300.0 * 1000.0) := by
    refine ⟨⟨5153960755200000, -34⟩, by decide +kernel, ?_⟩
    norm_num [Binary64.Parts.value]
  have wide : ¬ FitsWord (1e300 * 1000.0) := by
    rintro ⟨p, finite, small⟩
    have floor : (Binary64.parts? (1e300 * 1000.0)).all (2 ^ 63 ≤ ·.floor) = true := by
      decide +kernel
    rw [finite, Option.all_some, decide_eq_true_iff] at floor
    exact absurd (p.floor_lt_iff.mpr small) (not_lt.mpr floor)
  refine ⟨(sweep_forgets reachable (by decide +kernel) fun id t found => ?_).1 fits,
    (sweep_forgets reachable (by decide +kernel) fun id t found => ?_).2 wide⟩
  · rw [Target.Timely, Target.idle, buoy id t found]
    decide
  · rw [Target.Timely, Target.idle, buoy id t found]
    decide

/-- The buoy is forgotten although it has not been idle for that long. -/
theorem endless_timeout_forgets :
    let r := (Operation.register .zero "ais" 0).apply (.empty 1 Nat.one_pos)
    let buoy : Target := ⟨.zero, none, ["ais"], false, 0⟩
    r.find? .zero = some buoy ∧ ¬ buoy.IdleBeyond 1 (1e300 * 1000.0) ∧ (r.sweep 1 1e300).1 = 1 ∧
      (r.sweep 1 1e300).2.find? .zero = none := by
  intro r buoy
  refine ⟨by decide +kernel, ?_, by decide +kernel, by decide +kernel⟩
  rintro ⟨_, p, finite, longer⟩
  have floor : (Binary64.parts? (1e300 * 1000.0)).all (1 ≤ ·.floor) = true := by decide +kernel
  rw [finite, Option.all_some, decide_eq_true_iff, Binary64.Parts.floor_eq, Nat.one_le_floor_iff]
    at floor
  have idle : buoy.idle 1 = 1 := rfl
  rw [idle, Int.cast_one] at longer
  exact absurd longer (not_lt.mpr floor)

end Registry

end VesselRelay
