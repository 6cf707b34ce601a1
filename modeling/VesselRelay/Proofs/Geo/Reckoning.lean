import VesselRelay.Proofs.Reading
import VesselRelay.Geo.Fix

/-!
Dead reckoning looks at a time for nothing but the whole seconds from the fix on. Where 64 bits hold
the milliseconds between the two, these seconds are counted as they are, and times of one count are
reckoned to one place. Where the bits do not, the difference goes round, the count comes out at or
below zero, and the way leads back from the fix.
-/
namespace VesselRelay.Fix

variable {fix : Fix} {t u : Int64} {course knots : Float}

/-- Milliseconds from a fix to a time, however many they are. -/
def span (fix : Fix) (t : Int64) : Int := t.toInt - fix.time.toInt

theorem span_nonneg (after : fix.time ≤ t) : 0 ≤ fix.span t := by
  rw [Int64.le_iff_toInt_le] at after
  exact Int.sub_nonneg.mpr after

theorem span_lt (fix : Fix) (t : Int64) : fix.span t < 2 ^ 64 := by
  have most := t.toInt_lt
  have least := fix.time.le_toInt
  unfold span
  omega

/-! ### Seconds -/

/-- The difference of two times is the milliseconds between them where 64 bits hold these. -/
theorem toInt_sub_time (after : fix.time ≤ t) (fits : fix.span t < 2 ^ 63) :
    (t - fix.time).toInt = fix.span t := by
  have start := span_nonneg after
  rw [Int64.toInt_sub]
  exact Int.bmod_eq_of_le (by unfold span at start; omega) (by unfold span at fits; omega)

theorem toInt_elapsedSeconds (fix : Fix) (t : Int64) :
    (fix.elapsedSeconds t).toInt = ((fix.span t).bmod (2 ^ 64)).tdiv 1000 := by
  rw [elapsedSeconds, Int64.toInt_div_of_ne_right _ _ (by decide), Int64.toInt_sub]
  rfl

theorem toInt_elapsedSeconds_of_fits (after : fix.time ≤ t) (fits : fix.span t < 2 ^ 63) :
    (fix.elapsedSeconds t).toInt = fix.span t / 1000 := by
  rw [elapsedSeconds, Int64.toInt_div_of_ne_right _ _ (by decide), toInt_sub_time after fits]
  exact Int.tdiv_eq_ediv_of_nonneg (span_nonneg after)

/-- Where the milliseconds are too many, those are counted that they are short of `2 ^ 64`. -/
theorem toInt_elapsedSeconds_of_wide (wide : 2 ^ 63 ≤ fix.span t) :
    (fix.elapsedSeconds t).toInt = -((2 ^ 64 - fix.span t) / 1000) := by
  have short := fix.span_lt t
  have round : (fix.span t).bmod (2 ^ 64) = -(2 ^ 64 - fix.span t) := by
    rw [Int.bmod_eq_emod]
    split <;> omega
  rw [toInt_elapsedSeconds, round, Int.neg_tdiv, Int.tdiv_eq_ediv_of_nonneg (by omega)]

/-- The seconds are those that have passed as long as 64 bits hold the milliseconds. -/
theorem toInt_elapsedSeconds_eq_iff (after : fix.time ≤ t) :
    (fix.elapsedSeconds t).toInt = fix.span t / 1000 ↔ fix.span t < 2 ^ 63 := by
  refine ⟨fun counted => ?_, toInt_elapsedSeconds_of_fits after⟩
  by_contra wide
  have short := fix.span_lt t
  rw [toInt_elapsedSeconds_of_wide (Int.not_lt.mp wide)] at counted
  omega

/-! ### Places -/

variable [Trigonometry]

theorem extrapolate_of_early (early : t < fix.time) :
    fix.extrapolate course knots t = .error (.argument (.beforeFix t fix.time)) := by
  rw [extrapolate, if_pos early]
  rfl

/-- Where dead reckoning comes to in so many seconds. -/
def reckoned (fix : Fix) (course knots : Float) (seconds : Int64) : Except Failure Position :=
  let frame := LocalFrame.anchored fix.position
  frame.toPosition (sail (frame.toPlanar fix.position) course knots seconds)

theorem extrapolate_of_after (after : fix.time ≤ t) :
    fix.extrapolate course knots t =
      (fix.reckoned course knots (fix.elapsedSeconds t)).map (⟨·, t⟩) := by
  have passed : ¬ t < fix.time := by
    rw [Int64.lt_iff_toInt_lt]
    rw [Int64.le_iff_toInt_le] at after
    omega
  rw [extrapolate, if_neg passed]
  rfl

theorem position_extrapolate (after : fix.time ≤ t) :
    (fix.extrapolate course knots t).map (·.position) =
      fix.reckoned course knots (fix.elapsedSeconds t) := by
  rw [extrapolate_of_after after]
  cases fix.reckoned course knots (fix.elapsedSeconds t) <;> rfl

theorem reckoned_ne_beforeFix {seconds time start : Int64} :
    fix.reckoned course knots seconds ≠ .error (.argument (.beforeFix time start)) := by
  unfold reckoned LocalFrame.toPosition Position.make
  dsimp only
  split
  · split
    · intro refused
      cases refused
    · intro refused
      cases refused
  · intro refused
    cases refused

theorem extrapolate_eq_beforeFix_iff {time start : Int64} :
    fix.extrapolate course knots t = .error (.argument (.beforeFix time start)) ↔
      t < fix.time ∧ time = t ∧ start = fix.time := by
  constructor
  · intro refused
    by_cases early : t < fix.time
    · rw [extrapolate_of_early early] at refused
      cases refused
      exact ⟨early, rfl, rfl⟩
    · rw [extrapolate_of_after (Int64.not_lt.mp early)] at refused
      cases place : fix.reckoned course knots (fix.elapsedSeconds t) with
      | ok p =>
        rw [place] at refused
        cases refused
      | error failure =>
        rw [place] at refused
        cases refused
        exact absurd place reckoned_ne_beforeFix
  · rintro ⟨early, rfl, rfl⟩
    exact extrapolate_of_early early

/-- How dead reckoning from a fix depends on the time. -/
structure BySeconds (fix : Fix) (course knots : Float) : Prop where
  /-- A time is refused as too early where it is before the fix, and only there. -/
  refused : ∀ t time start,
    fix.extrapolate course knots t = .error (.argument (.beforeFix time start)) ↔
      t < fix.time ∧ time = t ∧ start = fix.time
  stamped : ∀ t later, fix.extrapolate course knots t = .ok later → later.time = t
  counted : ∀ t, fix.time ≤ t →
    ((fix.elapsedSeconds t).toInt = fix.span t / 1000 ↔ fix.span t < 2 ^ 63)
  forward : ∀ t, fix.time ≤ t → fix.span t < 2 ^ 63 → 0 ≤ (fix.elapsedSeconds t).toInt
  /-- Longer spans are sailed backwards. -/
  backward : ∀ t, 2 ^ 63 ≤ fix.span t →
    (fix.elapsedSeconds t).toInt = -((2 ^ 64 - fix.span t) / 1000)
  /-- Times of one count fail alike or come to one place. -/
  alike : ∀ t u, fix.time ≤ t → fix.time ≤ u → fix.span t < 2 ^ 63 → fix.span u < 2 ^ 63 →
    fix.span t / 1000 = fix.span u / 1000 →
    (fix.extrapolate course knots t).map (·.position) =
      (fix.extrapolate course knots u).map (·.position)

theorem extrapolate_bySeconds (fix : Fix) (course knots : Float) : BySeconds fix course knots where
  refused _ _ _ := extrapolate_eq_beforeFix_iff
  stamped t later reached := by
    by_cases early : t < fix.time
    · rw [extrapolate_of_early early] at reached
      cases reached
    · rw [extrapolate_of_after (Int64.not_lt.mp early)] at reached
      obtain ⟨p, _, rfl⟩ := map_eq_ok.mp reached
      rfl
  counted _ := toInt_elapsedSeconds_eq_iff
  forward t after fits := by
    have start := span_nonneg after
    rw [toInt_elapsedSeconds_of_fits after fits]
    omega
  backward _ := toInt_elapsedSeconds_of_wide
  alike t u after after' fits fits' same := by
    have seconds : fix.elapsedSeconds t = fix.elapsedSeconds u := by
      rw [← Int64.toInt_inj, toInt_elapsedSeconds_of_fits after fits,
        toInt_elapsedSeconds_of_fits after' fits', same]
    rw [position_extrapolate after, position_extrapolate after', seconds]

/-- The functions as far as a course due east from the equator asks for them, which is at zero. -/
@[reducible]
def dueEast : Trigonometry where
  sin _ := 0.0
  cos _ := 1.0
  tan x := x
  atan2 y _ := y
  log x := x

omit [Trigonometry] in
/-- In the millisecond after the last that 64 bits hold, a vessel that sails east is reckoned as far
to the west. -/
theorem reckoned_backwards :
    let _ := dueEast
    let fix : Fix := ⟨⟨0.0, 0.0, by decide, by decide⟩, -1⟩
    let t : Int64 := 9223372036854775806
    let u : Int64 := 9223372036854775807
    fix.time ≤ t ∧ t ≤ u ∧ fix.span t / 1000 = fix.span u / 1000 ∧ fix.elapsedSeconds u < 0 ∧
      (fix.extrapolate 90.0 1e-12 t).map (·.position.longitude) = .ok 0.04266833675716326 ∧
      (fix.extrapolate 90.0 1e-12 u).map (·.position.longitude) = .ok (-0.04266833675716326) := by
  intro _ fix t u
  exact ⟨by decide +kernel, by decide +kernel, by decide +kernel, by decide +kernel,
    by decide +kernel, by decide +kernel⟩

end VesselRelay.Fix
