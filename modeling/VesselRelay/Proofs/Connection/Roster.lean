import Mathlib.Data.List.Count
import Mathlib.Data.List.Nodup
import VesselRelay.Proofs.Connection.Dispatching

/-!
Who stands in the list of a dispatcher. A listener is appended only where it is not in the list, and
a removal takes it out wherever it stands, so nobody comes to stand twice who did not from the
start. The list that a dispatcher is made for is searched for missing listeners and not for repeated
ones: a listener that is given twice stands twice, and is called twice by every event, until it is
removed.
-/
namespace VesselRelay

/-- The listener that is called. -/
def Sight.receiver? {L : Type} : Sight L → Option L
  | called l _ => some l
  | _ => none

namespace Dispatcher

/-- What is done to a dispatcher from outside. -/
inductive Act (L : Type) where
  | add (listener : Option L)
  | remove (listener : Option L)
  /-- Listeners may fire more, to a depth. -/
  | fire (event : ConnectionEvent) (depth : Nat)

variable {L ω σ : Type} [DecidableEq L] {w : Wiring L ω σ} {d : Dispatcher L σ} {x : L}
  {ls ls' : List L} {marks later : List (Mark L)}

/-- What an act leaves. One that fails changes nothing. -/
def act (w : Wiring L ω σ) (d : Dispatcher L σ) : Act L → Dispatcher L σ
  | .add listener =>
    match d.add listener with
    | .ok added => added
    | .error _ => d
  | .remove listener => (d.remove listener).2
  | .fire event depth => (dispatch w depth event d).2

def after (w : Wiring L ω σ) (d : Dispatcher L σ) (acts : List (Act L)) : Dispatcher L σ :=
  acts.foldl (act w) d

/-- What is seen of an act. -/
def seen (w : Wiring L ω σ) (d : Dispatcher L σ) : Act L → List (Mark L)
  | .add (some l) => [⟨0, .added l⟩]
  | .remove (some l) => [⟨0, .removed l⟩]
  | .fire event depth => course w depth event d
  | .add none | .remove none => []

/-- What is seen of some acts, one after the other. -/
def story (w : Wiring L ω σ) (d : Dispatcher L σ) : List (Act L) → List (Mark L)
  | [] => []
  | a :: rest => seen w d a ++ story w (act w d a) rest

theorem act_listeners (w : Wiring L ω σ) (d : Dispatcher L σ) (a : Act L) :
    (act w d a).listeners = (seen w d a).foldl change d.listeners := by
  cases a with
  | add listener =>
    cases listener with
    | none => rfl
    | some l => simp only [act, add_some, seen, List.foldl_cons, List.foldl_nil, change]
  | remove listener => cases listener <;> rfl
  | fire event depth => exact (dispatch_kept w depth event d).changes.symm

theorem after_listeners (w : Wiring L ω σ) (d : Dispatcher L σ) (acts : List (Act L)) :
    (after w d acts).listeners = (story w d acts).foldl change d.listeners := by
  induction acts generalizing d with
  | nil => rfl
  | cons a rest ih =>
    rw [story, List.foldl_append, ← act_listeners]
    exact ih (act w d a)

/-! ### Repeated listeners -/

/-- No change lets a listener stand twice, and only its removal ends that it does. -/
theorem repeated_change (mark : Mark L) :
    1 < (change ls mark).count x ↔ 1 < ls.count x ∧ mark.sight ≠ .removed x := by
  unfold change
  cases mark.sight with
  | added l =>
    by_cases known : l ∈ ls
    · simp [known]
    · by_cases same : l = x
      · subst same
        simp [known, List.count_eq_zero_of_not_mem known]
      · simp [known, List.count_append, same]
  | removed l =>
    by_cases same : l = x
    · subst same
      simp [List.count_eq_zero_of_not_mem]
    · have apart : x ≠ l := Ne.symm same
      simp [same, List.count_filter, apart]
  | _ => simp

theorem repeated_foldl_change : 1 < (marks.foldl change ls).count x ↔
    1 < ls.count x ∧ ∀ mark ∈ marks, mark.sight ≠ .removed x := by
  induction marks generalizing ls with
  | nil => simp
  | cons mark rest ih => rw [List.foldl_cons, ih, repeated_change, List.forall_mem_cons, and_assoc]

/-! ### Absent listeners -/

theorem absent_change {mark : Mark L} (absent : x ∉ ls) (other : mark.sight ≠ .added x) :
    x ∉ change ls mark := by
  unfold change
  cases added : mark.sight with
  | added l =>
    have apart : x ≠ l := by
      rintro rfl
      exact other added
    by_cases known : l ∈ ls
    · simpa [known] using absent
    · simp [known, absent, apart]
  | removed l => simp [absent]
  | _ => exact absent

theorem absent_foldl_change (absent : x ∉ ls) (none : ∀ mark ∈ marks, mark.sight ≠ .added x) :
    x ∉ marks.foldl change ls := by
  induction marks generalizing ls with
  | nil => exact absent
  | cons mark rest ih =>
    obtain ⟨other, none⟩ := List.forall_mem_cons.mp none
    exact ih (absent_change absent other) none

/-- A listener is not called, unless it has been added before. -/
def Spared (x : L) : List (Mark L) → Prop
  | [] => True
  | mark :: rest =>
    mark.sight = .added x ∨ (∀ event, mark.sight ≠ .called x event) ∧ Spared x rest

omit [DecidableEq L] in
theorem spared_append (first : Spared x marks)
    (second : (∀ mark ∈ marks, mark.sight ≠ .added x) → Spared x later) :
    Spared x (marks ++ later) := by
  induction marks with
  | nil => exact second (by simp)
  | cons mark rest ih =>
    by_cases added : mark.sight = .added x
    · exact .inl added
    · obtain ⟨other, spared⟩ := first.resolve_left added
      refine .inr ⟨other, ih spared fun none => ?_⟩
      exact second (List.forall_mem_cons.mpr ⟨added, none⟩)

/-! ### When an event begins -/

/-- Everyone who is called was in the list when the event began. Of each event that is not over,
`begun` tells what was in the list then, the last to begin first. -/
def Timely (now : List L) (begun : List (List L)) : List (Mark L) → Prop
  | [] => True
  | ⟨_, .called l _⟩ :: rest => l ∈ begun.headD [] ∧ Timely now begun rest
  | ⟨_, .fired _⟩ :: rest => Timely now (now :: begun) rest
  | ⟨_, .settled _ _⟩ :: rest => Timely now begun.tail rest
  | mark :: rest => Timely (change now mark) begun rest

/-- What a phase is to begin with. -/
def Phase.Ready (ls : List L) (begun : List (List L)) : Phase L → Prop
  | .dispatch _ _ => begun.headD [] = ls
  | .round due _ => ∀ l ∈ due, l ∈ begun.headD []
  | .body => True

/-- What is seen after a phase stands in the statement because it begins with the same events not
over as the phase. -/
theorem Orderly.timely {depth level : Nat} {phase : Phase L} {begun : List (List L)}
    (orderly : Orderly depth level phase ls marks ls') (ready : phase.Ready ls begun)
    (rest : Timely ls' begun later) : Timely ls begun (marks ++ later) := by
  induction orderly generalizing begun later with
  | plain _ _ ih => exact ih (fun l here => ready ▸ here) rest
  | announced _ _ ih => exact ih (fun l here => ready ▸ here) rest
  | returned _ _ did serves =>
    obtain ⟨first, others⟩ := List.forall_mem_cons.mp ready
    rw [List.append_assoc]
    exact ⟨first, did trivial (serves others rest)⟩
  | threw _ _ did serves =>
    obtain ⟨first, others⟩ := List.forall_mem_cons.mp ready
    rw [List.append_assoc]
    exact ⟨first, did trivial (serves others rest)⟩
  | after _ _ first second =>
    rw [List.append_assoc]
    exact first trivial (second trivial rest)
  | @fired _ event thrown ls _ _ _ _ ih =>
    have begins : Phase.Ready ls (ls :: begun) (.dispatch event thrown) := rfl
    rw [List.append_assoc]
    exact ih begins rest
  | _ => exact rest

theorem timely_course (w : Wiring L ω σ) (depth : Nat) (event : ConnectionEvent)
    (d : Dispatcher L σ) : Timely d.listeners [d.listeners] (course w depth event d) := by
  have timely : Timely d.listeners [d.listeners] (course w depth event d ++ []) :=
    (dispatch_kept w depth event d).orderly.timely rfl trivial
  rwa [List.append_nil] at timely

/-- Who is not in the list, and was in none that an event began with, is not called before being
added. -/
theorem Timely.spared {begun : List (List L)} (timely : Timely ls begun marks) (absent : x ∉ ls)
    (before : ∀ old ∈ begun, x ∉ old) : Spared x marks := by
  induction marks generalizing ls begun with
  | nil => trivial
  | cons mark rest ih =>
    by_cases added : mark.sight = .added x
    · exact .inl added
    · obtain ⟨level, sight⟩ := mark
      have absent' := absent_change absent added
      cases sight with
      | called l event =>
        -- Whoever is called was in the list that the latest event began with.
        obtain ⟨held, timely⟩ := timely
        refine .inr ⟨?_, ih timely absent before⟩
        rintro _ ⟨⟩
        cases begun with
        | nil => cases held
        | cons old _ => exact before old List.mem_cons_self held
      | fired event =>
        exact .inr ⟨nofun, ih timely absent (List.forall_mem_cons.mpr ⟨absent, before⟩)⟩
      | settled event thrown =>
        exact .inr ⟨nofun, ih timely absent fun old here => before old (List.mem_of_mem_tail here)⟩
      | _ => exact .inr ⟨nofun, ih timely absent' before⟩

theorem spared_seen (absent : x ∉ d.listeners) (a : Act L) : Spared x (seen w d a) := by
  cases a with
  | add listener =>
    cases listener with
    | none => trivial
    | some l => exact .inr ⟨nofun, trivial⟩
  | remove listener =>
    cases listener with
    | none => trivial
    | some l => exact .inr ⟨nofun, trivial⟩
  | fire event depth =>
    exact (timely_course w depth event d).spared absent (List.forall_mem_singleton.mpr absent)

theorem spared_story (absent : x ∉ d.listeners) (acts : List (Act L)) :
    Spared x (story w d acts) := by
  induction acts generalizing d with
  | nil => trivial
  | cons a rest ih =>
    refine spared_append (spared_seen absent a) fun none => ih ?_
    rw [act_listeners]
    exact absent_foldl_change absent none

/-! ### The list -/

omit [DecidableEq L] in
/-- The listeners that an event calls itself, in turn. -/
def receivers (marks : List (Mark L)) : List L := (outline 0 marks).filterMap Sight.receiver?

theorem receivers_course (w : Wiring L ω σ) (depth : Nat) (event : ConnectionEvent)
    (d : Dispatcher L σ) : receivers (course w depth event d) =
      if (dispatch w depth event d).1 = none then d.listeners else [] := by
  have called : (d.listeners.map fun l => Sight.called l event).filterMap Sight.receiver? =
      d.listeners := by
    simp [List.filterMap_map, Function.comp_def, Sight.receiver?]
  have announced (states : Option Bool) (thrown : Option Thrown) :
      (states.toList.map (Sight.notified (L := L) · thrown)).filterMap Sight.receiver? = [] := by
    cases states <;> rfl
  rw [receivers, (dispatch_kept w depth event d).outline, List.filterMap_append, announced,
    List.nil_append]
  split
  · exact called
  · rfl

/-- Who stands in the list of a dispatcher that was made for some listeners, and who is called,
whatever has been done to it. -/
structure Roster (w : Wiring L ω σ) (initial : List (Option L)) (d : Dispatcher L σ)
    (acts : List (Act L)) : Prop where
  /-- None of the listeners that it was made for is missing. -/
  present : initial = d.listeners.map some
  /-- A listener stands twice where it was given twice and has not been removed since, by anyone. -/
  repeated : ∀ x, 1 < (after w d acts).listeners.count x ↔
    1 < initial.count (some x) ∧ ∀ mark ∈ story w d acts, mark.sight ≠ .removed x
  /-- Listeners that were given once each stay distinct. -/
  distinct : initial.Nodup → (after w d acts).listeners.Nodup
  /-- The next event calls those in the list, unless the callback throws, -/
  called : ∀ event depth, receivers (course w depth event (after w d acts)) =
    if (dispatch w depth event (after w d acts)).1 = none then (after w d acts).listeners else []
  /-- and each of them once that does not stand twice. -/
  once : ∀ x ∈ (after w d acts).listeners,
    (1 < initial.count (some x) → ∃ mark ∈ story w d acts, mark.sight = .removed x) →
    ∀ event depth, (dispatch w depth event (after w d acts)).1 = none →
      (receivers (course w depth event (after w d acts))).count x = 1
  /-- At whatever depth, everyone who is called was in the list when the event began. -/
  timely : ∀ event depth, Timely (after w d acts).listeners [(after w d acts).listeners]
    (course w depth event (after w d acts))
  /-- A listener that is removed is called by no event that begins later, at whatever depth, before
  it is added again. -/
  removed : ∀ x later, Spared x (story w (act w (after w d acts) (.remove (some x))) later)

omit [DecidableEq L] in
theorem map_some_present {initial : List (Option L)} (whole : none ∉ initial) :
    (initial.filterMap id).map some = initial := by
  induction initial with
  | nil => rfl
  | cons listener rest ih =>
    cases listener with
    | none => exact absurd List.mem_cons_self whole
    | some l => exact congrArg (some l :: ·) (ih (mt (List.mem_cons_of_mem _) whole))

omit [DecidableEq L] in
theorem make_eq_ok {initial : List (Option L)} {host : σ} (made : make initial host = .ok d) :
    initial = d.listeners.map some := by
  unfold make at made
  split at made
  · cases made
  · rename_i whole
    cases made
    exact (map_some_present (by simpa using whole)).symm

theorem roster_of_make {initial : List (Option L)} {host : σ} (made : make initial host = .ok d)
    (w : Wiring L ω σ) (acts : List (Act L)) : Roster w initial d acts := by
  have present := make_eq_ok made
  have given (x : L) : initial.count (some x) = d.listeners.count x := by
    rw [present]
    exact List.count_map_of_injective _ _ (fun _ _ => Option.some.inj) x
  have repeated (x : L) : 1 < (after w d acts).listeners.count x ↔
      1 < initial.count (some x) ∧ ∀ mark ∈ story w d acts, mark.sight ≠ .removed x := by
    rw [after_listeners, repeated_foldl_change, given]
  exact {
    present := present
    repeated := repeated
    distinct := by
      intro nodup
      refine List.nodup_iff_count_le_one.mpr fun x => Nat.not_lt.mp fun twice => ?_
      have once := List.nodup_iff_count_le_one.mp nodup (some x)
      exact absurd ((repeated x).mp twice).1 (Nat.not_lt.mpr once)
    called := fun event depth => receivers_course w depth event (after w d acts)
    timely := fun event depth => timely_course w depth event (after w d acts)
    once := by
      intro x here removed event depth quiet
      rw [receivers_course, if_pos quiet]
      refine Nat.le_antisymm (Nat.not_lt.mp fun twice => ?_) (List.one_le_count_iff.mpr here)
      obtain ⟨given, kept⟩ := (repeated x).mp twice
      obtain ⟨mark, seen, same⟩ := removed given
      exact kept mark seen same
    removed := by
      intro x later
      refine spared_story ?_ later
      simp [act, remove] }

/-- Listeners that do nothing. -/
def silent (L : Type) : Wiring L Unit Unit where
  notify _ host := (none, host)
  react _ _ _ := .done
  perform _ host := host
  report _ _ host := host

/-- A listener that is given twice and removed, while another one is added. -/
theorem roster_of_pair :
    let d : Dispatcher Bool Unit := ⟨[false, false], ()⟩
    let acts := [.add (some true), .remove (some false), .add none]
    make [some false, some false] () = .ok d ∧
      Roster (silent Bool) [some false, some false] d acts := by
  intro d acts
  exact ⟨rfl, roster_of_make rfl (silent Bool) acts⟩

/-- A listener that is given twice is called twice. -/
theorem called_twice :
    let d : Dispatcher Bool Unit := ⟨[false, false], ()⟩
    make [some false, some false] () = .ok d ∧ ¬ d.listeners.Nodup ∧
      receivers (course (silent Bool) 0 (.connecting "") d) = [false, false] := by
  exact ⟨rfl, by decide, rfl⟩

end Dispatcher
end VesselRelay
