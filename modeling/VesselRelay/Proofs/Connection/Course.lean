import VesselRelay.Proofs.Connection.Watch

/-!
The order that every dispatch keeps. What is seen of it is read like a sentence: a dispatch is the
callback, if the event has one, and then a call of each listener that was in the list, in turn; a
call may hold changes of the list and dispatches of other events, each in the same order.
-/
namespace VesselRelay

namespace Sight
variable {L : Type}

/-- The callback and the calls are what a dispatch is made of. -/
def outline? : Sight L → Option (Sight L)
  | notified up thrown => some (.notified up thrown)
  | called l event => some (.called l event)
  | _ => none

end Sight

namespace Mark
variable {L : Type}

/-- The entry that was made. -/
def entry? (mark : Mark L) : Option (List (String × Json)) :=
  match mark.sight with
  | .logged entry => some entry
  | _ => none

/-- The entry that is due for a call which threw. -/
def failure? (mark : Mark L) : Option (List (String × Json)) :=
  match mark.sight with
  | .ended _ event (some thrown) => some (thrown.event event)
  | _ => none

end Mark

namespace Dispatcher
variable {L : Type}

/-- The callbacks and the calls seen at a level. -/
def outline (level : Nat) (marks : List (Mark L)) : List (Sight L) :=
  marks.filterMap fun mark => if mark.level = level then mark.sight.outline? else none

@[simp] theorem outline_nil (level : Nat) : outline level ([] : List (Mark L)) = [] := rfl

@[simp] theorem outline_append (level : Nat) (marks later : List (Mark L)) :
    outline level (marks ++ later) = outline level marks ++ outline level later :=
  List.filterMap_append

@[simp] theorem outline_cons (level : Nat) (mark : Mark L) (later : List (Mark L)) :
    outline level (mark :: later) =
      (if mark.level = level then mark.sight.outline? else none).toList ++ outline level later := by
  rw [outline, List.filterMap_cons]
  cases if mark.level = level then mark.sight.outline? else none <;> rfl

variable [DecidableEq L]

/-- The parts that the course of a dispatch is made of. -/
inductive Phase (L : Type) where
  /-- A whole dispatch, and what it throws. -/
  | dispatch (event : ConnectionEvent) (thrown : Option Thrown)
  /-- The calls of listeners whose turn has not come. -/
  | round (due : List L) (event : ConnectionEvent)
  /-- What one listener does while it is called. -/
  | body

/-- `Orderly depth level phase ls marks ls'`: with the list `ls`, and so many events fired and not
settled, the phase may be seen as these marks and leave the list `ls'`. -/
inductive Orderly (depth : Nat) : Nat → Phase L → List L → List (Mark L) → List L → Prop
  | plain {level event ls marks ls'} (unannounced : event.announces? = none)
      (served : Orderly depth level (.round ls event) ls marks ls') :
      Orderly depth level (.dispatch event none) ls marks ls'
  | announced {level event up ls marks ls'} (announces : event.announces? = some up)
      (served : Orderly depth level (.round ls event) ls marks ls') :
      Orderly depth level (.dispatch event none) ls (⟨level, .notified up none⟩ :: marks) ls'
  /-- Where the callback throws, nobody is called. -/
  | refused {level event up thrown ls} (announces : event.announces? = some up) :
      Orderly depth level (.dispatch event (some thrown)) ls
        [⟨level, .notified up (some thrown)⟩] ls
  | done {level event ls} : Orderly depth level (.round [] event) ls [] ls
  | returned {level event l due ls marks ls' later ls''}
      (did : Orderly depth level .body ls marks ls')
      (rest : Orderly depth level (.round due event) ls' later ls'') :
      Orderly depth level (.round (l :: due) event) ls
        (⟨level, .called l event⟩ :: marks ++ ⟨level, .ended l event none⟩ :: later) ls''
  /-- What a listener throws is reported once, and the next has its turn. -/
  | threw {level event l due thrown ls marks ls' later ls''}
      (did : Orderly depth level .body ls marks ls')
      (rest : Orderly depth level (.round due event) ls' later ls'') :
      Orderly depth level (.round (l :: due) event) ls
        (⟨level, .called l event⟩ :: marks ++ ⟨level, .ended l event (some thrown)⟩ ::
          ⟨level, .logged (thrown.event event)⟩ :: later) ls''
  | idle {level ls} : Orderly depth level .body ls [] ls
  | after {level ls marks ls' later ls''} (first : Orderly depth level .body ls marks ls')
      (second : Orderly depth level .body ls' later ls'') :
      Orderly depth level .body ls (marks ++ later) ls''
  | added {level l ls} : Orderly depth level .body ls [⟨level, .added l⟩]
      (if l ∈ ls then ls else ls ++ [l])
  | removed {level l ls} : Orderly depth level .body ls [⟨level, .removed l⟩]
      (ls.filter (· ≠ l))
  | fired {level event thrown ls marks ls'} (room : level < depth)
      (dispatched : Orderly depth (level + 1) (.dispatch event thrown) ls marks ls') :
      Orderly depth level .body ls
        (⟨level, .fired event⟩ :: marks ++ [⟨level, .settled event thrown⟩]) ls'
  /-- At the depth that firing is held to, nothing comes of it. -/
  | dropped {event ls} : Orderly depth depth .body ls
      [⟨depth, .fired event⟩, ⟨depth, .settled event none⟩] ls

/-! ### What the order implies -/

/-- What a phase does itself, apart from what its listeners do: the callback, and the calls. -/
def Phase.outline (ls : List L) : Phase L → List (Sight L)
  | .dispatch event thrown =>
    event.announces?.toList.map (.notified · thrown) ++
      (if thrown = none then ls.map (.called · event) else [])
  | .round due event => due.map (.called · event)
  | .body => []

/-- A phase does what it should at its own level, and nothing below. -/
theorem Orderly.outline_eq {depth level j : Nat} {phase : Phase L} {ls ls' : List L}
    {marks : List (Mark L)} (orderly : Orderly depth level phase ls marks ls') (upTo : j ≤ level) :
    outline j marks = if level = j then phase.outline ls else [] := by
  induction orderly with
  | plain unannounced _ ih => simp [ih upTo, Phase.outline, unannounced]
  | @announced level _ _ _ _ _ announces _ ih =>
    by_cases here : level = j
    · simp [ih upTo, Phase.outline, announces, here, Sight.outline?]
    · simp [ih upTo, here]
  | @refused level _ _ _ _ announces =>
    by_cases here : level = j
    · simp [Phase.outline, announces, here, Sight.outline?]
    · simp [here]
  | done => simp [Phase.outline]
  | @returned level _ _ _ _ _ _ _ _ _ _ did rest =>
    by_cases here : level = j
    · simp [did upTo, rest upTo, here, Phase.outline, Sight.outline?]
    · simp [did upTo, rest upTo, here]
  | @threw level _ _ _ _ _ _ _ _ _ _ _ did rest =>
    by_cases here : level = j
    · simp [did upTo, rest upTo, here, Phase.outline, Sight.outline?]
    · simp [did upTo, rest upTo, here]
  | idle => simp [Phase.outline]
  | after _ _ first second => simp [first upTo, second upTo, Phase.outline]
  | added => simp [Phase.outline, Sight.outline?]
  | removed => simp [Phase.outline, Sight.outline?]
  | @fired level _ _ _ _ _ _ _ ih =>
    have apart : level + 1 ≠ j := by omega
    simp [ih (by omega), apart, Phase.outline, Sight.outline?]
  | dropped => simp [Phase.outline, Sight.outline?]

/-- A list of listeners after something has been seen. -/
def change (ls : List L) (mark : Mark L) : List L :=
  match mark.sight with
  | .added l => if l ∈ ls then ls else ls ++ [l]
  | .removed l => ls.filter (· ≠ l)
  | _ => ls

/-- The list is changed by what listeners do to it, and by nothing else. -/
theorem Orderly.changes {depth level : Nat} {phase : Phase L} {ls ls' : List L}
    {marks : List (Mark L)} (orderly : Orderly depth level phase ls marks ls') :
    marks.foldl change ls = ls' := by
  induction orderly with
  | plain _ _ ih => exact ih
  | announced _ _ ih => exact ih
  | returned _ _ did rest =>
    rw [List.foldl_append]
    exact (congrArg (List.foldl change · _) did).trans rest
  | threw _ _ did rest =>
    rw [List.foldl_append]
    exact (congrArg (List.foldl change · _) did).trans rest
  | after _ _ first second => rw [List.foldl_append, first, second]
  | fired _ _ ih =>
    rw [List.foldl_append]
    exact ih
  | _ => rfl

/-- Each call that throws is reported once, under the name of its event, and nothing else is. -/
theorem Orderly.reports {depth level : Nat} {phase : Phase L} {ls ls' : List L}
    {marks : List (Mark L)} (orderly : Orderly depth level phase ls marks ls') :
    marks.filterMap Mark.entry? = marks.filterMap Mark.failure? := by
  induction orderly with
  | returned _ _ did rest => simp [List.filterMap_cons, did, rest, Mark.entry?, Mark.failure?]
  | threw _ _ did rest => simp [List.filterMap_cons, did, rest, Mark.entry?, Mark.failure?]
  | after _ _ first second => simp [first, second]
  | plain _ _ ih => exact ih
  | announced _ _ ih => simp [List.filterMap_cons, ih, Mark.entry?, Mark.failure?]
  | fired _ _ ih => simp [List.filterMap_cons, ih, Mark.entry?, Mark.failure?]
  | _ => rfl

end Dispatcher
end VesselRelay
