import VesselRelay.Journal
import VesselRelay.Proofs.Json.Printed

/-!
What is entered in a journal while its level is changed. The level in force is that of the last call
that has put one, and a call enters what it brings unless that is below the level in force before
it. The warning of an unknown name is entered by the same rule: it gets through where the level that
it puts an end to lets warnings through, and is lost at a higher one.
-/
namespace VesselRelay

namespace Level

/-- The level of a name, with `off` for whatever names none. -/
def ofName (name : String) : Level := (ofName? name).getD .off

theorem ofName?_eq_some_iff {name : String} {level : Level} :
    ofName? name = some level ↔
      name = level.name ∨ name = "warn" ∧ level = .warning ∨ name = "err" ∧ level = .error := by
  constructor
  · intro named
    unfold ofName? at named
    split at named <;> cases named <;> simp [Level.name]
  · rintro (rfl | ⟨rfl, rfl⟩ | ⟨rfl, rfl⟩)
    · cases level <;> rfl
    · rfl
    · rfl

/-- A name that comes to `off` without being that word names no level. -/
theorem ofName?_eq_none_iff {name : String} :
    ofName? name = none ↔ ofName name = .off ∧ name ≠ "off" := by
  unfold ofName
  cases named : ofName? name with
  | none =>
    refine iff_of_true rfl ⟨rfl, ?_⟩
    rintro rfl
    cases named
  | some level =>
    refine iff_of_false nofun ?_
    rintro ⟨rfl, other⟩
    rcases ofName?_eq_some_iff.mp named with same | ⟨-, warning⟩ | ⟨-, error⟩
    · exact other same
    · cases warning
    · cases error

end Level

namespace Journal

/-- What is asked of a journal. -/
inductive Call where
  | setLevel (name : String)
  | log (level : Level) (event : List (String × Json))

/-- The warning of a name that is no level's. -/
def unknownLevel (name : String) : Entry where
  level := .warning
  event := Json.record [("component", .string "logging"), ("event", .string "unknown_level"),
    ("level", .string name)]

namespace Call

def perform : Call → Journal → Journal
  | setLevel name => Journal.setLevel name
  | log level event => Journal.log level event

/-- The level that a call puts in force, if it puts one. -/
def puts : Call → Option Level
  | setLevel name => some ((Level.ofName? name).getD .info)
  | log _ _ => none

/-- What a call brings to be entered. -/
def brings : Call → Option Entry
  | setLevel name => if (Level.ofName? name).isNone then some (unknownLevel name) else none
  | log level event => some ⟨level, Json.record event⟩

/-- What a call enters where a level is in force. -/
def enters (level : Level) (call : Call) : List Entry :=
  call.brings.toList.filter (level.rank ≤ ·.level.rank)

end Call

/-- The level in force after calls. -/
def inForce (start : Level) (calls : List Call) : Level :=
  (calls.reverse.findSome? Call.puts).getD start

def performAll (journal : Journal) (calls : List Call) : Journal :=
  calls.foldl (fun journal call => call.perform journal) journal

/-! ### One call -/

theorem log_eq (level : Level) (event : List (String × Json)) (journal : Journal) :
    journal.log level event =
      ⟨journal.level,
        journal.entries ++ ((Call.log level event).enters journal.level).toArray⟩ := by
  unfold log admits
  split
  · rename_i admitted
    simp [Call.enters, Call.brings, of_decide_eq_true admitted]
  · rename_i dropped
    have below : ¬ journal.level.rank ≤ level.rank := fun within =>
      dropped (decide_eq_true within)
    simp [Call.enters, Call.brings, below]

theorem perform_eq (call : Call) (journal : Journal) :
    call.perform journal = ⟨call.puts.getD journal.level,
      journal.entries ++ (call.enters journal.level).toArray⟩ := by
  cases call with
  | log level event => exact log_eq level event journal
  | setLevel name =>
    change journal.setLevel name = _
    unfold setLevel
    split
    · rename_i level named
      simp [Call.puts, Call.enters, Call.brings, named]
    · rename_i unknown
      rw [log_eq]
      simp [Call.puts, Call.enters, Call.brings, unknown, unknownLevel]

/-! ### All calls -/

theorem performAll_append (journal : Journal) (calls : List Call) (call : Call) :
    journal.performAll (calls ++ [call]) = call.perform (journal.performAll calls) := by
  rw [performAll, List.foldl_append]
  rfl

theorem inForce_append (start : Level) (calls : List Call) (call : Call) :
    inForce start (calls ++ [call]) = call.puts.getD (inForce start calls) := by
  rw [inForce, List.reverse_append, List.reverse_singleton, List.singleton_append,
    List.findSome?_cons]
  cases call.puts <;> rfl

/-- What each of some calls enters, told by the calls before it. -/
def entered (start : Level) (calls : List Call) : List Entry :=
  (List.range calls.length).flatMap fun i =>
    calls[i]?.toList.flatMap (Call.enters (inForce start (calls.take i)))

theorem entered_append (start : Level) (calls : List Call) (call : Call) :
    entered start (calls ++ [call]) =
      entered start calls ++ call.enters (inForce start calls) := by
  have earlier : (List.range calls.length).flatMap (fun i =>
      (calls ++ [call])[i]?.toList.flatMap
        (Call.enters (inForce start ((calls ++ [call]).take i)))) = entered start calls := by
    refine List.flatMap_congr fun i member => ?_
    have within := List.mem_range.mp member
    rw [List.getElem?_append_left within, List.take_append_of_le_length within.le]
  rw [entered, List.length_append, List.length_singleton, List.range_succ, List.flatMap_append,
    earlier]
  simp

/-- A run of calls leaves the level of the last that has put one, and enters what each of them
enters. -/
theorem performAll_eq (journal : Journal) (calls : List Call) :
    journal.performAll calls =
      ⟨inForce journal.level calls, journal.entries ++ (entered journal.level calls).toArray⟩ := by
  induction calls using List.reverseRecOn with
  | nil => simp [performAll, inForce, entered]
  | append_singleton calls call ih =>
    rw [performAll_append, ih, perform_eq, inForce_append, entered_append]
    simp

/-! ### The next call -/

theorem pairwise_unknownLevel (name : String) :
    [("component", Json.string "logging"), ("event", .string "unknown_level"),
      ("level", .string name)].Pairwise (·.1 < ·.1) := by
  have names : ["component", "event", "level"].Pairwise (· < ·) := by decide
  exact List.pairwise_map (f := Prod.fst) |>.mp names

/-- The event of the warning, which carries the name. -/
theorem event_unknownLevel (name : String) : (unknownLevel name).event =
    .object [("component", .string "logging"), ("event", .string "unknown_level"),
      ("level", .string name)] :=
  congrArg Json.object (Json.assign_of_pairwise (pairwise_unknownLevel name))

/-- So does its text. -/
theorem parse_unknownLevel (name : String) :
    Json.parse (unknownLevel name).event.print = .ok (unknownLevel name).event := by
  have order : (unknownLevel name).event.InOrder := by
    rw [event_unknownLevel]
    exact ⟨pairwise_unknownLevel name, by simp [Json.MembersInOrder, Json.InOrder]⟩
  have read := Json.parse_print (by rw [event_unknownLevel]; rfl) order
  rw [event_unknownLevel] at read ⊢
  exact read

/-- How a journal is left by calls, and what the next one does. -/
structure Heeds (journal : Journal) (calls : List Call) : Prop where
  /-- The whole run is told by the calls and the level at its start. -/
  run : journal.performAll calls =
    ⟨inForce journal.level calls, journal.entries ++ (entered journal.level calls).toArray⟩
  /-- A known name puts its level in force and enters nothing. -/
  known : ∀ name level, Level.ofName? name = some level →
    (journal.performAll calls).setLevel name = { journal.performAll calls with level }
  /-- An unknown one leaves the level at that of information. Its one warning is entered where the
  level that was in force lets warnings through. -/
  unknown : ∀ name, Level.ofName? name = none →
    (journal.performAll calls).setLevel name =
      ⟨.info, (journal.performAll calls).entries ++
        if (inForce journal.level calls).rank ≤ Level.warning.rank then #[unknownLevel name]
        else #[]⟩
  /-- Any other event is entered unless its level is below the one in force. -/
  event : ∀ level event, (journal.performAll calls).log level event =
    ⟨inForce journal.level calls, (journal.performAll calls).entries ++
      if (inForce journal.level calls).rank ≤ level.rank then #[⟨level, Json.record event⟩]
      else #[]⟩
  /-- A name is unknown if it comes to the last level and is not its word. -/
  names : ∀ name, Level.ofName? name = none ↔ Level.ofName name = .off ∧ name ≠ "off"
  /-- The warning carries the name, and its text does. -/
  carries : ∀ name, (unknownLevel name).event =
    .object [("component", .string "logging"), ("event", .string "unknown_level"),
      ("level", .string name)] ∧
    Json.parse (unknownLevel name).event.print = .ok (unknownLevel name).event

/-- What is brought is entered or dropped by the level in force alone. -/
theorem enters_of_brings {call : Call} {entry : Entry} (brought : call.brings = some entry)
    (level : Level) : (call.enters level).toArray =
      if level.rank ≤ entry.level.rank then #[entry] else #[] := by
  rw [Call.enters, brought]
  by_cases admitted : level.rank ≤ entry.level.rank <;> simp [admitted]

theorem heeds (journal : Journal) (calls : List Call) : Heeds journal calls where
  run := performAll_eq journal calls
  known name level named := by
    change (Call.setLevel name).perform _ = _
    rw [perform_eq]
    simp [Call.puts, Call.enters, Call.brings, named]
  unknown name unknown := by
    have brought : (Call.setLevel name).brings = some (unknownLevel name) := by
      simp [Call.brings, unknown]
    have put : (Call.setLevel name).puts = some .info := by simp [Call.puts, unknown]
    change (Call.setLevel name).perform _ = _
    rw [perform_eq, enters_of_brings brought, put, performAll_eq]
    rfl
  event level event := by
    have brought : (Call.log level event).brings = some ⟨level, Json.record event⟩ := rfl
    change (Call.log level event).perform _ = _
    rw [perform_eq, enters_of_brings brought, performAll_eq]
    rfl
  names _ := Level.ofName?_eq_none_iff
  carries name := ⟨event_unknownLevel name, parse_unknownLevel name⟩

/-- At a level above that of warnings an unknown name is not warned of. -/
theorem unknown_unheard :
    let journal : Journal := ⟨.error, #[]⟩
    Level.ofName? "loud" = none ∧ (journal.setLevel "loud").level = .info ∧
      (journal.setLevel "loud").entries.size = 0 :=
  ⟨rfl, rfl, rfl⟩

end Journal
end VesselRelay
