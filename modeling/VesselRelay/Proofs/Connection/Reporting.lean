import VesselRelay.Connection.Link
import VesselRelay.Proofs.Connection.Dispatching
import VesselRelay.Proofs.Journaling

/-!
What becomes of the failures of listeners. Whatever a listener throws, at whatever depth, comes to
the journal as one entry at the level of errors, with the name of the event and the words of the
failure, and reaches nobody else.
-/
namespace VesselRelay

/-! ### Entries -/

/-- The entry for a listener that has thrown. -/
def failureEntry (during : ConnectionEvent) (thrown : Thrown) : Entry where
  level := .error
  event := .object [("component", .string "connection"), ("event", .string during.name),
    ("listener_failure", .string thrown.text)]

theorem Thrown.record_event (during : ConnectionEvent) (thrown : Thrown) :
    Json.record (thrown.event during) = (failureEntry during thrown).event := by
  have names : ["component", "event", "listener_failure"].Pairwise (· < ·) := by decide
  exact congrArg Json.object
    (Json.assign_of_pairwise (List.pairwise_map (f := Prod.fst) |>.mp names))

/-- The event of a call that threw, and what it threw. -/
def Mark.fault? {L : Type} (mark : Mark L) : Option (ConnectionEvent × Thrown) :=
  match mark.sight with
  | .ended _ event (some thrown) => some (event, thrown)
  | _ => none

namespace Journal

/-- A journal after failures have been reported to it: it has an entry for each, unless its level is
above that of errors. -/
def reporting (faults : List (ConnectionEvent × Thrown)) (journal : Journal) : Journal where
  level := journal.level
  entries := journal.entries ++
    if journal.level.rank ≤ Level.error.rank then
      (faults.map fun fault => failureEntry fault.1 fault.2).toArray
    else #[]

theorem reporting_nil (journal : Journal) : journal.reporting [] = journal := by
  simp [reporting]

theorem reporting_append (faults later : List (ConnectionEvent × Thrown)) (journal : Journal) :
    journal.reporting (faults ++ later) = (journal.reporting faults).reporting later := by
  by_cases admitted : journal.level.rank ≤ Level.error.rank <;> simp [reporting, admitted]

/-- A failure is entered as one error. -/
theorem log_event (during : ConnectionEvent) (thrown : Thrown) (journal : Journal) :
    journal.log .error (thrown.event during) = journal.reporting [(during, thrown)] := by
  have brought : (Call.log .error (thrown.event during)).brings =
      some (failureEntry during thrown) :=
    congrArg (fun event => some (Entry.mk .error event)) (thrown.record_event during)
  rw [log_eq, enters_of_brings brought]
  rfl

/-! ### Failures among calls -/

/-- What becomes of a journal by a call, and by the report of a failure. -/
def undergo (journal : Journal) : Call ⊕ (ConnectionEvent × Thrown) → Journal
  | .inl call => call.perform journal
  | .inr fault => journal.reporting [fault]

/-- A journal is left by calls of a kind and by a report for each of some failures, in their order,
and by nothing else. -/
def Recounts (kind : Call → Prop) (faults : List (ConnectionEvent × Thrown))
    (before after : Journal) : Prop :=
  ∃ story : List (Call ⊕ (ConnectionEvent × Thrown)),
    story.filterMap Sum.getRight? = faults ∧ (∀ call, .inl call ∈ story → kind call) ∧
      story.foldl undergo before = after

namespace Recounts
variable {kind : Call → Prop} {faults later : List (ConnectionEvent × Thrown)}
  {before between after : Journal}

theorem refl (journal : Journal) : Recounts kind [] journal journal := ⟨[], rfl, nofun, rfl⟩

theorem append (first : Recounts kind faults before between)
    (second : Recounts kind later between after) :
    Recounts kind (faults ++ later) before after := by
  obtain ⟨story, rfl, calls, rfl⟩ := first
  obtain ⟨rest, rfl, others, rfl⟩ := second
  refine ⟨story ++ rest, List.filterMap_append, fun call told => ?_, List.foldl_append⟩
  exact (List.mem_append.mp told).elim (calls call) (others call)

theorem log (level : Level) (event : List (String × Json)) (journal : Journal) :
    Recounts (·.puts = none) [] journal (journal.log level event) :=
  ⟨[.inl (.log level event)], rfl, by simp [Call.puts], rfl⟩

theorem report (fault : ConnectionEvent × Thrown) (journal : Journal) :
    Recounts kind [fault] journal (journal.reporting [fault]) :=
  ⟨[.inr fault], rfl, by simp, rfl⟩

/-- Where there are no calls, there are the reports alone. -/
theorem alone (recounts : Recounts (fun _ => False) faults before after) :
    after = before.reporting faults := by
  obtain ⟨story, rfl, calls, rfl⟩ := recounts
  induction story generalizing before with
  | nil => exact (reporting_nil before).symm
  | cons part rest ih =>
    cases part with
    | inl call => exact (calls call (.head _)).elim
    | inr fault =>
      rw [List.foldl_cons, ih fun call told => calls call (.tail _ told)]
      exact (reporting_append [fault] _ before).symm

end Recounts
end Journal

/-! ### Reports -/

namespace Logbook
variable {L ω σ : Type} {logbook : Logbook σ} {w : Wiring L ω σ} {kind : Journal.Call → Prop}

theorem journal_report (logbook : Logbook σ) (during : ConnectionEvent) (thrown : Thrown)
    (host : σ) :
    logbook.journal (logbook.report during thrown host) =
      (logbook.journal host).reporting [(during, thrown)] :=
  (logbook.journal_alter _ host).trans (Journal.log_event during thrown _)

/-- The callback and listeners change the journal by calls of a kind alone. -/
structure Confined (logbook : Logbook σ) (w : Wiring L ω σ) (kind : Journal.Call → Prop) :
    Prop where
  notify : ∀ up host,
    Journal.Recounts kind [] (logbook.journal host) (logbook.journal (w.notify up host).2)
  perform : ∀ op host,
    Journal.Recounts kind [] (logbook.journal host) (logbook.journal (w.perform op host))

/-- Neither the callback nor listeners make entries. -/
structure Reserved (logbook : Logbook σ) (w : Wiring L ω σ) : Prop where
  notify : ∀ up host, logbook.journal (w.notify up host).2 = logbook.journal host
  perform : ∀ op host, logbook.journal (w.perform op host) = logbook.journal host

theorem Reserved.confined (reserved : logbook.Reserved w) : logbook.Confined w kind where
  notify up host := reserved.notify up host ▸ .refl _
  perform op host := reserved.perform op host ▸ .refl _

theorem Confined.undergo (confined : logbook.Confined w kind) (reports : w.report = logbook.report)
    (host : σ) (part : ω ⊕ Mark L) :
    Journal.Recounts kind (part.getRight?.bind Mark.fault?).toList (logbook.journal host)
      (logbook.journal (w.undergo host part)) := by
  cases part with
  | inl op => exact confined.perform op host
  | inr mark =>
    obtain ⟨level, sight⟩ := mark
    cases sight with
    | notified up thrown => exact confined.notify up host
    | ended l event thrown =>
      cases thrown with
      | none => exact .refl _
      | some thrown =>
        rw [Wiring.undergo, reports, logbook.journal_report]
        exact .report (event, thrown) _
    | _ => exact .refl _

/-- The reports of the calls that threw stand in their order among what else is done to the
journal. -/
theorem Confined.accounts (confined : logbook.Confined w kind)
    (reports : w.report = logbook.report) {marks : List (Mark L)} {before after : σ}
    (accounts : w.Accounts marks before after) :
    Journal.Recounts kind (marks.filterMap Mark.fault?) (logbook.journal before)
      (logbook.journal after) := by
  obtain ⟨story, rfl, rfl⟩ := accounts
  rw [List.filterMap_filterMap, List.filterMap_eq_flatMap_toList]
  induction story generalizing before with
  | nil => exact .refl _
  | cons part rest ih => exact (confined.undergo reports before part).append ih

end Logbook

/-! ### What a dispatch reports -/

namespace Dispatcher
variable {L ω σ : Type} [DecidableEq L]

/-- What a dispatch keeps to where failures of listeners go to the journal. -/
structure Reported (logbook : Logbook σ) (w : Wiring L ω σ) (depth : Nat)
    (event : ConnectionEvent) (d : Dispatcher L σ) : Prop where
  /-- It keeps to what every dispatch keeps to. -/
  kept : Kept w depth event d
  /-- The callback that is seen to run, what listeners do, and a report for each call that is seen
  to throw account for the surroundings. -/
  accounted : w.Accounts (course w depth event d) d.host (dispatch w depth event d).2.host
  /-- A report enters one error, with the name of the event and the words of the failure. -/
  report : ∀ during thrown host,
    logbook.journal (w.report during thrown host) =
      (logbook.journal host).reporting [(during, thrown)]
  /-- Where the callback and listeners make entries as well, those for the calls that threw, one for
  each, at whatever depth, stand among them in the order in which the calls ended. -/
  among : ∀ kind, logbook.Confined w kind →
    Journal.Recounts kind ((course w depth event d).filterMap Mark.fault?)
      (logbook.journal d.host) (logbook.journal (dispatch w depth event d).2.host)
  /-- Where they make none, these are all that the journal gets. -/
  journal : logbook.Reserved w →
    logbook.journal (dispatch w depth event d).2.host =
      (logbook.journal d.host).reporting ((course w depth event d).filterMap Mark.fault?)

theorem dispatch_reported (logbook : Logbook σ) (notify : Bool → σ → Option Thrown × σ)
    (react : L → ConnectionEvent → σ → Script L ω) (perform : ω → σ → σ)
    (answer : ω → σ → Bool) (depth : Nat) (event : ConnectionEvent) (d : Dispatcher L σ) :
    Reported logbook (logbook.wiring notify react perform answer) depth event d := by
  obtain ⟨_, _, accounted, _⟩ :=
    course_inOrder (logbook.wiring notify react perform answer) depth 0 event d
  exact {
    kept := dispatch_kept _ depth event d
    accounted := accounted
    report := logbook.journal_report
    among := fun _ confined => confined.accounts rfl accounted
    journal := fun reserved => (reserved.confined.accounts rfl accounted).alone }

end Dispatcher

/-! ### What becomes of the journal of a relay -/

theorem Journal.recounts_logAll (notices : List Notice) (journal : Journal) :
    Recounts (·.puts = none) [] journal (journal.logAll notices) := by
  induction notices generalizing journal with
  | nil => exact .refl _
  | cons notice rest ih => exact (Recounts.log notice.1 notice.2 journal).append (ih _)

namespace Link
variable {L τ : Type} [DecidableEq L]

omit [DecidableEq L] in
/-- Neither a link nor its listeners put another level in force. -/
theorem confined_wiring (id : Identifier) (react : Behaviour L τ) :
    LinkHost.logbook.Confined (wiring id react) (·.puts = none) where
  notify _ _ := Journal.recounts_logAll _ _
  perform action host := by
    cases action with
    | log level event => exact .log level event _
    | note change => exact .refl _

/-- What is fired on a link leaves the journal of the relay with an error for each call that threw,
among what the link and its listeners enter. -/
theorem recounts_fire (depth : Nat) (react : Behaviour L τ) (event : ConnectionEvent)
    (link : Link L) (relay : Relay) (own : τ) :
    relay.journal.Recounts (·.puts = none)
      ((Dispatcher.course (wiring link.id react) depth event
        (link.dispatcher relay own)).filterMap Mark.fault?)
      (link.fire depth react event relay own).relay.journal := by
  obtain ⟨_, _, accounted, _⟩ :=
    Dispatcher.course_inOrder (wiring link.id react) depth 0 event (link.dispatcher relay own)
  exact (confined_wiring link.id react).accounts rfl accounted

/-- A listener throws at every event, and fires another one before it does on being connected. What
it throws at that one is entered first. -/
example :
    let react : Behaviour Unit Unit
      | (), .connected _ _, _ => .fire (.textSent "") (.throw .foreign)
      | (), _, _ => .throw (.failure .journalClosed)
    let host : LinkHost Unit := ⟨false, ⟨.empty 1 Nat.one_pos, .opened, 0⟩, ()⟩
    let d := (Dispatcher.dispatch (wiring .zero react) 1 (.connected "" false) ⟨[()], host⟩).2
    d.host.relay.journal.entries =
      #[⟨.error, .object [("component", .string "connection"),
          ("event", .string "text_message_sent"),
          ("listener_failure", .string "Logger not initialized")]⟩,
        ⟨.error, .object [("component", .string "connection"), ("event", .string "connected"),
          ("listener_failure", .string "unknown exception")]⟩] := by
  rfl

end Link
end VesselRelay
