import VesselRelay.Failure
import VesselRelay.Json.Basic

/-!
The journal: events, each a JSON object with a level, of which those below the level in force are
left out.
-/
namespace VesselRelay

inductive Level where
  | trace
  | debug
  | info
  | warning
  | error
  | critical
  | off
  deriving DecidableEq, Repr

namespace Level

def rank : Level → Nat
  | trace => 0
  | debug => 1
  | info => 2
  | warning => 3
  | error => 4
  | critical => 5
  | off => 6

def name : Level → String
  | trace => "trace"
  | debug => "debug"
  | info => "info"
  | warning => "warning"
  | error => "error"
  | critical => "critical"
  | off => "off"

/-- The level of a name. Two levels have a short name too; letter case counts. -/
def ofName? : String → Option Level
  | "trace" => some trace
  | "debug" => some debug
  | "info" => some info
  | "warning" => some warning
  | "warn" => some warning
  | "error" => some error
  | "err" => some error
  | "critical" => some critical
  | "off" => some off
  | _ => none

end Level

structure Entry where
  level : Level
  event : Json

/-- The level in force and the entries so far, oldest first. -/
structure Journal where
  level : Level
  entries : Array Entry

namespace Journal

def opened : Journal := ⟨.info, #[]⟩

def admits (journal : Journal) (level : Level) : Bool := decide (journal.level.rank ≤ level.rank)

/-- Enters an event unless its level is below the one in force. -/
def log (level : Level) (event : List (String × Json)) (journal : Journal) : Journal :=
  if journal.admits level then
    { journal with entries := journal.entries.push ⟨level, Json.record event⟩ }
  else journal

/-- Puts the level of a name in force. An unknown name is warned of, while the old level is still in
force, and the level becomes that of information. -/
def setLevel (name : String) (journal : Journal) : Journal :=
  match Level.ofName? name with
  | some level => { journal with level }
  | none =>
    { journal.log .warning
        [("component", .string "logging"), ("event", .string "unknown_level"),
          ("level", .string name)] with
      level := .info }

/-- Hands the entries over and goes on without them. -/
def drain (journal : Journal) : Array Entry × Journal :=
  (journal.entries, { journal with entries := #[] })

end Journal

/-- The one journal of a process. There is none until it is opened. -/
structure JournalHost where
  journal : Option Journal

namespace JournalHost

def initial : JournalHost := ⟨none⟩

def current (host : JournalHost) : Except Failure Journal :=
  match host.journal with
  | some journal => .ok journal
  | none => .error .journalClosed

/-- Opens the journal in a directory that can be made. Once it is open, opening it again gives the
same one. -/
def openIn (directory : String) (available : Bool) (host : JournalHost) :
    Except Failure Journal × JournalHost :=
  match host.journal with
  | some journal => (.ok journal, host)
  | none =>
    if available then (.ok .opened, ⟨some .opened⟩)
    else (.error (.journalDirectory directory), host)

/-- Without a journal there is no level to set. -/
def setLevel (name : String) (host : JournalHost) : JournalHost :=
  ⟨host.journal.map (Journal.setLevel name)⟩

end JournalHost
end VesselRelay
