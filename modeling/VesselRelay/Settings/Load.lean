import VesselRelay.Journal
import VesselRelay.Settings.Numeral

/-!
The settings of a relay, out of environment variables. A variable that is not set has a default; one
that is no positive number has it too, with a warning.
-/
namespace VesselRelay

/-- What environment variables hold; one that is not set holds nothing. -/
structure Environment where
  logDirectory : Option String
  logLevel : Option String
  shards : Option String
  timeout : Option String
  sweepRate : Option String
  vessels : Option String
  regionRadius : Option String

structure Settings where
  logDirectory : String
  logLevel : Option String
  shards : Nat
  /-- Seconds. -/
  timeout : Float
  /-- Rounds in a second. -/
  sweepRate : Float
  vessels : Nat
  /-- Metres. -/
  regionRadius : Float
  deriving DecidableEq, Repr

namespace Settings

def invalidValue (variableName raw : String) (fallback : Json) : List (String × Json) :=
  [("component", .string "configuration"), ("event", .string "invalid_value"),
   ("variable", .string variableName), ("value", .string raw), ("fallback", fallback)]

/-- A positive whole number out of a variable, or its default. -/
def positiveInt (variableName : String) (raw : Option String) (fallback : Nat) :
    StateM Journal Nat := do
  match raw.map beforeNul with
  | none => return fallback
  | some raw =>
    match (int? raw.toList).filter (0 < ·) with
    | some n => return n.toNat
    | none =>
      modify (Journal.log .warning (invalidValue variableName raw (.int fallback)))
      return fallback

/-- A positive double out of a variable, or its default. Infinity is positive. -/
def positiveReal (variableName : String) (raw : Option String) (fallback : Float) :
    StateM Journal Float := do
  match raw.map beforeNul with
  | none => return fallback
  | some raw =>
    match (real? raw.toList).filter (0.0 < ·) with
    | some x => return x
    | none =>
      modify (Journal.log .warning (invalidValue variableName raw (.float fallback)))
      return fallback

/-- A text out of a variable, unless it is empty. -/
def nonemptyText (raw : Option String) : Option String := (raw.map beforeNul).filter (!·.isEmpty)

/-- Reads all settings, entering the beginning and the result in the journal. -/
def load (env : Environment) : StateM Journal Settings := do
  modify (Journal.log .info [("component", .string "configuration"), ("event", .string "loading")])
  let shards ← positiveInt "MARITIME_RELAY_REGISTRY_SHARDS" env.shards 16
  let timeout ← positiveReal "MARITIME_RELAY_TARGET_TIMEOUT_S" env.timeout 300.0
  let sweepRate ← positiveReal "MARITIME_RELAY_SWEEP_HZ" env.sweepRate 1.0
  let vessels ← positiveInt "MARITIME_RELAY_SIM_VESSELS" env.vessels 25
  let regionRadius ← positiveReal "MARITIME_RELAY_SIM_REGION_RADIUS_M" env.regionRadius 20000.0
  modify (Journal.log .info
    [("component", .string "configuration"), ("event", .string "loaded"),
     ("registry_shards", .int shards), ("target_timeout_s", .float timeout),
     ("sweep_hz", .float sweepRate), ("sim_vessels", .int vessels),
     ("sim_region_radius_m", .float regionRadius)])
  return {
    logDirectory := (nonemptyText env.logDirectory).getD "logs"
    logLevel := nonemptyText env.logLevel
    shards, timeout, sweepRate, vessels, regionRadius }

end Settings
end VesselRelay
