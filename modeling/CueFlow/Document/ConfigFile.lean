import CueFlow.Config
import CueFlow.Document.Config
import CueFlow.Toml.Decode
import CueFlow.Toml.Printer
import CueFlow.Toml.Reader
/-!
# Configuration files

A configuration is kept in a TOML file. Reading one fails if there is no file, if its text is not a
document of the right form, or if an engine could not run with the settings. Writing one fails if a
number is beyond the integers that TOML has.

`EngineConfig.ofToml?` and `EngineConfig.toToml?` relate configurations to documents, and
`EngineConfig.ofFile` and `EngineConfig.toFile?` to texts.
-/

namespace CueFlow

/-- The watchdog settings that a value stands for. -/
def WatchdogConfig.ofToml? (v : Toml) : Option (WatchdogConfig Float) := do
  let s ← Toml.asRecord WatchdogConfig.fields v
  let d := WatchdogConfig.default
  let burstCeiling ← Toml.setting s "burst_ceiling" d.burstCeiling Toml.asNat
  let oscillationWindow ← Toml.setting s "oscillation_window" d.oscillationWindow Toml.asNat
  let oscillationMinAlternations ←
    Toml.setting s "oscillation_min_alternations" d.oscillationMinAlternations Toml.asNat
  let oscillationSpan ← Toml.setting s "oscillation_span_ms" d.oscillationSpan Toml.asFloat
  let continuousActions ←
    Toml.setting s "continuous_actions" d.continuousActions (Toml.asList Toml.asText)
  return { burstCeiling, oscillationWindow, oscillationMinAlternations, oscillationSpan,
           continuousActions }

/-- The configuration that a document stands for. -/
def EngineConfig.ofToml? (entries : Toml.Entries) : Option EngineConfig := do
  let s ← Toml.asRecord EngineConfig.fields (.table .opened entries)
  let d : EngineConfig := {}
  let tickInterval ← Toml.setting s "tick_interval_ms" d.tickInterval Toml.asNat
  let loadPolicy ←
    Toml.setting s "load_policy" d.loadPolicy (Toml.asChoice LoadPolicy.ofName?)
  let watchdog ← Toml.setting s "watchdog" d.watchdog WatchdogConfig.ofToml?
  return { tickInterval, loadPolicy, watchdog }

/-- A natural number as an integer of TOML; none if it is out of range. -/
def Toml.ofNat? (n : Nat) : Option Toml :=
  if Int.ofNat n < Toml.integerLimit then some (.integer n) else none

/-- Watchdog settings as entries of a table. -/
def WatchdogConfig.toToml? (c : WatchdogConfig Float) : Option Toml.Entries := do
  return [("burst_ceiling", ← Toml.ofNat? c.burstCeiling),
    ("oscillation_window", ← Toml.ofNat? c.oscillationWindow),
    ("oscillation_min_alternations", ← Toml.ofNat? c.oscillationMinAlternations),
    ("oscillation_span_ms", .float c.oscillationSpan),
    ("continuous_actions", .array (c.continuousActions.map .text))]

/-- A configuration as a document. -/
def EngineConfig.toToml? (c : EngineConfig) : Option Toml.Entries := do
  return [("tick_interval_ms", ← Toml.ofNat? c.tickInterval),
    ("load_policy", .text c.loadPolicy.name),
    ("watchdog", .table .opened (← c.watchdog.toToml?))]

/-- Why a configuration cannot be had from a file. -/
inductive ConfigFileError where
  /-- There is no file. -/
  | missing
  /-- The text of the file is not a document of the right form. -/
  | malformed
  | invalid (error : ConfigError)
deriving DecidableEq, Repr

/-- The text of a refusal. -/
def ConfigFileError.message : ConfigFileError → String
  | missing => "Configuration error: Failed to read config file"
  | malformed => "Configuration error: Failed to parse config file"
  | invalid error => "Configuration error: " ++ error.message

namespace EngineConfig

/-- The configuration in a file with this text, if there is one. -/
def ofFile (file : Option String) : Except ConfigFileError EngineConfig :=
  match file with
  | none => .error .missing
  | some text =>
    match (Toml.parse? text).bind ofToml? with
    | none => .error .malformed
    | some c =>
      match c.validate with
      | .ok () => .ok c
      | .error e => .error (.invalid e)

/-- The configuration in a file, or the default one for want of it. -/
def ofFileOrDefault (file : Option String) : EngineConfig :=
  match ofFile file with
  | .ok c => c
  | .error _ => {}

/-- The text of the file that a configuration is kept in. -/
def toFile? (c : EngineConfig) : Option String := c.toToml?.map Toml.documentText

end EngineConfig

end CueFlow
