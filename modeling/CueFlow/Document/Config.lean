import CueFlow.Config
import CueFlow.Document.Value
/-!
# Engine configurations in documents

The JSON form of a configuration. Every setting may be left out.
-/

namespace CueFlow

/-- The settings of the watchdog, in order. -/
def WatchdogConfig.fields : List String :=
  ["burst_ceiling", "oscillation_window", "oscillation_min_alternations", "oscillation_span_ms",
    "continuous_actions"]

/-- The watchdog settings that a document stands for. -/
def WatchdogConfig.decode : Json.Decoder (WatchdogConfig Float) := fun depth j ↦ do
  let f ← Json.asRecord WatchdogConfig.fields depth j
  let d := WatchdogConfig.default
  let burstCeiling ← f.optional "burst_ceiling" d.burstCeiling Json.asNat
  let oscillationWindow ← f.optional "oscillation_window" d.oscillationWindow Json.asNat
  let oscillationMinAlternations ←
    f.optional "oscillation_min_alternations" d.oscillationMinAlternations Json.asNat
  let oscillationSpan ← f.optional "oscillation_span_ms" d.oscillationSpan Json.asFloat
  let continuousActions ←
    f.optional "continuous_actions" d.continuousActions (Json.asList Json.asText)
  return { burstCeiling, oscillationWindow, oscillationMinAlternations, oscillationSpan,
           continuousActions }

/-- Watchdog settings as a document. -/
def WatchdogConfig.toJson (c : WatchdogConfig Float) : Json :=
  .record [("burst_ceiling", .nat c.burstCeiling),
    ("oscillation_window", .nat c.oscillationWindow),
    ("oscillation_min_alternations", .nat c.oscillationMinAlternations),
    ("oscillation_span_ms", .float c.oscillationSpan),
    ("continuous_actions", .texts c.continuousActions)]

/-- The settings of an engine, in order. -/
def EngineConfig.fields : List String := ["tick_interval_ms", "load_policy", "watchdog"]

/-- The configuration that a document stands for. -/
def EngineConfig.decode : Json.Decoder EngineConfig := fun depth j ↦ do
  let f ← Json.asRecord EngineConfig.fields depth j
  let d : EngineConfig := {}
  let tickInterval ← f.optional "tick_interval_ms" d.tickInterval Json.asNat
  let loadPolicy ← f.optional "load_policy" d.loadPolicy (Json.asChoice LoadPolicy.ofName?)
  let watchdog ← f.optional "watchdog" d.watchdog WatchdogConfig.decode
  return { tickInterval, loadPolicy, watchdog }

/-- A configuration as a document. -/
def EngineConfig.toJson (c : EngineConfig) : Json :=
  .record [("tick_interval_ms", .nat c.tickInterval), ("load_policy", .text c.loadPolicy.name),
    ("watchdog", c.watchdog.toJson)]

end CueFlow
