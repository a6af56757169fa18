/-!
# Engine configuration

The cadence of the tick loop, how forgiving a load is, and the thresholds of the watchdog. Every
setting has a default; `EngineConfig.validate` says which settings an engine can run with.
-/

namespace CueFlow

/-- How loading a graph treats what it cannot accept. -/
inductive LoadPolicy where
  /-- Anything unknown or invalid fails the load. -/
  | strict
  /-- Unknown nodes are skipped, invalid connections dropped. -/
  | lenient
deriving DecidableEq, Repr

namespace LoadPolicy

/-- The name used in config files. -/
def name : LoadPolicy → String
  | strict => "strict"
  | lenient => "lenient"

/-- The policy with this name. -/
def ofName? (s : String) : Option LoadPolicy := [strict, lenient].find? fun p ↦ p.name == s

end LoadPolicy

/-- Actions that change on every tick by design and never count as oscillation. -/
def defaultContinuousActions : List String :=
  ["modulateColor", "modulateVolume", "setColor", "setVolume", "setBrightness"]

/-- Thresholds of the burst and oscillation checks, with times of type `τ`. -/
structure WatchdogConfig (τ : Type) where
  /-- How many sink values, lists counted by length, may be delivered in one tick. -/
  burstCeiling : Nat
  /-- How many history entries are kept for each sink port. -/
  oscillationWindow : Nat
  /-- The shortest strict alternation that halts the engine. -/
  oscillationMinAlternations : Nat
  /-- Entries older than this are forgotten. -/
  oscillationSpan : τ
  /-- Actions without a discrete signature. -/
  continuousActions : List String
deriving BEq

/-- The default thresholds. -/
def WatchdogConfig.default : WatchdogConfig Float where
  burstCeiling := 200
  oscillationWindow := 24
  oscillationMinAlternations := 6
  oscillationSpan := 1000.0
  continuousActions := defaultContinuousActions

/-- The configuration of an engine. -/
structure EngineConfig where
  /-- Time between ticks, in milliseconds. -/
  tickInterval : Nat := 33
  loadPolicy : LoadPolicy := .strict
  watchdog : WatchdogConfig Float := .default
deriving BEq

/-- Why a configuration is refused. -/
inductive ConfigError where
  | zeroInterval
  | zeroCeiling
  | fewAlternations
  | narrowWindow (window alternations : Nat)
  | emptySpan
deriving DecidableEq, Repr

/-- The text of a refusal. -/
def ConfigError.message : ConfigError → String
  | zeroInterval => "tick_interval_ms must be greater than zero"
  | zeroCeiling => "watchdog.burst_ceiling must be greater than zero"
  | fewAlternations => "watchdog.oscillation_min_alternations must be at least 2"
  | narrowWindow window alternations =>
    "watchdog.oscillation_window (" ++ toString window ++
      ") is smaller than oscillation_min_alternations (" ++ toString alternations ++ ")"
  | emptySpan => "watchdog.oscillation_span_ms must be positive"

/-- Refuse settings that an engine cannot run with; the first fault counts. -/
def EngineConfig.validate (c : EngineConfig) : Except ConfigError Unit :=
  let w := c.watchdog
  if c.tickInterval = 0 then .error .zeroInterval
  else if w.burstCeiling = 0 then .error .zeroCeiling
  else if w.oscillationMinAlternations < 2 then .error .fewAlternations
  else if w.oscillationWindow < w.oscillationMinAlternations then
    .error (.narrowWindow w.oscillationWindow w.oscillationMinAlternations)
  else if w.oscillationSpan ≤ 0.0 then .error .emptySpan
  else .ok ()

end CueFlow
