import CueFlow.Engine.Compute
import CueFlow.Engine.Deliver
/-!
# Starting, stopping and ticking

Time is supplied by the caller of `Engine.tick`; an engine reads no clock. A tick expires overrides,
recompiles if the topology changed, and runs the compute pass and then the sink pass over the same
plan. A watchdog report, or a graph that no longer compiles, halts the engine: it stops at once and
stays stopped until it is started again.
-/

namespace CueFlow

/-- What a tick came to. -/
inductive TickOutcome where
  /-- The engine is not running. -/
  | idle
  | completed (info : TickInfo)
  /-- The engine is now stopped. -/
  | halted (report : HaltReport)

namespace Engine

variable (e : Engine)

/-- Compile and begin ticking. Clears an earlier halt. -/
def start : Except EngineError Engine := do
  let (e, _) ← e.compileNow
  return { e with
    running := true
    halted := none
    tick := 0
    lastTickMs := none
    watchdog := e.watchdog.reset }

/-- The cleanup of one node when the engine stops: none if it has no such hook or was cleaned up
when it was disabled. -/
def stopCall? (n : Node) : Option HookCall := do
  let d ← e.graph.catalog.get? n.type
  let _ ← d.disable
  let memory := e.memoryOf n.id
  if memory.disabled then none
  else some ⟨.disable, cleanupInputs d n memory, e.effectiveConfig n,
    ⟨n.id, e.tick, e.lastTickMs.getD 0.0, 0.0⟩⟩

/-- Stop ticking. Every node that is not disabled cleans up, then all outputs and all that was
remembered of the nodes is dropped, so that a later start is a cold start. -/
def stop : Engine × List Event :=
  if e.running then
    ({ e with
      graph := e.graph.clearOutputs
      memory := []
      watchdog := e.watchdog.reset
      running := false },
    (e.graph.nodes.filterMap e.stopCall?).map .called)
  else (e, [])

/-- Stop because of a report, and tell the host. -/
def halt (report : HaltReport) : Engine × TickOutcome × List Event :=
  let (stopped, events) := e.stop
  ({ stopped with halted := some report }, .halted report, events ++ [.halted report])

/-- The report of a graph that does not compile. -/
def compileReport (error : EngineError) : HaltReport where
  reason := .compileError
  message := error.message
  diagnostics :=
    match error with
    | .cycle nodes => [("nodes", .list (nodes.map .text))]
    | _ => []

/-- The engine as a tick finds it: the time is noted, and what has expired by then is dropped. -/
def atTime (now : Float) : Engine :=
  { e with lastTickMs := some now, overrides := e.overrides.expire now }

/-- The time since the tick before; none on the first tick after a start. -/
def sinceLast (now : Float) : Float := (e.lastTickMs.map fun last ↦ now - last).getD 0.0

/-- The engine with a plan that is up to date. -/
def refreshPlan : Except EngineError Engine :=
  if e.isPlanStale then e.compileNow.map Prod.fst else .ok e

/-- A tick before its first step. -/
def beginTick (now delta : Float) : Tick where
  engine := { e with watchdog := e.watchdog.beginTick }
  nowMs := now
  deltaMs := delta
  info := { tick := e.tick, timeMs := now }

/-- A tick between its passes. -/
def computed (plan : Plan) (now delta : Float) : Tick :=
  (e.beginTick now delta).computePass plan.steps

/-- Both passes of a tick over a plan that is up to date. -/
def runPlan (plan : Plan) (now delta : Float) : Engine × TickOutcome × List Event :=
  match (e.computed plan now delta).sinkPass plan.steps with
  | (t, some report) =>
    let (halted, outcome, events) := t.engine.halt report
    (halted, outcome, t.events ++ events)
  | (t, none) =>
    ({ t.engine with tick := t.engine.tick + 1 }, .completed t.info, t.events ++ [.ticked t.info])

/-- Run one tick at the given host time. -/
def tickAt (now : Float) : Engine × TickOutcome × List Event :=
  if e.running then
    match (e.atTime now).refreshPlan with
    | .error error => (e.atTime now).halt (compileReport error)
    | .ok ready =>
      match ready.plan with
      | some plan => ready.runPlan plan now (e.sinceLast now)
      | none => (ready, .idle, [])
  else (e, .idle, [])

end Engine

end CueFlow
