import CueFlow.Engine.Host
import CueFlow.Graph.Load
import CueFlow.Override
import CueFlow.Plan
/-!
# The state of an engine

An engine owns a graph and all that its ticks need: the compiled plan, the overrides, the watchdog,
and what it remembers of every node from one tick to the next. The operations that a host calls are
spread over `CueFlow.Engine.Compute`, `CueFlow.Engine.Deliver` and `CueFlow.Engine.Run`.
-/

namespace CueFlow

/-- What a sink node was last visited with. -/
structure SinkSnapshot where
  computeInputs : ValueMap
  sinkValues : ValueMap
  config : ValueMap

/-- What an engine remembers of a node between ticks. -/
structure NodeMemory where
  disabled : Bool := false
  /-- The compute inputs as last resolved. -/
  lastInputs : Option ValueMap := none
  /-- The last visit of the sink pass, until the next cleanup. -/
  sinkSnapshot : Option SinkSnapshot := none
  /-- Whether any point of delivery was connected at the last visit. -/
  sinkConnected : Bool := false

/-- An engine. -/
structure Engine where
  graph : Graph
  config : EngineConfig
  plan : Option Plan := none
  overrides : OverrideStore Float := {}
  watchdog : Watchdog Float
  memory : KeyMap NodeMemory := []
  policy : HostPolicy := .allEnabled
  /-- How often the compute gate has been asked about each node. -/
  asked : KeyMap Nat := []
  running : Bool := false
  halted : Option HaltReport := none
  /-- Ticks completed since the last start. -/
  tick : Nat := 0
  lastTickMs : Option Float := none

namespace Engine

/-- An engine at rest around a graph. -/
def new (graph : Graph) (config : EngineConfig) : Except EngineError Engine :=
  match config.validate with
  | .ok () => .ok { graph, config, watchdog := { config := config.watchdog } }
  | .error e => .error (.invalidConfig e)

/-- An engine at rest around a snapshot, loaded under the configured policy. -/
def ofState (catalog : Catalog) (state : GraphState) (config : EngineConfig) :
    Except EngineError (Engine × LoadReport) := do
  let (graph, report) ← Graph.load catalog state config.loadPolicy
  let engine ← new graph config
  return (engine, report)

variable (e : Engine)

/-- What is remembered of a node. -/
def memoryOf (node : NodeId) : NodeMemory := (e.memory.get? node).getD {}

/-- Change what is remembered of a node. -/
def remember (node : NodeId) (f : NodeMemory → NodeMemory) : Engine :=
  { e with memory := e.memory.update node {} f }

/-- The config of a node with its overrides. -/
def effectiveConfig (n : Node) : ValueMap := e.overrides.effectiveConfig n.id n.config

/-- Whether the plan is missing or older than the graph. -/
def isPlanStale : Bool :=
  match e.plan with
  | some plan => plan.generation != e.graph.generation
  | none => true

/-- The current outputs of a node. -/
def outputs? (node : NodeId) : Option ValueMap := (e.graph.node? node).map Node.outputValues

/-- Install a policy; it has not been asked anything yet. -/
def setPolicy (policy : HostPolicy) : Engine := { e with policy, asked := [] }

/-- Ask the compute gate about a node. -/
def askCompute (node : NodeId) : Bool × Engine :=
  let count := (e.asked.get? node).getD 0
  (e.policy.compute node count, { e with asked := e.asked.insert node (count + 1) })

/-! ### Managing the graph -/

/-- Replace the graph by a snapshot. All that was remembered went with the old graph. -/
def load (state : GraphState) : Except EngineError (Engine × LoadReport) := do
  let (graph, report) ← Graph.load e.graph.catalog state e.config.loadPolicy
  return ({ e with
    graph
    plan := none
    overrides := {}
    watchdog := e.watchdog.reset
    memory := [] }, report)

/-- Keep a plan for the ticks to come. -/
def keepPlan (plan : Plan) : Engine := { e with plan := some plan }

/-- Compile the graph and keep the plan. -/
def compileNow : Except EngineError (Engine × Plan) := do
  let plan ← e.graph.compile
  return (e.keepPlan plan, plan)

/-- Forget everything about a removed node. -/
def forgetNode (node : NodeId) : Engine :=
  { e with
    memory := e.memory.erase node
    overrides := e.overrides.clearNode node
    watchdog := e.watchdog.forget node }

/-- Forget the node that an edit removes, if it removes one. -/
def forgetRemoved (edit : GraphEdit) : Engine :=
  match edit.removedNode? with
  | some node => e.forgetNode node
  | none => e

/-- Apply an edit to the live graph. A change of topology is compiled on the next tick. -/
def applyEdit (edit : GraphEdit) : Except EngineError Engine := do
  let graph ← e.graph.apply edit
  return forgetRemoved { e with graph } edit

/-- Apply an edit only if the result still compiles. -/
def tryEdit (edit : GraphEdit) : Except EngineError Engine := do
  let graph ← e.graph.apply edit
  if edit.isTopology then
    let plan ← graph.compile
    return forgetRemoved { e with graph, plan := some plan } edit
  else
    return forgetRemoved { e with graph } edit

/-! ### Overrides -/

/-- Override an input or a config entry of an existing node. -/
def setOverride (node : NodeId) (kind : OverrideKind) (key : String) (value : Value)
    (lifetime : Option Float) (now : Float) : Except EngineError Engine :=
  match e.graph.node? node with
  | none => .error (.unknownNode node)
  | some _ => .ok { e with overrides := e.overrides.set node kind key value lifetime now }

/-- Remove one override, and tell whether it was there. -/
def clearOverride (node : NodeId) (kind : OverrideKind) (key : String) : Engine × Bool :=
  ({ e with overrides := e.overrides.clear node kind key },
    (e.overrides.get? node kind key).isSome)

end Engine

end CueFlow
