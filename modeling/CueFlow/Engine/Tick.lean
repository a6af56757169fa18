import CueFlow.Engine
/-!
# A tick under way

A `Tick` is an engine in the middle of a tick: its state so far, the summary so far, and the events
so far in the order in which they happened. Both passes move a `Tick` on, step by step of the plan.
-/

namespace CueFlow

/-- An engine in the middle of a tick. -/
structure Tick where
  engine : Engine
  nowMs : Float
  deltaMs : Float
  info : TickInfo
  events : List Event := []

namespace Tick

variable (t : Tick)

/-- What a hook of this node is told about the tick. -/
def context (node : NodeId) : HookContext := ⟨node, t.engine.tick, t.nowMs, t.deltaMs⟩

/-- Change the engine. -/
def mapEngine (f : Engine → Engine) : Tick := { t with engine := f t.engine }

/-- Change the summary. -/
def mapInfo (f : TickInfo → TickInfo) : Tick := { t with info := f t.info }

/-- Note that a hook was called. -/
def called (call : HookCall) : Tick := { t with events := t.events ++ [.called call] }

/-- Note that a hook failed. -/
def failed : Tick := t.mapInfo fun i ↦ { i with failures := i.failures + 1 }

/-- Whether the compute gate allows a node, when it is asked now. -/
def computeAllowed (node : NodeId) : Bool := (t.engine.askCompute node).1

/-- Note that the compute gate was asked about a node. -/
def noteAsked (node : NodeId) : Tick := t.mapEngine fun e ↦ (e.askCompute node).2

/-- Set the outputs of the node at a place of the graph. -/
def setOutputs (index : Nat) (outputs : ValueMap) : Tick :=
  t.mapEngine fun e ↦
    { e with graph := e.graph.modifyAt index fun n ↦ { n with outputValues := outputs } }

end Tick

/-- The inputs that a cleanup hook is given: declared defaults, over them the stored values of
declared inputs, then the compute inputs as last resolved and the sink values of the last visit. -/
def cleanupInputs (d : NodeDefinition) (n : Node) (memory : NodeMemory) : ValueMap :=
  let defaults := KeyMap.ofEntries (d.inputs.map fun p ↦ (p.id, p.default))
  let stored := defaults.overlay (n.inputValues.filter fun entry ↦ defaults.contains entry.1)
  let resolved := stored.overlay (memory.lastInputs.getD [])
  resolved.overlay ((memory.sinkSnapshot.map SinkSnapshot.sinkValues).getD [])

/-- Whether a hook succeeded. -/
def succeeded {α : Type} : Except HookFailure α → Bool
  | .ok _ => true
  | .error _ => false

/-- Call the disable hook of a node, if its definition has one. -/
def Tick.fireDisable (t : Tick) (d : NodeDefinition) (inputs config : ValueMap) (node : NodeId) :
    Tick :=
  match d.disable with
  | none => t
  | some hook =>
    let t' := t.called ⟨.disable, inputs, config, t.context node⟩
    if succeeded (hook inputs config (t.context node)) then t' else t'.failed

end CueFlow
