import CueFlow.Engine.Tick
/-!
# The compute pass

In the order of the plan, every node gets its outputs for this tick. A disabled node cleans up once
and then passes at most one value through; a node whose computation is refused has no outputs; any
other node resolves its inputs and runs `process`. A failing `process` leaves the outputs of the
tick before in place.
-/

namespace CueFlow

/-- The value that an output of an earlier step had in this tick. -/
def Graph.outputAt? (g : Graph) (index : Nat) (port : String) : Option Value :=
  (g.nodes[index]?).bind fun n ↦ n.outputValues.get? port

/-- The value that a compute input gets through its connection, if there is any in this tick. -/
def PlanStep.incoming? (s : PlanStep) (g : Graph) (port : String) : Option Value :=
  (s.computeRoute? port).bind fun route ↦ g.outputAt? route.source route.sourcePort

/-- The outputs of a disabled node: the value on its one input of the type of its one output, or
nothing at all. -/
def PlanStep.bypassOutputs (s : PlanStep) (g : Graph) : ValueMap :=
  match s.definition.bypassPair? with
  | none => []
  | some (input, output) =>
    match s.incoming? g input.id with
    | some v => [(output.id, v)]
    | none => []

/-- Where the value of a compute input comes from. -/
inductive InputSource where
  | overridden (v : Value)
  | connected (v : Value)
  | stored (v : Value)
  /-- Nothing is there: the declared default is used, and stored for later. -/
  | declared (v : Value)

def InputSource.value : InputSource → Value
  | overridden v | connected v | stored v | declared v => v

def InputSource.isDeclared : InputSource → Bool
  | declared _ => true
  | _ => false

/-- Resolve a compute input: an override comes first, then the connected value of this tick, then
the stored value, then the default. -/
def Engine.resolveInput (e : Engine) (s : PlanStep) (n : Node) (p : Port) : InputSource :=
  match e.overrides.input? n.id p.id with
  | some v => .overridden v
  | none =>
    match s.incoming? e.graph p.id with
    | some v => .connected v
    | none =>
      match n.inputValues.get? p.id with
      | some v => .stored v
      | none => .declared p.default

/-- All compute inputs of a node, resolved. -/
def Engine.resolveInputs (e : Engine) (s : PlanStep) (n : Node) : ValueMap :=
  KeyMap.ofEntries (s.definition.computeInputs.map fun p ↦ (p.id, (e.resolveInput s n p).value))

/-- The defaults that a node stores because it had to fall back on them. -/
def Engine.newDefaults (e : Engine) (s : PlanStep) (n : Node) : List (String × Value) :=
  (s.definition.computeInputs.filter fun p ↦ (e.resolveInput s n p).isDeclared).map fun p ↦
    (p.id, p.default)

namespace Tick

variable (t : Tick)

/-- Disable a node. Its cleanup runs only on the transition. -/
def enterDisabled (s : PlanStep) : Tick :=
  let memory := t.engine.memoryOf s.node
  let cleaned :=
    if memory.disabled then t
    else
      match t.engine.graph.nodes[s.index]? with
      | some n => t.fireDisable s.definition (cleanupInputs s.definition n memory)
          (t.engine.effectiveConfig n) s.node
      | none => t
  cleaned.mapEngine fun e ↦
    e.remember s.node fun m ↦ { m with disabled := true, sinkSnapshot := none }

/-- Call `process` for a node: its inputs are remembered, and the defaults among them stored. -/
def callProcess (s : PlanStep) (n : Node) : Tick :=
  let inputs := t.engine.resolveInputs s n
  let defaults := t.engine.newDefaults s n
  (t.called ⟨.process, inputs, t.engine.effectiveConfig n, t.context s.node⟩).mapEngine fun e ↦
    { e.remember s.node fun m ↦ { m with lastInputs := some inputs } with
      graph := e.graph.modifyAt s.index fun n ↦
        { n with inputValues := n.inputValues.overlay defaults } }

/-- Resolve the inputs of a node, run `process` and take over the outcome. -/
def process (s : PlanStep) (n : Node) : Tick :=
  let ran := t.callProcess s n
  match s.definition.process (t.engine.resolveInputs s n) (t.engine.effectiveConfig n)
      (t.context s.node) with
  | .ok outputs =>
    (ran.setOutputs s.index outputs).mapInfo fun i ↦ { i with computed := i.computed + 1 }
  | .error _ => ran.failed

/-- Note that a node is enabled. -/
def enable (s : PlanStep) : Tick :=
  t.mapEngine fun e ↦ e.remember s.node fun m ↦ { m with disabled := false }

/-- Compute an enabled node; one whose computation is refused has no outputs. -/
def computeEnabled (s : PlanStep) : Tick :=
  let asked := t.noteAsked s.node
  if t.computeAllowed s.node then
    match asked.engine.graph.nodes[s.index]? with
    | some n => asked.process s n
    | none => asked
  else asked.setOutputs s.index []

/-- Disable a node and pass its one value through. -/
def bypass (s : PlanStep) : Tick :=
  let disabled := t.enterDisabled s
  disabled.setOutputs s.index (s.bypassOutputs disabled.engine.graph)

/-- One step of the compute pass. -/
def computeStep (s : PlanStep) : Tick :=
  if t.engine.policy.node s.node then (t.enable s).computeEnabled s else t.bypass s

/-- The compute pass. -/
def computePass (steps : List PlanStep) : Tick := steps.foldl computeStep t

end Tick

end CueFlow
