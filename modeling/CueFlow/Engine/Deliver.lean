import CueFlow.Command.Change
import CueFlow.Engine.Tick
/-!
# The sink pass

Once all outputs of a tick are known, sink values are gathered at every point of delivery and handed
to the sink hook of the node, but only when they changed: a bundle of commands shrinks to the
commands that changed, and a visit that changes nothing delivers nothing. The watchdog sees every
delivery before the device does, and ends the pass when it trips.
-/

namespace CueFlow

/-- Take in the value of one more producer. The first value stands as it is; each further one is
appended to a list, which the second one starts unless the first was a list already. -/
def gatherValue (gathered : Option Value) (v : Value) : Value :=
  match gathered with
  | none => v
  | some (.list items) => .list (items ++ [v])
  | some first => .list [first, v]

/-- The values of the producers of one point of delivery, in the order of their connections. -/
def SinkRoute.produced (r : SinkRoute) (g : Graph) : List Value :=
  r.sources.filterMap fun source ↦
    (g.nodes[source.1]?).bind fun n ↦ n.outputValues.get? source.2

/-- What one point of delivery gathers; nothing if no producer has a value. -/
def SinkRoute.gather? (r : SinkRoute) (g : Graph) : Option Value :=
  (r.produced g).foldl (fun acc v ↦ some (gatherValue acc v)) none

/-- What all points of delivery of a node gather. -/
def PlanStep.gather (s : PlanStep) (g : Graph) : ValueMap :=
  s.sinkRoutes.foldl
    (fun values route ↦
      match route.gather? g with
      | some v => values.insert route.port v
      | none => values) []

/-- What changed on a port between two visits; nothing if nothing did. A bundle is cut down to the
commands that changed, any other value counts as a whole. -/
inductive PortChange where
  | unchanged (left : Value)
  | changed (delivered : Value)

def PortChange.value : PortChange → Value
  | unchanged v | changed v => v

def PortChange.isChanged : PortChange → Bool
  | changed _ => true
  | unchanged _ => false

/-- Compare a port with the visit before. -/
def portChange (previous : Option Value) (next : Value) : PortChange :=
  match previous with
  | none => .changed next
  | some before =>
    match changedCommands? before next with
    | some [] => .unchanged (.list [])
    | some commands => .changed (.list commands)
    | none => if before == next then .unchanged next else .changed next

/-- What has to be delivered when only sink values changed: every port with what changed on it, or
nothing if nothing did. A port that has lost its value is a change as well. -/
def sinkDelta? (previous next : ValueMap) : Option ValueMap :=
  let changes := next.map fun entry ↦ (entry.1, portChange (previous.get? entry.1) entry.2)
  if changes.any (fun change ↦ change.2.isChanged) ||
      previous.any (fun entry ↦ !next.contains entry.1) then
    some (changes.map fun change ↦ (change.1, change.2.value))
  else none

/-- Whether two visits found the same compute inputs and the same config. -/
def SinkSnapshot.sameSetting (before current : SinkSnapshot) : Bool :=
  before.computeInputs == current.computeInputs && before.config == current.config

/-- What a visit delivers, given the visit before. Changed inputs or config call for everything;
else only what changed on the points of delivery is delivered. -/
def delivery? (previous : Option SinkSnapshot) (current : SinkSnapshot) : Option ValueMap :=
  match previous with
  | none => some current.sinkValues
  | some before =>
    if before.sameSetting current then
      if before.sinkValues == current.sinkValues then none
      else sinkDelta? before.sinkValues current.sinkValues
    else some current.sinkValues

/-- The compute inputs of a sink node as the compute pass last resolved them. -/
def visitInputs (d : NodeDefinition) (n : Node) (memory : NodeMemory) : ValueMap :=
  KeyMap.ofEntries (d.computeInputs.map fun p ↦
    (p.id, ((((memory.lastInputs.getD []).get? p.id).or (n.inputValues.get? p.id)).getD p.default)))

/-- What the sink hook is given: the compute inputs, and at every point of delivery what is
delivered there, or the declared default. -/
def sinkInputsFor (d : NodeDefinition) (computeInputs delivered : ValueMap) : ValueMap :=
  computeInputs.overlay (d.sinkInputs.map fun p ↦ (p.id, (delivered.get? p.id).getD p.default))

namespace Tick

variable (t : Tick)

/-- Visit a sink node that nothing is connected to: clean up if something was. -/
def visitUnplugged (s : PlanStep) (n : Node) : Tick :=
  let memory := t.engine.memoryOf s.node
  if memory.sinkConnected then
    (t.fireDisable s.definition (cleanupInputs s.definition n memory) (t.engine.effectiveConfig n)
      s.node).mapEngine fun e ↦
        e.remember s.node fun m ↦ { m with sinkConnected := false, sinkSnapshot := none }
  else t

/-- Let the watchdog see a delivery before the device does. -/
def guardDelivery (s : PlanStep) (current : SinkSnapshot) (delivered : ValueMap) :
    Tick × Option HaltReport :=
  let (w, report) := t.engine.watchdog.review s.node delivered current.sinkValues t.nowMs
  (t.mapEngine fun e ↦ { e with watchdog := w }, report)

/-- Hand a delivery to the sink hook, if the definition has one. -/
def deliver (s : PlanStep) (current : SinkSnapshot) (delivered : ValueMap) : Tick :=
  match s.definition.sink with
  | none => t
  | some hook =>
    let inputs := sinkInputsFor s.definition current.computeInputs delivered
    let t' := (t.called ⟨.sink, inputs, current.config, t.context s.node⟩).mapInfo fun i ↦
      { i with sinkCalls := i.sinkCalls + 1 }
    if succeeded (hook inputs current.config (t.context s.node)) then t' else t'.failed

/-- Remember a visit. -/
def keepVisit (s : PlanStep) (current : SinkSnapshot) : Tick :=
  t.mapEngine fun e ↦ e.remember s.node fun m ↦ { m with sinkSnapshot := some current }

/-- Note that something is connected to a sink node. -/
def connect (s : PlanStep) : Tick :=
  t.mapEngine fun e ↦ e.remember s.node fun m ↦ { m with sinkConnected := true }

/-- What a visit of a sink node finds. -/
def sight (s : PlanStep) (n : Node) : SinkSnapshot :=
  ⟨visitInputs s.definition n (t.engine.memoryOf s.node), s.gather t.engine.graph,
    t.engine.effectiveConfig n⟩

/-- Visit a connected sink node. -/
def visit (s : PlanStep) (n : Node) : Tick × Option HaltReport :=
  let t := t.connect s
  let current := t.sight s n
  match delivery? (t.engine.memoryOf s.node).sinkSnapshot current with
  | none => (t.keepVisit s current, none)
  | some delivered =>
    match t.guardDelivery s current delivered with
    | (guarded, some report) => (guarded, some report)
    | (guarded, none) => ((guarded.deliver s current delivered).keepVisit s current, none)

/-- Ask the gates whether a sink node takes part in the sink pass, in their order, up to the first
that refuses. -/
def sinkAllowed (s : PlanStep) : Bool × Tick :=
  if t.engine.policy.node s.node then
    (t.computeAllowed s.node && t.engine.policy.sink s.node, t.noteAsked s.node)
  else (false, t)

/-- One step of the sink pass; a report ends the pass. -/
def sinkStep (s : PlanStep) : Tick × Option HaltReport :=
  if s.definition.hasSinkInputs then
    let (allowed, t) := t.sinkAllowed s
    if allowed then
      match t.engine.graph.nodes[s.index]? with
      | none => (t, none)
      | some n =>
        if s.sinkConnectionCount = 0 then (t.visitUnplugged s n, none) else t.visit s n
    else (t, none)
  else (t, none)

/-- The sink pass, up to the first report. -/
def sinkPass (t : Tick) : List PlanStep → Tick × Option HaltReport
  | [] => (t, none)
  | s :: rest =>
    match t.sinkStep s with
    | (t', some report) => (t', some report)
    | (t', none) => t'.sinkPass rest

end Tick

end CueFlow
