import CueFlow.Port
/-!
# Nodes and node definitions

A `Node` is an instance in a graph; a `NodeDefinition` is what all nodes of one type share. A
definition splits into the pure step `process` and two optional effects: delivering sink inputs, and
cleaning up when a node is disabled, unplugged or stopped.
-/

namespace CueFlow

/-- The id of a node, unique within its graph. -/
abbrev NodeId := String

/-- The id of a connection, unique within its graph. -/
abbrev ConnectionId := String

/-- A node instance. -/
structure Node where
  id : NodeId
  type : String
  config : ValueMap := []
  /-- Values set by hand or resolved last, for inputs that nothing is connected to. -/
  inputValues : ValueMap := []
  /-- Outputs of the most recent compute pass. -/
  outputValues : ValueMap := []
deriving BEq

/-- The same node without outputs. -/
def Node.withoutOutputs (n : Node) : Node := { n with outputValues := [] }

/-- What a hook knows about the tick it runs in. -/
structure HookContext where
  node : NodeId
  /-- Ticks completed since the last start. -/
  tick : Nat
  /-- Host time of the tick, in milliseconds. -/
  timeMs : Float
  /-- Time since the tick before, in milliseconds. -/
  deltaMs : Float
deriving Inhabited

/-- How a hook fails. The engine treats both ways alike. -/
inductive HookFailure where
  /-- The hook reported an error. -/
  | refused (message : String)
  /-- The hook broke down. -/
  | crashed
deriving DecidableEq

/-- A computation over resolved inputs and effective config. -/
abbrev Process := ValueMap → ValueMap → HookContext → Except HookFailure ValueMap

/-- An effect over gathered inputs and effective config. -/
abbrev Effect := ValueMap → ValueMap → HookContext → Except HookFailure Unit

/-- What the nodes of one type have in common. -/
structure NodeDefinition where
  type : String
  inputs : List Port := []
  outputs : List Port := []
  config : List ConfigField := []
  process : Process := fun _ _ _ ↦ .ok []
  /-- Delivery of gathered sink inputs, if the type has any. -/
  sink : Option Effect := none
  /-- Cleanup after a transition to disabled, an unplugging or a stop, if the type has any. -/
  disable : Option Effect := none

namespace NodeDefinition

variable (d : NodeDefinition)

/-- The input port with this id. -/
def input? (id : String) : Option Port := d.inputs.find? fun p ↦ p.id == id

/-- The output port with this id. -/
def output? (id : String) : Option Port := d.outputs.find? fun p ↦ p.id == id

/-- The inputs that take part in computation. -/
def computeInputs : List Port := d.inputs.filter fun p ↦ !p.isSink

/-- The inputs that are points of delivery. -/
def sinkInputs : List Port := d.inputs.filter Port.isSink

def hasSinkInputs : Bool := d.inputs.any Port.isSink

/-- The one pair of a compute input and an output of the same data type, through which a disabled
node passes its input on. Two such pairs are as good as none. -/
def bypassPair? : Option (Port × Port) :=
  let pairs := (d.computeInputs.filter fun p ↦ !p.type.isRouting).flatMap fun input ↦
    (d.outputs.filter fun out ↦ !out.isSink && out.type == input.type).map fun out ↦ (input, out)
  match pairs with
  | [pair] => some pair
  | _ => none

end NodeDefinition

/-- The ports of a node type, as exchanged with an editor. -/
structure NodeSchema where
  type : String
  inputs : List Port := []
  outputs : List Port := []
  config : List ConfigField := []
deriving BEq

/-- The inert definition with these ports: it yields no outputs and has no effects, which is enough
to load, compile and partition a graph. -/
def NodeSchema.inert (s : NodeSchema) : NodeDefinition where
  type := s.type
  inputs := s.inputs
  outputs := s.outputs
  config := s.config

end CueFlow
