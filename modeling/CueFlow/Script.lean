import CueFlow.Node
/-!
# Scripted node types

A scripted node computes its outputs by formulas over its inputs, its config and the tick, and its
hooks fail on demand. It stands in for real devices when a graph is rehearsed without them.
-/

namespace CueFlow

/-- A formula for one output. Evaluation may yield nothing, which leaves the output out. -/
inductive Formula where
  | const (v : Value)
  /-- A resolved input. -/
  | input (port : String)
  /-- An entry of the effective config. -/
  | config (key : String)
  /-- The element of a configured list that the tick points at, round and round. -/
  | sequence (key : String)
  | tick
  | timeMs
  | deltaMs
  /-- The id of the node. -/
  | node
  | sum (terms : List Formula)
  | product (factors : List Formula)
  | list (items : List Formula)
  | map (entries : List (String × Formula))
  | choose (condition yes no : Formula)

/-- The truth of a condition: `true`, or a number above one half. -/
def Value.holds : Value → Bool
  | .bool flag => flag
  | .number x => 0.5 < x
  | _ => false

/-- A value as an operand: what is not a number counts as zero. -/
def Value.operand (v : Option Value) : Float := (v.bind Value.asNumber?).getD 0.0

namespace Formula

variable (inputs config : ValueMap) (ctx : HookContext)

mutual

/-- The value of a formula in one tick of one node. -/
def eval : Formula → Option Value
  | const v => some v
  | input port => inputs.get? port
  | .config key => config.get? key
  | sequence key =>
    match (config.get? key).bind Value.asList? with
    | some items => items[ctx.tick % items.length]?
    | none => none
  | tick => some (.ofNat ctx.tick)
  | timeMs => some (.number ctx.timeMs)
  | deltaMs => some (.number ctx.deltaMs)
  | node => some (.text ctx.node)
  | sum terms => some (.number ((evalAll terms).foldl (fun acc v ↦ acc + Value.operand v) 0.0))
  | product factors =>
    some (.number ((evalAll factors).foldl (fun acc v ↦ acc * Value.operand v) 1.0))
  | list items => some (.list ((evalAll items).filterMap id))
  | map entries => some (.map (KeyMap.ofEntries (evalEntries entries)))
  | choose condition yes no =>
    if (eval condition).any Value.holds then eval yes else eval no
termination_by structural f => f

/-- The values of several formulas, in order. -/
def evalAll : List Formula → List (Option Value)
  | [] => []
  | f :: rest => eval f :: evalAll rest
termination_by structural fs => fs

/-- The named formulas that yield a value. -/
def evalEntries : List (String × Formula) → List (String × Value)
  | [] => []
  | entry :: rest =>
    match eval entry.2 with
    | some v => (entry.1, v) :: evalEntries rest
    | none => evalEntries rest
termination_by structural entries => entries

end

end Formula

/-- The failure that the config asks of a hook: its entry `fail` may map the name of the hook to the
message of an error, or to `true` for a breakdown. -/
def scriptedFailure? (config : ValueMap) (hook : String) : Option HookFailure :=
  match (config.get? "fail").bind (·.get? hook) with
  | some (.text message) => some (.refused message)
  | some (.bool true) => some .crashed
  | _ => none

/-- Run a hook unless the config asks it to fail. -/
def unlessFailing {α : Type} (config : ValueMap) (hook : String) (result : α) :
    Except HookFailure α :=
  match scriptedFailure? config hook with
  | some failure => .error failure
  | none => .ok result

/-- A scripted node type: its ports, its output formulas and which effects it has. -/
structure Script where
  schema : NodeSchema
  outputs : List (String × Formula) := []
  hasSink : Bool := false
  hasDisable : Bool := false

/-- The definition that follows a script. -/
def Script.definition (s : Script) : NodeDefinition where
  type := s.schema.type
  inputs := s.schema.inputs
  outputs := s.schema.outputs
  config := s.schema.config
  process := fun inputs config ctx ↦ unlessFailing config "process"
    (KeyMap.ofEntries (Formula.evalEntries inputs config ctx s.outputs))
  sink := if s.hasSink then some fun _ config _ ↦ unlessFailing config "sink" () else none
  disable := if s.hasDisable then some fun _ config _ ↦ unlessFailing config "disable" () else none

end CueFlow
