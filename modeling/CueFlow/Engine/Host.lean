import CueFlow.Node
import CueFlow.Watchdog
/-!
# What the host supplies and what it is told

The engine never decides by itself whether a node is enabled: it asks the host's policy on every
tick. In the other direction the host is told of every hook that is called, of every completed tick
and of every halt, as a list of events in the order in which they happen.
-/

namespace CueFlow

/-- The gates of the host. A gate may refuse a node as a whole, which is a transition that cleans
up; or only its computation and delivery; or only its delivery. The compute gate may change its mind
from one question to the next: it is also told how often it has been asked about the node since the
policy was installed. -/
structure HostPolicy where
  node : NodeId → Bool := fun _ ↦ true
  compute : NodeId → Nat → Bool := fun _ _ ↦ true
  sink : NodeId → Bool := fun _ ↦ true

/-- The policy that allows everything. -/
def HostPolicy.allEnabled : HostPolicy := {}

/-- The hooks of a node definition. -/
inductive HookKind where
  | process
  | sink
  | disable
deriving DecidableEq, Repr

/-- A hook that was called, with what it was given. -/
structure HookCall where
  hook : HookKind
  inputs : ValueMap
  config : ValueMap
  context : HookContext

/-- The summary of a completed tick. -/
structure TickInfo where
  /-- Ticks completed since the last start, this one not counted. -/
  tick : Nat
  timeMs : Float
  /-- Nodes whose `process` succeeded. -/
  computed : Nat := 0
  /-- Calls of the sink hook. -/
  sinkCalls : Nat := 0
  /-- Hooks that failed. -/
  failures : Nat := 0

/-- What the host is told. -/
inductive Event where
  | called (call : HookCall)
  | ticked (info : TickInfo)
  | halted (report : HaltReport)

end CueFlow
