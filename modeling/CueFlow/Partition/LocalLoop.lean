import CueFlow.Digraph.Component
import CueFlow.Graph
import CueFlow.Partition.Identity
import CueFlow.Partition.Policy
/-!
# Local loops

A local loop is a group of nodes that reach each other and that bind exactly one device to at least
one of its sensors: it can run on that device without a round trip through the manager. Every
connection counts, those into points of delivery included, for a loop has to close through the
device, where the order of computation does not look.
-/

namespace CueFlow

/-- A loop from sensors to actuators that can run on one device. -/
structure LocalLoop where
  id : String
  device : NodeId
  /-- The members in the order of their ids. -/
  nodes : List NodeId
  /-- The capabilities that the device must offer, in order and each once. -/
  capabilities : List String
deriving DecidableEq

namespace GraphState

variable (s : GraphState)

/-- The place of a node; should an id repeat, the last node of that id counts. -/
def lastIndexOf? (id : NodeId) : Option Nat :=
  (s.nodes.reverse.findIdx? fun n ↦ n.id == id).map fun i ↦ s.nodes.length - 1 - i

/-- The places of both ends of a connection. -/
def endpoints? (c : Connection) : Option (Nat × Nat) :=
  match s.lastIndexOf? c.source, s.lastIndexOf? c.target with
  | some source, some target => some (source, target)
  | _, _ => none

/-- All connections as a digraph, but for those that dangle. -/
def links : Digraph := ⟨s.nodes.length, s.connections.filterMap s.endpoints?⟩

end GraphState

/-- The local loop that a group of nodes forms, if it does. -/
def LocalLoop.ofMembers? (policy : PartitionPolicy) (members : List Node) : Option LocalLoop :=
  match members.filter fun n ↦ n.type == policy.deviceType with
  | [device] =>
    if members.any fun n ↦ n.type == policy.sensorType then
      let nodes := sortTexts (members.map Node.id)
      some
        { id := "loop:" ++ device.id ++ ":" ++ shortHash nodes
          device := device.id
          nodes
          capabilities :=
            distinctTexts (members.filterMap fun n ↦ policy.capabilities.get? n.type) }
    else none
  | _ => none

/-- Whether a group of mutually reachable nodes is a true cycle: more than one node, or one with a
connection to itself. -/
def Digraph.isCyclicGroup (g : Digraph) : List Nat → Bool
  | [v] => g.edges.contains (v, v)
  | group => group.length > 1

/-- Every local loop of a snapshot, in the order of ids. -/
def detectLocalLoops (s : GraphState) (policy : PartitionPolicy) : List LocalLoop :=
  let links := s.links
  let loops := (links.components.filter links.isCyclicGroup).filterMap fun group ↦
    LocalLoop.ofMembers? policy (group.filterMap fun i ↦ s.nodes[i]?)
  loops.mergeSort fun a b ↦ decide (a.id ≤ b.id)

/-- The member of a loop as it is exported: without outputs, which belong to the manager's run. -/
def exportMember (s : GraphState) (policy : PartitionPolicy) (id : NodeId) :
    Except PartitionError Node :=
  match s.nodes.find? fun n ↦ n.id == id with
  | none => .error (.unknownNode id)
  | some n =>
    if policy.loopTypes.contains n.type then .ok n.withoutOutputs
    else .error (policy.notDeployable n)

/-- A loop as a graph of its own: its members with the connections among them. -/
def exportLoop (s : GraphState) (loop : LocalLoop) (policy : PartitionPolicy) :
    Except PartitionError GraphState := do
  let nodes ← loop.nodes.mapM (exportMember s policy)
  return {
    version := s.version
    nodes
    connections := s.connections.filter fun c ↦
      loop.nodes.contains c.source && loop.nodes.contains c.target }

end CueFlow
