import CueFlow.Catalog
import CueFlow.Error
/-!
# Graphs of nodes and connections

A `GraphState` is a snapshot as it is stored and exchanged, and may hold anything. A `Graph` is
live: it belongs to a catalog, and it only changes through operations that check first and change
after, so that a refused operation leaves no trace. Nodes and connections keep the order in which
they were added.

The generation counts the changes to nodes and connections, which is how a compiled plan is known
to be out of date. The version counts every change and is part of the snapshot.
-/

namespace CueFlow

/-- A directed edge from an output port to an input port. -/
structure Connection where
  id : ConnectionId
  source : NodeId
  sourcePort : String
  target : NodeId
  targetPort : String
deriving DecidableEq, Inhabited

/-- Whether the connection starts or ends at a node. -/
def Connection.touches (c : Connection) (node : NodeId) : Bool :=
  c.source == node || c.target == node

/-- A snapshot of a graph. -/
structure GraphState where
  version : UInt64 := 0
  nodes : List Node := []
  connections : List Connection := []
deriving BEq, Inhabited

/-- A live graph. -/
structure Graph where
  catalog : Catalog
  nodes : List Node := []
  connections : List Connection := []
  /-- Counts the changes to nodes and connections. -/
  generation : Nat := 0
  /-- Counts every change; wraps around. -/
  version : UInt64 := 0

namespace Graph

variable (g : Graph)

/-- The graph without nodes. -/
def empty (catalog : Catalog) : Graph := { catalog }

/-- The node with this id. -/
def node? (id : NodeId) : Option Node := g.nodes.find? fun n ↦ n.id == id

/-- The place of a node in the order of insertion. -/
def indexOf? (id : NodeId) : Option Nat := g.nodes.findIdx? fun n ↦ n.id == id

/-- The connection with this id. -/
def connection? (id : ConnectionId) : Option Connection := g.connections.find? fun c ↦ c.id == id

/-- The definition of a node's type. -/
def definitionOf? (id : NodeId) : Option NodeDefinition :=
  (g.node? id).bind fun n ↦ g.catalog.get? n.type

/-- The declared input that a connection leads into. -/
def targetPort? (c : Connection) : Option Port :=
  (g.definitionOf? c.target).bind fun d ↦ d.input? c.targetPort

/-- Whether a connection leads into a point of delivery. -/
def isSinkConnection (c : Connection) : Bool := (g.targetPort? c).any Port.isSink

/-- The current state as a snapshot. -/
def snapshot : GraphState := ⟨g.version, g.nodes, g.connections⟩

/-- Change one node, found by its id. -/
def modifyNode (id : NodeId) (f : Node → Node) : Graph :=
  { g with nodes := g.nodes.map fun n ↦ if n.id == id then f n else n }

/-- Change one node, found by its place in the order of insertion. -/
def modifyAt (index : Nat) (f : Node → Node) : Graph := { g with nodes := g.nodes.modify index f }

/-- The same graph with no outputs on any node. -/
def clearOutputs : Graph := { g with nodes := g.nodes.map Node.withoutOutputs }

/-- Note a change of nodes or connections. -/
def touchTopology : Graph := { g with generation := g.generation + 1, version := g.version + 1 }

/-- Note a change of a node's content. -/
def touchContent : Graph := { g with version := g.version + 1 }

/-! ### Checks -/

/-- Whether a node may be added: its type is known and its id is new. -/
def checkNode (n : Node) : Except EngineError Unit :=
  if !g.catalog.contains n.type then .error (.unknownNodeType n.id n.type)
  else if (g.node? n.id).isSome then .error (.duplicateNode n.id)
  else .ok ()

/-- A compute input takes one connection; a point of delivery takes any number. -/
def checkVacant (c : Connection) (target : Port) : Except EngineError Unit :=
  if target.isSink then .ok ()
  else
    match g.connections.find? fun other ↦
        other.target == c.target && other.targetPort == c.targetPort with
    | some existing => .error (.inputOccupied c.target c.targetPort existing.id)
    | none => .ok ()

/-- Whether a connection may be added: its id is new, both ends exist, the types of its ports go
together, and its target is free. The first fault counts. -/
def checkConnection (c : Connection) : Except EngineError Unit :=
  if (g.connection? c.id).isSome then .error (.duplicateConnection c.id)
  else
    match g.definitionOf? c.source, g.definitionOf? c.target with
    | none, _ => .error (.unknownNode c.source)
    | some _, none => .error (.unknownNode c.target)
    | some source, some target =>
      match source.output? c.sourcePort, target.input? c.targetPort with
      | none, _ => .error (.unknownPort c.source c.sourcePort .output)
      | some _, none => .error (.unknownPort c.target c.targetPort .input)
      | some output, some input =>
        if !output.type.compatible input.type then
          .error (.portTypeMismatch c.id output.type input.type)
        else g.checkVacant c input

end Graph

end CueFlow
