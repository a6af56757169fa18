import CueFlow.Graph
/-!
# Edits of a graph

An edit is checked against the graph and then carried out; a refused edit changes nothing. Edits of
the topology change which nodes and connections there are, and so make a compiled plan obsolete;
edits of the content do not.
-/

namespace CueFlow

/-- One change of a graph. -/
inductive GraphEdit where
  | addNode (node : Node)
  | removeNode (node : NodeId)
  | addConnection (connection : Connection)
  | removeConnection (connection : ConnectionId)
  | setConfig (node : NodeId) (key : String) (value : Value)
  | setInputValue (node : NodeId) (port : String) (value : Value)

namespace GraphEdit

/-- Whether an edit changes nodes or connections. -/
def isTopology : GraphEdit → Bool
  | addNode _ | removeNode _ | addConnection _ | removeConnection _ => true
  | setConfig .. | setInputValue .. => false

/-- The node that an edit removes. -/
def removedNode? : GraphEdit → Option NodeId
  | removeNode id => some id
  | _ => none

end GraphEdit

namespace Graph

variable (g : Graph)

/-- Put a node after all others. -/
def appendNode (n : Node) : Graph := { g with nodes := g.nodes ++ [n] }

/-- Put a connection after all others. -/
def appendConnection (c : Connection) : Graph := { g with connections := g.connections ++ [c] }

def addNode (n : Node) : Except EngineError Graph := do
  g.checkNode n
  return (g.appendNode n).touchTopology

/-- Remove a node together with every connection that touches it. -/
def removeNode (id : NodeId) : Except EngineError (Node × Graph) :=
  match g.node? id with
  | none => .error (.unknownNode id)
  | some n => .ok (n, touchTopology { g with
      nodes := g.nodes.filter fun other ↦ other.id != id
      connections := g.connections.filter fun c ↦ !c.touches id })

def addConnection (c : Connection) : Except EngineError Graph := do
  g.checkConnection c
  return (g.appendConnection c).touchTopology

def removeConnection (id : ConnectionId) : Except EngineError (Connection × Graph) :=
  match g.connection? id with
  | none => .error (.noSuchConnection id)
  | some c => .ok (c, touchTopology { g with
      connections := g.connections.filter fun other ↦ other.id != id })

/-- Set one config entry of a node. Any key will do. -/
def setConfig (id : NodeId) (key : String) (value : Value) : Except EngineError Graph :=
  match g.node? id with
  | none => .error (.unknownNode id)
  | some _ =>
    .ok (g.modifyNode id fun n ↦ { n with config := n.config.insert key value }).touchContent

/-- Set the stored value of a declared input. -/
def setInputValue (id : NodeId) (port : String) (value : Value) : Except EngineError Graph :=
  match g.definitionOf? id with
  | none => .error (.unknownNode id)
  | some d =>
    if (d.input? port).isNone then .error (.unknownPort id port .input)
    else .ok (g.modifyNode id fun n ↦
      { n with inputValues := n.inputValues.insert port value }).touchContent

/-- Carry out an edit. -/
def apply (edit : GraphEdit) : Except EngineError Graph :=
  match edit with
  | .addNode n => g.addNode n
  | .removeNode id => (g.removeNode id).map Prod.snd
  | .addConnection c => g.addConnection c
  | .removeConnection id => (g.removeConnection id).map Prod.snd
  | .setConfig id key value => g.setConfig id key value
  | .setInputValue id port value => g.setInputValue id port value

end Graph

end CueFlow
