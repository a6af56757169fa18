import CueFlow.Config
import CueFlow.Node
/-!
# Refusals

Why loading, editing or compiling a graph is refused. Failures of single hooks are not among these:
they never reach the caller of a tick.
-/

namespace CueFlow

/-- The side of a node on which a port was looked for. -/
inductive Direction where
  | input
  | output
deriving DecidableEq, Repr

def Direction.name : Direction → String
  | input => "input"
  | output => "output"

/-- Why an operation on a graph or an engine is refused. -/
inductive EngineError where
  | unknownNodeType (node : NodeId) (type : String)
  | duplicateNode (node : NodeId)
  | unknownNode (node : NodeId)
  | unknownPort (node : NodeId) (port : String) (direction : Direction)
  | noSuchConnection (connection : ConnectionId)
  | duplicateConnection (connection : ConnectionId)
  | inputOccupied (node : NodeId) (port : String) (existing : ConnectionId)
  | portTypeMismatch (connection : ConnectionId) (source target : PortType)
  /-- The nodes that compute connections keep from being ordered. -/
  | cycle (nodes : List NodeId)
  | invalidConfig (error : ConfigError)
  /-- A document that is not of the expected form. -/
  | malformed
deriving DecidableEq

/-- The text of a refusal. -/
def EngineError.message : EngineError → String
  | unknownNodeType node type => "Unknown node type '" ++ type ++ "' for node " ++ node
  | duplicateNode node => "Duplicate node id " ++ node
  | unknownNode node => "Unknown node " ++ node
  | unknownPort node port direction =>
    "Node " ++ node ++ " has no " ++ direction.name ++ " port '" ++ port ++ "'"
  | noSuchConnection connection => "Invalid connection " ++ connection ++ ": no such connection"
  | duplicateConnection connection => "Duplicate connection id " ++ connection
  | inputOccupied node port existing =>
    "Input " ++ node ++ "." ++ port ++ " is already connected by " ++ existing
  | portTypeMismatch connection source target =>
    "Port type mismatch on " ++ connection ++ ": " ++ source.title ++ " cannot feed "
      ++ target.title
  | cycle nodes =>
    "Cycle detected among compute connections involving: " ++ ", ".intercalate nodes
  | invalidConfig error => "Invalid engine config: " ++ error.message
  | malformed => "Serialization error"

end CueFlow
