import CueFlow.Graph.Edit
/-!
# Loading a snapshot

Nodes and then connections are taken over one by one, each checked against what has been taken over
so far. Connections to a node or port that is not there are stale and always dropped. Anything else
that fails its check fails a strict load, and is left out of a lenient one.
-/

namespace CueFlow

/-- What a load left out. -/
structure LoadReport where
  skippedNodes : List NodeId := []
  droppedConnections : List ConnectionId := []
deriving DecidableEq, Inhabited

/-- Whether nothing was left out. -/
def LoadReport.isClean (r : LoadReport) : Bool :=
  r.skippedNodes.isEmpty && r.droppedConnections.isEmpty

/-- A load under way. -/
structure Loading where
  graph : Graph
  report : LoadReport := {}

namespace Loading

variable (l : Loading)

def skipNode (id : NodeId) : Loading :=
  { l with report := { l.report with skippedNodes := l.report.skippedNodes ++ [id] } }

def dropConnection (id : ConnectionId) : Loading :=
  { l with report := { l.report with droppedConnections := l.report.droppedConnections ++ [id] } }

/-- Take over one node. -/
def takeNode (policy : LoadPolicy) (n : Node) : Except EngineError Loading :=
  match l.graph.checkNode n, policy with
  | .ok (), _ => .ok { l with graph := l.graph.appendNode n }
  | .error e, .strict => .error e
  | .error _, .lenient => .ok (l.skipNode n.id)

/-- Take over one connection. -/
def takeConnection (policy : LoadPolicy) (c : Connection) : Except EngineError Loading :=
  match l.graph.checkConnection c, policy with
  | .ok (), _ => .ok { l with graph := l.graph.appendConnection c }
  | .error (.unknownNode _), _ | .error (.unknownPort ..), _ => .ok (l.dropConnection c.id)
  | .error e, .strict => .error e
  | .error _, .lenient => .ok (l.dropConnection c.id)

end Loading

/-- Build a graph from a snapshot, and report what was left out. -/
def Graph.load (catalog : Catalog) (state : GraphState) (policy : LoadPolicy) :
    Except EngineError (Graph × LoadReport) := do
  let start : Loading := ⟨{ Graph.empty catalog with version := state.version }, {}⟩
  let withNodes ← state.nodes.foldlM (fun l n ↦ l.takeNode policy n) start
  let loaded ← state.connections.foldlM (fun l c ↦ l.takeConnection policy c) withNodes
  return (loaded.graph, loaded.report)

end CueFlow
