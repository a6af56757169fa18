import CueFlow.Document.Value
import CueFlow.Graph
/-!
# Snapshots in documents

The stored form of a graph: version, nodes and connections, with field names in camel case. Nodes
may leave out their maps, and a snapshot any of its parts; connections are always complete.
-/

namespace CueFlow

/-- The fields of a node, in order. -/
def Node.fields : List String := ["id", "type", "config", "inputValues", "outputValues"]

/-- The node that a document stands for. -/
def Node.decode : Json.Decoder Node := fun depth j ↦ do
  let f ← Json.asRecord Node.fields depth j
  let id ← f.required "id" Json.asText
  let type ← f.required "type" Json.asText
  let config ← f.optional "config" [] ValueMap.decode
  let inputValues ← f.optional "inputValues" [] ValueMap.decode
  let outputValues ← f.optional "outputValues" [] ValueMap.decode
  return { id, type, config, inputValues, outputValues }

/-- A node as a document. -/
def Node.toJson (n : Node) : Json :=
  .record [("id", .text n.id), ("type", .text n.type), ("config", n.config.toJson),
    ("inputValues", n.inputValues.toJson), ("outputValues", n.outputValues.toJson)]

/-- The fields of a connection, in order. -/
def Connection.fields : List String :=
  ["id", "sourceNodeId", "sourcePortId", "targetNodeId", "targetPortId"]

/-- The connection that a document stands for. -/
def Connection.decode : Json.Decoder Connection := fun depth j ↦ do
  let f ← Json.asRecord Connection.fields depth j
  let id ← f.required "id" Json.asText
  let source ← f.required "sourceNodeId" Json.asText
  let sourcePort ← f.required "sourcePortId" Json.asText
  let target ← f.required "targetNodeId" Json.asText
  let targetPort ← f.required "targetPortId" Json.asText
  return { id, source, sourcePort, target, targetPort }

/-- A connection as a document. -/
def Connection.toJson (c : Connection) : Json :=
  .record [("id", .text c.id), ("sourceNodeId", .text c.source),
    ("sourcePortId", .text c.sourcePort), ("targetNodeId", .text c.target),
    ("targetPortId", .text c.targetPort)]

namespace GraphState

/-- The fields of a snapshot, in order. -/
def fields : List String := ["version", "nodes", "connections"]

/-- The snapshot that a document stands for. -/
def decode : Json.Decoder GraphState := fun depth j ↦ do
  let f ← Json.asRecord fields depth j
  let version ← f.optional "version" 0 Json.asNat
  let nodes ← f.optional "nodes" [] (Json.asList Node.decode)
  let connections ← f.optional "connections" [] (Json.asList Connection.decode)
  return { version := version.toUInt64, nodes, connections }

/-- A snapshot as a document. -/
def toJson (s : GraphState) : Json :=
  .record [("version", .nat s.version.toNat), ("nodes", .array (s.nodes.map Node.toJson)),
    ("connections", .array (s.connections.map Connection.toJson))]

/-- Read a snapshot from its text. -/
def ofText (text : String) : Except EngineError GraphState :=
  match (Json.parse? text).bind (decode Json.depthLimit) with
  | some s => .ok s
  | none => .error .malformed

/-- The indented text of a snapshot. -/
def toText (s : GraphState) : String := s.toJson.indented

end GraphState

end CueFlow
