import CueFlow.Document.GraphState
import CueFlow.Graph.Edit
/-!
# Edits in documents

An edit is an object that names its operation under `op` and carries the fields of that operation,
or an array of the operation followed by its fields.
-/

namespace CueFlow.GraphEdit

/-- An operation with its fields split off: the rest of the object, or the rest of the array. -/
def splitOperation : Json → Option (String × Json)
  | .object members =>
    match members.lookup (some "op") with
    | some (.string (some op)) => some (op, .object (members.filter fun m ↦ m.1 != some "op"))
    | _ => none
  | .array (.string (some op) :: rest) => some (op, .array rest)
  | _ => none

/-- Decode the fields of an operation. -/
def decodeFields (op : String) : Json.Decoder GraphEdit := fun depth j ↦
  match op with
  | "addNode" => do
    let f ← Json.asRecord ["node"] depth j
    return .addNode (← f.required "node" Node.decode)
  | "removeNode" => do
    let f ← Json.asRecord ["nodeId"] depth j
    return .removeNode (← f.required "nodeId" Json.asText)
  | "addConnection" => do
    let f ← Json.asRecord ["connection"] depth j
    return .addConnection (← f.required "connection" Connection.decode)
  | "removeConnection" => do
    let f ← Json.asRecord ["connectionId"] depth j
    return .removeConnection (← f.required "connectionId" Json.asText)
  | "setConfig" => do
    let f ← Json.asRecord ["nodeId", "key", "value"] depth j
    return .setConfig (← f.required "nodeId" Json.asText) (← f.required "key" Json.asText)
      (← f.required "value" Value.decode)
  | "setInputValue" => do
    let f ← Json.asRecord ["nodeId", "portId", "value"] depth j
    return .setInputValue (← f.required "nodeId" Json.asText) (← f.required "portId" Json.asText)
      (← f.required "value" Value.decode)
  | _ => none

/-- The edit that a document stands for. -/
def decode : Json.Decoder GraphEdit := fun depth j ↦
  (splitOperation j).bind fun split ↦ decodeFields split.1 depth split.2

/-- An edit as a document. -/
def toJson : GraphEdit → Json
  | addNode n => .record [("op", .text "addNode"), ("node", n.toJson)]
  | removeNode id => .record [("op", .text "removeNode"), ("nodeId", .text id)]
  | addConnection c => .record [("op", .text "addConnection"), ("connection", c.toJson)]
  | removeConnection id => .record [("op", .text "removeConnection"), ("connectionId", .text id)]
  | setConfig id key value =>
    .record [("op", .text "setConfig"), ("nodeId", .text id), ("key", .text key),
      ("value", value.toJson)]
  | setInputValue id port value =>
    .record [("op", .text "setInputValue"), ("nodeId", .text id), ("portId", .text port),
      ("value", value.toJson)]

end CueFlow.GraphEdit
