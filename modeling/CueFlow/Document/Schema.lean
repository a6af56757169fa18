import CueFlow.Catalog
import CueFlow.Document.Value
/-!
# Port schemas in documents

The ports of a node type as an editor exchanges them. A port is a compute input unless it says
otherwise, and a default of null is not written.
-/

namespace CueFlow

/-- A default as a member of an object: none if it is null. -/
def defaultMember (v : Value) : List (String × Json) :=
  if v.isNull then [] else [("default", v.toJson)]

/-- The port that a document stands for. -/
def Port.decode : Json.Decoder Port := fun depth j ↦ do
  let f ← Json.asRecord ["id", "type", "kind", "default"] depth j
  let id ← f.required "id" Json.asText
  let type ← f.required "type" (Json.asChoice PortType.ofName?)
  let kind ← f.optional "kind" .compute (Json.asChoice PortKind.ofName?)
  let default ← f.optional "default" .null Value.decode
  return { id, type, kind, default }

/-- A port as a document. -/
def Port.toJson (p : Port) : Json :=
  .record ([("id", .text p.id), ("type", .text p.type.name), ("kind", .text p.kind.name)] ++
    defaultMember p.default)

/-- The config entry that a document declares. -/
def ConfigField.decode : Json.Decoder ConfigField := fun depth j ↦ do
  let f ← Json.asRecord ["key", "type", "default"] depth j
  let key ← f.required "key" Json.asText
  let type ← f.required "type" (Json.asChoice PortType.ofName?)
  let default ← f.optional "default" .null Value.decode
  return { key, type, default }

/-- A declared config entry as a document. -/
def ConfigField.toJson (c : ConfigField) : Json :=
  .record ([("key", .text c.key), ("type", .text c.type.name)] ++ defaultMember c.default)

/-- The schema that a document stands for. -/
def NodeSchema.decode : Json.Decoder NodeSchema := fun depth j ↦ do
  let f ← Json.asRecord ["type", "inputs", "outputs", "config"] depth j
  let type ← f.required "type" Json.asText
  let inputs ← f.optional "inputs" [] (Json.asList Port.decode)
  let outputs ← f.optional "outputs" [] (Json.asList Port.decode)
  let config ← f.optional "config" [] (Json.asList ConfigField.decode)
  return { type, inputs, outputs, config }

/-- Read an array of schemas from its text. -/
def NodeSchema.ofText? (text : String) : Option (List NodeSchema) :=
  (Json.parse? text).bind (Json.asList NodeSchema.decode Json.depthLimit)

end CueFlow
