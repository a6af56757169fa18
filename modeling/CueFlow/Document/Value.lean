import CueFlow.Json.Decode
import CueFlow.Json.Printer
import CueFlow.Json.Reader
import CueFlow.Value
/-!
# Values in documents

Every JSON document is a value, provided that its numbers are in range and its strings spell texts.
Of several members with one key the last counts. On the way back, what is not a finite number is
written as null.
-/

namespace CueFlow

mutual

/-- The value that a document stands for. -/
def Value.decode (depth : Nat) : Json → Option Value
  | .null => some .null
  | .bool flag => some (.bool flag)
  | .number n => n.toFloat?.map .number
  | .string s => s.map .text
  | .array items =>
    match depth with
    | 0 => none
    | depth + 1 => (Value.decodeItems depth items).map .list
  | .object members =>
    match depth with
    | 0 => none
    | depth + 1 => (Value.decodeMembers depth members).map fun es ↦ .map (KeyMap.ofEntries es)
termination_by structural j => j

/-- The values of the items of an array. -/
def Value.decodeItems (depth : Nat) : List Json → Option (List Value)
  | [] => some []
  | item :: rest =>
    match Value.decode depth item, Value.decodeItems depth rest with
    | some v, some vs => some (v :: vs)
    | _, _ => none
termination_by structural items => items

/-- The entries that the members of an object stand for, in the order of the document. -/
def Value.decodeMembers (depth : Nat) : List (Option String × Json) → Option (List (String × Value))
  | [] => some []
  | m :: rest =>
    match m.1, Value.decode depth m.2, Value.decodeMembers depth rest with
    | some key, some v, some es => some ((key, v) :: es)
    | _, _, _ => none
termination_by structural members => members

end

/-- The entries of a map of values. -/
def ValueMap.decode : Json.Decoder ValueMap := fun depth j ↦
  match depth, j with
  | depth + 1, .object members => (Value.decodeMembers depth members).map KeyMap.ofEntries
  | _, _ => none

/-- A number as a document: null if it is not finite. -/
def Json.float (x : Float) : Json :=
  if x.isNaN || x.isInf then .null else .number (Numeral.ofFloat x)

mutual

/-- A value as a document. -/
def Value.toJson : Value → Json
  | .null => .null
  | .bool flag => .bool flag
  | .number x => .float x
  | .text s => .text s
  | .list items => .array (Value.itemsToJson items)
  | .map entries => .object (Value.entriesToJson entries)
termination_by structural v => v

/-- The items of a list as documents. -/
def Value.itemsToJson : List Value → List Json
  | [] => []
  | item :: rest => Value.toJson item :: Value.itemsToJson rest
termination_by structural items => items

/-- The entries of a map as members of an object. -/
def Value.entriesToJson : List (String × Value) → List (Option String × Json)
  | [] => []
  | entry :: rest => (some entry.1, Value.toJson entry.2) :: Value.entriesToJson rest
termination_by structural entries => entries

end

/-- A map of values as a document. -/
def ValueMap.toJson (m : ValueMap) : Json := .object (Value.entriesToJson m)

/-- The value that a text stands for. -/
def Value.ofText? (s : String) : Option Value :=
  (Json.parse? s).bind (Value.decode Json.depthLimit)

/-- The compact text of a value. -/
def Value.toText (v : Value) : String := v.toJson.compact

end CueFlow
