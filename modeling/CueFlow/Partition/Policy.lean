import CueFlow.Node
/-!
# The vocabulary of a partition

Which node types are devices, sensors or outputs, and which may run on a device, is not for the
analyses to say: a `PartitionPolicy` says it, and a host with a catalog of its own brings its own.
-/

namespace CueFlow

/-- What the node types mean to the analyses. -/
structure PartitionPolicy where
  /-- The type of a device; a local loop holds exactly one. -/
  deviceType : String
  /-- The type of a device's sensors; a local loop holds at least one. -/
  sensorType : String
  /-- The capability that a device must offer for a node type. -/
  capabilities : KeyMap String
  /-- The types that may stand in an exported loop. -/
  loopTypes : List String
  /-- The types that may stand in an exported patch. -/
  deployableTypes : List String
  /-- The types that stay with the manager. -/
  managerOnlyTypes : List String
  /-- The types of outputs that a patch can be rooted at. -/
  rootTypes : List String

/-- The stock vocabulary. -/
def PartitionPolicy.standard : PartitionPolicy where
  deviceType := "client"
  sensorType := "client-sensors"
  capabilities := KeyMap.ofEntries
    [("client-sensors", "sensors"), ("flashlight", "flashlight"), ("screen-color", "screen"),
      ("audio-out", "sound"), ("synth", "sound"), ("image-out", "visual"), ("video-out", "visual"),
      ("scene-out", "visual"), ("effect-out", "visual")]
  loopTypes :=
    ["client", "client-sensors", "flashlight", "screen-color", "synth", "audio-out", "number",
      "boolean", "math", "logic", "compare", "switch", "remap", "smooth", "lfo", "color"]
  deployableTypes :=
    ["number", "boolean", "string", "color", "math", "logic", "compare", "switch", "remap",
      "smooth", "lfo", "synth", "audio-player", "audio-effect", "audio-out", "image-player",
      "image-out", "video-player", "video-out", "scene", "scene-out", "effect", "effect-out"]
  managerOnlyTypes := ["midi-input", "osc-input", "control-surface"]
  rootTypes := ["audio-out", "image-out", "video-out", "effect-out", "scene-out"]

/-- Why a part of a graph cannot be exported. -/
inductive PartitionError where
  | unknownNode (node : NodeId)
  /-- A node that cannot run on a device; `isDevice` if it is the device itself. -/
  | notDeployable (node : NodeId) (type : String) (isDevice : Bool)
  | noRoots
  | notARoot (node : NodeId)
  | cyclic (nodes : List NodeId)
deriving DecidableEq

/-- The text of a failure. -/
def PartitionError.message : PartitionError → String
  | unknownNode node => "Unknown node: " ++ node
  | notDeployable node type isDevice =>
    "Node " ++ node ++ " has type '" ++ type ++ "', which cannot run on a device" ++
      if isDevice then
        " (client nodes route commands on the manager; wire the patch output to a " ++
          "device instead of including the client node)"
      else ""
  | noRoots => "No output nodes to export from"
  | notARoot node => "Node " ++ node ++ " is not an output node"
  | cyclic nodes => "Patch contains a cycle involving: " ++ ", ".intercalate nodes

/-- The failure of a node whose type is outside an allow-list. -/
def PartitionPolicy.notDeployable (p : PartitionPolicy) (n : Node) : PartitionError :=
  .notDeployable n.id n.type (n.type == p.deviceType)

end CueFlow
