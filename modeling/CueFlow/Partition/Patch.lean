import CueFlow.Digraph.Schedule
import CueFlow.Partition.AssetRef
import CueFlow.Partition.LocalLoop
/-!
# Patches

A patch is the part of a graph that one or more output nodes depend on, exported to run on a device
as a whole. It is found by walking backwards from the outputs along connections. Inputs that carry
routing are not followed, and neither are nodes that stay with the manager; whatever else the walk
meets must be able to run on a device, and must not form a cycle.
-/

namespace CueFlow

/-- An exported patch. -/
structure PatchExport where
  id : String
  roots : List NodeId
  graph : GraphState
  /-- References to assets, in the order of their first appearance. -/
  assetRefs : List String

/-- The outputs that a patch can be rooted at, in the order of the graph. -/
def patchRoots (s : GraphState) (policy : PartitionPolicy) : List NodeId :=
  (s.nodes.filter fun n ↦ policy.rootTypes.contains n.type).map Node.id

/-- Whether a connection leads into an input that carries routing. -/
def isRoutingInput (catalog : Catalog) (target : Node) (c : Connection) : Bool :=
  ((catalog.get? target.type).bind fun d ↦ d.input? c.targetPort).any fun p ↦ p.type.isRouting

/-- The connections into the node at a place that the walk follows, with the places of their
sources. -/
def followed (s : GraphState) (catalog : Catalog) (policy : PartitionPolicy) (target : Nat) :
    List (Connection × Nat) :=
  match s.nodes[target]? with
  | none => []
  | some n =>
    (s.connections.filter fun c ↦ c.target == n.id && !isRoutingInput catalog n c).filterMap fun c ↦
      match s.lastIndexOf? c.source with
      | none => none
      | some source =>
        if (s.nodes[source]?).any fun m ↦ policy.managerOnlyTypes.contains m.type then none
        else some (c, source)

/-- A walk backwards: the places met so far in the order of meeting, those among them that are still
to be visited, and the connections followed so far. -/
structure PatchWalk where
  members : List Nat := []
  queue : List Nat := []
  connections : List Connection := []

namespace PatchWalk

/-- Meet a node, which is to be visited if it is new. -/
def meet (w : PatchWalk) (i : Nat) : PatchWalk :=
  if w.members.contains i then w
  else { w with members := w.members ++ [i], queue := w.queue ++ [i] }

/-- Follow a connection back to its source. -/
def follow (w : PatchWalk) (edge : Connection × Nat) : PatchWalk :=
  { w with connections := w.connections ++ [edge.1] }.meet edge.2

/-- Visit nodes in the order of meeting as long as there are any, at most `fuel` of them. -/
def run (incoming : Nat → List (Connection × Nat)) (fuel : Nat) (w : PatchWalk) : PatchWalk :=
  match fuel, w.queue with
  | 0, _ => w
  | _, [] => w
  | fuel + 1, v :: queue => run incoming fuel ((incoming v).foldl follow { w with queue })

end PatchWalk

/-- The place of a root, which must exist and be an output. -/
def rootIndex (s : GraphState) (policy : PartitionPolicy) (root : NodeId) :
    Except PartitionError Nat :=
  match s.lastIndexOf? root with
  | none => .error (.unknownNode root)
  | some i =>
    if (s.nodes[i]?).any fun n ↦ policy.rootTypes.contains n.type then .ok i
    else .error (.notARoot root)

/-- The references in the config and the stored inputs of these nodes, each once, in the order of
their first appearance. -/
def assetRefsOf (nodes : List Node) : List String :=
  (nodes.flatMap fun n ↦
    (n.config.values ++ n.inputValues.values).flatMap fun v ↦
      v.texts.flatMap AssetRef.all).eraseDups

/-- The followed connections as a digraph over the members, in the order of meeting. -/
def patchLinks (members : List NodeId) (connections : List Connection) : Digraph where
  size := members.length
  edges := connections.filterMap fun c ↦
    match members.idxOf? c.source, members.idxOf? c.target with
    | some source, some target => some (source, target)
    | _, _ => none

/-- What the id of a patch is derived from: its members, and its roots if there is more than one. -/
def patchIdentity (members roots : List NodeId) : List String :=
  let distinctRoots := distinctTexts roots
  if distinctRoots.length > 1 then sortTexts members ++ "#roots" :: distinctRoots
  else sortTexts members

/-- Export the patch rooted at these outputs. -/
def exportPatch (s : GraphState) (catalog : Catalog) (roots : List NodeId)
    (policy : PartitionPolicy) : Except PartitionError PatchExport := do
  if roots.isEmpty then throw .noRoots
  let starts ← roots.mapM (rootIndex s policy)
  let walk := PatchWalk.run (followed s catalog policy) s.nodes.length
    (starts.foldl PatchWalk.meet {})
  let nodes := walk.members.filterMap fun i ↦ s.nodes[i]?
  match nodes.find? fun n ↦ !policy.deployableTypes.contains n.type with
  | some n => throw (policy.notDeployable n)
  | none => pure ()
  let members := nodes.map Node.id
  let stuck := (patchLinks members walk.connections).unscheduled
  if !stuck.isEmpty then throw (.cyclic (stuck.filterMap fun i ↦ members[i]?))
  let kept := walk.connections.map Connection.id
  return {
    id := "patch:" ++ shortHash (patchIdentity members roots)
    roots
    graph := {
      version := s.version
      nodes := nodes.map Node.withoutOutputs
      connections := s.connections.filter fun c ↦ kept.contains c.id }
    assetRefs := assetRefsOf nodes }

end CueFlow
