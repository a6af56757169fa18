import CueFlow.Graph.Edit
import CueFlow.Plan
/-!
# What compiling looks at

The *skeleton* of a graph is the graph without the content of its nodes: no config, no stored
inputs, no outputs and no version. Compiling looks at nothing else (`compile_skeleton`), so whatever
keeps the skeleton keeps a compiled plan: running nodes (`skeleton_modifyAt`), changing their
content (`skeleton_modifyNode`) and clearing outputs (`skeleton_clearOutputs`).
-/

namespace CueFlow

/-- The node without its content. -/
def Node.bare (n : Node) : Node := { id := n.id, type := n.type }

@[simp] theorem Node.bare_id (n : Node) : n.bare.id = n.id := rfl

@[simp] theorem Node.bare_type (n : Node) : n.bare.type = n.type := rfl

namespace Graph

variable (g : Graph)

/-- The graph without the content of its nodes. -/
def skeleton : Graph := { g with nodes := g.nodes.map Node.bare, version := 0 }

@[simp] theorem skeleton_nodes : g.skeleton.nodes = g.nodes.map Node.bare := rfl

@[simp] theorem skeleton_catalog : g.skeleton.catalog = g.catalog := rfl

@[simp] theorem skeleton_connections : g.skeleton.connections = g.connections := rfl

@[simp] theorem skeleton_generation : g.skeleton.generation = g.generation := rfl

/-! ### The parts of a compilation -/

/-- The skeleton has the same nodes under the same ids, without their content. -/
@[simp] theorem skeleton_node? (id : NodeId) :
    g.skeleton.node? id = (g.node? id).map Node.bare := by
  rw [node?, skeleton_nodes, List.find?_map]
  rfl

/-- Nodes stand at the same places in the skeleton. -/
@[simp] theorem skeleton_indexOf? (id : NodeId) : g.skeleton.indexOf? id = g.indexOf? id := by
  rw [indexOf?, skeleton_nodes, List.findIdx?_map]
  rfl

/-- A node is of the same definition in the skeleton, since it keeps its type. -/
@[simp] theorem skeleton_definitionOf? (id : NodeId) :
    g.skeleton.definitionOf? id = g.definitionOf? id := by
  rw [definitionOf?, skeleton_node?, definitionOf?]
  cases g.node? id <;> rfl

/-- The ends of a connection are found at the same places in the skeleton. -/
@[simp] theorem skeleton_endpoints? (c : Connection) :
    g.skeleton.endpoints? c = g.endpoints? c := by
  simp only [endpoints?, skeleton_indexOf?]

/-- A connection leads to the same port in the skeleton. -/
@[simp] theorem skeleton_targetPort? (c : Connection) :
    g.skeleton.targetPort? c = g.targetPort? c := by
  simp only [targetPort?, skeleton_definitionOf?]

/-- Connections into inputs of either kind are those of the skeleton. -/
@[simp] theorem skeleton_connectionsInto (kind : PortKind) :
    g.skeleton.connectionsInto kind = g.connectionsInto kind := by
  simp only [connectionsInto, skeleton_endpoints?, skeleton_targetPort?, skeleton_connections]

/-- The digraph that is put in order is that of the skeleton. -/
@[simp] theorem skeleton_dependencies : g.skeleton.dependencies = g.dependencies := by
  have hends : g.skeleton.endpoints? = g.endpoints? := funext g.skeleton_endpoints?
  simp only [dependencies, skeleton_connectionsInto, hends, skeleton_nodes, List.length_map]

/-- The counts that a plan reports are those of the skeleton. -/
theorem skeleton_planStats : g.skeleton.planStats = g.planStats := by
  simp only [planStats, skeleton_connectionsInto, skeleton_nodes, List.length_map,
    List.countP_map, skeleton_catalog]
  rfl

/-- The points of delivery of a node have the same routes in the skeleton, one after the other. -/
theorem skeleton_sinkRoutes (d : NodeDefinition) (incoming : List Connection)
    (seen : List String) (ports : List Port) :
    g.skeleton.sinkRoutes d incoming seen ports = g.sinkRoutes d incoming seen ports := by
  have hsources : g.skeleton.sinkSources = g.sinkSources := by
    funext d incoming port
    simp only [sinkSources, skeleton_indexOf?]
  induction ports generalizing seen with
  | nil => rfl
  | cons p rest ih => rw [sinkRoutes, sinkRoutes, ih, hsources]

/-- The step of a node does not depend on the content of the node. -/
theorem skeleton_planStep (index : Nat) (n : Node) (d : NodeDefinition) :
    g.skeleton.planStep index n.bare d = g.planStep index n d := by
  have hroute : g.skeleton.computeRoute? d = g.computeRoute? d := by
    funext c
    simp only [computeRoute?, skeleton_indexOf?]
  simp only [planStep, hroute, skeleton_sinkRoutes, skeleton_connections, Node.bare_id]

/-- The steps of an order are those of the skeleton, with the same failure if there is one. -/
theorem skeleton_planSteps (order : List Nat) :
    g.skeleton.planSteps order = g.planSteps order := by
  have hplaces : (order.filterMap fun i ↦ (g.skeleton.nodes[i]?).map fun n ↦ (i, n)) =
      (order.filterMap fun i ↦ (g.nodes[i]?).map fun n ↦ (i, n)).map fun entry ↦
        (entry.1, entry.2.bare) := by
    rw [List.map_filterMap]
    refine congrArg (List.filterMap · order) (funext fun i ↦ ?_)
    rw [skeleton_nodes, List.getElem?_map]
    cases g.nodes[i]? <;> rfl
  rw [planSteps, hplaces, List.mapM_map, planSteps]
  refine congrArg (fun f ↦ List.mapM f _) (funext fun entry ↦ ?_)
  simp only [Function.comp_apply, skeleton_catalog, Node.bare_type, Node.bare_id,
    skeleton_planStep]

/-- **Compiling looks at the skeleton only.** -/
theorem compile_skeleton : g.skeleton.compile = g.compile := by
  have hids : ∀ i : Nat, (g.skeleton.nodes[i]?).map Node.id = (g.nodes[i]?).map Node.id := by
    intro i
    rw [skeleton_nodes, List.getElem?_map]
    cases g.nodes[i]? <;> rfl
  simp only [compile, skeleton_dependencies, skeleton_planSteps, skeleton_planStats,
    skeleton_generation, hids]

variable {g}

/-- Graphs with one skeleton have one plan. -/
theorem compile_congr {h : Graph} (hskel : h.skeleton = g.skeleton) : h.compile = g.compile := by
  rw [← compile_skeleton, hskel, compile_skeleton]

/-- Graphs with the same skeleton are of the same generation, so a plan is stale for both or for
neither. -/
theorem generation_congr {h : Graph} (hskel : h.skeleton = g.skeleton) :
    h.generation = g.generation := by
  rw [← skeleton_generation, hskel, skeleton_generation]

/-- Graphs with the same skeleton have the same definitions. -/
theorem catalog_congr {h : Graph} (hskel : h.skeleton = g.skeleton) : h.catalog = g.catalog := by
  rw [← skeleton_catalog, hskel, skeleton_catalog]

/-- Graphs with the same skeleton have nodes with the same ids, in the same order. -/
theorem ids_congr {h : Graph} (hskel : h.skeleton = g.skeleton) :
    h.nodes.map Node.id = g.nodes.map Node.id := by
  have hbare := congrArg (fun k : Graph ↦ k.nodes.map Node.id) hskel
  simpa only [skeleton_nodes, List.map_map, Function.comp_def, Node.bare_id] using hbare

/-- In graphs with the same skeleton a node is of the same definition. -/
theorem definitionOf?_congr {h : Graph} (hskel : h.skeleton = g.skeleton) (v : NodeId) :
    h.definitionOf? v = g.definitionOf? v := by
  rw [← skeleton_definitionOf?, hskel, skeleton_definitionOf?]

/-- In graphs with the same skeleton a place holds nodes with the same id. -/
theorem map_id_getElem?_congr {h : Graph} (hskel : h.skeleton = g.skeleton) (i : Nat) :
    (h.nodes[i]?).map Node.id = (g.nodes[i]?).map Node.id := by
  rw [← List.getElem?_map, ← List.getElem?_map, ids_congr hskel]

/-- Graphs with the same skeleton have the same connections. -/
theorem connections_congr {h : Graph} (hskel : h.skeleton = g.skeleton) :
    h.connections = g.connections := by
  rw [← skeleton_connections, hskel, skeleton_connections]

/-! ### What keeps the skeleton -/

/-- A change of the content of the node at a place keeps the skeleton. -/
theorem skeleton_modifyAt (index : Nat) {f : Node → Node} (hf : ∀ n, (f n).bare = n.bare) :
    (g.modifyAt index f).skeleton = g.skeleton := by
  have hmap : (g.nodes.modify index f).map Node.bare = g.nodes.map Node.bare := by
    refine List.ext_getElem? fun j ↦ ?_
    rw [List.getElem?_map, List.getElem?_modify, List.getElem?_map]
    by_cases hj : index = j
    · cases g.nodes[j]? <;> simp [hj, hf]
    · simp [hj]
  simp only [skeleton, modifyAt, hmap]

/-- A change of the content of the node with an id keeps the skeleton. -/
theorem skeleton_modifyNode (id : NodeId) {f : Node → Node} (hf : ∀ n, (f n).bare = n.bare) :
    (g.modifyNode id f).skeleton = g.skeleton := by
  have hbare : ∀ n : Node, (if n.id == id then f n else n).bare = n.bare := by
    intro n
    split
    · exact hf n
    · rfl
  simp only [skeleton, modifyNode, List.map_map, Function.comp_def, hbare]

/-- Clearing all outputs keeps the skeleton. -/
theorem skeleton_clearOutputs : g.clearOutputs.skeleton = g.skeleton := by
  simp only [skeleton, clearOutputs, List.map_map]
  rfl

/-- Counting up the version keeps the skeleton. -/
theorem skeleton_touchContent : g.touchContent.skeleton = g.skeleton := rfl

end Graph

end CueFlow
