import CueFlow.Plan
import CueFlow.Graph.Load
import CueFlow.Proofs.Graph.Unique
import CueFlow.Proofs.Refusal
/-!
# Other hooks on the same nodes

What a graph takes up and how it is compiled depends on the types and the ports of its definitions,
and not on what their hooks do. A `Recasting` changes hooks and leaves the rest alone. Recasting a
graph commutes with whatever is done to it: with its checks (`recast_checkNode`,
`recast_checkConnection`), with edits (`apply_recast`), with loads (`load_recast`), and with
compiling, which gives the same plan with the new hooks in it (`compile_recast`).
-/

namespace CueFlow

/-- A change of hooks that leaves the type and the ports of a definition alone, and does not change
whether there are hooks for deliveries and for cleanups. -/
structure Recasting where
  toFun : NodeDefinition → NodeDefinition
  type_eq : ∀ d, (toFun d).type = d.type
  inputs_eq : ∀ d, (toFun d).inputs = d.inputs
  outputs_eq : ∀ d, (toFun d).outputs = d.outputs
  sink_isSome : ∀ d, (toFun d).sink.isSome = d.sink.isSome
  disable_isSome : ∀ d, (toFun d).disable.isSome = d.disable.isSome

instance : CoeFun Recasting fun _ ↦ NodeDefinition → NodeDefinition := ⟨Recasting.toFun⟩

/-- The catalog with other hooks. -/
def Catalog.recast (F : Recasting) (c : Catalog) : Catalog := ⟨c.definitions.map F⟩

/-- The graph over the catalog with other hooks. -/
def Graph.recast (F : Recasting) (g : Graph) : Graph := { g with catalog := g.catalog.recast F }

/-- The step with other hooks. -/
def PlanStep.recast (F : Recasting) (s : PlanStep) : PlanStep :=
  { s with definition := F s.definition }

/-- The plan with other hooks. -/
def Plan.recast (F : Recasting) (p : Plan) : Plan := { p with steps := p.steps.map (·.recast F) }

variable (F : Recasting)

/-! ### Definitions -/

namespace NodeDefinition

variable (d : NodeDefinition)

@[simp] theorem recast_input? (id : String) : (F d).input? id = d.input? id := by
  rw [input?, F.inputs_eq, input?]

@[simp] theorem recast_output? (id : String) : (F d).output? id = d.output? id := by
  rw [output?, F.outputs_eq, output?]

/-- Recasting does not turn compute inputs into points of delivery. -/
@[simp] theorem recast_computeInputs : (F d).computeInputs = d.computeInputs := by
  rw [computeInputs, F.inputs_eq, computeInputs]

@[simp] theorem recast_sinkInputs : (F d).sinkInputs = d.sinkInputs := by
  rw [sinkInputs, F.inputs_eq, sinkInputs]

/-- Recasting neither gives a definition points of delivery nor takes them away. -/
@[simp] theorem recast_hasSinkInputs : (F d).hasSinkInputs = d.hasSinkInputs := by
  rw [hasSinkInputs, F.inputs_eq, hasSinkInputs]

end NodeDefinition

/-- A type is known to the recast catalog exactly if it was known before, and stands for the recast
definition. -/
@[simp]
theorem Catalog.recast_get? (c : Catalog) (type : String) :
    (c.recast F).get? type = (c.get? type).map F := by
  rw [get?, recast, List.find?_map, get?]
  simp only [Function.comp_def, F.type_eq]

namespace Graph

variable (g : Graph)

@[simp] theorem recast_nodes : (g.recast F).nodes = g.nodes := rfl

@[simp] theorem recast_connections : (g.recast F).connections = g.connections := rfl

@[simp] theorem recast_node? (id : NodeId) : (g.recast F).node? id = g.node? id := rfl

@[simp] theorem recast_indexOf? (id : NodeId) : (g.recast F).indexOf? id = g.indexOf? id := rfl

@[simp] theorem recast_connection? (id : ConnectionId) :
    (g.recast F).connection? id = g.connection? id :=
  rfl

@[simp] theorem recast_catalog_get? (type : String) :
    (g.recast F).catalog.get? type = (g.catalog.get? type).map F :=
  Catalog.recast_get? F g.catalog type

/-- The definition of a node in the recast graph is the recast definition of the node. -/
@[simp] theorem recast_definitionOf? (id : NodeId) :
    (g.recast F).definitionOf? id = (g.definitionOf? id).map F := by
  simp only [definitionOf?, recast_node?, recast_catalog_get?, Option.map_bind]
  rfl

/-- A connection leads to the same port after recasting. -/
@[simp] theorem recast_targetPort? (c : Connection) :
    (g.recast F).targetPort? c = g.targetPort? c := by
  simp only [targetPort?, recast_definitionOf?, Option.bind_map, Function.comp_def,
    NodeDefinition.recast_input?]

/-! ### Checks and edits -/

/-- A node is admitted or refused as it was, with the same error. -/
@[simp] theorem recast_checkNode (n : Node) : (g.recast F).checkNode n = g.checkNode n := by
  simp only [checkNode, Catalog.contains, recast_catalog_get?, Option.isSome_map, recast_node?]
  rfl

/-- A connection is admitted or refused as it was, with the same error: its check looks at ports,
and at no hook. -/
theorem recast_checkConnection (c : Connection) :
    (g.recast F).checkConnection c = g.checkConnection c := by
  have hvacant : (g.recast F).checkVacant = g.checkVacant := rfl
  simp only [checkConnection, recast_connection?, recast_definitionOf?, hvacant]
  cases g.definitionOf? c.source with
  | none => rfl
  | some source =>
    cases g.definitionOf? c.target with
    | none => rfl
    | some target =>
      simp only [Option.map_some, NodeDefinition.recast_output?, NodeDefinition.recast_input?]

/-- **Edits do not depend on the hooks.** -/
theorem apply_recast (edit : GraphEdit) :
    (g.recast F).apply edit = (g.apply edit).map (recast F) := by
  cases edit with
  | addNode n =>
    rw [apply, apply, addNode, addNode, recast_checkNode]
    cases g.checkNode n <;> rfl
  | removeNode id =>
    rw [apply, apply, removeNode, removeNode, recast_node?]
    cases g.node? id <;> rfl
  | addConnection c =>
    rw [apply, apply, addConnection, addConnection, recast_checkConnection]
    cases g.checkConnection c <;> rfl
  | removeConnection id =>
    rw [apply, apply, removeConnection, removeConnection, recast_connection?]
    cases g.connection? id <;> rfl
  | setConfig id key value =>
    rw [apply, apply, setConfig, setConfig, recast_node?]
    cases g.node? id <;> rfl
  | setInputValue id port value =>
    rw [apply, apply, setInputValue, setInputValue, recast_definitionOf?]
    cases g.definitionOf? id with
    | none => rfl
    | some d =>
      simp only [Option.map_some, NodeDefinition.recast_input?]
      cases (d.input? port).isNone <;> rfl

end Graph

/-! ### Loads -/

/-- The load with other hooks. -/
def Loading.recast (l : Loading) : Loading := { l with graph := l.graph.recast F }

/-- Taking up a node in the course of a load commutes with recasting. -/
theorem Loading.takeNode_recast (l : Loading) (policy : LoadPolicy) (n : Node) :
    (l.recast F).takeNode policy n = (l.takeNode policy n).map (recast F) := by
  have hcheck : (l.recast F).graph.checkNode n = l.graph.checkNode n := l.graph.recast_checkNode F n
  unfold takeNode
  rw [hcheck]
  cases l.graph.checkNode n with
  | ok => rfl
  | error error => cases policy <;> rfl

/-- Taking up a connection in the course of a load commutes with recasting. -/
theorem Loading.takeConnection_recast (l : Loading) (policy : LoadPolicy) (c : Connection) :
    (l.recast F).takeConnection policy c = (l.takeConnection policy c).map (recast F) := by
  have hcheck : (l.recast F).graph.checkConnection c = l.graph.checkConnection c :=
    l.graph.recast_checkConnection F c
  unfold takeConnection
  rw [hcheck]
  cases l.graph.checkConnection c with
  | ok => rfl
  | error error => cases error <;> cases policy <;> rfl

/-- **Loads do not depend on the hooks.** -/
theorem Graph.load_recast (c : Catalog) (state : GraphState) (policy : LoadPolicy) :
    Graph.load (c.recast F) state policy =
      (Graph.load c state policy).map fun loaded ↦ (loaded.1.recast F, loaded.2) := by
  have hnodes : ∀ l : Loading,
      state.nodes.foldlM (fun (l : Loading) n ↦ l.takeNode policy n) (l.recast F) =
        (state.nodes.foldlM (fun (l : Loading) n ↦ l.takeNode policy n) l).map
          (Loading.recast F) := by
    intro l
    refine foldlM_map (fun l n ↦ ?_) l state.nodes
    exact l.takeNode_recast F policy n
  have hconnections : ∀ l : Loading,
      state.connections.foldlM (fun (l : Loading) c ↦ l.takeConnection policy c) (l.recast F) =
        (state.connections.foldlM (fun (l : Loading) c ↦ l.takeConnection policy c) l).map
          (Loading.recast F) := by
    intro l
    refine foldlM_map (fun l c ↦ ?_) l state.connections
    exact l.takeConnection_recast F policy c
  have hstart : (⟨{ Graph.empty (c.recast F) with version := state.version }, {}⟩ : Loading) =
      Loading.recast F ⟨{ Graph.empty c with version := state.version }, {}⟩ := rfl
  rw [load, load, hstart, hnodes]
  cases state.nodes.foldlM (fun (l : Loading) n ↦ l.takeNode policy n)
      (⟨{ Graph.empty c with version := state.version }, {}⟩ : Loading) with
  | error error => rfl
  | ok withNodes =>
    show (state.connections.foldlM (fun (l : Loading) c ↦ l.takeConnection policy c)
        (withNodes.recast F) >>= _) = Except.map _ (state.connections.foldlM
          (fun (l : Loading) c ↦ l.takeConnection policy c) withNodes >>= _)
    rw [hconnections]
    cases state.connections.foldlM (fun (l : Loading) c ↦ l.takeConnection policy c) withNodes
    · rfl
    · rfl

/-- A host can build the graph with other hooks if it can build the graph. -/
theorem Graph.Buildable.recast {g : Graph} (h : g.Buildable) : (g.recast F).Buildable := by
  induction h with
  | empty catalog => exact .empty (catalog.recast F)
  | @load catalog state policy g report hload =>
    have hrecast : Graph.load (catalog.recast F) state policy = .ok (g.recast F, report) := by
      rw [load_recast, hload]
      rfl
    exact .load hrecast
  | @edit g g' edit _ happly ih =>
    have hrecast : (g.recast F).apply edit = .ok (g'.recast F) := by
      rw [apply_recast, happly]
      rfl
    exact .edit ih hrecast
  | clearOutputs _ ih => exact .clearOutputs ih

/-! ### Plans -/

namespace Graph

variable (g : Graph)

/-- Connections into inputs of either kind stay what they were. -/
theorem recast_connectionsInto (kind : PortKind) :
    (g.recast F).connectionsInto kind = g.connectionsInto kind := by
  simp only [connectionsInto, recast_targetPort?]
  rfl

/-- Recasting keeps the digraph that is put in order. -/
theorem recast_dependencies : (g.recast F).dependencies = g.dependencies := by
  rw [dependencies, recast_connectionsInto]
  rfl

/-- Recasting keeps the counts that a plan reports. -/
theorem recast_planStats : (g.recast F).planStats = g.planStats := by
  simp only [planStats, recast_connectionsInto, recast_nodes, recast_catalog_get?, Option.any_map,
    NodeDefinition.recast_hasSinkInputs]

/-- The points of delivery of a node keep their routes. -/
theorem recast_sinkRoutes (d : NodeDefinition) (incoming : List Connection) (seen : List String)
    (ports : List Port) :
    (g.recast F).sinkRoutes (F d) incoming seen ports = g.sinkRoutes d incoming seen ports := by
  have hsources : (g.recast F).sinkSources (F d) = g.sinkSources d := by
    funext incoming port
    simp only [sinkSources, NodeDefinition.recast_input?, recast_indexOf?]
  induction ports generalizing seen with
  | nil => rfl
  | cons p rest ih => rw [sinkRoutes, sinkRoutes, ih, hsources]

/-- The step of a node in the recast graph is the step that it had, with other hooks. -/
theorem recast_planStep (index : Nat) (n : Node) (d : NodeDefinition) :
    (g.recast F).planStep index n (F d) = (g.planStep index n d).recast F := by
  have hroute : (g.recast F).computeRoute? (F d) = g.computeRoute? d := by
    funext c
    simp only [computeRoute?, NodeDefinition.recast_input?, recast_indexOf?]
  simp only [planStep, PlanStep.recast, hroute, NodeDefinition.recast_sinkInputs, recast_sinkRoutes,
    recast_connections]

/-- The steps of an order in the recast graph are those it had, with other hooks, and a failure to
make them stays the same. -/
theorem recast_planSteps (order : List Nat) : (g.recast F).planSteps order =
    (g.planSteps order).map fun steps ↦ steps.map (·.recast F) := by
  refine mapM_map (fun entry ↦ ?_) _
  rw [recast_catalog_get?]
  cases g.catalog.get? entry.2.type with
  | none => rfl
  | some d => exact congrArg Except.ok (g.recast_planStep F entry.1 entry.2 d)

/-- **Compiling does not depend on the hooks**, which are only taken over. -/
theorem compile_recast : (g.recast F).compile = g.compile.map (Plan.recast F) := by
  rw [compile, compile, recast_dependencies, recast_planStats]
  cases g.dependencies.unscheduled with
  | nil =>
    simp only [recast_planSteps]
    cases g.planSteps g.dependencies.schedule <;> rfl
  | cons => rfl

end Graph

end CueFlow
