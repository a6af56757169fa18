import CueFlow.Proofs.Graph.Reorder
import CueFlow.Proofs.KeyMap
/-!
# What a node is set to

The *setting* of a node is its config together with what each of its inputs falls back on: the
stored value, and where nothing is stored the declared default (`Graph.settingOf`). Whether a
default has been stored, or is only declared, makes no difference to a setting.

Two graphs resemble each other (`Graph.Resembles`) if they have the same nodes with the same
settings, the same connections and the same version. Edits cannot tell such graphs apart
(`Resembles.apply`).
-/

namespace CueFlow

/-- The declared defaults of the compute inputs. -/
def NodeDefinition.defaults (d : NodeDefinition) : ValueMap :=
  KeyMap.ofEntries (d.computeInputs.map fun p ↦ (p.id, p.default))

/-- What a node is set to. -/
structure NodeSetting where
  config : ValueMap
  /-- What an input falls back on. -/
  resting? : String → Option Value

namespace Graph

/-- What an input of a node falls back on: the stored value, else the declared default. -/
def restingInput? (g : Graph) (n : Node) (port : String) : Option Value :=
  (n.inputValues.get? port).or ((g.catalog.get? n.type).bind fun d ↦ d.defaults.get? port)

/-- What a node is set to. -/
def settingOf (g : Graph) (n : Node) : NodeSetting := ⟨n.config, g.restingInput? n⟩

/-- The setting of the node with this id. -/
def setting? (g : Graph) (v : NodeId) : Option NodeSetting := (g.node? v).map g.settingOf

/-- The graphs have the same nodes with the same settings, the same connections and the same
version. -/
structure Resembles (h g : Graph) : Prop where
  skeleton : h.skeleton = g.skeleton
  version : h.version = g.version
  setting : ∀ v, h.setting? v = g.setting? v

variable {g g' h h' : Graph} {v : NodeId}

/-! ### Settings after an edit -/

/-- A node that is appended brings its own setting. -/
theorem setting?_appendNode (g : Graph) (n : Node) (v : NodeId) :
    (g.appendNode n).setting? v =
      (g.setting? v).or (if n.id = v then some (g.settingOf n) else none) := by
  rw [setting?, node?_appendNode, setting?]
  cases g.node? v with
  | some m => rfl
  | none =>
    rw [Option.none_or, Option.map_none, Option.none_or]
    split
    · rfl
    · rfl

/-- A node that is taken out has no setting any more, and the others keep theirs. -/
theorem setting?_filter_nodes (g : Graph) (id v : NodeId) :
    ({ g with nodes := g.nodes.filter fun n ↦ n.id != id } : Graph).setting? v =
      if v = id then none else g.setting? v := by
  rw [setting?, node?_filter_nodes]
  split
  · rfl
  · rfl

/-- A change of a node's content that only depends on its setting. -/
theorem setting?_modifyNode (g : Graph) (id : NodeId) {f : Node → Node}
    {F : NodeSetting → NodeSetting} (hid : ∀ n, (f n).id = n.id)
    (hf : ∀ n, g.settingOf (f n) = F (g.settingOf n)) (v : NodeId) :
    (g.modifyNode id f).setting? v =
      (g.setting? v).map fun setting ↦ if v = id then F setting else setting := by
  rw [setting?, node?_modifyNode g id hid, setting?, Option.map_map, Option.map_map]
  cases hn : g.node? v with
  | none => rfl
  | some n =>
    have hv := id_of_node? hn
    rw [Option.map_some, Option.map_some, Function.comp_apply, Function.comp_apply, hv]
    by_cases hsame : v = id
    · rw [if_pos hsame, if_pos (by simpa using hsame), ← hf]
      rfl
    · rw [if_neg hsame, if_neg (by simpa using hsame)]
      rfl

/-- Outputs are no part of a setting. -/
theorem setting?_clearOutputs (g : Graph) (v : NodeId) :
    g.clearOutputs.setting? v = g.setting? v := by
  rw [setting?, node?_clearOutputs, Option.map_map]
  rfl

namespace Resembles

theorem refl (g : Graph) : g.Resembles g := ⟨rfl, rfl, fun _ ↦ rfl⟩

theorem symm (hr : h.Resembles g) : g.Resembles h :=
  ⟨hr.skeleton.symm, hr.version.symm, fun v ↦ (hr.setting v).symm⟩

theorem trans {k : Graph} (hr : h.Resembles g) (hr' : g.Resembles k) : h.Resembles k :=
  ⟨hr.skeleton.trans hr'.skeleton, hr.version.trans hr'.version,
    fun v ↦ (hr.setting v).trans (hr'.setting v)⟩

/-- A graph resembles itself without outputs. -/
theorem clearOutputs (g : Graph) : g.clearOutputs.Resembles g :=
  ⟨skeleton_clearOutputs, rfl, g.setting?_clearOutputs⟩

section

variable (hr : h.Resembles g)

include hr

/-- Under the same id there are nodes of one type with one setting. -/
theorem node {v : NodeId} {n m : Node} (hn : g.node? v = some n) (hm : h.node? v = some m) :
    m.type = n.type ∧ m.config = n.config ∧
      ∀ port, h.restingInput? m port = g.restingInput? n port := by
  have htype := map_type_node?_congr hr.skeleton v
  have hsetting := hr.setting v
  rw [hn, hm] at htype
  rw [setting?, hm, setting?, hn] at hsetting
  obtain ⟨hconfig, hresting⟩ := NodeSetting.mk.inj (Option.some.inj hsetting)
  exact ⟨Option.some.inj htype, hconfig, congrFun hresting⟩

/-- The same nodes have the same settings, wherever they are. -/
theorem settingOf_eq (n : Node) : h.settingOf n = g.settingOf n := by
  rw [settingOf, settingOf]
  refine congrArg (NodeSetting.mk n.config) (funext fun port ↦ ?_)
  rw [restingInput?, catalog_congr hr.skeleton, restingInput?]

/-- A change of the content of a node that only depends on its setting keeps them so. -/
theorem modifyNode (id : NodeId) {f : Node → Node} {F : NodeSetting → NodeSetting}
    (hbare : ∀ n, Node.bare (f n) = n.bare) (hf : ∀ n, g.settingOf (f n) = F (g.settingOf n)) :
    (h.modifyNode id f).touchContent.Resembles (g.modifyNode id f).touchContent := by
  have hid : ∀ n, (f n).id = n.id := by
    intro n
    rw [← Node.bare_id, hbare, Node.bare_id]
  have hf' : ∀ n, h.settingOf (f n) = F (h.settingOf n) := by
    intro n
    rw [hr.settingOf_eq, hr.settingOf_eq, hf]
  refine ⟨?_, congrArg (· + 1) hr.version, fun v ↦ ?_⟩
  · rw [skeleton_touchContent, skeleton_modifyNode id hbare, hr.skeleton, skeleton_touchContent,
      skeleton_modifyNode id hbare]
  · show (h.modifyNode id f).setting? v = (g.modifyNode id f).setting? v
    rw [setting?_modifyNode h id hid hf', setting?_modifyNode g id hid hf, hr.setting]

/-- The skeletons stay the same if the nodes and the connections change alike. -/
theorem skeleton_of_bare (hcatalog : h'.catalog = h.catalog) (hcatalog' : g'.catalog = g.catalog)
    (hnodes : h'.nodes.map Node.bare = g'.nodes.map Node.bare)
    (hconnections : h'.connections = g'.connections)
    (hgeneration : h'.generation = h.generation + 1)
    (hgeneration' : g'.generation = g.generation + 1) : h'.skeleton = g'.skeleton := by
  have hsame := generation_congr hr.skeleton
  have hsame' := catalog_congr hr.skeleton
  simp only [Graph.skeleton, hnodes, hconnections, hcatalog, hcatalog', hgeneration, hgeneration',
    hsame, hsame']

/-- Graphs that resemble each other have the same nodes but for their content. -/
theorem nodes_bare : h.nodes.map Node.bare = g.nodes.map Node.bare :=
  congrArg Graph.nodes hr.skeleton

/-- **Edits cannot tell them apart**: both refuse the same ones, and the others keep them so. -/
theorem apply (edit : GraphEdit) : Agree Resembles (h.apply edit) (g.apply edit) := by
  have hconnections := connections_congr hr.skeleton
  have hversion : h.version + 1 = g.version + 1 := congrArg (· + 1) hr.version
  cases edit with
  | addNode n =>
    rw [Graph.apply, addNode, checkNode_congr (catalog_congr hr.skeleton)
      (isSome_node?_congr hr.skeleton), Graph.apply, addNode]
    cases g.checkNode n with
    | error error => exact .error error error
    | ok =>
      refine .ok ⟨hr.skeleton_of_bare rfl rfl ?_ hconnections rfl rfl, hversion, fun v ↦ ?_⟩
      · show (h.nodes ++ [n]).map Node.bare = (g.nodes ++ [n]).map Node.bare
        rw [List.map_append, List.map_append, hr.nodes_bare]
      · show (h.appendNode n).setting? v = (g.appendNode n).setting? v
        rw [setting?_appendNode, setting?_appendNode, hr.setting, hr.settingOf_eq]
  | removeNode id =>
    have hsome := isSome_node?_congr hr.skeleton id
    rw [Graph.apply, removeNode, Graph.apply, removeNode]
    cases hg : g.node? id with
    | none =>
      cases hh : h.node? id with
      | none => exact .error _ _
      | some m => simp [hg, hh] at hsome
    | some n =>
      cases hh : h.node? id with
      | none => simp [hg, hh] at hsome
      | some m =>
        refine .ok ⟨hr.skeleton_of_bare rfl rfl ?_ ?_ rfl rfl, hversion, fun v ↦ ?_⟩
        · have hfilter : ∀ nodes : List Node, (nodes.filter fun n ↦ n.id != id).map Node.bare =
              (nodes.map Node.bare).filter fun n ↦ n.id != id := by
            intro nodes
            rw [List.filter_map]
            rfl
          show (h.nodes.filter fun n ↦ n.id != id).map Node.bare =
            (g.nodes.filter fun n ↦ n.id != id).map Node.bare
          rw [hfilter, hr.nodes_bare, hfilter]
        · show h.connections.filter _ = g.connections.filter _
          rw [hconnections]
        · show ({ h with nodes := h.nodes.filter fun n ↦ n.id != id } : Graph).setting? v =
            ({ g with nodes := g.nodes.filter fun n ↦ n.id != id } : Graph).setting? v
          rw [setting?_filter_nodes, setting?_filter_nodes, hr.setting]
  | addConnection c =>
    rw [Graph.apply, addConnection, checkConnection_congr hconnections
      (definitionOf?_congr hr.skeleton), Graph.apply, addConnection]
    cases g.checkConnection c with
    | error error => exact .error error error
    | ok =>
      exact .ok ⟨hr.skeleton_of_bare rfl rfl hr.nodes_bare
        (congrArg (· ++ [c]) hconnections) rfl rfl, hversion, hr.setting⟩
  | removeConnection id =>
    rw [Graph.apply, removeConnection, connection?_congr hconnections, Graph.apply,
      removeConnection]
    cases g.connection? id with
    | none => exact .error _ _
    | some c =>
      exact .ok ⟨hr.skeleton_of_bare rfl rfl hr.nodes_bare (congrArg (List.filter _) hconnections)
        rfl rfl, hversion, hr.setting⟩
  | setConfig id key value =>
    have hsome := isSome_node?_congr hr.skeleton id
    have hmodified := hr.modifyNode id (f := fun n ↦ { n with config := n.config.insert key value })
      (F := fun setting ↦ { setting with config := setting.config.insert key value })
      (fun _ ↦ rfl) fun _ ↦ rfl
    rw [Graph.apply, setConfig, Graph.apply, setConfig]
    cases hg : g.node? id with
    | none =>
      cases hh : h.node? id with
      | none => exact .error _ _
      | some m => simp [hg, hh] at hsome
    | some n =>
      cases hh : h.node? id with
      | none => simp [hg, hh] at hsome
      | some m => exact .ok hmodified
  | setInputValue id port value =>
    have hmodified := hr.modifyNode id
      (f := fun n ↦ { n with inputValues := n.inputValues.insert port value })
      (F := fun setting ↦ { setting with
        resting? := fun k ↦ if port = k then some value else setting.resting? k })
      (fun _ ↦ rfl) fun n ↦ by
        refine congrArg (NodeSetting.mk n.config) (funext fun k ↦ ?_)
        show (KeyMap.get? (n.inputValues.insert port value) k).or _ = _
        rw [KeyMap.get?_insert]
        split
        · rfl
        · rfl
    rw [Graph.apply, setInputValue, definitionOf?_congr hr.skeleton, Graph.apply, setInputValue]
    cases g.definitionOf? id with
    | none => exact .error _ _
    | some d =>
      dsimp only
      split
      · exact .error _ _
      · exact .ok hmodified

end

end Resembles

end Graph

end CueFlow
