import CueFlow.Proofs.Graph.ClosedPart
import CueFlow.Proofs.Graph.Reorder
import Mathlib.Data.Set.Basic
/-!
# Graphs that agree off some nodes

Two graphs agree off a set of nodes (`Graph.AgreesOff`) if they have the same nodes and the same
connections into compute inputs, and if every node that is not in the set has the same content in
both. They may have different connections into points of delivery, and definitions with different
effects: a computation does not look at these (`NodeDefinition.computation`).

Such graphs have nodes that feed each other in the same way (`feeds_iff`), so one compiles exactly
if the other does (`exists_compile_iff`). Edits of the content keep them so (`apply`).
-/

namespace CueFlow

/-- What a computation looks at of a definition: neither the effects nor the config fields. -/
def NodeDefinition.computation (d : NodeDefinition) : NodeDefinition :=
  { d with config := [], sink := none, disable := none }

@[simp] theorem NodeDefinition.computation_input? (d : NodeDefinition) (port : String) :
    d.computation.input? port = d.input? port := rfl

@[simp] theorem NodeDefinition.computation_hasSinkInputs (d : NodeDefinition) :
    d.computation.hasSinkInputs = d.hasSinkInputs := rfl

namespace Graph

/-- The graphs have the same nodes with the same computations, fed by the same connections; the
nodes that are not in the set have the same content. -/
structure AgreesOff (S : Set NodeId) (h g : Graph) : Prop where
  computation : ∀ type, (h.catalog.get? type).map NodeDefinition.computation =
    (g.catalog.get? type).map NodeDefinition.computation
  type : ∀ v, (h.node? v).map Node.type = (g.node? v).map Node.type
  inputs : h.connectionsInto .compute = g.connectionsInto .compute
  node : ∀ v ∉ S, h.node? v = g.node? v

variable {S : Set NodeId} {g g' h h' : Graph} {u v : NodeId}

/-- Changing the content of a node makes a difference at that node only. -/
theorem agreesOff_modifyNode (g : Graph) (id : NodeId) {f : Node → Node}
    (hbare : ∀ n, (f n).bare = n.bare) : (g.modifyNode id f).AgreesOff {id} g where
  computation _ := rfl
  type := map_type_node?_congr (skeleton_modifyNode id hbare)
  inputs := by
    rw [← skeleton_connectionsInto, skeleton_modifyNode id hbare, skeleton_connectionsInto]
  node v hv := by
    have hid : ∀ n, (f n).id = n.id := by
      intro n
      rw [← Node.bare_id, hbare, Node.bare_id]
    rw [node?_modifyNode g id hid]
    cases hn : g.node? v with
    | none => rfl
    | some n =>
      have hne : ¬ (n.id == id) = true := by
        rw [id_of_node? hn]
        simpa using hv
      rw [Option.map_some, if_neg hne]

namespace AgreesOff

/-- The content of the nodes in the set does not matter. -/
theorem congr (hr : h.AgreesOff S g) (hh : h'.skeleton = h.skeleton) (hg : g'.skeleton = g.skeleton)
    (hnode : ∀ v ∉ S, h'.node? v = g'.node? v) : h'.AgreesOff S g' where
  computation type := by rw [catalog_congr hh, hr.computation, catalog_congr hg]
  type v := by rw [map_type_node?_congr hh, hr.type, map_type_node?_congr hg]
  inputs := by
    rw [← skeleton_connectionsInto, hh, skeleton_connectionsInto, hr.inputs,
      ← skeleton_connectionsInto, ← hg, skeleton_connectionsInto]
  node := hnode

/-- Graphs that agree off some nodes agree off more of them. -/
theorem mono {T : Set NodeId} (hr : h.AgreesOff S g) (hST : S ⊆ T) : h.AgreesOff T g :=
  ⟨hr.computation, hr.type, hr.inputs, fun v hv ↦ hr.node v fun hmem ↦ hv (hST hmem)⟩

section

variable (hr : h.AgreesOff S g)

include hr

theorem isSome_node? (v : NodeId) : (h.node? v).isSome = (g.node? v).isSome := by
  rw [← Option.isSome_map (f := Node.type), hr.type, Option.isSome_map]

/-- A type that one catalog knows the other knows with the same computation. -/
theorem exists_definition {type : String} {d : NodeDefinition}
    (hd : g.catalog.get? type = some d) :
    ∃ d', h.catalog.get? type = some d' ∧ d'.computation = d.computation := by
  have hsame := hr.computation type
  rwa [hd, Option.map_some, Option.map_eq_some_iff] at hsame

/-- The nodes of both graphs have the same computations. -/
theorem map_definitionOf? (v : NodeId) : (h.definitionOf? v).map NodeDefinition.computation =
    (g.definitionOf? v).map NodeDefinition.computation := by
  have htype : ∀ k : Graph, (k.definitionOf? v).map NodeDefinition.computation =
      ((k.node? v).map Node.type).bind fun type ↦
        (k.catalog.get? type).map NodeDefinition.computation := by
    intro k
    rw [Option.bind_map, definitionOf?, Option.map_bind]
    rfl
  rw [htype, htype, hr.type]
  simp only [hr.computation]

/-! ### Compiling -/

/-- Nodes feed each other in one graph as in the other, since that depends on compute inputs only.
-/
theorem feeds_iff (hh : h.Sound) (hg : g.Sound) : h.Feeds u v ↔ g.Feeds u v := by
  rw [hh.feeds_iff, hg.feeds_iff, hr.inputs]

/-- One compiles exactly if the other does. -/
theorem exists_compile_iff (hh : h.Sound) (hg : g.Sound) :
    (∃ plan, h.compile = .ok plan) ↔ ∃ plan, g.compile = .ok plan := by
  have hfeeds : h.Feeds = g.Feeds := by
    funext u v
    exact propext (hr.feeds_iff hh hg)
  rw [Graph.exists_compile_iff hh, Graph.exists_compile_iff hg, hfeeds]

/-! ### Changes of the content -/

/-- Graphs that agree off some nodes do so without their outputs. -/
theorem clearOutputs : h.clearOutputs.AgreesOff S g.clearOutputs :=
  hr.congr skeleton_clearOutputs skeleton_clearOutputs fun v hv ↦ by
    rw [node?_clearOutputs, hr.node v hv, node?_clearOutputs]

/-- The same change of the content of a node. -/
theorem modifyNode (id : NodeId) {f : Node → Node} (hbare : ∀ n, (f n).bare = n.bare) :
    (h.modifyNode id f).touchContent.AgreesOff S (g.modifyNode id f).touchContent := by
  have hid : ∀ n, (f n).id = n.id := by
    intro n
    rw [← Node.bare_id, hbare, Node.bare_id]
  refine hr.congr (skeleton_touchContent.trans (skeleton_modifyNode id hbare))
    (skeleton_touchContent.trans (skeleton_modifyNode id hbare)) fun v hv ↦ ?_
  show (h.modifyNode id f).node? v = (g.modifyNode id f).node? v
  rw [node?_modifyNode h id hid, hr.node v hv, node?_modifyNode g id hid]

/-- **Edits of the content cannot tell them apart**: both refuse the same ones, and the others keep
them so. -/
theorem apply {edit : GraphEdit} (hedit : edit.isTopology = false) :
    Agree (AgreesOff S) (h.apply edit) (g.apply edit) := by
  cases edit with
  | addNode | removeNode | addConnection | removeConnection => cases hedit
  | setConfig id key value =>
    have hsome := hr.isSome_node? id
    rw [Graph.apply, setConfig, Graph.apply, setConfig]
    cases hg : g.node? id with
    | none =>
      cases hh : h.node? id with
      | none => exact .error _ _
      | some m => simp [hg, hh] at hsome
    | some n =>
      cases hh : h.node? id with
      | none => simp [hg, hh] at hsome
      | some m => exact .ok (hr.modifyNode id fun _ ↦ rfl)
  | setInputValue id port value =>
    have hdefinition := hr.map_definitionOf? id
    rw [Graph.apply, setInputValue, Graph.apply, setInputValue]
    cases hg : g.definitionOf? id with
    | none =>
      cases hh : h.definitionOf? id with
      | none => exact .error _ _
      | some d' => simp [hg, hh] at hdefinition
    | some d =>
      cases hh : h.definitionOf? id with
      | none => simp [hg, hh] at hdefinition
      | some d' =>
        rw [hg, hh, Option.map_some, Option.map_some] at hdefinition
        have hsame : d'.computation = d.computation := Option.some.inj hdefinition
        have hinput : d'.input? port = d.input? port := by
          rw [← NodeDefinition.computation_input?, hsame, NodeDefinition.computation_input?]
        dsimp only
        rw [hinput]
        split
        · exact .error _ _
        · exact .ok (hr.modifyNode id fun _ ↦ rfl)

end

end AgreesOff

end Graph

end CueFlow
