import CueFlow.Graph.Load
import CueFlow.Proofs.Graph.Edit
import Mathlib.Data.List.Nodup
/-!
# The graphs that a host can build

A host comes by a graph by starting from an empty one or by loading a snapshot, and then by editing
it. `Graph.Buildable` says so, and `Buildable.uniqueIds` is the invariant that a run of an engine
rests on: no node id occurs twice, whatever the snapshot held. With unique ids, the place of a node
and its id are two names of one thing (`indexOf?_of_getElem?`, `node?_of_getElem?`).

A load adds nodes and connections one by one, each after its check, so what these additions keep
holds of whatever is loaded (`load_induction`).
-/

namespace CueFlow

namespace Graph

/-- The graphs that a host can build. -/
inductive Buildable : Graph → Prop
  | empty (catalog : Catalog) : Buildable (Graph.empty catalog)
  | load {catalog : Catalog} {state : GraphState} {policy : LoadPolicy} {g : Graph}
      {report : LoadReport} : Graph.load catalog state policy = .ok (g, report) → Buildable g
  | edit {g g' : Graph} {edit : GraphEdit} : Buildable g → g.apply edit = .ok g' → Buildable g'
  | clearOutputs {g : Graph} : Buildable g → Buildable g.clearOutputs

/-- No node id occurs twice. -/
def UniqueIds (g : Graph) : Prop := (g.nodes.map Node.id).Nodup

variable {g : Graph}

theorem UniqueIds.congr {h : Graph} (hg : g.UniqueIds) (hskel : h.skeleton = g.skeleton) :
    h.UniqueIds := by
  rw [UniqueIds, ids_congr hskel]
  exact hg

/-! ### Ids and places -/

/-- The place of an id leads to the node of that id. -/
theorem getElem?_of_indexOf? {id : NodeId} {i : Nat} (h : g.indexOf? id = some i) :
    ∃ n, g.nodes[i]? = some n ∧ n.id = id := by
  obtain ⟨hi, hid, -⟩ := List.findIdx?_eq_some_iff_getElem.1 h
  exact ⟨g.nodes[i], List.getElem?_eq_getElem hi, by simpa using hid⟩

/-- To look a node up is to look at its place. -/
theorem indexOf?_bind_getElem? (id : NodeId) :
    (g.indexOf? id).bind (g.nodes[·]?) = g.node? id := by
  rw [indexOf?, node?]
  induction g.nodes with
  | nil => rfl
  | cons n rest ih =>
    rw [List.findIdx?_cons, List.find?_cons]
    cases hid : n.id == id with
    | true => rfl
    | false =>
      rw [← ih]
      cases rest.findIdx? fun n ↦ n.id == id <;> rfl

theorem node?_isSome_iff {id : NodeId} : (g.node? id).isSome ↔ id ∈ g.nodes.map Node.id := by
  simp [node?, List.find?_isSome]

theorem isSome_node?_congr {h : Graph} (hskel : h.skeleton = g.skeleton) (id : NodeId) :
    (h.node? id).isSome = (g.node? id).isSome := by
  rw [Bool.eq_iff_iff, node?_isSome_iff, node?_isSome_iff, ids_congr hskel]

theorem id_of_node? {id : NodeId} {n : Node} (h : g.node? id = some n) : n.id = id := by
  simpa using List.find?_some h

theorem isSome_indexOf? (id : NodeId) : (g.indexOf? id).isSome = (g.node? id).isSome := by
  rw [indexOf?, List.findIdx?_isSome, Bool.eq_iff_iff, node?_isSome_iff]
  simp

/-- The node at a place is the one that its id finds. -/
theorem indexOf?_of_getElem? (hg : g.UniqueIds) {i : Nat} {n : Node} (hn : g.nodes[i]? = some n) :
    g.indexOf? n.id = some i := by
  obtain ⟨j, hj⟩ : ∃ j, g.indexOf? n.id = some j := by
    rw [← Option.isSome_iff_exists, isSome_indexOf?, node?_isSome_iff]
    exact List.mem_map_of_mem (List.mem_of_getElem? hn)
  obtain ⟨n', hn', hid⟩ := getElem?_of_indexOf? hj
  have hlt : j < (g.nodes.map Node.id).length := by
    rw [List.length_map]
    exact (List.getElem?_eq_some_iff.1 hn').1
  have hsame : (g.nodes.map Node.id)[j]? = (g.nodes.map Node.id)[i]? := by
    rw [List.getElem?_map, List.getElem?_map, hn', hn, Option.map_some, Option.map_some, hid]
  rw [hj, (List.getElem?_inj hlt hg).1 hsame]

theorem node?_of_getElem? (hg : g.UniqueIds) {i : Nat} {n : Node} (hn : g.nodes[i]? = some n) :
    g.node? n.id = some n := by
  rw [← indexOf?_bind_getElem?, indexOf?_of_getElem? hg hn]
  exact hn

theorem node?_of_mem (hg : g.UniqueIds) {n : Node} (hn : n ∈ g.nodes) : g.node? n.id = some n := by
  obtain ⟨i, hi⟩ := List.mem_iff_getElem?.1 hn
  exact node?_of_getElem? hg hi

/-! ### No operation repeats an id -/

/-- A node that passes its check has a new id. -/
theorem node?_of_checkNode {n : Node} (hcheck : g.checkNode n = .ok ()) : g.node? n.id = none := by
  rw [← Option.not_isSome_iff_eq_none]
  intro hsome
  rw [checkNode, if_pos hsome] at hcheck
  split at hcheck <;> cases hcheck

theorem UniqueIds.appendNode {n : Node} (hg : g.UniqueIds) (hcheck : g.checkNode n = .ok ()) :
    (g.appendNode n).UniqueIds := by
  have hnew : n.id ∉ g.nodes.map Node.id := by
    rw [← node?_isSome_iff, node?_of_checkNode hcheck]
    exact Bool.false_ne_true
  rw [UniqueIds, Graph.appendNode, List.map_append]
  refine List.nodup_append.2 ⟨hg, List.nodup_singleton _, ?_⟩
  rintro id hid _ hmem rfl
  rw [List.map_singleton, List.mem_singleton] at hmem
  exact hnew (hmem ▸ hid)

/-- An edit keeps ids unique. -/
theorem UniqueIds.edit {g' : Graph} {edit : GraphEdit} (hg : g.UniqueIds)
    (happly : g.apply edit = .ok g') : g'.UniqueIds := by
  cases editMove_of_apply happly with
  | addNode hcheck => exact hg.appendNode hcheck
  | removeNode => exact (List.filter_sublist.map Node.id).nodup hg
  | addConnection | removeConnection => exact hg
  | setConfig | setInputValue => exact hg.congr (skeleton_of_apply rfl happly)

/-! ### Loading -/

/-- One node of a snapshot is added after its check, or left out. -/
theorem takeNode_graph {l l' : Loading} {policy : LoadPolicy} {n : Node}
    (h : l.takeNode policy n = .ok l') :
    l.graph.checkNode n = .ok () ∧ l'.graph = l.graph.appendNode n ∨ l'.graph = l.graph := by
  simp only [Loading.takeNode] at h
  split at h
  next hcheck =>
    cases h
    exact .inl ⟨hcheck, rfl⟩
  next => cases h
  next =>
    cases h
    exact .inr rfl

/-- One connection of a snapshot is added after its check, or left out. -/
theorem takeConnection_graph {l l' : Loading} {policy : LoadPolicy} {c : Connection}
    (h : l.takeConnection policy c = .ok l') :
    l.graph.checkConnection c = .ok () ∧ l'.graph = l.graph.appendConnection c ∨
      l'.graph = l.graph := by
  simp only [Loading.takeConnection] at h
  split at h
  next hcheck =>
    cases h
    exact .inl ⟨hcheck, rfl⟩
  next =>
    cases h
    exact .inr rfl
  next =>
    cases h
    exact .inr rfl
  next => cases h
  next =>
    cases h
    exact .inr rfl

/-- **What a load makes**, whatever the snapshot holds: nodes and connections are added to a graph
without any, each after its check. -/
theorem load_induction {P : Graph → Prop} {catalog : Catalog} {state : GraphState}
    {policy : LoadPolicy} {report : LoadReport}
    (h : Graph.load catalog state policy = .ok (g, report))
    (hempty : P { Graph.empty catalog with version := state.version })
    (hnode : ∀ g n, P g → g.checkNode n = .ok () → P (g.appendNode n))
    (hconnection : ∀ g c, P g → g.checkConnection c = .ok () → P (g.appendConnection c)) : P g := by
  obtain ⟨withNodes, hnodes, h⟩ := bind_eq_ok_iff.1 h
  obtain ⟨loaded, hconnections, h⟩ := bind_eq_ok_iff.1 h
  obtain ⟨rfl, -⟩ := Prod.mk.inj (Except.ok.inj h)
  have hwithNodes : P withNodes.graph := by
    refine foldlM_induction (P := fun l : Loading ↦ P l.graph) (fun l n l' hl hstep ↦ ?_) hempty
      hnodes
    obtain ⟨hcheck, heq⟩ | heq := takeNode_graph hstep
    · exact heq ▸ hnode l.graph n hl hcheck
    · exact heq ▸ hl
  refine foldlM_induction (P := fun l : Loading ↦ P l.graph) (fun l c l' hl hstep ↦ ?_) hwithNodes
    hconnections
  obtain ⟨hcheck, heq⟩ | heq := takeConnection_graph hstep
  · exact heq ▸ hconnection l.graph c hl hcheck
  · exact heq ▸ hl

/-- A load never repeats an id, whatever the snapshot holds. -/
theorem uniqueIds_of_load {catalog : Catalog} {state : GraphState} {policy : LoadPolicy}
    {report : LoadReport} (h : Graph.load catalog state policy = .ok (g, report)) :
    g.UniqueIds :=
  load_induction h List.nodup_nil (fun _ _ hg hcheck ↦ hg.appendNode hcheck) fun _ _ hg _ ↦ hg

/-- **A graph that a host can build has unique ids.** -/
theorem Buildable.uniqueIds (h : g.Buildable) : g.UniqueIds := by
  induction h with
  | empty => exact List.nodup_nil
  | load hload => exact uniqueIds_of_load hload
  | edit _ happly ih => exact ih.edit happly
  | clearOutputs _ ih => exact ih.congr skeleton_clearOutputs

end Graph

end CueFlow
