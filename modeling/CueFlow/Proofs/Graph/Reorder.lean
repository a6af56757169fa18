import CueFlow.Proofs.Graph.ClosedPart
import CueFlow.Proofs.Graph.Reload
/-!
# Graphs that differ in the order of their nodes

Nodes keep the order in which they were added, and everything that goes by places goes by this
order. What goes by ids does not, and neither check nor edit goes by anything else. `Graph.Reorders`
says that two graphs have the same catalog, the same connections and under every id the same node.
Then the same edits are refused by both, and the others keep them so (`Reorders.apply`); each of
them is a closed part of the other (`Reorders.isClosedIn`), so one compiles if the other does
(`Reorders.compile`). Snapshots with the same connections and with the same nodes in another order
load as such graphs (`load_perm`).
-/

namespace CueFlow

namespace Graph

/-- The graphs differ in the order of their nodes, and in what they count, but in nothing else. -/
structure Reorders (h g : Graph) : Prop where
  catalog : h.catalog = g.catalog
  connections : h.connections = g.connections
  node? : ∀ v, h.node? v = g.node? v

variable {g g' h h' : Graph} {v : NodeId}

/-! ### Look-up after an edit -/

/-- A node that is appended is found unless its id was taken before. -/
theorem node?_appendNode (g : Graph) (n : Node) (v : NodeId) :
    (g.appendNode n).node? v = (g.node? v).or (if n.id = v then some n else none) := by
  show (g.nodes ++ [n]).find? _ = _
  rw [List.find?_append, node?]
  by_cases hid : n.id = v
  · simp [hid]
  · simp [hid]

/-- A change of one node is seen under its id, and under no other. -/
theorem node?_modifyNode (g : Graph) (id : NodeId) {f : Node → Node} (hf : ∀ n, (f n).id = n.id)
    (v : NodeId) : (g.modifyNode id f).node? v =
      (g.node? v).map fun n ↦ if n.id == id then f n else n := by
  have hid : ∀ n : Node, (if n.id == id then f n else n).id = n.id := by
    intro n
    split
    · exact hf n
    · rfl
  show (g.nodes.map _).find? _ = _
  rw [List.find?_map]
  simp only [Function.comp_def, hid]
  rfl

/-- A node that is taken out is not found any more, and all others are. -/
theorem node?_filter_nodes (g : Graph) (id v : NodeId) :
    ({ g with nodes := g.nodes.filter fun n ↦ n.id != id } : Graph).node? v =
      if v = id then none else g.node? v := by
  show (g.nodes.filter _).find? _ = _
  rw [List.find?_filter]
  by_cases hv : v = id
  · subst hv
    simp
  · rw [if_neg hv, node?]
    refine congrArg (List.find? · g.nodes) (funext fun n ↦ ?_)
    by_cases hid : n.id = v
    · simp [hid, hv]
    · simp [hid]

/-- Clearing outputs leaves every node to be found under its id. -/
theorem node?_clearOutputs (g : Graph) (v : NodeId) :
    g.clearOutputs.node? v = (g.node? v).map Node.withoutOutputs := by
  show (g.nodes.map _).find? _ = _
  rw [List.find?_map]
  rfl

/-- With unique ids, a node is found under its id and under no other. -/
theorem node?_eq_some_iff (hg : g.UniqueIds) {n : Node} :
    g.node? v = some n ↔ n ∈ g.nodes ∧ n.id = v := by
  refine ⟨fun hn ↦ ⟨List.mem_of_find?_eq_some hn, id_of_node? hn⟩, ?_⟩
  rintro ⟨hn, rfl⟩
  exact node?_of_mem hg hn

namespace Reorders

theorem refl (g : Graph) : g.Reorders g := ⟨rfl, rfl, fun _ ↦ rfl⟩

theorem symm (hr : h.Reorders g) : g.Reorders h :=
  ⟨hr.catalog.symm, hr.connections.symm, fun v ↦ (hr.node? v).symm⟩

/-- A graph whose nodes are permuted reorders the graph, since an id belongs to one node only. -/
theorem of_perm (hg : g.UniqueIds) (hcatalog : h.catalog = g.catalog)
    (hconnections : h.connections = g.connections) (hnodes : h.nodes.Perm g.nodes) :
    h.Reorders g := by
  have hh : h.UniqueIds := (hnodes.map Node.id).nodup_iff.2 hg
  refine ⟨hcatalog, hconnections, fun v ↦ Option.ext fun n ↦ ?_⟩
  rw [node?_eq_some_iff hh, node?_eq_some_iff hg, hnodes.mem_iff]

section

variable (hr : h.Reorders g)

include hr

/-- Running both keeps them so, if it leaves the same nodes behind. -/
theorem congr (hskel' : h'.skeleton = h.skeleton) (hskel : g'.skeleton = g.skeleton)
    (hsame : ∀ v, (h'.node? v).isSome → h'.node? v = g'.node? v) : h'.Reorders g' := by
  refine ⟨?_, ?_, fun v ↦ ?_⟩
  · rw [catalog_congr hskel', catalog_congr hskel, hr.catalog]
  · rw [connections_congr hskel', connections_congr hskel, hr.connections]
  · have hsome : (h'.node? v).isSome = (g'.node? v).isSome := by
      rw [isSome_node?_congr hskel', isSome_node?_congr hskel, hr.node?]
    cases hv : (h'.node? v).isSome with
    | true => exact hsame v hv
    | false =>
      rw [hv] at hsome
      rw [Option.isSome_eq_false_iff, Option.isNone_iff_eq_none] at hv
      rw [eq_comm, Option.isSome_eq_false_iff, Option.isNone_iff_eq_none] at hsome
      rw [hv, hsome]

/-! ### What is looked up by ids -/

/-- The definition of a node does not depend on the order. -/
theorem definitionOf?_eq (v : NodeId) : h.definitionOf? v = g.definitionOf? v := by
  rw [definitionOf?, hr.node?, hr.catalog, definitionOf?]

/-- Whether a node may be added does not depend on the order. -/
theorem checkNode_eq (n : Node) : h.checkNode n = g.checkNode n :=
  checkNode_congr hr.catalog (fun v ↦ by rw [hr.node?]) n

/-- Whether a connection may be added does not depend on the order. -/
theorem checkConnection_eq (c : Connection) : h.checkConnection c = g.checkConnection c :=
  checkConnection_congr hr.connections hr.definitionOf?_eq c

/-- Each is a closed part of the other. -/
theorem isClosedIn (hg : g.Sound) : h.IsClosedIn g := by
  have hends : ∀ c ∈ g.connections, (h.node? c.source).isSome ∧ (h.node? c.target).isSome := by
    intro c hc
    obtain ⟨source, target, -, -, hsource, htarget, -⟩ := hg.fits c hc
    obtain ⟨n, hn, -⟩ := Option.bind_eq_some_iff.1 hsource
    obtain ⟨m, hm, -⟩ := Option.bind_eq_some_iff.1 htarget
    rw [hr.node?, hr.node?, hn, hm]
    exact ⟨rfl, rfl⟩
  refine ⟨hr.catalog, fun v _ ↦ by rw [hr.node?], ?_, fun c hc ↦ ?_⟩
  · rw [hr.connections, List.filter_eq_self.2 fun c hc ↦ (hends c hc).2]
  · exact (hends c (hr.connections ▸ hc)).1

/-- One compiles if the other does. -/
theorem compile (hh : h.UniqueIds) (hg : g.UniqueIds) (hsound : g.Sound) :
    Agree (fun _ _ ↦ True) h.compile g.compile := by
  have hpart := (hr.isClosedIn hsound).isPartIn
  have hsound' := hpart.sound hh hsound
  cases hcompile : g.compile with
  | ok plan =>
    obtain ⟨plan', hcompile'⟩ := hpart.exists_compile hh hsound ⟨plan, hcompile⟩
    rw [hcompile']
    exact .ok trivial
  | error error =>
    cases hcompile' : h.compile with
    | error error' => exact .error error' error
    | ok plan' =>
      have hpart' := (hr.symm.isClosedIn hsound').isPartIn
      obtain ⟨plan, hplan⟩ := hpart'.exists_compile hg hsound' ⟨plan', hcompile'⟩
      rw [hcompile] at hplan
      cases hplan

/-! ### Edits -/

theorem appendNode (n : Node) : (h.appendNode n).Reorders (g.appendNode n) :=
  ⟨hr.catalog, hr.connections, fun v ↦ by rw [node?_appendNode, node?_appendNode, hr.node?]⟩

theorem appendConnection (c : Connection) :
    (h.appendConnection c).Reorders (g.appendConnection c) :=
  ⟨hr.catalog, congrArg (· ++ [c]) hr.connections, hr.node?⟩

/-- A change of one node commutes with the order. -/
theorem modifyNode (id : NodeId) {f : Node → Node} (hf : ∀ n, (f n).id = n.id) :
    (h.modifyNode id f).Reorders (g.modifyNode id f) :=
  ⟨hr.catalog, hr.connections, fun v ↦ by
    rw [node?_modifyNode h id hf, node?_modifyNode g id hf, hr.node?]⟩

theorem clearOutputs : h.clearOutputs.Reorders g.clearOutputs :=
  ⟨hr.catalog, hr.connections, fun v ↦ by
    rw [node?_clearOutputs, node?_clearOutputs, hr.node?]⟩

/-- **Both refuse the same edits**, and the others keep them as they are to each other. -/
theorem apply (edit : GraphEdit) : Agree Reorders (h.apply edit) (g.apply edit) := by
  cases edit with
  | addNode n =>
    rw [Graph.apply, addNode, hr.checkNode_eq, Graph.apply, addNode]
    cases g.checkNode n with
    | error error => exact .error error error
    | ok => exact .ok ⟨hr.catalog, hr.connections, (hr.appendNode n).node?⟩
  | removeNode id =>
    rw [Graph.apply, removeNode, hr.node?, Graph.apply, removeNode]
    cases g.node? id with
    | none => exact .error _ _
    | some n =>
      refine .ok ⟨hr.catalog, ?_, fun v ↦ ?_⟩
      · show h.connections.filter _ = g.connections.filter _
        rw [hr.connections]
      · show ({ h with nodes := h.nodes.filter fun n ↦ n.id != id } : Graph).node? v =
          ({ g with nodes := g.nodes.filter fun n ↦ n.id != id } : Graph).node? v
        rw [node?_filter_nodes, node?_filter_nodes, hr.node?]
  | addConnection c =>
    rw [Graph.apply, addConnection, hr.checkConnection_eq, Graph.apply, addConnection]
    cases g.checkConnection c with
    | error error => exact .error error error
    | ok => exact .ok ⟨hr.catalog, (hr.appendConnection c).connections, hr.node?⟩
  | removeConnection id =>
    rw [Graph.apply, removeConnection, connection?_congr hr.connections, Graph.apply,
      removeConnection]
    cases g.connection? id with
    | none => exact .error _ _
    | some c =>
      exact .ok ⟨hr.catalog, congrArg (List.filter _) hr.connections, hr.node?⟩
  | setConfig id key value =>
    rw [Graph.apply, setConfig, hr.node?, Graph.apply, setConfig]
    cases g.node? id with
    | none => exact .error _ _
    | some n =>
      have hmodified := hr.modifyNode id
        (f := fun n ↦ { n with config := n.config.insert key value }) fun _ ↦ rfl
      exact .ok ⟨hr.catalog, hr.connections, hmodified.node?⟩
  | setInputValue id port value =>
    rw [Graph.apply, setInputValue, hr.definitionOf?_eq, Graph.apply, setInputValue]
    cases g.definitionOf? id with
    | none => exact .error _ _
    | some d =>
      have hmodified := hr.modifyNode id
        (f := fun n ↦ { n with inputValues := n.inputValues.insert port value }) fun _ ↦ rfl
      dsimp only
      split
      · exact .error _ _
      · exact .ok ⟨hr.catalog, hr.connections, hmodified.node?⟩

end

end Reorders

end Graph

/-! ### Loads -/

namespace Loading

variable {policy : LoadPolicy}

/-- Loads of connections go through together. -/
theorem agree_takeConnection {l l' : Loading} (h : l'.graph.Reorders l.graph) (c : Connection) :
    Agree (fun l' l : Loading ↦ l'.graph.Reorders l.graph) (l'.takeConnection policy c)
      (l.takeConnection policy c) := by
  simp only [takeConnection, h.checkConnection_eq]
  split
  · exact .ok (h.appendConnection c)
  · exact .ok h
  · exact .ok h
  · exact .error _ _
  · exact .ok h

/-- Whether the type of a node is known. -/
def knows (catalog : Catalog) (n : Node) : Bool := catalog.contains n.type

/-- **What becomes of new nodes with distinct ids.** A strict load is refused if the type of any is
unknown; otherwise those of known types are taken over, in their order. -/
theorem foldlM_takeNode_of_nodup (l : Loading) {nodes : List Node}
    (hids : ((l.graph.nodes ++ nodes).map Node.id).Nodup) :
    (policy = .strict ∧ (nodes.all (knows l.graph.catalog)) = false ∧
      ∃ error, nodes.foldlM (fun l n ↦ l.takeNode policy n) l = .error error) ∨
    (policy = .lenient ∨ (nodes.all (knows l.graph.catalog)) = true) ∧
      ∃ report, nodes.foldlM (fun l n ↦ l.takeNode policy n) l = .ok ⟨{ l.graph with
        nodes := l.graph.nodes ++ nodes.filter (knows l.graph.catalog) }, report⟩ := by
  induction nodes generalizing l with
  | nil => exact .inr ⟨.inr rfl, l.report, by rw [List.filter_nil, List.append_nil]; rfl⟩
  | cons n rest ih =>
    have hnew : (l.graph.node? n.id).isSome = false := by
      rw [← Bool.not_eq_true, Graph.node?_isSome_iff]
      intro hmem
      rw [List.map_append, List.map_cons] at hids
      exact List.disjoint_of_nodup_append hids hmem List.mem_cons_self
    rw [List.foldlM_cons, List.all_cons]
    cases hknown : knows l.graph.catalog n with
    | true =>
      have hcheck : l.graph.checkNode n = .ok () := by
        rw [Graph.checkNode, if_neg (by simpa [knows] using hknown), if_neg (by simp [hnew])]
      rw [takeNode_of_checkNode hcheck, Bool.true_and, List.filter_cons_of_pos hknown]
      have hrest := ih { l with graph := l.graph.appendNode n } (by
        show ((l.graph.nodes ++ [n] ++ rest).map Node.id).Nodup
        rwa [List.append_assoc, List.singleton_append])
      refine hrest.imp_right (And.imp_right (Exists.imp fun report hreport ↦ hreport.trans ?_))
      show Except.ok (Loading.mk { l.graph with nodes := (l.graph.nodes ++ [n]) ++ _ } report) = _
      rw [List.append_assoc, List.singleton_append]
      rfl
    | false =>
      have hcheck : l.graph.checkNode n = .error (.unknownNodeType n.id n.type) := by
        rw [Graph.checkNode, if_pos (by simpa [knows] using hknown)]
      rw [Bool.false_and, List.filter_cons_of_neg (by simp [hknown])]
      cases policy with
      | strict =>
        have htake : l.takeNode .strict n = .error (.unknownNodeType n.id n.type) := by
          simp only [takeNode, hcheck]
        rw [htake]
        exact .inl ⟨rfl, rfl, _, rfl⟩
      | lenient =>
        have htake : l.takeNode .lenient n = .ok (l.skipNode n.id) := by
          simp only [takeNode, hcheck]
        rw [htake]
        have hsub : ((l.graph.nodes ++ rest).map Node.id).Nodup := by
          refine List.Sublist.nodup (List.Sublist.map _ ?_) hids
          exact (List.Sublist.refl _).append (List.sublist_cons_self n rest)
        obtain ⟨habsurd, -⟩ | ⟨-, hrest⟩ := ih (l.skipNode n.id) hsub
        · cases habsurd
        · exact .inr ⟨.inl rfl, hrest⟩

end Loading

namespace Graph

/-- **Snapshots that differ in the order of their nodes** load together, as graphs that do. -/
theorem load_perm {catalog : Catalog} {state state' : GraphState} {policy : LoadPolicy}
    (hnodes : state'.nodes.Perm state.nodes) (hids : (state.nodes.map Node.id).Nodup)
    (hconnections : state'.connections = state.connections) :
    Agree (fun loaded loaded' : Graph × LoadReport ↦ loaded.1.Reorders loaded'.1)
      (Graph.load catalog state' policy) (Graph.load catalog state policy) := by
  have hids' : (state'.nodes.map Node.id).Nodup := (hnodes.map Node.id).nodup_iff.2 hids
  have hall : state'.nodes.all (Loading.knows catalog) = state.nodes.all (Loading.knows catalog) :=
    hnodes.all_eq
  have hstart : Agree (fun l' l : Loading ↦ l'.graph.Reorders l.graph)
      (state'.nodes.foldlM (fun l n ↦ l.takeNode policy n)
        (⟨{ Graph.empty catalog with version := state'.version }, {}⟩ : Loading))
      (state.nodes.foldlM (fun l n ↦ l.takeNode policy n)
        (⟨{ Graph.empty catalog with version := state.version }, {}⟩ : Loading)) := by
    have hfold := @Loading.foldlM_takeNode_of_nodup policy
      ⟨{ Graph.empty catalog with version := state.version }, {}⟩ state.nodes hids
    have hfold' := @Loading.foldlM_takeNode_of_nodup policy
      ⟨{ Graph.empty catalog with version := state'.version }, {}⟩ state'.nodes hids'
    dsimp only [Graph.empty] at hfold hfold'
    rw [hall] at hfold'
    obtain ⟨hstrict, hunknown, error, hfold⟩ | ⟨hlet, report, hfold⟩ := hfold
    · obtain ⟨-, -, error', hfold'⟩ | ⟨hlet', -⟩ := hfold'
      · exact hfold ▸ hfold' ▸ .error error' error
      · simp [hstrict, hunknown] at hlet'
    · obtain ⟨hstrict', hunknown', -⟩ | ⟨-, report', hfold'⟩ := hfold'
      · simp [hstrict', hunknown'] at hlet
      · refine hfold ▸ hfold' ▸ .ok (Reorders.of_perm ?_ rfl rfl (hnodes.filter _))
        exact (List.filter_sublist.map Node.id).nodup hids
  refine hstart.bind fun l' l hl ↦ ?_
  rw [hconnections]
  refine (Agree.foldlM (fun _ _ c hl ↦ Loading.agree_takeConnection hl c) hl _).bind ?_
  exact fun _ _ hl ↦ .ok hl

end Graph

end CueFlow
