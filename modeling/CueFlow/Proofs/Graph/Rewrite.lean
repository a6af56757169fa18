import CueFlow.Proofs.Engine.InPlace
import CueFlow.Proofs.Graph.Snapshot
/-!
# What an edit does to a snapshot

An edit of a live graph shows in its snapshot as a plain change of two lists
(`GraphEdit.Rewrites`): something is put at the end, or one item is taken out of its place, or one
item is exchanged in its place. Everything else stays where and as it is. This is said of lists cut
at the item in question, whereas the graph goes through all items and compares ids; where ids are
unique, both come to the same (`filter_ne_of_nodup`, `map_ite_of_nodup`).

The result is `apply_rewrites`: on a valid graph, carried out in place with every check where it
happens, an edit either is refused and leaves the graph as it was, or rewrites its snapshot and is
counted as a change of the topology exactly if it is one. Taking out what has just been added leads
back to where the graph was (`apply_undo`).
-/

namespace CueFlow

/-- The maps differ in one entry at most, which the second has set. -/
structure KeyMap.SetsEntry {α : Type} (m m' : KeyMap α) (key : String) (value : α) : Prop where
  here : m'.get? key = some value
  elsewhere : ∀ other, other ≠ key → m'.get? other = m.get? other
  sorted : m.Sorted → m'.Sorted

theorem KeyMap.setsEntry_insert {α : Type} (m : KeyMap α) (key : String) (value : α) :
    m.SetsEntry (m.insert key value) key value where
  here := m.get?_insert_self key value
  elsewhere other hother := by rw [KeyMap.get?_insert, if_neg hother.symm]
  sorted hm := KeyMap.sorted_insert hm key value

/-- An edit turns one snapshot into another: a change of version, and one change of the lists. -/
inductive GraphEdit.Rewrites : GraphEdit → GraphState → GraphState → Prop
  | addNode {version : UInt64} {nodes : List Node} {connections : List Connection} {n : Node}
      (hnew : n.id ∉ nodes.map Node.id) :
      Rewrites (.addNode n) ⟨version, nodes, connections⟩ ⟨version + 1, nodes ++ [n], connections⟩
  /-- The connections of the node go with it, and no others. -/
  | removeNode {version : UInt64} {before after : List Node} {connections : List Connection}
      {n : Node} :
      Rewrites (.removeNode n.id) ⟨version, before ++ n :: after, connections⟩
        ⟨version + 1, before ++ after,
          connections.filter fun c ↦ c.source ≠ n.id ∧ c.target ≠ n.id⟩
  | addConnection {version : UInt64} {nodes : List Node} {connections : List Connection}
      {c : Connection} (hnew : c.id ∉ connections.map Connection.id) :
      Rewrites (.addConnection c) ⟨version, nodes, connections⟩
        ⟨version + 1, nodes, connections ++ [c]⟩
  | removeConnection {version : UInt64} {nodes : List Node} {before after : List Connection}
      {c : Connection} :
      Rewrites (.removeConnection c.id) ⟨version, nodes, before ++ c :: after⟩
        ⟨version + 1, nodes, before ++ after⟩
  /-- One entry of the config of one node, in its place. -/
  | setConfig {version : UInt64} {before after : List Node} {connections : List Connection}
      {n n' : Node} {key : String} {value : Value} (hentry : n.config.SetsEntry n'.config key value)
      (hrest : { n' with config := n.config } = n) :
      Rewrites (.setConfig n.id key value) ⟨version, before ++ n :: after, connections⟩
        ⟨version + 1, before ++ n' :: after, connections⟩
  /-- One stored input of one node, in its place. -/
  | setInputValue {version : UInt64} {before after : List Node} {connections : List Connection}
      {n n' : Node} {port : String} {value : Value}
      (hentry : n.inputValues.SetsEntry n'.inputValues port value)
      (hrest : { n' with inputValues := n.inputValues } = n) :
      Rewrites (.setInputValue n.id port value) ⟨version, before ++ n :: after, connections⟩
        ⟨version + 1, before ++ n' :: after, connections⟩

/-- The edit that takes out what an edit adds. -/
def GraphEdit.undo? : GraphEdit → Option GraphEdit
  | .addNode n => some (.removeNode n.id)
  | .addConnection c => some (.removeConnection c.id)
  | _ => none

/-! ### Lists cut at an item -/

section

variable {α β : Type} {f : α → β} {before after : List α} {a : α}

theorem ne_of_nodup (hnodup : ((before ++ a :: after).map f).Nodup) :
    ∀ x ∈ before ++ after, f x ≠ f a := by
  rw [List.map_append, List.map_cons, List.nodup_middle, List.nodup_cons, ← List.map_append]
    at hnodup
  exact fun x hx heq ↦ hnodup.1 (List.mem_map.2 ⟨x, hx, heq⟩)

variable [DecidableEq β]

/-- To drop what goes by the name of an item is to cut the item out. -/
theorem filter_ne_of_nodup (hnodup : ((before ++ a :: after).map f).Nodup) :
    (before ++ a :: after).filter (fun x ↦ f x != f a) = before ++ after := by
  rw [List.filter_append, List.filter_cons_of_neg (by simp), ← List.filter_append,
    List.filter_eq_self]
  exact fun x hx ↦ bne_iff_ne.2 (ne_of_nodup hnodup x hx)

/-- To change what goes by the name of an item is to exchange the item in its place. -/
theorem map_ite_of_nodup (hnodup : ((before ++ a :: after).map f).Nodup) (change : α → α) :
    (before ++ a :: after).map (fun x ↦ if f x == f a then change x else x) =
      before ++ change a :: after := by
  have hkept : ∀ x ∈ before ++ after, (if f x == f a then change x else x) = x := fun x hx ↦
    if_neg (by simpa using ne_of_nodup hnodup x hx)
  have hbefore : before.map (fun x ↦ if f x == f a then change x else x) = before :=
    (List.map_congr_left fun x hx ↦ hkept x (List.mem_append_left _ hx)).trans (List.map_id _)
  have hafter : after.map (fun x ↦ if f x == f a then change x else x) = after :=
    (List.map_congr_left fun x hx ↦ hkept x (List.mem_append_right _ hx)).trans (List.map_id _)
  rw [List.map_append, List.map_cons, if_pos (beq_self_eq_true _), hbefore, hafter]

end

namespace Graph

variable {g g' : Graph} {catalog : Catalog} {edit back : GraphEdit}

theorem exists_cut_of_node? {id : NodeId} (h : (g.node? id).isSome) :
    ∃ before n after, g.nodes = before ++ n :: after ∧ n.id = id := by
  obtain ⟨n, hn⟩ := Option.isSome_iff_exists.1 h
  obtain ⟨before, after, hcut⟩ := List.append_of_mem (List.mem_of_find?_eq_some hn)
  exact ⟨before, n, after, hcut, id_of_node? hn⟩

theorem exists_cut_of_connection? {id : ConnectionId} (h : (g.connection? id).isSome) :
    ∃ before c after, g.connections = before ++ c :: after ∧ c.id = id := by
  obtain ⟨c, hc⟩ := Option.isSome_iff_exists.1 h
  obtain ⟨before, after, hcut⟩ := List.append_of_mem (List.mem_of_find?_eq_some hc)
  exact ⟨before, c, after, hcut, by simpa using List.find?_some hc⟩

theorem isSome_node?_of_definitionOf? {id : NodeId} {d : NodeDefinition}
    (h : g.definitionOf? id = some d) : (g.node? id).isSome := by
  obtain ⟨n, hn, -⟩ := Option.bind_eq_some_iff.1 h
  exact Option.isSome_of_mem hn

/-- A node that is not there has no connections. -/
theorem touches_eq_false {id : NodeId} {c : Connection} (hfits : g.Fits c)
    (hnew : g.node? id = none) : c.touches id = false := by
  obtain ⟨source, target, -, -, hsource, htarget, -⟩ := hfits
  have hne : ∀ {end' d}, g.definitionOf? end' = some d → (end' == id) = false := by
    intro end' d hd
    refine beq_false_of_ne fun heq ↦ ?_
    have hsome := isSome_node?_of_definitionOf? hd
    rw [heq, hnew] at hsome
    cases hsome
  rw [Connection.touches, hne hsource, hne htarget]
  rfl

/-! ### Edits that are carried out -/

/-- A change of one node shows in its place. -/
theorem nodes_modifyNode (hids : g.UniqueIds) {before after : List Node} {n : Node}
    (hcut : g.nodes = before ++ n :: after) (change : Node → Node) :
    (g.modifyNode n.id change).nodes = before ++ change n :: after := by
  rw [UniqueIds, hcut] at hids
  rw [modifyNode, hcut]
  exact map_ite_of_nodup hids change

/-- **An edit that is carried out rewrites the snapshot.** -/
theorem rewrites_of_apply (hg : g.Valid catalog) (h : g.apply edit = .ok g') :
    edit.Rewrites g.snapshot g'.snapshot := by
  cases editMove_of_apply h with
  | @addNode n hcheck =>
    refine .addNode ?_
    rw [← node?_isSome_iff, node?_of_checkNode hcheck]
    exact Bool.false_ne_true
  | removeNode hnode =>
    obtain ⟨before, n, after, hcut, rfl⟩ := exists_cut_of_node? hnode
    have hnodes := hg.nodeIds
    rw [hcut] at hnodes
    have htouches : (g.connections.filter fun c ↦ !c.touches n.id) =
        g.connections.filter fun c ↦ c.source ≠ n.id ∧ c.target ≠ n.id :=
      List.filter_congr fun c _ ↦ by
        rw [Bool.eq_iff_iff]
        simp [Connection.touches]
    show GraphEdit.Rewrites _ ⟨g.version, g.nodes, g.connections⟩
      ⟨g.version + 1, g.nodes.filter fun other ↦ other.id != n.id,
        g.connections.filter fun c ↦ !c.touches n.id⟩
    rw [htouches, hcut, filter_ne_of_nodup hnodes]
    exact .removeNode
  | @addConnection c hcheck =>
    exact .addConnection (connection?_eq_none_iff.1 (apart_of_checkConnection hcheck).1)
  | removeConnection hconnection =>
    obtain ⟨before, c, after, hcut, rfl⟩ := exists_cut_of_connection? hconnection
    have hconnections := hg.connectionIds
    rw [hcut] at hconnections
    show GraphEdit.Rewrites _ ⟨g.version, g.nodes, g.connections⟩
      ⟨g.version + 1, g.nodes, g.connections.filter fun other ↦ other.id != c.id⟩
    rw [hcut, filter_ne_of_nodup hconnections]
    exact .removeConnection
  | setConfig hnode =>
    obtain ⟨before, n, after, hcut, rfl⟩ := exists_cut_of_node? hnode
    rw [snapshot, snapshot, hcut]
    show GraphEdit.Rewrites _ _ ⟨g.version + 1, (g.modifyNode n.id _).nodes, g.connections⟩
    rw [nodes_modifyNode hg.uniqueIds hcut]
    exact .setConfig (n.config.setsEntry_insert _ _) rfl
  | setInputValue hport =>
    obtain ⟨_, hinput⟩ := Option.isSome_iff_exists.1 hport
    obtain ⟨_, hd, -⟩ := Option.bind_eq_some_iff.1 hinput
    have hnode := isSome_node?_of_definitionOf? hd
    obtain ⟨before, n, after, hcut, rfl⟩ := exists_cut_of_node? hnode
    rw [snapshot, snapshot, hcut]
    show GraphEdit.Rewrites _ _ ⟨g.version + 1, (g.modifyNode n.id _).nodes, g.connections⟩
    rw [nodes_modifyNode hg.uniqueIds hcut]
    exact .setInputValue (n.inputValues.setsEntry_insert _ _) rfl

/-- It is counted as a change of the topology exactly if it is one. -/
theorem generation_ne_iff (h : g.apply edit = .ok g') :
    g'.generation ≠ g.generation ↔ edit.isTopology = true := by
  constructor
  · intro hne
    by_contra hcontent
    exact hne (generation_congr (skeleton_of_apply (Bool.eq_false_of_not_eq_true hcontent) h))
  · intro htopology
    rw [generation_of_apply htopology h]
    omega

theorem apply_removeNode {id : NodeId} (h : (g.node? id).isSome) :
    g.apply (.removeNode id) = .ok (touchTopology { g with
      nodes := g.nodes.filter fun other ↦ other.id != id
      connections := g.connections.filter fun c ↦ !c.touches id }) := by
  obtain ⟨n, hn⟩ := Option.isSome_iff_exists.1 h
  rw [apply, removeNode, hn]
  rfl

theorem apply_removeConnection {id : ConnectionId} (h : (g.connection? id).isSome) :
    g.apply (.removeConnection id) = .ok (touchTopology { g with
      connections := g.connections.filter fun other ↦ other.id != id }) := by
  obtain ⟨c, hc⟩ := Option.isSome_iff_exists.1 h
  rw [apply, removeConnection, hc]
  rfl

/-- **What has been added can be taken out**, and then all is where it was. -/
theorem apply_undo (hg : g.Valid catalog) (happly : g.apply edit = .ok g')
    (hundo : edit.undo? = some back) :
    ∃ g'', g'.apply back = .ok g'' ∧ g''.nodes = g.nodes ∧ g''.connections = g.connections := by
  cases editMove_of_apply happly with
  | @addNode n hcheck =>
    obtain rfl := Option.some.inj hundo
    have hfound : ((g.appendNode n).touchTopology.node? n.id).isSome :=
      node?_isSome_iff.2 (List.mem_map_of_mem List.mem_concat_self)
    refine ⟨_, apply_removeNode hfound, ?_, ?_⟩
    · exact (filter_ne_of_nodup (hg.uniqueIds.appendNode hcheck)).trans (List.append_nil _)
    · refine List.filter_eq_self.2 fun c hc ↦ ?_
      rw [touches_eq_false (hg.fits c hc) (node?_of_checkNode hcheck)]
      rfl
  | @addConnection c hcheck =>
    obtain rfl := Option.some.inj hundo
    have hfound : ((g.appendConnection c).touchTopology.connection? c.id).isSome :=
      List.find?_isSome.2 ⟨c, List.mem_concat_self, beq_self_eq_true _⟩
    exact ⟨_, apply_removeConnection hfound, rfl,
      (filter_ne_of_nodup (hg.wired.appendConnection hcheck).nodup).trans (List.append_nil _)⟩
  | removeNode | removeConnection | setConfig | setInputValue => cases hundo

/-! ### Edits in place -/

theorem outcome_apply_eq_error_iff {error : EngineError} :
    (InPlace.apply edit).outcome g = (.error error, g') ↔
      g.apply edit = .error error ∧ g' = g := by
  rw [InPlace.outcome_apply]
  rcases g.apply edit with error' | g''
  · simp [CueFlow.InPlace.settle, eq_comm]
  · simp [CueFlow.InPlace.settle]

theorem outcome_apply_eq_ok_iff :
    (InPlace.apply edit).outcome g = (.ok (), g') ↔ g.apply edit = .ok g' := by
  rw [InPlace.outcome_apply]
  rcases g.apply edit with error | g'' <;> simp [CueFlow.InPlace.settle]

/-- **An edit of a valid graph is a plain change of its snapshot.** Carried out in place, an edit
that is refused leaves the graph as it was. One that is not refused rewrites the snapshot, and moves
the generation on exactly if it is an edit of the topology. What has been added can then be taken
out, which leaves the nodes and connections of before. -/
theorem apply_rewrites (hg : g.Valid catalog) (edit : GraphEdit) (g' : Graph) :
    (∀ error, (InPlace.apply edit).outcome g = (.error error, g') →
      g.apply edit = .error error ∧ g' = g) ∧
    ((InPlace.apply edit).outcome g = (.ok (), g') →
      g.apply edit = .ok g' ∧ edit.Rewrites g.snapshot g'.snapshot ∧
      (g'.generation ≠ g.generation ↔ edit.isTopology = true) ∧
      ∀ back, edit.undo? = some back →
        ∃ g'', (InPlace.apply back).outcome g' = (.ok (), g'') ∧ g''.nodes = g.nodes ∧
          g''.connections = g.connections) := by
  refine ⟨fun error hrefused ↦ outcome_apply_eq_error_iff.1 hrefused, fun hdone ↦ ?_⟩
  have happly := outcome_apply_eq_ok_iff.1 hdone
  refine ⟨happly, rewrites_of_apply hg happly, generation_ne_iff happly, fun back hback ↦ ?_⟩
  obtain ⟨g'', hundone, hrestored⟩ := apply_undo hg happly hback
  exact ⟨g'', outcome_apply_eq_ok_iff.2 hundone, hrestored⟩

/-- A second wire is put in and taken out again, and where there is no second wire, taking it out is
refused. With the first wire both of its connections go. -/
theorem apply_rewrites_sampleGraph :
    sampleGraph.Valid sampleCatalog ∧
    (∃ g' g'', (InPlace.apply (.addNode { id := "d", type := "wire" })).outcome sampleGraph =
        (.ok (), g') ∧ g'.nodes = sampleGraph.nodes ++ [{ id := "d", type := "wire" }] ∧
      (InPlace.apply (.removeNode "d")).outcome g' = (.ok (), g'') ∧
      g''.nodes = sampleGraph.nodes ∧ g''.connections = sampleGraph.connections) ∧
    (∀ g', (InPlace.apply (.removeNode "d")).outcome sampleGraph =
      (.error (.unknownNode "d"), g') → g' = sampleGraph) ∧
    ∃ g', (InPlace.apply (.removeNode "b")).outcome sampleGraph = (.ok (), g') ∧
      GraphEdit.Rewrites (.removeNode "b") sampleGraph.snapshot g'.snapshot ∧
      g'.connections = [] ∧ g'.generation ≠ sampleGraph.generation := by
  have hload : Graph.load sampleCatalog untidySnapshot .lenient =
      .ok (sampleGraph, ⟨["a", "d"], ["ab", "ad", "cb"]⟩) := rfl
  have hvalid : sampleGraph.Valid sampleCatalog := (Buildable.load hload).valid
  refine ⟨hvalid, ?_, fun g' hrefused ↦ ?_, _, rfl, ?_⟩
  · obtain ⟨-, -, -, hundo⟩ :=
      (apply_rewrites hvalid (.addNode { id := "d", type := "wire" }) _).2 rfl
    obtain ⟨g'', hback, hrestored⟩ := hundo _ rfl
    exact ⟨_, g'', rfl, rfl, hback, hrestored⟩
  · exact ((apply_rewrites hvalid (.removeNode "d") g').1 _ hrefused).2
  · obtain ⟨-, hrewrites, hgeneration, -⟩ := (apply_rewrites hvalid (.removeNode "b") _).2 rfl
    exact ⟨hrewrites, rfl, hgeneration.2 rfl⟩

end Graph

end CueFlow
