import CueFlow.Proofs.Digraph.Acyclic
import CueFlow.Proofs.Graph.Sound
import CueFlow.Proofs.Plan
/-!
# When a graph compiles, and in which order

In a sound graph with unique ids, the dependencies that are ordered are those between nodes: an edge
for every connection into a compute input (`dependencies_edge_iff`). So the graph compiles exactly
if no node feeds itself, directly or through others, and a plan has what feeds a node before it
(`compile_correct`). Connections into points of delivery make no edge, and neither the verdict nor
the order looks at anything but edges and nodes (`compile_map_order`).
-/

namespace CueFlow

namespace Graph

variable {g : Graph} {plan : Plan}

/-- Some connection leads from the node `u` into a compute input of the node `w`. -/
def Feeds (g : Graph) (u w : NodeId) : Prop :=
  ∃ c ∈ g.connections, c.source = u ∧ c.target = w ∧
    ∃ p, g.targetPort? c = some p ∧ p.kind = .compute

/-- Feeding is a matter of the skeleton. -/
theorem feeds_congr {h : Graph} (hskel : h.skeleton = g.skeleton) {u v : NodeId} :
    h.Feeds u v ↔ g.Feeds u v := by
  have hport : h.targetPort? = g.targetPort? := by
    funext c
    rw [← skeleton_targetPort?, hskel, skeleton_targetPort?]
  rw [Feeds, connections_congr hskel, hport, Feeds]

/-! ### Dependencies -/

theorem endpoints?_eq_some_iff {c : Connection} {i j : Nat} :
    g.endpoints? c = some (i, j) ↔ g.indexOf? c.source = some i ∧ g.indexOf? c.target = some j := by
  rw [endpoints?]
  cases g.indexOf? c.source <;> cases g.indexOf? c.target <;> simp

theorem dependencies_edge_iff {i j : Nat} : g.dependencies.Edge i j ↔
    ∃ c ∈ g.connections, g.indexOf? c.source = some i ∧ g.indexOf? c.target = some j ∧
      ∃ p, g.targetPort? c = some p ∧ p.kind = .compute := by
  simp only [Digraph.Edge, dependencies, connectionsInto, List.mem_filterMap, List.mem_filter,
    endpoints?_eq_some_iff, Bool.and_eq_true, Option.any_eq_true, beq_iff_eq]
  constructor
  · rintro ⟨c, ⟨hc, -, hport⟩, hi, hj⟩
    exact ⟨c, hc, hi, hj, hport⟩
  · rintro ⟨c, hc, hi, hj, hport⟩
    refine ⟨c, ⟨hc, ?_, hport⟩, hi, hj⟩
    rw [endpoints?_eq_some_iff.2 ⟨hi, hj⟩]
    rfl

theorem lt_length_of_indexOf? {id : NodeId} {i : Nat} (h : g.indexOf? id = some i) :
    i < g.nodes.length := by
  obtain ⟨n, hn, -⟩ := getElem?_of_indexOf? h
  exact (List.getElem?_eq_some_iff.1 hn).1

theorem inRange_dependencies (g : Graph) : g.dependencies.InRange := by
  rintro ⟨i, j⟩ hedge
  obtain ⟨c, -, hi, hj, -⟩ := dependencies_edge_iff.1 hedge
  exact ⟨lt_length_of_indexOf? hi, lt_length_of_indexOf? hj⟩

theorem exists_indexOf?_of_definitionOf? {v : NodeId} {d : NodeDefinition}
    (h : g.definitionOf? v = some d) : ∃ i, g.indexOf? v = some i := by
  obtain ⟨n, hn, -⟩ := Option.bind_eq_some_iff.1 h
  rw [← Option.isSome_iff_exists, isSome_indexOf?, hn]
  rfl

/-- What feeds a node is joined to it by an edge. -/
theorem Feeds.exists_edge {u w : NodeId} (hg : g.Sound) (h : g.Feeds u w) :
    ∃ i j, g.indexOf? u = some i ∧ g.indexOf? w = some j ∧ g.dependencies.Edge i j := by
  obtain ⟨c, hc, rfl, rfl, hport⟩ := h
  obtain ⟨source, target, -, -, hsource, htarget, -⟩ := hg.fits c hc
  obtain ⟨i, hi⟩ := exists_indexOf?_of_definitionOf? hsource
  obtain ⟨j, hj⟩ := exists_indexOf?_of_definitionOf? htarget
  exact ⟨i, j, hi, hj, dependencies_edge_iff.2 ⟨c, hc, hi, hj, hport⟩⟩

/-- In a sound graph, what feeds a node is read off the connections that are compiled. -/
theorem Sound.feeds_iff {u w : NodeId} (hg : g.Sound) :
    g.Feeds u w ↔ ∃ c ∈ g.connectionsInto .compute, c.source = u ∧ c.target = w := by
  simp only [connectionsInto, List.mem_filter, Bool.and_eq_true, Option.any_eq_true, beq_iff_eq]
  constructor
  · rintro ⟨c, hc, rfl, rfl, hport⟩
    obtain ⟨i, j, hi, hj, -⟩ := Feeds.exists_edge hg ⟨c, hc, rfl, rfl, hport⟩
    refine ⟨c, ⟨hc, ?_, hport⟩, rfl, rfl⟩
    rw [endpoints?_eq_some_iff.2 ⟨hi, hj⟩]
    rfl
  · rintro ⟨c, ⟨hc, -, hport⟩, hsource, htarget⟩
    exact ⟨c, hc, hsource, htarget, hport⟩

/-- Cycles of edges are cycles of nodes that feed each other. -/
theorem forall_not_onCycle_iff (hg : g.Sound) :
    (∀ i, ¬ g.dependencies.OnCycle i) ↔ ∀ v, ¬ Relation.TransGen g.Feeds v v := by
  simp only [Digraph.onCycle_iff]
  constructor
  · intro hacyclic v hcycle
    refine hacyclic ((g.indexOf? v).getD 0) (hcycle.lift (fun u ↦ (g.indexOf? u).getD 0) ?_)
    intro u w hfeeds
    obtain ⟨i, j, hi, hj, hedge⟩ := hfeeds.exists_edge hg
    show g.dependencies.Edge ((g.indexOf? u).getD 0) ((g.indexOf? w).getD 0)
    rw [hi, hj]
    exact hedge
  · intro hacyclic i hcycle
    refine hacyclic (((g.nodes[i]?).map Node.id).getD "")
      (hcycle.lift (fun i ↦ ((g.nodes[i]?).map Node.id).getD "") ?_)
    intro i j hedge
    obtain ⟨c, hc, hi, hj, hport⟩ := dependencies_edge_iff.1 hedge
    show g.Feeds (((g.nodes[i]?).map Node.id).getD "") (((g.nodes[j]?).map Node.id).getD "")
    rw [map_id_of_indexOf? hi, map_id_of_indexOf? hj]
    exact ⟨c, hc, rfl, rfl, hport⟩

/-! ### Compiling -/

/-- Steps are made of any places if all types are known. -/
theorem exists_planSteps (htypes : ∀ n ∈ g.nodes, g.catalog.contains n.type = true)
    (order : List Nat) : ∃ steps, g.planSteps order = .ok steps := by
  refine exists_mapM_eq_ok fun entry hentry ↦ ?_
  obtain ⟨i, -, hi⟩ := List.mem_filterMap.1 hentry
  obtain ⟨n, hn, rfl⟩ := Option.map_eq_some_iff.1 hi
  obtain ⟨d, hd⟩ := Option.isSome_iff_exists.1 (htypes n (List.mem_of_getElem? hn))
  exact ⟨_, by rw [hd]⟩

/-- The order of a plan is that of the schedule. -/
theorem order_of_compile (h : g.compile = .ok plan) :
    plan.order = g.dependencies.schedule.filterMap fun i ↦ (g.nodes[i]?).map Node.id := by
  rw [← map_index_steps h, List.filterMap_map, Plan.order, ← List.filterMap_eq_map]
  refine List.filterMap_congr fun s hs ↦ ?_
  exact (denotes_of_mem_steps h hs).node.symm

/-- **Verdict and order** of a compilation are read off the dependencies and the nodes. -/
theorem compile_map_order (htypes : ∀ n ∈ g.nodes, g.catalog.contains n.type = true) :
    g.compile.map Plan.order =
      if g.dependencies.unscheduled = [] then
        .ok (g.dependencies.schedule.filterMap fun i ↦ (g.nodes[i]?).map Node.id)
      else .error (.cycle (g.dependencies.unscheduled.filterMap fun i ↦
        (g.nodes[i]?).map Node.id)) := by
  split
  next hall =>
    obtain ⟨steps, hsteps⟩ := exists_planSteps htypes g.dependencies.schedule
    have hcompile := compile_eq_ok_iff.2 ⟨hall, steps, hsteps, rfl⟩
    rw [hcompile, ← order_of_compile hcompile]
    rfl
  next hstuck =>
    rw [compile]
    split
    next hall => exact absurd hall hstuck
    next => rfl

/-- A sound graph compiles exactly if no node feeds itself. -/
theorem exists_compile_iff (hg : g.Sound) :
    (∃ plan, g.compile = .ok plan) ↔ ∀ v, ¬ Relation.TransGen g.Feeds v v := by
  rw [← forall_not_onCycle_iff hg, ← Digraph.unscheduled_eq_nil_iff g.inRange_dependencies]
  constructor
  · rintro ⟨plan, h⟩
    exact (compile_eq_ok_iff.1 h).1
  · intro hall
    obtain ⟨steps, hsteps⟩ := exists_planSteps hg.types g.dependencies.schedule
    exact ⟨_, compile_eq_ok_iff.2 ⟨hall, steps, hsteps, rfl⟩⟩

theorem mem_order_iff (h : g.compile = .ok plan) {v : NodeId} :
    v ∈ plan.order ↔ v ∈ g.nodes.map Node.id := by
  constructor
  · intro hv
    obtain ⟨s, hs, rfl⟩ := List.mem_map.1 hv
    obtain ⟨n, d, hmade⟩ := exists_madeFrom h hs
    rw [hmade.node_eq]
    exact List.mem_map_of_mem (List.mem_of_getElem? hmade.1)
  · intro hv
    obtain ⟨n, hn, rfl⟩ := List.mem_map.1 hv
    obtain ⟨s, hs, d, hmade⟩ := exists_madeFrom_of_mem h hn
    rw [← hmade.node_eq]
    exact List.mem_map_of_mem hs

/-- What feeds a node stands before it. -/
theorem sublist_order_of_feeds (hg : g.Sound) (h : g.compile = .ok plan) {u w : NodeId}
    (hfeeds : g.Feeds u w) : [u, w].Sublist plan.order := by
  obtain ⟨i, j, hi, hj, hedge⟩ := hfeeds.exists_edge hg
  have hscheduled := Digraph.mem_schedule_of_unscheduled_eq_nil (compile_eq_ok_iff.1 h).1
    (g.inRange_dependencies _ hedge).2
  obtain ⟨before, after, hsplit⟩ := List.append_of_mem hscheduled
  have hbefore := Digraph.mem_before_of_mem_edges hsplit hedge
  have hplaces : [i, j].Sublist g.dependencies.schedule := by
    rw [hsplit]
    exact (List.singleton_sublist.2 hbefore).append
      (List.singleton_sublist.2 List.mem_cons_self)
  -- The order has the ids of the places that are scheduled.
  have hids := hplaces.filterMap fun i ↦ (g.nodes[i]?).map Node.id
  rw [order_of_compile h]
  simpa [map_id_of_indexOf? hi, map_id_of_indexOf? hj] using hids

/-- What feeds a node stands in front of the one place at which the node stands. -/
theorem mem_before_of_feeds (hids : g.UniqueIds) (hg : g.Sound) (h : g.compile = .ok plan)
    {u w : NodeId} {before after : List NodeId} (hsplit : plan.order = before ++ w :: after)
    (hfeeds : g.Feeds u w) : u ∈ before := by
  have hnodup : plan.order.Nodup := nodup_node_steps hids h
  obtain ⟨first, last, hparts, hu, hw⟩ :=
    List.cons_sublist_iff.1 (sublist_order_of_feeds hg h hfeeds)
  have hw : w ∈ last := List.singleton_sublist.1 hw
  rw [hparts] at hnodup
  obtain ⟨rest, rfl, -⟩ | ⟨rest, rfl, hrest⟩ :=
    List.append_eq_append_iff.1 (hparts.symm.trans hsplit)
  · exact List.mem_append_left _ hu
  · cases rest with
    | nil => simpa using hu
    | cons w' rest =>
      -- Otherwise the node would stand in both parts.
      obtain ⟨rfl, -⟩ := List.cons.inj hrest
      exact absurd hw (List.disjoint_of_nodup_append hnodup (by simp))

/-- **Induction along a plan**: what holds of a node as soon as it holds of all that feed the node
holds of every node. -/
theorem induction_on_feeds (hids : g.UniqueIds) (hg : g.Sound) (h : g.compile = .ok plan)
    {P : NodeId → Prop}
    (hstep : ∀ v, (g.node? v).isSome → (∀ u, g.Feeds u v → P u) → P v) {v : NodeId}
    (hv : (g.node? v).isSome) : P v := by
  have hprefix : ∀ before after, plan.order = before ++ after → ∀ v ∈ before, P v := by
    intro before
    induction before using List.reverseRecOn with
    | nil => simp
    | append_singleton before w ih =>
      intro after hsplit v hv
      rw [List.append_assoc, List.singleton_append] at hsplit
      rcases List.mem_append.1 hv with hv | hv
      · exact ih _ hsplit v hv
      · obtain rfl := List.mem_singleton.1 hv
        refine hstep v ?_ fun u hfeeds ↦ ih _ hsplit u (mem_before_of_feeds hids hg h hsplit hfeeds)
        rw [node?_isSome_iff, ← mem_order_iff h, hsplit]
        simp
  rw [node?_isSome_iff, ← mem_order_iff h] at hv
  exact hprefix plan.order [] (List.append_nil _).symm v hv

/-- Connections into points of delivery make no dependencies. -/
theorem dependencies_congr {h : Graph} (hcatalog : h.catalog = g.catalog)
    (hnodes : h.nodes = g.nodes)
    (hconnections : h.connections.filter (fun c ↦ !h.isSinkConnection c) =
      g.connections.filter fun c ↦ !g.isSinkConnection c) : h.dependencies = g.dependencies := by
  -- What is skipped would not have been taken for a dependency anyway.
  have hskip : ∀ k : Graph, k.connectionsInto .compute =
      (k.connections.filter fun c ↦ !k.isSinkConnection c).filter fun c ↦
        (k.endpoints? c).isSome && (k.targetPort? c).any fun p ↦ p.kind == .compute := by
    intro k
    rw [connectionsInto, List.filter_filter]
    refine List.filter_congr fun c _ ↦ ?_
    rw [isSinkConnection]
    cases k.targetPort? c with
    | none => simp
    | some p => cases hkind : p.kind <;> simp [Port.isSink, hkind]
  have hends : h.endpoints? = g.endpoints? := by
    funext c
    simp only [endpoints?, indexOf?, hnodes]
  have hports : h.targetPort? = g.targetPort? := by
    funext c
    simp only [targetPort?, definitionOf?, node?, hnodes, hcatalog]
  rw [dependencies, dependencies, hskip, hskip, hconnections, hends, hports, hnodes]

/-! ### The result -/

/-- **A graph compiles exactly if no node feeds itself through compute inputs**, and the search for
the order ends without settling an edge twice. A plan has every node exactly once, and what feeds a
node before it. Verdict and order stay the same whatever connections into points of delivery come or
go. -/
theorem compile_correct (h : g.Buildable) :
    (∀ order, g.dependencies.Runs g.dependencies.pending order ↔
      order = g.dependencies.schedule) ∧
    ((∃ plan, g.compile = .ok plan) ↔ ∀ v, ¬ Relation.TransGen g.Feeds v v) ∧
    (∀ plan, g.compile = .ok plan →
      plan.order.Nodup ∧ (∀ v, v ∈ plan.order ↔ v ∈ g.nodes.map Node.id) ∧
        ∀ u w, g.Feeds u w → [u, w].Sublist plan.order) ∧
    ∀ g' : Graph, g'.catalog = g.catalog → g'.nodes = g.nodes →
      g'.connections.filter (fun c ↦ !g'.isSinkConnection c) =
        g.connections.filter (fun c ↦ !g.isSinkConnection c) →
      g'.compile.map Plan.order = g.compile.map Plan.order := by
  refine ⟨fun order ↦ Digraph.runs_iff g.inRange_dependencies, exists_compile_iff h.sound,
    fun plan hplan ↦ ?_, fun g' hcatalog hnodes hconnections ↦ ?_⟩
  · exact ⟨nodup_node_steps h.uniqueIds hplan, fun v ↦ mem_order_iff hplan,
      fun u w ↦ sublist_order_of_feeds h.sound hplan⟩
  · rw [compile_map_order h.sound.types, compile_map_order (by
      rw [hnodes, hcatalog]
      exact h.sound.types), dependencies_congr hcatalog hnodes hconnections, hnodes]

/-! ### Feedback through a device -/

/-- A lamp reports its level to a filter, which sets the lamp. -/
def feedbackGraph : Graph where
  catalog := .ofDefinitions [
    { type := "filter"
      inputs := [{ id := "in", type := .number }]
      outputs := [{ id := "out", type := .number }]
      process := fun inputs _ _ ↦ .ok ((inputs.get? "in").toList.map fun v ↦ ("out", v)) },
    { type := "lamp"
      inputs := [{ id := "in", type := .number, kind := .sink }]
      outputs := [{ id := "level", type := .number }]
      process := fun _ _ _ ↦ .ok [("level", .number 1.0)]
      sink := some fun _ _ _ ↦ .ok () }]
  nodes := [{ id := "f", type := "filter" }, { id := "l", type := "lamp" }]
  connections := [⟨"lf", "l", "level", "f", "in"⟩, ⟨"fl", "f", "out", "l", "in"⟩]

/-- The lamp comes first, with or without the way back to it. -/
theorem compile_correct_feedback : ∃ plan, feedbackGraph.Buildable ∧
    feedbackGraph.compile = .ok plan ∧ feedbackGraph.Feeds "l" "f" ∧
    ["l", "f"].Sublist plan.order ∧
    ({ feedbackGraph with connections := feedbackGraph.connections.take 1 }).compile.map
      Plan.order = .ok plan.order := by
  have hload : Graph.load feedbackGraph.catalog feedbackGraph.snapshot .strict =
      .ok (feedbackGraph, {}) := rfl
  have hfeeds : feedbackGraph.Feeds "l" "f" :=
    ⟨_, List.mem_cons_self, rfl, rfl, _, rfl, rfl⟩
  obtain ⟨-, -, hplan, hsame⟩ := compile_correct (.load hload)
  have hcompile : ∃ plan, feedbackGraph.compile = .ok plan := ⟨_, rfl⟩
  obtain ⟨plan, hok⟩ := hcompile
  refine ⟨plan, .load hload, hok, hfeeds, (hplan plan hok).2.2 _ _ hfeeds, ?_⟩
  exact (hsame _ rfl rfl rfl).trans (congrArg (Except.map Plan.order) hok)

end Graph

end CueFlow
