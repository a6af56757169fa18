import CueFlow.Proofs.Digraph.Schedule
import CueFlow.Proofs.Graph.Unique
/-!
# What a compiled plan says about its graph

A graph that compiles has one step for each of its nodes (`map_index_steps`, `exists_step`), made
from the node and its definition (`exists_madeFrom`). Every index in a step denotes what its
connection names (`denotes_of_mem_steps`), also in any other graph with the same skeleton
(`PlanStep.Denotes.congr`). The order is that of the schedule, so the node that a compute input
reads from has its step before the reader's (`exists_step_of_mem_computeRoutes`).
-/

namespace CueFlow

/-- The places that a step names are those of the nodes it means: its own place has its node, and
every route leads to the source of a connection into that port of the node. -/
structure PlanStep.Denotes (s : PlanStep) (g : Graph) : Prop where
  node : (g.nodes[s.index]?).map Node.id = some s.node
  compute : ∀ r ∈ s.computeRoutes, ∃ c ∈ g.connections, c.target = s.node ∧
    c.targetPort = r.port ∧ c.sourcePort = r.sourcePort ∧
    (g.nodes[r.source]?).map Node.id = some c.source
  sink : ∀ r ∈ s.sinkRoutes, ∀ source ∈ r.sources, ∃ c ∈ g.connections, c.target = s.node ∧
    c.targetPort = r.port ∧ c.sourcePort = source.2 ∧
    (g.nodes[source.1]?).map Node.id = some c.source

namespace Graph

variable {g : Graph} {plan : Plan} {s : PlanStep} {n : Node} {d : NodeDefinition}

/-! ### Steps and nodes -/

/-- Compiling succeeds if nothing is left unscheduled and all types are known, and the plan is made
of the steps of the schedule. -/
theorem compile_eq_ok_iff : g.compile = .ok plan ↔ g.dependencies.unscheduled = [] ∧
    ∃ steps, g.planSteps g.dependencies.schedule = .ok steps ∧
      ⟨steps, g.generation, g.planStats⟩ = plan := by
  rw [compile]
  split
  next hall =>
    rw [bind_eq_ok_iff]
    constructor
    · rintro ⟨steps, hsteps, h⟩
      exact ⟨hall, steps, hsteps, Except.ok.inj h⟩
    · rintro ⟨-, steps, hsteps, h⟩
      exact ⟨steps, hsteps, congrArg Except.ok h⟩
  next hstuck =>
    constructor
    · intro h
      cases h
    · rintro ⟨hall, -⟩
      exact absurd hall hstuck

/-- A plan bears the generation of the graph that it is made from. -/
theorem generation_of_compile (h : g.compile = .ok plan) : plan.generation = g.generation := by
  obtain ⟨-, steps, -, rfl⟩ := compile_eq_ok_iff.1 h
  rfl

/-- A step is made from the node at its place and the definition of that node. -/
def MadeFrom (g : Graph) (s : PlanStep) (n : Node) (d : NodeDefinition) : Prop :=
  g.nodes[s.index]? = some n ∧ g.catalog.get? n.type = some d ∧ s = g.planStep s.index n d

/-- A step is named after its node. -/
theorem MadeFrom.node_eq (hmade : g.MadeFrom s n d) : s.node = n.id := by
  rw [hmade.2.2]
  rfl

theorem MadeFrom.definition_eq (hmade : g.MadeFrom s n d) : s.definition = d := by
  rw [hmade.2.2]
  rfl

/-- The points of delivery of a step are routed from the connections into its node. -/
theorem MadeFrom.sinkRoutes_eq (hmade : g.MadeFrom s n d) : s.sinkRoutes =
    g.sinkRoutes d (g.connections.filter fun c ↦ c.target == n.id) [] d.sinkInputs := by
  rw [hmade.2.2]
  rfl

/-- The compute inputs of a step are routed from the connections into its node. -/
theorem MadeFrom.computeRoutes_eq (hmade : g.MadeFrom s n d) : s.computeRoutes =
    (g.connections.filter fun c ↦ c.target == n.id).filterMap (g.computeRoute? d) := by
  rw [hmade.2.2]
  rfl

/-- The place of a connection's target, when that is the node of the step. -/
theorem MadeFrom.indexOf?_target (hmade : g.MadeFrom s n d) (hg : g.UniqueIds) {c : Connection}
    (htarget : c.target = n.id) : g.indexOf? c.target = some s.index := by
  rw [htarget]
  exact indexOf?_of_getElem? hg hmade.1

/-- The port that a connection leads into, when its target is the node of the step. -/
theorem MadeFrom.targetPort?_eq (hmade : g.MadeFrom s n d) (hg : g.UniqueIds) {c : Connection}
    (htarget : c.target = n.id) : g.targetPort? c = d.input? c.targetPort := by
  rw [targetPort?, definitionOf?, htarget, node?_of_getElem? hg hmade.1, Option.bind_some,
    hmade.2.1, Option.bind_some]

/-- The steps of an order stand in this order, each made from the node at its place. -/
theorem map_index_of_planSteps {order : List Nat} {steps : List PlanStep}
    (hlt : ∀ i ∈ order, i < g.nodes.length) (h : g.planSteps order = .ok steps) :
    steps.map PlanStep.index = order ∧ ∀ s ∈ steps, ∃ n d, g.MadeFrom s n d := by
  induction order generalizing steps with
  | nil =>
    obtain rfl := Except.ok.inj h
    simp
  | cons i rest ih =>
    obtain ⟨n, hn⟩ : ∃ n, g.nodes[i]? = some n :=
      ⟨_, List.getElem?_eq_getElem (hlt i List.mem_cons_self)⟩
    rw [planSteps, List.filterMap_cons_some (b := (i, n)) (by rw [hn]; rfl), List.mapM_cons,
      bind_eq_ok_iff] at h
    obtain ⟨s, hs, h⟩ := h
    obtain ⟨steps', hsteps, h⟩ := bind_eq_ok_iff.1 h
    obtain rfl := Except.ok.inj h
    obtain ⟨hindex, hmade⟩ := ih (fun j hj ↦ hlt j (List.mem_cons_of_mem _ hj)) hsteps
    split at hs
    next d hd =>
      obtain rfl := Except.ok.inj hs
      refine ⟨by rw [List.map_cons, hindex]; rfl, fun s hs ↦ ?_⟩
      rcases List.mem_cons.1 hs with rfl | hs
      · exact ⟨n, d, hn, hd, rfl⟩
      · exact hmade s hs
    next => cases hs

/-- The steps of a plan stand in the order of the schedule. -/
theorem map_index_of_compile (h : g.compile = .ok plan) :
    plan.steps.map PlanStep.index = g.dependencies.schedule ∧
      ∀ s ∈ plan.steps, ∃ n d, g.MadeFrom s n d := by
  obtain ⟨-, steps, hsteps, rfl⟩ := compile_eq_ok_iff.1 h
  exact map_index_of_planSteps (fun i hi ↦ Digraph.lt_size_of_mem_schedule hi) hsteps

/-- The steps stand in the order of the schedule. -/
theorem map_index_steps (h : g.compile = .ok plan) :
    plan.steps.map PlanStep.index = g.dependencies.schedule :=
  (map_index_of_compile h).1

/-- Every step of a plan is made from a node. -/
theorem exists_madeFrom (h : g.compile = .ok plan) (hs : s ∈ plan.steps) :
    ∃ n d, g.MadeFrom s n d :=
  (map_index_of_compile h).2 s hs

/-- No place has two steps. -/
theorem nodup_index_steps (h : g.compile = .ok plan) : (plan.steps.map PlanStep.index).Nodup := by
  rw [map_index_steps h]
  exact g.dependencies.schedule_nodup

/-- Every node has a step. -/
theorem exists_step (h : g.compile = .ok plan) {i : Nat} (hi : i < g.nodes.length) :
    ∃ s ∈ plan.steps, s.index = i := by
  have hmem : i ∈ plan.steps.map PlanStep.index := by
    rw [map_index_steps h]
    exact Digraph.mem_schedule_of_unscheduled_eq_nil (compile_eq_ok_iff.1 h).1 hi
  obtain ⟨s, hs, hindex⟩ := List.mem_map.1 hmem
  exact ⟨s, hs, hindex⟩

/-- Every node has a step that is made from it. -/
theorem exists_madeFrom_of_mem (h : g.compile = .ok plan) (hn : n ∈ g.nodes) :
    ∃ s ∈ plan.steps, ∃ d, g.MadeFrom s n d := by
  obtain ⟨i, hi⟩ := List.mem_iff_getElem?.1 hn
  obtain ⟨s, hs, rfl⟩ := exists_step h (List.getElem?_eq_some_iff.1 hi).1
  obtain ⟨n', d, hmade⟩ := exists_madeFrom h hs
  obtain rfl : n' = n := Option.some.inj (hmade.1.symm.trans hi)
  exact ⟨s, hs, d, hmade⟩

/-! ### Indices and what they denote -/

theorem map_id_of_indexOf? {id : NodeId} {i : Nat} (h : g.indexOf? id = some i) :
    (g.nodes[i]?).map Node.id = some id := by
  obtain ⟨n, hn, rfl⟩ := getElem?_of_indexOf? h
  rw [hn]
  rfl

/-- A step is fed by the connections into compute inputs of its node, and by no others. -/
theorem mem_computeRoutes_planStep {index : Nat} {n : Node} {d : NodeDefinition} {r : InputRoute} :
    r ∈ (g.planStep index n d).computeRoutes ↔ ∃ c ∈ g.connections, c.target = n.id ∧
      g.indexOf? c.source = some r.source ∧ (∃ p, d.input? c.targetPort = some p ∧ !p.isSink) ∧
      c.targetPort = r.port ∧ c.sourcePort = r.sourcePort := by
  rw [planStep, List.mem_filterMap]
  constructor
  · rintro ⟨c, hc, hroute⟩
    obtain ⟨hmem, htarget⟩ := List.mem_filter.1 hc
    rw [computeRoute?] at hroute
    split at hroute
    next source port hsource hport =>
      split at hroute
      · cases hroute
      next hsink =>
        obtain rfl := Option.some.inj hroute
        exact ⟨c, hmem, by simpa using htarget, hsource, ⟨port, hport, by simpa using hsink⟩,
          rfl, rfl⟩
    next => cases hroute
  · rintro ⟨c, hmem, htarget, hsource, ⟨port, hport, hsink⟩, htargetPort, hsourcePort⟩
    refine ⟨c, List.mem_filter.2 ⟨hmem, by simpa using htarget⟩, ?_⟩
    rw [computeRoute?, hsource, hport]
    simp_all

/-- A point of delivery is fed by the connections into it, and by no others. -/
theorem mem_sinkSources_iff {incoming : List Connection} {port : String} {source : Nat × String} :
    source ∈ g.sinkSources d incoming port ↔ ∃ c ∈ incoming, c.targetPort = port ∧
      (d.input? c.targetPort).any Port.isSink = true ∧ g.indexOf? c.source = some source.1 ∧
      c.sourcePort = source.2 := by
  rw [sinkSources, List.mem_filterMap]
  refine exists_congr fun c ↦ and_congr_right fun _ ↦ ?_
  rw [Option.ite_none_right_eq_some, Bool.and_eq_true, beq_iff_eq, Option.map_eq_some_iff,
    and_assoc]
  refine and_congr_right fun _ ↦ and_congr_right fun _ ↦ ?_
  constructor
  · rintro ⟨i, hi, rfl⟩
    exact ⟨hi, rfl⟩
  · rintro ⟨hi, hport⟩
    exact ⟨source.1, hi, Prod.ext rfl hport⟩

theorem mem_sources_sinkRoutes {d : NodeDefinition} {incoming : List Connection}
    {seen : List String} {ports : List Port} {r : SinkRoute} {source : Nat × String}
    (hr : r ∈ g.sinkRoutes d incoming seen ports) (hsource : source ∈ r.sources) :
    ∃ c ∈ incoming, c.targetPort = r.port ∧ c.sourcePort = source.2 ∧
      g.indexOf? c.source = some source.1 := by
  induction ports generalizing seen with
  | nil => simp [sinkRoutes] at hr
  | cons p rest ih =>
    rcases List.mem_cons.1 hr with rfl | hr
    · dsimp only at hsource ⊢
      split at hsource
      · cases hsource
      · obtain ⟨c, hc, hport, -, hindex, hsourcePort⟩ := mem_sinkSources_iff.1 hsource
        exact ⟨c, hc, hport, hsourcePort, hindex⟩
    · exact ih hr

/-- **Every index in a plan denotes what it stands for.** -/
theorem denotes_of_mem_steps (h : g.compile = .ok plan) (hs : s ∈ plan.steps) : s.Denotes g := by
  obtain ⟨n, d, hn, -, hstep⟩ := exists_madeFrom h hs
  rw [hstep]
  refine ⟨by rw [planStep, hn]; rfl, fun r hr ↦ ?_, fun r hr source hsource ↦ ?_⟩
  · obtain ⟨c, hc, htarget, hsource, -, htargetPort, hsourcePort⟩ := mem_computeRoutes_planStep.1 hr
    exact ⟨c, hc, htarget, htargetPort, hsourcePort, map_id_of_indexOf? hsource⟩
  · obtain ⟨c, hc, htargetPort, hsourcePort, hindex⟩ := mem_sources_sinkRoutes hr hsource
    obtain ⟨hmem, htarget⟩ := List.mem_filter.1 hc
    have htarget : c.target = n.id := by simpa using htarget
    exact ⟨c, hmem, htarget, htargetPort, hsourcePort, map_id_of_indexOf? hindex⟩

end Graph

/-- What a step denotes does not hang on the content of nodes. -/
theorem PlanStep.Denotes.congr {s : PlanStep} {g h : Graph} (hs : s.Denotes g)
    (hskel : h.skeleton = g.skeleton) : s.Denotes h := by
  have hid := Graph.map_id_getElem?_congr hskel
  have hconn := Graph.connections_congr hskel
  exact ⟨by rw [hid]; exact hs.node, by simpa only [hid, hconn] using hs.compute,
    by simpa only [hid, hconn] using hs.sink⟩

namespace Graph

variable {g : Graph} {plan : Plan} {s : PlanStep}

/-- A step made from a node is also made from its counterpart in a graph with the same skeleton. -/
theorem MadeFrom.congr {h : Graph} {n : Node} {d : NodeDefinition} (hmade : g.MadeFrom s n d)
    (hskel : h.skeleton = g.skeleton) : ∃ n', h.MadeFrom s n' d ∧ n'.id = n.id := by
  obtain ⟨hn, hd, hstep⟩ := hmade
  have hbare : (h.nodes[s.index]?).map Node.bare = some n.bare := by
    have hnodes := congrArg (fun k : Graph ↦ k.nodes[s.index]?) hskel
    simpa [hn] using hnodes
  obtain ⟨n', hn', hbare⟩ := Option.map_eq_some_iff.1 hbare
  have hid : n'.bare.id = n.bare.id := congrArg Node.id hbare
  have htype : n'.bare.type = n.bare.type := congrArg Node.type hbare
  rw [Node.bare_type, Node.bare_type] at htype
  refine ⟨n', ⟨hn', ?_, ?_⟩, hid⟩
  · rw [catalog_congr hskel, htype]
    exact hd
  · rw [← skeleton_planStep, hskel, hbare, skeleton_planStep]
    exact hstep

/-- The place of a step is the place of its node. -/
theorem indexOf?_of_mem_steps (hg : g.UniqueIds) (h : g.compile = .ok plan) (hs : s ∈ plan.steps) :
    g.indexOf? s.node = some s.index := by
  obtain ⟨n, d, hn, -, hstep⟩ := exists_madeFrom h hs
  rw [hstep]
  exact indexOf?_of_getElem? hg hn

/-- No node has two steps. -/
theorem nodup_node_steps (hg : g.UniqueIds) (h : g.compile = .ok plan) :
    (plan.steps.map PlanStep.node).Nodup := by
  refine List.Nodup.map_on (fun s hs s' hs' hnode ↦ ?_) (List.Nodup.of_map _ (nodup_index_steps h))
  have hindex := indexOf?_of_mem_steps hg h hs
  rw [hnode, indexOf?_of_mem_steps hg h hs'] at hindex
  exact List.inj_on_of_nodup_map (nodup_index_steps h) hs hs' (Option.some.inj hindex).symm

/-- The node that a compute input reads from has its step before the reader's. -/
theorem exists_step_of_mem_computeRoutes (hg : g.UniqueIds) (h : g.compile = .ok plan)
    {before after : List PlanStep} (hsplit : plan.steps = before ++ s :: after) {r : InputRoute}
    (hr : r ∈ s.computeRoutes) : ∃ s' ∈ before, s'.index = r.source := by
  have hs : s ∈ plan.steps := by simp [hsplit]
  obtain ⟨n, d, hmade⟩ := exists_madeFrom h hs
  rw [hmade.2.2] at hr
  obtain ⟨c, hc, htarget, hsource, ⟨port, hport, hsink⟩, -⟩ := mem_computeRoutes_planStep.1 hr
  have hends : g.endpoints? c = some (r.source, s.index) := by
    rw [endpoints?, hsource, hmade.indexOf?_target hg htarget]
  have hdef : g.targetPort? c = some port := (hmade.targetPort?_eq hg htarget).trans hport
  have hkind : port.kind = .compute := by
    cases hk : port.kind
    · rfl
    · simp [Port.isSink, hk] at hsink
  have hedge : (r.source, s.index) ∈ g.dependencies.edges := by
    refine List.mem_filterMap.2 ⟨c, List.mem_filter.2 ⟨hc, ?_⟩, hends⟩
    simp [hends, hdef, hkind]
  have horder : g.dependencies.schedule =
      before.map PlanStep.index ++ s.index :: after.map PlanStep.index := by
    rw [← map_index_steps h, hsplit, List.map_append, List.map_cons]
  simpa using Digraph.mem_before_of_mem_edges horder hedge

end Graph

end CueFlow
