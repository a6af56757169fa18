import CueFlow.Proofs.Graph.Snapshot
import CueFlow.Proofs.Plan.Order
/-!
# Every connection is routed once

A plan has no connections, only routes: each step reads its compute inputs and the producers of its
points of delivery by place. `PlanStep.arrivals` lists what a step reads, and `Graph.arrival?` is
what a connection ought to come to, told from the graph alone. Over all steps of the plan of a valid
graph the two are the same up to order (`routed_once`): nothing is dropped, read twice or read from
the wrong node.

Whether a connection leads into a compute input or into a point of delivery is decided twice, once
for the order of the steps and figures of the plan and once for their routes. In a valid graph both
come to `Graph.isSinkConnection`.
-/

namespace CueFlow

/-- A connection as a plan has it: the node and the input it leads into, and where it is read. -/
structure Arrival where
  target : NodeId
  kind : PortKind
  port : String
  /-- The place of the source node. -/
  source : Nat
  sourcePort : String
deriving DecidableEq

/-- What a compute route of a node reads. -/
def InputRoute.arrival (v : NodeId) (r : InputRoute) : Arrival :=
  ⟨v, .compute, r.port, r.source, r.sourcePort⟩

/-- What the route of a point of delivery reads, producer by producer. -/
def SinkRoute.arrivals (v : NodeId) (r : SinkRoute) : List Arrival :=
  r.sources.map fun source ↦ ⟨v, .sink, r.port, source.1, source.2⟩

/-- All that a step reads. -/
def PlanStep.arrivals (s : PlanStep) : List Arrival :=
  s.computeRoutes.map (InputRoute.arrival s.node) ++
    s.sinkRoutes.flatMap (SinkRoute.arrivals s.node)

namespace Graph

/-- What a connection comes to in a plan. -/
def arrival? (g : Graph) (c : Connection) : Option Arrival :=
  match g.indexOf? c.source, g.targetPort? c with
  | some source, some p => some ⟨c.target, p.kind, c.targetPort, source, c.sourcePort⟩
  | _, _ => none

/-- The connections into a point of delivery, in the order in which they were added. -/
def deliveriesInto (g : Graph) (v : NodeId) (port : String) : List Connection :=
  g.connections.filter fun c ↦ c.target == v && c.targetPort == port && g.isSinkConnection c

end Graph

/-! ### Parts of a list -/

section Parts

variable {α κ : Type} [DecidableEq κ]

/-- Two parts of a list without common members make up what is in either of them. -/
theorem filter_append_filter_perm {l : List α} {p q : α → Bool}
    (h : ∀ x ∈ l, p x = true → q x = false) :
    (l.filter p ++ l.filter q).Perm (l.filter fun x ↦ p x || q x) := by
  have hparts := List.filter_append_perm p (l.filter fun x ↦ p x || q x)
  have hleft : (l.filter fun x ↦ p x || q x).filter p = l.filter p := by
    rw [List.filter_filter]
    refine List.filter_congr fun x _ ↦ ?_
    cases p x <;> simp
  have hright : ((l.filter fun x ↦ p x || q x).filter fun x ↦ !p x) = l.filter q := by
    rw [List.filter_filter]
    refine List.filter_congr fun x hx ↦ ?_
    cases hp : p x with
    | true => rw [h x hx hp]; rfl
    | false => simp
  rwa [hleft, hright] at hparts

/-- A list sorted by keys that do not repeat has the members whose keys are there. -/
theorem flatMap_filter_perm (l : List α) (f : α → κ) {keys : List κ} (h : keys.Nodup) :
    (keys.flatMap fun k ↦ l.filter fun x ↦ f x == k).Perm (l.filter fun x ↦ f x ∈ keys) := by
  induction keys with
  | nil => simp
  | cons k rest ih =>
    obtain ⟨hnew, hrest⟩ := List.nodup_cons.1 h
    rw [List.flatMap_cons]
    refine ((ih hrest).append_left _).trans ((filter_append_filter_perm fun x _ hx ↦ ?_).trans ?_)
    · rw [eq_of_beq hx]
      simpa using hnew
    · refine .of_eq (List.filter_congr fun x _ ↦ ?_)
      simp [List.mem_cons, Bool.beq_eq_decide_eq]

end Parts

namespace Graph

variable {g : Graph} {plan : Plan} {s : PlanStep} {n : Node} {d : NodeDefinition} {c : Connection}

/-! ### Connections of a sound graph -/

theorem Sound.exists_source (hg : g.Sound) (hc : c ∈ g.connections) :
    ∃ i, g.indexOf? c.source = some i := by
  obtain ⟨source, target, output, input, hsource, -⟩ := hg.fits c hc
  exact exists_indexOf?_of_definitionOf? hsource

theorem Sound.exists_target (hg : g.Sound) (hc : c ∈ g.connections) :
    ∃ i, g.indexOf? c.target = some i := by
  obtain ⟨source, target, output, input, -, htarget, -⟩ := hg.fits c hc
  exact exists_indexOf?_of_definitionOf? htarget

theorem Sound.exists_targetPort (hg : g.Sound) (hc : c ∈ g.connections) :
    ∃ p, g.targetPort? c = some p := by
  obtain ⟨source, target, output, input, -, htarget, -, hinput, -⟩ := hg.fits c hc
  exact ⟨input, by rw [targetPort?, htarget, Option.bind_some, hinput]⟩

/-- What a connection comes to. -/
theorem Sound.exists_arrival (hg : g.Sound) (hc : c ∈ g.connections) :
    ∃ a, g.arrival? c = some a := by
  obtain ⟨i, hi⟩ := hg.exists_source hc
  obtain ⟨p, hp⟩ := hg.exists_targetPort hc
  exact ⟨_, by rw [arrival?, hi, hp]⟩

/-- Every connection of a sound graph is compiled, under the kind of the input it leads into. -/
theorem Sound.connectionsInto_eq (hg : g.Sound) (kind : PortKind) : g.connectionsInto kind =
    g.connections.filter fun c ↦ (g.targetPort? c).any fun p ↦ p.kind == kind := by
  refine List.filter_congr fun c hc ↦ ?_
  obtain ⟨i, hi⟩ := hg.exists_source hc
  obtain ⟨j, hj⟩ := hg.exists_target hc
  rw [endpoints?_eq_some_iff.2 ⟨hi, hj⟩]
  rfl

/-- The figures of a plan count every connection once. -/
theorem Sound.length_connectionsInto (hg : g.Sound) :
    (g.connectionsInto .compute).length + (g.connectionsInto .sink).length =
      g.connections.length := by
  have hsink : g.connectionsInto .sink =
      g.connections.filter fun c ↦ !(g.targetPort? c).any fun p ↦ p.kind == .compute := by
    rw [hg.connectionsInto_eq]
    refine List.filter_congr fun c hc ↦ ?_
    obtain ⟨p, hp⟩ := hg.exists_targetPort hc
    rw [hp]
    cases hkind : p.kind <;> simp [hkind]
  rw [hsink, hg.connectionsInto_eq]
  exact (List.length_eq_length_filter_add _).symm

/-! ### What one step reads -/

/-- A compute route, for a connection into the node of the step. -/
theorem map_arrival_computeRoute? (hids : g.UniqueIds) (hmade : g.MadeFrom s n d)
    (htarget : c.target = n.id) : (g.computeRoute? d c).map (InputRoute.arrival s.node) =
      if g.isSinkConnection c then none else g.arrival? c := by
  rw [computeRoute?, isSinkConnection, arrival?, hmade.targetPort?_eq hids htarget, hmade.node_eq,
    ← htarget]
  cases g.indexOf? c.source with
  | none => simp
  | some source =>
    cases d.input? c.targetPort with
    | none => rfl
    | some p => cases hkind : p.kind <;> simp [Port.isSink, hkind, InputRoute.arrival]

/-- The compute routes of a step are its connections that are not delivered. -/
theorem map_arrival_computeRoutes (hids : g.UniqueIds) (hmade : g.MadeFrom s n d) :
    s.computeRoutes.map (InputRoute.arrival s.node) =
      ((g.connections.filter fun c ↦ c.target == n.id).filter
        fun c ↦ !g.isSinkConnection c).filterMap g.arrival? := by
  rw [hmade.computeRoutes_eq, List.map_filterMap,
    List.filterMap_filter (p := fun c ↦ !g.isSinkConnection c)]
  refine List.filterMap_congr fun c hc ↦ ?_
  rw [map_arrival_computeRoute? hids hmade (by simpa using (List.mem_filter.1 hc).2)]
  cases g.isSinkConnection c <;> rfl

/-- The producers of a point of delivery are the connections into it, in their order. -/
theorem sinkSources_eq (hids : g.UniqueIds) (hmade : g.MadeFrom s n d) (port : String) :
    g.sinkSources d (g.connections.filter fun c ↦ c.target == n.id) port =
      (g.deliveriesInto n.id port).filterMap fun c ↦
        (g.indexOf? c.source).map fun source ↦ (source, c.sourcePort) := by
  rw [sinkSources, deliveriesInto, List.filterMap_filter, List.filterMap_filter]
  refine List.filterMap_congr fun c _ ↦ ?_
  by_cases htarget : c.target = n.id
  · rw [isSinkConnection, hmade.targetPort?_eq hids htarget]
    simp [htarget]
  · simp [htarget]

/-- What is read at a point of delivery. -/
theorem arrivals_sinkSources (hids : g.UniqueIds) (hmade : g.MadeFrom s n d) (port : String) :
    SinkRoute.arrivals s.node
        ⟨port, g.sinkSources d (g.connections.filter fun c ↦ c.target == n.id) port⟩ =
      (g.deliveriesInto n.id port).filterMap g.arrival? := by
  rw [SinkRoute.arrivals, sinkSources_eq hids hmade, List.map_filterMap]
  refine List.filterMap_congr fun c hc ↦ ?_
  obtain ⟨-, hends⟩ := List.mem_filter.1 hc
  rw [Bool.and_eq_true, Bool.and_eq_true, beq_iff_eq, beq_iff_eq] at hends
  obtain ⟨⟨htarget, rfl⟩, hsink⟩ := hends
  obtain ⟨p, hp, hkind⟩ := Option.any_eq_true _ _ |>.1 hsink
  have hkind : p.kind = .sink := by simpa [Port.isSink] using hkind
  rw [arrival?, hp, hmade.node_eq, htarget]
  cases g.indexOf? c.source with
  | none => rfl
  | some source => simp [hkind]

/-- The routes of points of delivery read the connections into these points, apart from those that
belong to ids that were seen before. -/
theorem arrivals_sinkRoutes_perm (hids : g.UniqueIds) (hmade : g.MadeFrom s n d)
    (seen : List String) (ports : List Port) :
    ((g.sinkRoutes d (g.connections.filter fun c ↦ c.target == n.id) seen ports).flatMap
        (SinkRoute.arrivals s.node)).Perm
      ((g.connections.filter fun c ↦ (c.target == n.id && g.isSinkConnection c) &&
        decide (c.targetPort ∈ ports.map Port.id ∧ c.targetPort ∉ seen)).filterMap g.arrival?) := by
  induction ports generalizing seen with
  | nil => simp [sinkRoutes]
  | cons p rest ih =>
    have hfirst : SinkRoute.arrivals s.node ⟨p.id, if p.id ∈ seen then [] else
        g.sinkSources d (g.connections.filter fun c ↦ c.target == n.id) p.id⟩ =
        (g.connections.filter fun c ↦ (c.target == n.id && g.isSinkConnection c) &&
          decide (c.targetPort = p.id ∧ c.targetPort ∉ seen)).filterMap g.arrival? := by
      by_cases hseen : p.id ∈ seen
      · have hnone : (g.connections.filter fun c ↦ (c.target == n.id && g.isSinkConnection c) &&
            decide (c.targetPort = p.id ∧ c.targetPort ∉ seen)) = [] := by
          rw [List.filter_eq_nil_iff]
          intro c _ hc
          rw [Bool.and_eq_true, decide_eq_true_eq] at hc
          exact hc.2.2 (hc.2.1 ▸ hseen)
        rw [hnone, if_pos hseen]
        rfl
      · rw [if_neg hseen, arrivals_sinkSources hids hmade, deliveriesInto]
        refine congrArg (List.filterMap g.arrival?) (List.filter_congr fun c _ ↦ ?_)
        by_cases hport : c.targetPort = p.id
        · simp [hport, hseen]
        · simp [hport]
    rw [sinkRoutes, List.flatMap_cons, hfirst]
    refine ((ih _).append_left _).trans ?_
    rw [← List.filterMap_append]
    refine ((filter_append_filter_perm fun c _ hc ↦ ?_).trans (.of_eq ?_)).filterMap _
    · rw [Bool.and_eq_true, decide_eq_true_eq] at hc
      simp [hc.2.1]
    · refine List.filter_congr fun c _ ↦ ?_
      by_cases hport : c.targetPort = p.id
      · simp [hport]
      · simp [hport]

/-- **A step reads the connections into its node**, each of them once. -/
theorem arrivals_perm (hids : g.UniqueIds) (hmade : g.MadeFrom s n d) :
    s.arrivals.Perm ((g.connections.filter fun c ↦ c.target == s.node).filterMap g.arrival?) := by
  have hdelivered : (g.connections.filter fun c ↦ (c.target == n.id && g.isSinkConnection c) &&
      decide (c.targetPort ∈ d.sinkInputs.map Port.id ∧ c.targetPort ∉ ([] : List String))) =
      (g.connections.filter fun c ↦ c.target == n.id).filter g.isSinkConnection := by
    rw [List.filter_filter]
    refine List.filter_congr fun c _ ↦ ?_
    rw [Bool.and_comm (g.isSinkConnection c), Bool.and_eq_left_iff_imp]
    intro hc
    rw [Bool.and_eq_true, beq_iff_eq, isSinkConnection, Option.any_eq_true] at hc
    obtain ⟨htarget, p, hp, hsink⟩ := hc
    rw [hmade.targetPort?_eq hids htarget] at hp
    have hid : p.id = c.targetPort := by simpa using List.find?_some hp
    have hmem : p ∈ d.sinkInputs := List.mem_filter.2 ⟨List.mem_of_find?_eq_some hp, hsink⟩
    simpa [← hid] using ⟨p, hmem, rfl⟩
  have hsinks := arrivals_sinkRoutes_perm hids hmade [] d.sinkInputs
  rw [hdelivered, ← hmade.sinkRoutes_eq] at hsinks
  rw [PlanStep.arrivals, map_arrival_computeRoutes hids hmade, hmade.node_eq]
  rw [hmade.node_eq] at hsinks
  refine (hsinks.append_left _).trans (List.perm_append_comm.trans ?_)
  rw [← List.filterMap_append]
  exact (List.filter_append_perm g.isSinkConnection _).filterMap _

/-- A route of a compute input belongs to a connection into that input. -/
theorem port_of_computeRoute? (hids : g.UniqueIds) (hmade : g.MadeFrom s n d)
    (htarget : c.target = n.id) {r : InputRoute} (hr : g.computeRoute? d c = some r) :
    r.port = c.targetPort ∧ g.isSinkConnection c = false := by
  rw [isSinkConnection, hmade.targetPort?_eq hids htarget]
  rw [computeRoute?] at hr
  split at hr
  next source p _ hp =>
    split at hr
    next => cases hr
    next hcompute =>
      obtain rfl := Option.some.inj hr
      exact ⟨rfl, by simpa [hp] using hcompute⟩
  next => cases hr

/-- A compute input has one connection, hence one route. -/
theorem nodup_port_computeRoutes (hids : g.UniqueIds) (hg : g.Wired) (hmade : g.MadeFrom s n d) :
    (s.computeRoutes.map InputRoute.port).Nodup := by
  rw [List.Nodup, List.pairwise_map, hmade.computeRoutes_eq, List.pairwise_filterMap]
  refine (hg.apart.filter _).imp_of_mem fun {c c'} hc hc' hapart r hr r' hr' hport ↦ ?_
  have htarget : c.target = n.id := by simpa using (List.mem_filter.1 hc).2
  have htarget' : c'.target = n.id := by simpa using (List.mem_filter.1 hc').2
  obtain ⟨hr, hcompute⟩ := port_of_computeRoute? hids hmade htarget hr
  obtain ⟨hr', -⟩ := port_of_computeRoute? hids hmade htarget' hr'
  -- Two connections with these routes would lead into one compute input.
  have hsink := hapart (htarget.trans htarget'.symm) (hr.symm.trans (hport.trans hr'))
  rw [hcompute] at hsink
  cases hsink

/-! ### The routes of points of delivery -/

theorem map_port_sinkRoutes (incoming : List Connection) (seen : List String)
    (ports : List Port) :
    (g.sinkRoutes d incoming seen ports).map SinkRoute.port = ports.map Port.id := by
  induction ports generalizing seen with
  | nil => rfl
  | cons p rest ih => rw [sinkRoutes, List.map_cons, ih, List.map_cons]

/-- Of the routes with one id, the first has all the producers. -/
theorem sources_of_sinkRoutes {incoming : List Connection} {seen : List String}
    {ports : List Port} {before after : List SinkRoute} {r : SinkRoute}
    (h : g.sinkRoutes d incoming seen ports = before ++ r :: after) :
    r.sources = if r.port ∈ seen ∨ r.port ∈ before.map SinkRoute.port then []
      else g.sinkSources d incoming r.port := by
  induction ports generalizing seen before with
  | nil => simp [sinkRoutes] at h
  | cons p rest ih =>
    rw [sinkRoutes] at h
    cases before with
    | nil =>
      obtain ⟨rfl, -⟩ := List.cons.inj h
      simp
    | cons first before =>
      obtain ⟨rfl, hrest⟩ := List.cons.inj h
      rw [ih hrest]
      simp only [List.map_cons, List.mem_cons, or_assoc, or_left_comm]

/-! ### What all steps read -/

/-- **All steps together read every connection once.** -/
theorem arrivals_steps_perm (hids : g.UniqueIds) (hg : g.Sound) (h : g.compile = .ok plan) :
    (plan.steps.flatMap PlanStep.arrivals).Perm (g.connections.filterMap g.arrival?) := by
  have hstep : ∀ s ∈ plan.steps, s.arrivals.Perm
      ((g.connections.filter fun c ↦ c.target == s.node).filterMap g.arrival?) := by
    intro s hs
    obtain ⟨n, d, hmade⟩ := exists_madeFrom h hs
    exact arrivals_perm hids hmade
  have hall : (g.connections.filter fun c ↦ c.target ∈ plan.order) = g.connections := by
    refine List.filter_eq_self.2 fun c hc ↦ decide_eq_true ?_
    obtain ⟨i, hi⟩ := hg.exists_target hc
    rw [mem_order_iff h, ← node?_isSome_iff, ← isSome_indexOf?, hi]
    rfl
  have hnodup : plan.order.Nodup := nodup_node_steps hids h
  have hsorted := flatMap_filter_perm g.connections Connection.target hnodup
  rw [hall, Plan.order, List.flatMap_map] at hsorted
  refine (List.Perm.flatMap_left _ hstep).trans ?_
  rw [← List.filterMap_flatMap]
  exact hsorted.filterMap _

/-- **Every connection is routed once.** What the steps of a plan read is, up to order, what the
connections of the graph come to, each of which comes to something; and the figures of the plan
count each of them once. Every node has one step. It has one route at most for a compute input, and
a route for each of its points of delivery in the order of their declaration. The producers in such
a route are those of the connections into it, in their order; should a definition repeat an id, the
first route of that id has them all. -/
theorem routed_once {catalog : Catalog} (hg : g.Valid catalog) (h : g.compile = .ok plan) :
    ((plan.steps.flatMap PlanStep.arrivals).map some).Perm (g.connections.map g.arrival?) ∧
    plan.order.Nodup ∧
    (∀ s ∈ plan.steps, g.definitionOf? s.node = some s.definition ∧
      (s.computeRoutes.map InputRoute.port).Nodup ∧
      s.sinkRoutes.map SinkRoute.port = s.definition.sinkInputs.map Port.id ∧
      ∀ before r after, s.sinkRoutes = before ++ r :: after →
        r.sources.map some = if r.port ∈ before.map SinkRoute.port then []
          else (g.deliveriesInto s.node r.port).map fun c ↦
            (g.indexOf? c.source).map fun source ↦ (source, c.sourcePort)) ∧
    plan.stats.computeEdges + plan.stats.sinkEdges = g.connections.length := by
  obtain ⟨-, steps, -, rfl⟩ := compile_eq_ok_iff.1 h
  refine ⟨?_, nodup_node_steps hg.uniqueIds h, fun s hs ↦ ?_, hg.sound.length_connectionsInto⟩
  · have hcomes : (g.connections.filterMap g.arrival?).map some = g.connections.map g.arrival? := by
      rw [List.map_filterMap, ← List.filterMap_eq_map]
      refine List.filterMap_congr fun c hc ↦ ?_
      obtain ⟨a, ha⟩ := hg.sound.exists_arrival hc
      rw [ha, Function.comp_apply, ha]
      rfl
    rw [← hcomes]
    exact (arrivals_steps_perm hg.uniqueIds hg.sound h).map some
  · obtain ⟨n, d, hmade⟩ := exists_madeFrom h hs
    refine ⟨?_, nodup_port_computeRoutes hg.uniqueIds hg.wired hmade, ?_,
      fun before r after hr ↦ ?_⟩
    · rw [hmade.node_eq, hmade.definition_eq, definitionOf?,
        node?_of_getElem? hg.uniqueIds hmade.1]
      exact hmade.2.1
    · rw [hmade.sinkRoutes_eq, hmade.definition_eq, map_port_sinkRoutes]
    · rw [hmade.sinkRoutes_eq] at hr
      rw [sources_of_sinkRoutes hr, hmade.node_eq, sinkSources_eq hg.uniqueIds hmade]
      simp only [List.not_mem_nil, false_or]
      split
      · rfl
      · rw [List.map_filterMap, ← List.filterMap_eq_map]
        refine List.filterMap_congr fun c hc ↦ ?_
        obtain ⟨i, hi⟩ := hg.sound.exists_source (List.mem_filter.1 hc).1
        rw [Function.comp_apply, hi]
        rfl

/-- Two dials and a lamp. One dial is connected to the lamp twice. -/
def deskGraph : Graph where
  catalog := .ofDefinitions [
    { type := "dial", outputs := [{ id := "out", type := .number }] },
    { type := "lamp"
      inputs := [{ id := "in", type := .number, kind := .sink },
        { id := "gain", type := .number }, { id := "spare", type := .number, kind := .sink }] }]
  nodes := [{ id := "c", type := "lamp" }, { id := "a", type := "dial" },
    { id := "b", type := "dial" }]
  connections := [⟨"1", "b", "out", "c", "in"⟩, ⟨"2", "a", "out", "c", "gain"⟩,
    ⟨"3", "a", "out", "c", "in"⟩, ⟨"4", "b", "out", "c", "in"⟩]

theorem valid_deskGraph : deskGraph.Valid deskGraph.catalog := by
  have hload : Graph.load deskGraph.catalog deskGraph.snapshot .strict =
      .ok (deskGraph, {}) := rfl
  exact (Buildable.load hload).valid

/-- The lamp comes last, and reads the dials from where they stand. -/
theorem routed_once_desk : ∃ plan, deskGraph.Valid deskGraph.catalog ∧
    deskGraph.compile = .ok plan ∧ plan.order = ["a", "b", "c"] ∧
    plan.steps.map PlanStep.sinkRoutes =
      [[], [], [⟨"in", [(2, "out"), (1, "out"), (2, "out")]⟩, ⟨"spare", []⟩]] ∧
    ((plan.steps.flatMap PlanStep.arrivals).map some).Perm
      (deskGraph.connections.map deskGraph.arrival?) ∧
    plan.stats.computeEdges + plan.stats.sinkEdges = 4 := by
  have hcompile : ∃ plan, deskGraph.compile = .ok plan ∧ plan.order = ["a", "b", "c"] ∧
      plan.steps.map PlanStep.sinkRoutes =
        [[], [], [⟨"in", [(2, "out"), (1, "out"), (2, "out")]⟩, ⟨"spare", []⟩]] :=
    ⟨_, rfl, rfl, rfl⟩
  obtain ⟨plan, hplan, horder, hroutes⟩ := hcompile
  obtain ⟨hperm, -, -, hfigures⟩ := routed_once valid_deskGraph hplan
  exact ⟨plan, valid_deskGraph, hplan, horder, hroutes, hperm, hfigures⟩

end Graph

end CueFlow
