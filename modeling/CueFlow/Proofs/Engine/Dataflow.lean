import CueFlow.Proofs.Engine.ComputePass
import CueFlow.Proofs.Engine.PlanFidelity
import CueFlow.Proofs.Override
import Mathlib.Data.List.ProdSigma
/-!
# A tick solves the dataflow equations

The compute pass works in place, by indices and in the order of a plan. What it comes to can be said
without any of these, by one equation for each node over the graph *after* the tick: a disabled node
passes the value of its source through (`Graph.bypassed`), a node whose computation is refused has
no outputs, and any other node has what `process` makes of its inputs (`Engine.inputsOf`) and its
config. `dataflow_equations` says that every completed tick solves all of them.

The two sides meet in `incoming?_eq_upstream?`: what a step reads through its route is what the
source of the connection holds.
-/

namespace CueFlow

/-- The pairs of a compute input and an output through which a disabled node might pass a value: of
one type, which is not one of the routing types. -/
def NodeDefinition.passPairs (d : NodeDefinition) : List (Port × Port) :=
  (d.computeInputs ×ˢ d.outputs).filter fun pair ↦
    pair.1.type == pair.2.type && !pair.1.type.isRouting && !pair.2.isSink

namespace Graph

variable (g : Graph)

/-- The connection that feeds a compute input. -/
def feed? (v : NodeId) (port : String) : Option Connection :=
  (g.connectionsInto .compute).find? fun c ↦ c.target == v && c.targetPort == port

/-- The value at the source of the connection that feeds a compute input. -/
def upstream? (v : NodeId) (port : String) : Option Value :=
  (g.feed? v port).bind fun c ↦ (g.node? c.source).bind fun n ↦ n.outputValues.get? c.sourcePort

/-- What a node has on an output. -/
def outputOf? (v : NodeId) (port : String) : Option Value :=
  (g.node? v).bind fun n ↦ n.outputValues.get? port

/-- What a disabled node passes through: the value at the source of its input, if exactly one pair
of an input and an output goes together and there is such a value. -/
def bypassed (v : NodeId) (d : NodeDefinition) : ValueMap :=
  match d.passPairs with
  | [(input, output)] =>
    match g.upstream? v input.id with
    | some x => [(output.id, x)]
    | none => []
  | _ => []

end Graph

namespace Engine

variable (e : Engine)

/-- The value of a compute input: an active override, else the value at the source, else the stored
value, else the default. -/
def inputOf (g : Graph) (v : Node) (p : Port) : Value :=
  ((e.overrides.input? v.id p.id).or
    ((g.upstream? v.id p.id).or (v.inputValues.get? p.id))).getD p.default

/-- The values of all compute inputs of a node. -/
def inputsOf (g : Graph) (v : Node) (d : NodeDefinition) : ValueMap :=
  KeyMap.ofEntries (d.computeInputs.map fun p ↦ (p.id, e.inputOf g v p))

/-- Whether the compute pass of the next tick runs the computation of a node. -/
def computes (v : NodeId) : Bool := e.policy.node v && e.policy.compute v (e.askedOf v)

/-- The stored inputs that a tick leaves a node with, given the graph after it: a computation stores
the defaults that it has to fall back on. -/
def storedIn (now : Float) (g : Graph) (v : Node) (d : NodeDefinition) : ValueMap :=
  if e.computes v.id then
    v.inputValues.overlay ((d.computeInputs.filter fun p ↦
      (((e.atTime now).overrides.input? v.id p.id).or
        ((g.upstream? v.id p.id).or (v.inputValues.get? p.id))).isNone).map fun p ↦
          (p.id, p.default))
  else v.inputValues

end Engine

/-! ### Bypasses -/

theorem NodeDefinition.passPairs_eq (d : NodeDefinition) : d.passPairs =
    (d.computeInputs.filter fun p ↦ !p.type.isRouting).flatMap fun input ↦
      (d.outputs.filter fun out ↦ !out.isSink && out.type == input.type).map fun out ↦
        (input, out) := by
  rw [passPairs]
  induction d.computeInputs with
  | nil => rfl
  | cons p rest ih =>
    rw [List.product_cons, List.filter_append, ih, List.filter_map, List.filter_cons]
    by_cases hrouting : p.type.isRouting
    · simp [hrouting, Function.comp_def]
    · have hpair : ∀ out : Port, (out.type == p.type) = (p.type == out.type) :=
        fun out ↦ Bool.beq_comm
      simp [hrouting, Function.comp_def, hpair, Bool.and_comm]

theorem NodeDefinition.bypassPair?_eq (d : NodeDefinition) :
    d.bypassPair? = match d.passPairs with
      | [pair] => some pair
      | _ => none := by
  rw [passPairs_eq]
  rfl

/-! ### Routes -/

namespace Graph

variable {g : Graph} {s : PlanStep} {n : Node} {d : NodeDefinition}

theorem source_of_computeRoute? {c : Connection} {r : InputRoute}
    (h : g.computeRoute? d c = some r) :
    g.indexOf? c.source = some r.source ∧ c.sourcePort = r.sourcePort := by
  rw [computeRoute?] at h
  split at h
  next source p hsource _ =>
    split at h
    · cases h
    · obtain rfl := Option.some.inj h
      exact ⟨hsource, rfl⟩
  next => cases h

/-- Whether a connection into a node has a route is whether it leads into a compute input. -/
theorem any_computeRoute? (hg : g.UniqueIds) (hmade : g.MadeFrom s n d) {c : Connection}
    (htarget : c.target = n.id) (port : String) :
    ((g.computeRoute? d c).any fun r ↦ r.port == port) =
      (((g.endpoints? c).isSome && (g.targetPort? c).any fun p ↦ p.kind == .compute) &&
        c.targetPort == port) := by
  rw [computeRoute?, endpoints?, hmade.indexOf?_target hg htarget, hmade.targetPort?_eq hg htarget]
  cases g.indexOf? c.source with
  | none => rfl
  | some source =>
    cases d.input? c.targetPort with
    | none => rfl
    | some p => cases hkind : p.kind <;> simp [Port.isSink, hkind]

/-- The route of an input is that of the connection that feeds it. -/
theorem computeRoute?_eq (hg : g.UniqueIds) (hmade : g.MadeFrom s n d) (port : String) :
    s.computeRoute? port = (g.feed? n.id port).bind (g.computeRoute? d) := by
  rw [PlanStep.computeRoute?, hmade.computeRoutes_eq, List.find?_filterMap, List.find?_filter,
    feed?, connectionsInto, List.find?_filter]
  refine congrArg (fun p ↦ (g.connections.find? p).bind (g.computeRoute? d)) (funext fun c ↦ ?_)
  by_cases htarget : c.target = n.id
  · rw [any_computeRoute? hg hmade htarget]
    simp [htarget]
  · simp [htarget]

theorem feeds_of_feed? {v : NodeId} {port : String} {c : Connection}
    (h : g.feed? v port = some c) : (g.endpoints? c).isSome ∧
      (g.targetPort? c).any (fun p ↦ p.kind == .compute) ∧ c.target = v ∧ c.targetPort = port := by
  have hinto := (List.mem_filter.1 (List.mem_of_find?_eq_some h)).2
  have hends := List.find?_some h
  rw [Bool.and_eq_true] at hinto
  simp only [Bool.and_eq_true, beq_iff_eq] at hends
  exact ⟨hinto.1, hinto.2, hends⟩

/-- What arrives at an input is up to what the source of its connection has there. -/
theorem upstream?_of_feed? {h : Graph} {v : NodeId} {port : String}
    (hinto : h.connectionsInto .compute = g.connectionsInto .compute)
    (hsame : ∀ c, g.feed? v port = some c →
      h.outputOf? c.source c.sourcePort = g.outputOf? c.source c.sourcePort) :
    h.upstream? v port = g.upstream? v port := by
  have hfeed : h.feed? v port = g.feed? v port := by rw [feed?, hinto, feed?]
  rw [upstream?, hfeed, upstream?]
  cases hc : g.feed? v port with
  | none => rfl
  | some c => exact hsame c hc

/-- **What a step reads through a route is what the source of the connection holds.** -/
theorem incoming?_eq_upstream? (hg : g.UniqueIds) (hmade : g.MadeFrom s n d) (port : String) :
    s.incoming? g port = g.upstream? n.id port := by
  rw [PlanStep.incoming?, computeRoute?_eq hg hmade, upstream?, Option.bind_assoc]
  cases hfeed : g.feed? n.id port with
  | none => rfl
  | some c =>
    obtain ⟨hends, hinto, htarget, hport⟩ := feeds_of_feed? hfeed
    have hroute := any_computeRoute? hg hmade htarget port
    rw [hends, hinto, hport, beq_self_eq_true] at hroute
    obtain ⟨r, hr⟩ : ∃ r, g.computeRoute? d c = some r := by
      cases hr : g.computeRoute? d c with
      | none => simp [hr] at hroute
      | some r => exact ⟨r, rfl⟩
    obtain ⟨hsource, hsourcePort⟩ := source_of_computeRoute? hr
    simp only [Option.bind_some, hr]
    rw [outputAt?, ← indexOf?_bind_getElem?, hsource, hsourcePort]
    rfl

end Graph

/-! ### The equations -/

namespace Engine

variable {e e' : Engine} {plan : Plan} {s : PlanStep} {before after : List PlanStep}
  {n : Node} {d : NodeDefinition}

/-- The outputs that the equation of a node asks for, given the graph after the tick. -/
def dataflow (e : Engine) (now : Float) (g : Graph) (v : Node) (d : NodeDefinition) : ValueMap :=
  if e.policy.node v.id then
    if e.policy.compute v.id (e.askedOf v.id) then
      match d.process ((e.atTime now).inputsOf g v d) ((e.atTime now).effectiveConfig v)
          ⟨v.id, e.tick, now, e.sinceLast now⟩ with
      | .ok outputs => outputs
      | .error _ => v.outputValues
    else []
  else g.bypassed v.id d

/-- A node as a tick leaves it, given the graph after the tick. -/
def nodeIn (e : Engine) (now : Float) (g : Graph) (v : Node) (d : NodeDefinition) : Node :=
  { v with inputValues := e.storedIn now g v d, outputValues := e.dataflow now g v d }

/-- The engines compute alike at a node: all that the compute pass asks them about the node, they
answer in the same way. -/
structure ComputesAlike (f e : Engine) (now : Float) (v : NodeId) : Prop where
  node : f.policy.node v = e.policy.node v
  compute : f.policy.compute v (f.askedOf v) = e.policy.compute v (e.askedOf v)
  overrides : (f.atTime now).overrides.nodes.get? v = (e.atTime now).overrides.nodes.get? v
  tick_eq : f.tick = e.tick
  sinceLast : f.sinceLast now = e.sinceLast now

namespace ComputesAlike

variable {f : Engine} {now : Float} {v : NodeId} {g g' : Graph}

theorem computes_eq (h : f.ComputesAlike e now v) : f.computes v = e.computes v := by
  rw [computes, h.node, h.compute, computes]

variable (h : f.ComputesAlike e now n.id)

include h

theorem input?_eq (port : String) :
    (f.atTime now).overrides.input? n.id port = (e.atTime now).overrides.input? n.id port :=
  OverrideStore.input?_congr h.overrides port

theorem effectiveConfig_eq : (f.atTime now).effectiveConfig n = (e.atTime now).effectiveConfig n :=
  OverrideStore.effectiveConfig_congr h.overrides n.config

variable (hsame : ∀ port, g'.upstream? n.id port = g.upstream? n.id port)

include hsame

/-- Inputs are resolved alike from the same values. -/
theorem inputsOf_eq : (f.atTime now).inputsOf g' n d = (e.atTime now).inputsOf g n d := by
  simp only [inputsOf, inputOf, hsame, h.input?_eq]

/-- **From the same values, a node becomes the same.** -/
theorem nodeIn_eq : f.nodeIn now g' n d = e.nodeIn now g n d := by
  have hstored : f.storedIn now g' n d = e.storedIn now g n d := by
    simp only [storedIn, h.computes_eq, hsame, h.input?_eq]
  have hbypassed : g'.bypassed n.id d = g.bypassed n.id d := by
    simp only [Graph.bypassed, hsame]
  have houtputs : f.dataflow now g' n d = e.dataflow now g n d := by
    rw [dataflow, dataflow, h.node, h.compute, h.inputsOf_eq hsame, h.effectiveConfig_eq,
      h.tick_eq, h.sinceLast, hbypassed]
  rw [nodeIn, hstored, houtputs, nodeIn]

end ComputesAlike

/-- Where an input comes from does not matter for its value. -/
theorem value_resolveInput (e : Engine) (s : PlanStep) (n : Node) (p : Port) :
    (e.resolveInput s n p).value = ((e.overrides.input? n.id p.id).or
      ((s.incoming? e.graph p.id).or (n.inputValues.get? p.id))).getD p.default := by
  rw [resolveInput]
  cases e.overrides.input? n.id p.id with
  | some v => rfl
  | none =>
    cases s.incoming? e.graph p.id with
    | some v => rfl
    | none =>
      cases n.inputValues.get? p.id with
      | some v => rfl
      | none => rfl

/-- An input is declared if nothing is there. -/
theorem isDeclared_resolveInput (e : Engine) (s : PlanStep) (n : Node) (p : Port) :
    (e.resolveInput s n p).isDeclared = ((e.overrides.input? n.id p.id).or
      ((s.incoming? e.graph p.id).or (n.inputValues.get? p.id))).isNone := by
  rw [resolveInput]
  cases e.overrides.input? n.id p.id with
  | some v => rfl
  | none =>
    cases s.incoming? e.graph p.id with
    | some v => rfl
    | none =>
      cases n.inputValues.get? p.id with
      | some v => rfl
      | none => rfl

theorem bypassOutputs_eq_bypassed {g h : Graph} {v : NodeId}
    (hincoming : ∀ port, s.incoming? g port = h.upstream? v port) :
    s.bypassOutputs g = h.bypassed v s.definition := by
  rw [PlanStep.bypassOutputs, s.definition.bypassPair?_eq, Graph.bypassed]
  cases s.definition.passPairs with
  | nil => rfl
  | cons pair rest =>
    cases rest with
    | nil =>
      dsimp only
      rewrite [hincoming]
      rfl
    | cons => rfl

/-- The state of a tick in front of one of its steps. -/
def underway (e : Engine) (plan : Plan) (now : Float) (done : List PlanStep) : Tick :=
  ((e.readied plan now).beginTick now (e.sinceLast now)).computePass done

/-- A tick under way has kept what no part of it changes. -/
theorem keeps_underway (e : Engine) (plan : Plan) (now : Float) (done : List PlanStep) :
    (e.readied plan now).Keeps (e.underway plan now done).engine := by
  have hbegin : (e.readied plan now).Keeps
      ((e.readied plan now).beginTick now (e.sinceLast now)).engine :=
    ⟨rfl, rfl, rfl, rfl, rfl, rfl, rfl, rfl, rfl, rfl⟩
  exact hbegin.trans (Tick.Touches.computePass _ done).keeps

/-- So has the sink pass, however far it has gone, and it has kept the graph. -/
theorem keeps_sinkPass {now : Float} {done steps : List PlanStep} {t : Tick}
    {report : Option HaltReport} (hpass : (e.underway plan now done).sinkPass steps = (t, report)) :
    (e.readied plan now).Keeps t.engine ∧
      t.engine.graph = (e.underway plan now done).engine.graph := by
  obtain ⟨htouches, hgraph⟩ := Tick.Touches.of_sinkPass hpass
  exact ⟨(e.keeps_underway plan now done).trans htouches.keeps, hgraph⟩

/-- The compute pass is none of the watchdog's business. -/
theorem watchdog_underway (e : Engine) (plan : Plan) (now : Float) (done : List PlanStep) :
    (e.underway plan now done).engine.watchdog = e.watchdog.beginTick :=
  Tick.watchdog_computePass _ done

/-- What a hook is told about a tick under way. -/
theorem context_underway (e : Engine) (plan : Plan) (now : Float) (done : List PlanStep)
    (v : NodeId) : (e.underway plan now done).context v = ⟨v, e.tick, now, e.sinceLast now⟩ := by
  have htouches : Tick.Touches done _ _ (e.underway plan now done) := .computePass _ done
  rw [Tick.context, (e.keeps_underway plan now done).tick, htouches.nowMs, htouches.deltaMs]
  rfl

section Step

variable (hids : e.graph.UniqueIds) (hcompile : e.graph.compile = .ok plan)
  (hsplit : plan.steps = before ++ s :: after) (hmade : e.graph.MadeFrom s n d) (now : Float)

include hids hcompile hsplit hmade

/-- The steps before this one are about other nodes, so its gate has not been asked yet. -/
theorem askedOf_underway :
    (e.underway plan now before).engine.askedOf n.id = e.askedOf n.id := by
  have hnode := hmade.node_eq
  refine (Tick.Touches.computePass _ before).asked n.id fun hmem ↦ ?_
  have hnodup := Graph.nodup_node_steps hids hcompile
  rw [hsplit, List.map_append, List.map_cons] at hnodup
  exact List.disjoint_of_nodup_append hnodup hmem (hnode ▸ List.mem_cons_self)

/-- What this step reads is what its sources hold after the pass. -/
theorem incoming?_underway (port : String) :
    s.incoming? (e.underway plan now before).engine.graph port =
      (e.underway plan now plan.steps).engine.graph.upstream? n.id port := by
  have hskel : (e.underway plan now plan.steps).engine.graph.skeleton = e.graph.skeleton :=
    (e.keeps_underway plan now plan.steps).skeleton
  have hnodup := Graph.nodup_index_steps hcompile
  rw [hsplit] at hnodup
  have hroutes : ∀ r ∈ s.computeRoutes, r.source ∈ before.map PlanStep.index := by
    intro r hr
    obtain ⟨s', hs', hindex⟩ := Graph.exists_step_of_mem_computeRoutes hids hcompile hsplit hr
    exact List.mem_map.2 ⟨s', hs', hindex⟩
  have hfinal : s.incoming? (e.underway plan now before).engine.graph port =
      s.incoming? (e.underway plan now (before ++ s :: after)).engine.graph port :=
    Tick.incoming?_computePass hnodup hroutes port
  obtain ⟨n', hmade', hid⟩ := hmade.congr hskel
  rw [hfinal, ← hsplit, Graph.incoming?_eq_upstream? (hids.congr hskel) hmade', hid]

theorem resolveInputs_underway :
    (e.underway plan now before).engine.resolveInputs s n =
      (e.atTime now).inputsOf (e.underway plan now plan.steps).engine.graph n d := by
  have hdefinition := hmade.definition_eq
  have hoverrides : (e.underway plan now before).engine.overrides = (e.atTime now).overrides :=
    (e.keeps_underway plan now before).overrides
  rw [resolveInputs, inputsOf, hdefinition]
  refine congrArg KeyMap.ofEntries (List.map_congr_left fun p _ ↦ ?_)
  rw [value_resolveInput, incoming?_underway hids hcompile hsplit hmade, hoverrides]
  rfl

/-- **The equation of a step**: the outputs that a step gives its node are those that the equation
asks for, in the graph after the pass. -/
theorem stepOutputs_eq_dataflow :
    (e.underway plan now before).stepOutputs s n =
      e.dataflow now (e.underway plan now plan.steps).engine.graph n d := by
  have hnode := hmade.node_eq
  have hdefinition := hmade.definition_eq
  have hkeeps := e.keeps_underway plan now before
  have hpolicy : (e.underway plan now before).engine.policy = e.policy := hkeeps.policy
  have hconfig : (e.underway plan now before).engine.effectiveConfig n =
      (e.atTime now).effectiveConfig n := by
    rw [effectiveConfig, hkeeps.overrides]
    rfl
  rewrite [Tick.stepOutputs, dataflow, Tick.computeAllowed_eq, hnode, hpolicy,
    askedOf_underway hids hcompile hsplit hmade, resolveInputs_underway hids hcompile hsplit hmade,
    hconfig, e.context_underway,
    bypassOutputs_eq_bypassed (incoming?_underway hids hcompile hsplit hmade now), hdefinition]
  rfl

theorem computes_underway : (e.underway plan now before).computes s = e.computes n.id := by
  have hpolicy : (e.underway plan now before).engine.policy = e.policy :=
    (e.keeps_underway plan now before).policy
  rw [Tick.computes, Tick.computeAllowed_eq, hpolicy, hmade.node_eq,
    askedOf_underway hids hcompile hsplit hmade, computes]

theorem stepInputs_eq_storedIn :
    (e.underway plan now before).stepInputs s n =
      e.storedIn now (e.underway plan now plan.steps).engine.graph n d := by
  have hoverrides : (e.underway plan now before).engine.overrides = (e.atTime now).overrides :=
    (e.keeps_underway plan now before).overrides
  have hdeclared : ∀ p : Port, ((e.underway plan now before).engine.resolveInput s n p).isDeclared =
      (((e.atTime now).overrides.input? n.id p.id).or
        (((e.underway plan now plan.steps).engine.graph.upstream? n.id p.id).or
          (n.inputValues.get? p.id))).isNone := by
    intro p
    rw [isDeclared_resolveInput, incoming?_underway hids hcompile hsplit hmade, hoverrides]
  rw [Tick.stepInputs, storedIn, computes_underway hids hcompile hsplit hmade, newDefaults,
    hmade.definition_eq]
  simp only [hdeclared]

/-- **The compute pass leaves every node as its equations ask for.** -/
theorem nodes_underway : (e.underway plan now plan.steps).engine.graph.nodes[s.index]? =
    some (e.nodeIn now (e.underway plan now plan.steps).engine.graph n d) := by
  have hnodup := Graph.nodup_index_steps hcompile
  rw [hsplit] at hnodup
  have hleft := (Tick.nodes_computePass
    (t := (e.readied plan now).beginTick now (e.sinceLast now)) hnodup hmade.1).2
  rw [← hsplit] at hleft
  rw [nodeIn, ← stepInputs_eq_storedIn hids hcompile hsplit hmade,
    ← stepOutputs_eq_dataflow hids hcompile hsplit hmade]
  exact hleft

end Step

/-- Every node is found as its equations ask for. -/
theorem node?_underway (hids : e.graph.UniqueIds) (hcompile : e.graph.compile = .ok plan)
    (now : Float) (hn : n ∈ e.graph.nodes) : ∃ d, e.graph.catalog.get? n.type = some d ∧
      (e.underway plan now plan.steps).engine.graph.node? n.id =
        some (e.nodeIn now (e.underway plan now plan.steps).engine.graph n d) := by
  obtain ⟨s, hs, d, hmade⟩ := Graph.exists_madeFrom_of_mem hcompile hn
  obtain ⟨before, after, hsplit⟩ := List.append_of_mem hs
  exact ⟨d, hmade.2.1, Graph.node?_of_getElem?
    (hids.congr (e.keeps_underway plan now plan.steps).skeleton)
    (nodes_underway hids hcompile hsplit hmade now)⟩

/-- A tick with the outcome of a completed one is one. -/
theorem tickAt_eq_of_outcome {now : Float} {info : TickInfo}
    (h : (e.tickAt now).2.1 = .completed info) :
    e.tickAt now = ((e.tickAt now).1, .completed info, (e.tickAt now).2.2) := by
  rw [← h]

/-- **A completed tick** has gone through both passes without a report. -/
theorem exists_of_completed (he : e.PlanSound) {now : Float} {info : TickInfo}
    {events : List Event} (htick : e.tickAt now = (e', .completed info, events)) :
    ∃ plan t, e.graph.compile = .ok plan ∧
      (e.underway plan now plan.steps).sinkPass plan.steps = (t, none) ∧
      e' = { t.engine with tick := t.engine.tick + 1 } ∧ events = t.events ++ [.ticked info] := by
  cases hrunning : e.running with
  | false =>
    rw [tickAt_of_not_running hrunning] at htick
    cases htick
  | true =>
    obtain ⟨error, -, heq⟩ | ⟨plan, hcompile, heq⟩ := tickAt_eq_runPlan he hrunning now
    · rw [heq, halt_eq] at htick
      cases htick
    · rw [heq] at htick
      obtain ⟨t, report, -, hrun⟩ | ⟨t, hpass, hrun⟩ :=
        (e.readied plan now).runPlan_cases plan now (e.sinceLast now)
      · rw [hrun] at htick
        cases htick
      · rw [hrun] at htick
        cases htick
        exact ⟨plan, t, hcompile, hpass, rfl, rfl⟩

/-- **A tick is completed** if its sink pass is let through. -/
theorem tickAt_eq_of_sinkPass (he : e.PlanSound) (hrunning : e.running = true)
    (hcompile : e.graph.compile = .ok plan) {now : Float} {t : Tick}
    (hpass : (e.underway plan now plan.steps).sinkPass plan.steps = (t, none)) :
    e.tickAt now = ({ t.engine with tick := t.engine.tick + 1 }, .completed t.info,
      t.events ++ [.ticked t.info]) := by
  have hcomputed : ((e.readied plan now).computed plan now (e.sinceLast now)).sinkPass plan.steps =
      (t, none) :=
    hpass
  rw [tickAt_eq_runPlan_of_compile he hrunning hcompile, runPlan, hcomputed]

/-- The graph after a completed tick is the one that the compute pass left. -/
theorem graph_of_completed (he : e.PlanSound) {now : Float} {info : TickInfo} {events : List Event}
    (htick : e.tickAt now = (e', .completed info, events)) :
    ∃ plan, e.graph.compile = .ok plan ∧
      e'.graph = (e.underway plan now plan.steps).engine.graph := by
  obtain ⟨plan, t, hcompile, hpass, rfl, -⟩ := exists_of_completed he htick
  exact ⟨plan, hcompile, (keeps_sinkPass hpass).2⟩

/-- Every node is found as its equations ask for after a completed tick. -/
theorem node?_of_completed (h : e.Reachable) {now : Float} {info : TickInfo} {events : List Event}
    (htick : e.tickAt now = (e', .completed info, events)) {v : Node} (hv : v ∈ e.graph.nodes) :
    ∃ d, e.graph.catalog.get? v.type = some d ∧
      e'.graph.node? v.id = some (e.nodeIn now e'.graph v d) := by
  obtain ⟨plan, hcompile, hgraph⟩ := graph_of_completed h.planSound htick
  rw [hgraph]
  exact node?_underway h.uniqueIds hcompile now hv

/-- Every node solves its equation after a completed tick. -/
theorem outputs_of_completed (h : e.Reachable) {now : Float} {info : TickInfo}
    {events : List Event} (htick : e.tickAt now = (e', .completed info, events)) {v : Node}
    (hv : v ∈ e.graph.nodes) : ∃ d, e.graph.catalog.get? v.type = some d ∧
      e'.outputs? v.id = some (e.dataflow now e'.graph v d) := by
  obtain ⟨d, hd, hfound⟩ := node?_of_completed h htick hv
  refine ⟨d, hd, ?_⟩
  rw [outputs?, hfound]
  rfl

/-- **A completed tick solves the dataflow equations**, with the graph after the tick on both sides.
A disabled node passes the value of its source through, and an enabled one whose computation is
refused has no outputs. Any other has what `process` makes of its inputs and its effective config,
and if `process` fails, what it had before the tick. -/
theorem dataflow_equations (h : e.Reachable) {now : Float} {info : TickInfo} {events : List Event}
    (htick : e.tickAt now = (e', .completed info, events)) :
    e'.graph.nodes.map Node.id = e.graph.nodes.map Node.id ∧
    ∀ v ∈ e.graph.nodes, ∃ d, e.graph.catalog.get? v.type = some d ∧
      (e.policy.node v.id = false → e'.outputs? v.id = some (e'.graph.bypassed v.id d)) ∧
      (e.policy.node v.id = true → e.policy.compute v.id (e.askedOf v.id) = false →
        e'.outputs? v.id = some []) ∧
      (e.policy.node v.id = true → e.policy.compute v.id (e.askedOf v.id) = true →
        e'.outputs? v.id = some (match d.process ((e.atTime now).inputsOf e'.graph v d)
            ((e.atTime now).effectiveConfig v) ⟨v.id, e.tick, now, e.sinceLast now⟩ with
          | .ok outputs => outputs
          | .error _ => v.outputValues)) := by
  refine ⟨?_, fun v hv ↦ ?_⟩
  · obtain ⟨plan, -, hgraph⟩ := graph_of_completed h.planSound htick
    rw [hgraph]
    exact Graph.ids_congr (e.keeps_underway plan now plan.steps).skeleton
  · obtain ⟨d, hd, hout⟩ := outputs_of_completed h htick hv
    rw [hout, dataflow]
    refine ⟨d, hd, fun hnode ↦ ?_, fun hnode hcompute ↦ ?_, fun hnode hcompute ↦ ?_⟩
    · simp [hnode]
    · simp [hnode, hcompute]
    · rw [if_pos hnode, if_pos hcompute]

/-- The wire has the level of the dimmer after the first tick. -/
theorem dataflow_equations_sample :
    ((sampleEngine.call .start).1.tickAt 0.0).1.outputs? "b" = some [("out", .number 1.0)] := by
  have htick : (sampleEngine.call .start).1.tickAt 0.0 =
      (((sampleEngine.call .start).1.tickAt 0.0).1,
        .completed { tick := 0, timeMs := 0.0, computed := 3, sinkCalls := 1 },
        ((sampleEngine.call .start).1.tickAt 0.0).2.2) := rfl
  obtain ⟨d, hd, -, -, hout⟩ := (dataflow_equations (reachable_sampleEngine.call .start) htick).2
    { id := "b", type := "wire" } (.tail _ (.head _))
  obtain rfl := Option.some.inj hd
  exact hout rfl rfl

end Engine

end CueFlow
