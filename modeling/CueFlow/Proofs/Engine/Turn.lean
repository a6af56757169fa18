import CueFlow.Proofs.Engine.FailClosed
import CueFlow.Proofs.Engine.NodeTick
/-!
# The turn of a node

A tick is described node by node by the state in front of the step of the node in the sink pass. If
no watchdog trips up to there, there is such a state (`Engine.Front`, `exists_front`), whether or
not the tick is completed; the call of the sink hook is the one that the step makes (`Front.call`).
How the state compares with the engine before the tick, and what is left of the step after it, is
the *turn* of the node (`Engine.Turn`). Which nodes are visited in their turn is up to the gates and
the connections alone (`Engine.visits`).
-/

namespace CueFlow

namespace Engine

variable {e e' : Engine} {events : List Event} {now : Float}

/-! ### The end of a tick -/

/-- Only an engine that does not run is idle. -/
theorem not_running_of_idle (h : (e.tickAt now).2.1 = .idle) : e.running = false := by
  by_contra hrunning
  rw [Bool.not_eq_false] at hrunning
  exact outcome_tickAt_ne_idle hrunning now h

/-- Then nothing happens. -/
theorem eq_of_idle (htick : e.tickAt now = (e', .idle, events)) : e' = e := by
  have hidle : (e.tickAt now).2.1 = .idle := by rw [htick]
  rw [tickAt_of_not_running (not_running_of_idle hidle)] at htick
  exact (Prod.mk.inj htick).1.symm

theorem running_of_outcome {outcome : TickOutcome}
    (htick : e.tickAt now = (e', outcome, events)) (hidle : outcome ≠ .idle) :
    e.running = true := by
  by_contra hrunning
  rw [Bool.not_eq_true] at hrunning
  rw [tickAt_of_not_running hrunning] at htick
  exact hidle (congrArg (fun r ↦ r.2.1) htick).symm

theorem running_of_halted {report : HaltReport}
    (htick : e.tickAt now = (e', .halted report, events)) : e.running = true :=
  running_of_outcome htick nofun

theorem running_of_completed {info : TickInfo}
    (htick : e.tickAt now = (e', .completed info, events)) : e.running = true :=
  running_of_outcome htick nofun

/-- The engine when the passes of a tick are over, and what has happened by then. A graph that does
not compile has no passes. -/
def passes (e : Engine) (now : Float) : Engine × List Event :=
  match e.graph.compile with
  | .ok plan =>
    let t := ((e.underway plan now plan.steps).sinkPass plan.steps).1
    (t.engine, t.events)
  | .error _ => (e.atTime now, [])

theorem passes_of_compile {plan : Plan} (hcompile : e.graph.compile = .ok plan) :
    e.passes now = (((e.underway plan now plan.steps).sinkPass plan.steps).1.engine,
      ((e.underway plan now plan.steps).sinkPass plan.steps).1.events) := by
  rw [passes, hcompile]

/-- **When its passes are over, a tick stops the engine or is completed.** -/
theorem tickAt_eq_passes (he : e.PlanSound) (hrunning : e.running = true) (now : Float) :
    (∃ report, e.tickAt now = ({ (e.passes now).1.stop.1 with halted := some report },
      .halted report, (e.passes now).2 ++ ((e.passes now).1.stop.2 ++ [.halted report]))) ∨
    ∃ plan info, e.graph.compile = .ok plan ∧
      e.tickAt now = ({ (e.passes now).1 with tick := (e.passes now).1.tick + 1 },
        .completed info, (e.passes now).2 ++ [.ticked info]) := by
  obtain ⟨error, hcompile, heq⟩ | ⟨plan, hcompile, heq⟩ := tickAt_eq_runPlan he hrunning now
  · refine .inl ⟨compileReport error, ?_⟩
    rw [heq, halt_eq, passes, hcompile]
    rfl
  · rw [passes_of_compile hcompile]
    obtain ⟨t, report, hpass, hrun⟩ | ⟨t, hpass, hrun⟩ :=
      (e.readied plan now).runPlan_cases plan now (e.sinceLast now)
    · refine .inl ⟨report, ?_⟩
      have hunderway : (e.underway plan now plan.steps).sinkPass plan.steps = (t, some report) :=
        hpass
      rw [heq, hrun, hunderway]
    · refine .inr ⟨plan, t.info, hcompile, ?_⟩
      have hunderway : (e.underway plan now plan.steps).sinkPass plan.steps = (t, none) := hpass
      rw [heq, hrun, hunderway]

/-- A tick that halts has stopped the engine. -/
theorem events_of_halted (h : e.Reachable) {report : HaltReport} {events : List Event}
    (htick : e.tickAt now = (e', .halted report, events)) :
    (e.tickAt now).2.2 = (e.passes now).2 ++ ((e.passes now).1.stop.2 ++ [.halted report]) := by
  obtain ⟨report', heq⟩ | ⟨plan, info, -, heq⟩ :=
    tickAt_eq_passes h.planSound (running_of_halted htick) now
  · rw [heq] at htick ⊢
    cases htick
    rfl
  · rw [heq] at htick
    cases htick

theorem passes_of_completed (h : e.Reachable) {info : TickInfo} {events : List Event}
    (htick : e.tickAt now = (e', .completed info, events)) :
    ∃ plan, e.graph.compile = .ok plan ∧
      e' = { (e.passes now).1 with tick := (e.passes now).1.tick + 1 } ∧
      events = (e.passes now).2 ++ [.ticked info] := by
  obtain ⟨plan, t, hcompile, hpass, rfl, rfl⟩ := exists_of_completed h.planSound htick
  rw [passes_of_compile hcompile, hpass]
  exact ⟨plan, hcompile, rfl, rfl⟩

/-- The passes keep what no part of a tick changes. -/
theorem passes_fst (e : Engine) (now : Float) :
    (e.passes now).1.graph.skeleton = e.graph.skeleton ∧ (e.passes now).1.running = e.running := by
  rw [passes]
  cases e.graph.compile with
  | error error => exact ⟨rfl, rfl⟩
  | ok plan =>
    have hkeeps := (e.keeps_underway plan now plan.steps).trans
      (Tick.Touches.sinkPass (e.underway plan now plan.steps) plan.steps).keeps
    exact ⟨hkeeps.skeleton, hkeeps.running⟩

/-- What follows the passes delivers nothing. -/
theorem sinkCallsFor_tickAt (he : e.Reachable) (hrunning : e.running = true) (now : Float)
    (v : NodeId) : sinkCallsFor (e.tickAt now).2.2 v = sinkCallsFor (e.passes now).2 v := by
  obtain ⟨report, heq⟩ | ⟨plan, info, -, heq⟩ := tickAt_eq_passes he.planSound hrunning now
  · rw [heq, sinkCallsFor_append, sinkCallsFor_of_sinkCalls (sinkCalls_stop _ report),
      List.append_nil]
  · have hend : sinkCalls [.ticked info] = [] := rfl
    rw [heq, sinkCallsFor_append, sinkCallsFor_of_sinkCalls hend, List.append_nil]

/-! ### In front of a step of the sink pass -/

/-- The state in front of the step of a node in the sink pass of the tick at this time, which is let
past the step. -/
structure Front (e : Engine) (now : Float) (n : Node) (plan : Plan) (before : List PlanStep)
    (s : PlanStep) (after : List PlanStep) (d : NodeDefinition) (t : Tick) : Prop where
  compile : e.graph.compile = .ok plan
  split : plan.steps = before ++ s :: after
  made : e.graph.MadeFrom s n d
  pass : (e.underway plan now plan.steps).sinkPass before = (t, none)
  verdict : t.verdict? s = none

/-- A pass that ends with a report has gone through all steps before the one that trips. -/
theorem exists_trips_of_sinkPass {t₀ t' : Tick} {steps : List PlanStep} {report : HaltReport}
    (h : t₀.sinkPass steps = (t', some report)) : ∃ before s after t,
      steps = before ++ s :: after ∧ t₀.sinkPass before = (t, none) ∧ t.Trips s report := by
  induction steps generalizing t₀ with
  | nil => cases h
  | cons s rest ih =>
    have hverdict := t₀.sinkStep_snd s
    rw [Tick.sinkPass] at h
    split at h
    next t₁ report' heq =>
      obtain ⟨rfl, hreport⟩ := Prod.mk.inj h
      rw [heq, hreport] at hverdict
      exact ⟨[], s, rest, t₀, rfl, rfl, Tick.verdict?_eq_some_iff.1 hverdict.symm⟩
    next t₁ heq =>
      obtain ⟨before, s', after, t, rfl, hpass, htrips⟩ := ih h
      refine ⟨s :: before, s', after, t, rfl, ?_, htrips⟩
      rw [Tick.sinkPass, heq]
      exact hpass

/-- **Every node has its front** in a tick of a graph that compiles, unless the watchdog trips on
the node or on one before it. -/
theorem exists_front {plan : Plan} (hcompile : e.graph.compile = .ok plan) {n : Node}
    (hn : n ∈ e.graph.nodes) (hpassed : ∀ s after report, e.TripsAt now s after report →
      n.id ∉ (s :: after).map PlanStep.node) :
    ∃ before s after d t, e.Front now n plan before s after d t := by
  obtain ⟨s, hs, d, hmade⟩ := Graph.exists_madeFrom_of_mem hcompile hn
  have hpart : ∃ done rest t', plan.steps = done ++ rest ∧ s ∈ done ∧
      (e.underway plan now plan.steps).sinkPass done = (t', none) := by
    cases hpass : (e.underway plan now plan.steps).sinkPass plan.steps with
    | mk t' report =>
      cases report with
      | none => exact ⟨plan.steps, [], t', by simp, hs, hpass⟩
      | some report =>
        obtain ⟨done, s', after, t, hsplit, hdone, htrips⟩ := exists_trips_of_sinkPass hpass
        have hlate := hpassed s' after report ⟨plan, done, t, hcompile, hsplit, hdone, htrips⟩
        rw [hsplit, List.mem_append] at hs
        refine ⟨done, s' :: after, t, hsplit, hs.resolve_right fun hmem ↦ hlate ?_, hdone⟩
        rw [← hmade.node_eq]
        exact List.mem_map_of_mem hmem
  obtain ⟨done, rest, t', hsplit, hs, hdone⟩ := hpart
  obtain ⟨before, after, rfl⟩ := List.append_of_mem hs
  obtain ⟨t, t'', hbefore, hstep, -⟩ := Tick.exists_of_sinkPass hdone
  refine ⟨before, s, after ++ rest, d, t, hcompile, ?_, hmade, hbefore, ?_⟩
  · rw [hsplit, List.append_assoc, List.cons_append]
  · rw [← Tick.sinkStep_snd, hstep]

/-- In a completed tick the watchdog does not trip. -/
theorem not_tripsAt_of_completed (h : e.Reachable) {info : TickInfo}
    (htick : e.tickAt now = (e', .completed info, events)) {s : PlanStep} {after : List PlanStep}
    {report : HaltReport} : ¬ e.TripsAt now s after report := by
  rintro ⟨plan, before, t, hcompile, hsplit, hpass, htrips⟩
  rw [tickAt_eq_of_trips h (running_of_completed htick) hcompile hsplit hpass htrips] at htick
  cases htick

section Front

variable {n : Node} {plan : Plan} {before after : List PlanStep} {s : PlanStep}
  {d : NodeDefinition} {t : Tick}

/-- The steps before the front are of other nodes. -/
theorem Front.touches (h : e.Front now n plan before s after d t) :
    Tick.Touches before [.sink, .disable] (e.underway plan now plan.steps) t :=
  (Tick.Touches.of_sinkPass h.pass).1

/-- The sink pass finds the graph as the compute pass left it. -/
theorem Front.graph (h : e.Front now n plan before s after d t) :
    t.engine.graph = (e.underway plan now plan.steps).engine.graph :=
  (keeps_sinkPass h.pass).2

theorem Front.keeps (h : e.Front now n plan before s after d t) :
    (e.readied plan now).Keeps t.engine :=
  (keeps_sinkPass h.pass).1

theorem Front.not_mem (h : e.Front now n plan before s after d t) (hids : e.graph.UniqueIds) :
    n.id ∉ before.map PlanStep.node ∧ n.id ∉ after.map PlanStep.node := by
  have hnodup := Graph.nodup_node_steps hids h.compile
  rw [h.split] at hnodup
  exact h.made.node_eq ▸ Tick.not_mem_of_nodup hnodup

/-- The rest of the pass is about other nodes. -/
theorem Front.rest (h : e.Front now n plan before s after d t) :
    Tick.Touches after [.sink, .disable] (t.sinkStep s).1
        ((e.underway plan now plan.steps).sinkPass plan.steps).1 ∧
      ((e.underway plan now plan.steps).sinkPass plan.steps).1.engine.graph = t.engine.graph := by
  have hrest := Tick.touches_of_sinkPass h.pass h.verdict after
  rw [← h.split] at hrest
  exact hrest

/-- **The sink hook of a node is called by its step** and by nothing else in the tick. -/
theorem Front.calls (h : e.Front now n plan before s after d t) (he : e.Reachable)
    (hrunning : e.running = true) :
    sinkCallsFor (e.tickAt now).2.2 n.id = (t.handOver? s).toList := by
  have hnode := h.made.node_eq
  obtain ⟨hnew, hlast⟩ := h.not_mem he.uniqueIds
  have hpasses : sinkCallsFor (e.passes now).2 n.id = (t.handOver? s).toList := by
    have hnothing : sinkCallsFor (e.underway plan now plan.steps).events n.id = [] :=
      sinkCallsFor_of_sinkCalls (e.events_underway plan now plan.steps).1 n.id
    rw [passes_of_compile h.compile]
    dsimp only
    rw [h.rest.1.sinkCallsFor_eq hlast, ← hnode, t.sinkCallsFor_sinkStep, hnode,
      h.touches.sinkCallsFor_eq hnew, hnothing, List.nil_append]
  rw [← hpasses]
  exact sinkCallsFor_tickAt he hrunning now n.id

theorem Front.call (h : e.Front now n plan before s after d t) (he : e.Reachable)
    (hrunning : e.running = true) : sinkCallFor? (e.tickAt now).2.2 n.id = t.handOver? s := by
  rw [sinkCallFor?_eq_head?, h.calls he hrunning, Option.head?_toList]

/-! ### What the front finds -/

theorem graphBetween_of_compile (hcompile : e.graph.compile = .ok plan) :
    e.graphBetween now = (e.underway plan now plan.steps).engine.graph := by
  rw [graphBetween, hcompile]

/-- The compute pass keeps the skeleton. -/
theorem skeleton_graphBetween (e : Engine) (now : Float) :
    (e.graphBetween now).skeleton = e.graph.skeleton := by
  rw [graphBetween]
  split
  next plan _ => exact (e.keeps_underway plan now plan.steps).skeleton
  next => rfl

theorem Front.graphBetween_eq (h : e.Front now n plan before s after d t) :
    e.graphBetween now = t.engine.graph :=
  (graphBetween_of_compile h.compile).trans h.graph.symm

/-- **The node in front of its step** is as the compute pass leaves it. -/
theorem Front.node (h : e.Front now n plan before s after d t) (hids : e.graph.UniqueIds) :
    t.engine.graph.nodes[s.index]? = some (e.nodeIn now (e.graphBetween now) n d) := by
  rw [h.graph, graphBetween_of_compile h.compile]
  exact nodes_underway hids h.compile h.split h.made now

/-- What is remembered of a node for the compute pass is as its step there has left it. -/
theorem Front.computeMemoryOf (h : e.Front now n plan before s after d t) :
    t.engine.computeMemoryOf n.id =
      (e.underway plan now plan.steps).engine.computeMemoryOf n.id := by
  have hmemory :=
    Tick.computeMemoryOf_sinkPass (e.underway plan now plan.steps) before n.id
  rw [h.pass] at hmemory
  exact hmemory

/-- The inputs of a node as they are last resolved: in this tick, if its computation runs. -/
theorem Front.lastInputs (h : e.Front now n plan before s after d t) (hids : e.graph.UniqueIds) :
    (t.engine.memoryOf n.id).lastInputs =
      if e.computes n.id then some ((e.atTime now).inputsOf (e.graphBetween now) n d)
      else (e.memoryOf n.id).lastInputs := by
  rw [graphBetween_of_compile h.compile, ← lastInputs_underway hids h.compile h.split h.made]
  exact congrArg Prod.snd h.computeMemoryOf

end Front

/-! ### Turns -/

/-- The turn of a node in the sink pass of a completed tick: its step, and the state in front of
that step. What was remembered of the node is as before the tick, unless the node is disabled; what
is remembered of it after the tick, and the call of its sink hook, are as the step leaves them. -/
structure Turn (e e' : Engine) (events : List Event) (v : NodeId) (s : PlanStep)
    (d : NodeDefinition) (t : Tick) : Prop where
  node : s.node = v
  made : ∃ n, e'.graph.MadeFrom s n d
  definition : e.graph.definitionOf? v = some d
  skeleton : e'.graph.skeleton = e.graph.skeleton
  graph : t.engine.graph = e'.graph
  policy : t.engine.policy = e.policy
  enabled : e.policy.node v = true → t.engine.sinkMemoryOf v = e.sinkMemoryOf v ∧
    t.engine.askedOf v = e.askedOf v + 1
  disabled : e.policy.node v = false → (t.engine.memoryOf v).sinkSnapshot = none
  verdict : t.verdict? s = none
  memory : e'.sinkMemoryOf v = (t.sinkStep s).1.engine.sinkMemoryOf v
  call : sinkCallFor? events v = t.handOver? s

/-- **The front of a node is its turn**, for an engine and events that are as its step leaves them.
-/
theorem Front.turn {n : Node} {plan : Plan} {before after : List PlanStep} {s : PlanStep}
    {d : NodeDefinition} {t : Tick} (h : e.Front now n plan before s after d t) (he : e.Reachable)
    (hgraph : e'.graph = t.engine.graph)
    (hmemory : e'.sinkMemoryOf n.id = (t.sinkStep s).1.engine.sinkMemoryOf n.id)
    (hcall : sinkCallFor? events n.id = t.handOver? s) : e.Turn e' events n.id s d t := by
  have hids := he.uniqueIds
  have hnode := h.made.node_eq
  have htouches := h.touches
  obtain ⟨hnew, -⟩ := h.not_mem hids
  have hnodup := Graph.nodup_node_steps hids h.compile
  rw [h.split] at hnodup
  have hcomputed := Tick.computePass_of_mem hnodup
    (t := (e.readied plan now).beginTick now (e.sinceLast now))
  rw [← h.split] at hcomputed
  have hskel : e'.graph.skeleton = e.graph.skeleton := by
    rw [hgraph]
    exact h.keeps.skeleton
  obtain ⟨n', hmade', -⟩ := h.made.congr hskel
  refine ⟨hnode, ⟨n', hmade'⟩, ?_, hskel, hgraph.symm, h.keeps.policy, fun henabled ↦ ?_,
    fun hdisabled ↦ ?_, h.verdict, hmemory, hcall⟩
  · rw [Graph.definitionOf?, Graph.node?_of_getElem? hids h.made.1, Option.bind_some]
    exact h.made.2.1
  · obtain ⟨hsame, hasked⟩ := hcomputed.1 (hnode ▸ henabled)
    rw [htouches.sinkMemoryOf hnew, htouches.asked _ hnew, ← hnode]
    exact ⟨hsame, hasked⟩
  · rw [htouches.memory _ hnew, ← hnode]
    exact hcomputed.2 (hnode ▸ hdisabled)

/-- A completed tick leaves behind the graph and the memory that the step of a node leaves. -/
theorem Front.completed {n : Node} {plan : Plan} {before after : List PlanStep} {s : PlanStep}
    {d : NodeDefinition} {t : Tick} (h : e.Front now n plan before s after d t) (he : e.Reachable)
    {info : TickInfo} (htick : e.tickAt now = (e', .completed info, events)) :
    e'.graph = t.engine.graph ∧
      e'.memoryOf n.id = (t.sinkStep s).1.engine.memoryOf n.id := by
  obtain ⟨plan', hcompile, rfl, -⟩ := passes_of_completed he htick
  obtain ⟨hrest, hgraph⟩ := h.rest
  rw [passes_of_compile h.compile]
  exact ⟨hgraph, hrest.memory _ (h.not_mem he.uniqueIds).2⟩

/-- **Every node has its turn in a completed tick.** -/
theorem exists_turn (h : e.Reachable) {info : TickInfo}
    (htick : e.tickAt now = (e', .completed info, events)) {v : Node} (hv : v ∈ e.graph.nodes) :
    ∃ s d t, e.Turn e' events v.id s d t := by
  have hrunning := running_of_completed htick
  obtain ⟨plan, hcompile, -⟩ := passes_of_completed h htick
  obtain ⟨before, s, after, d, t, hfront⟩ := exists_front hcompile hv
    fun s after report htrips ↦ absurd htrips (not_tripsAt_of_completed h htick)
  obtain ⟨hgraph, hmemory⟩ := hfront.completed h htick
  have hcall := hfront.call h hrunning
  rw [htick] at hcall
  refine ⟨s, d, t, hfront.turn h hgraph ?_ hcall⟩
  rw [sinkMemoryOf, hmemory, sinkMemoryOf]

/-- No step of a plan is about an id that no node has. -/
theorem not_mem_steps {g : Graph} {plan : Plan} (hcompile : g.compile = .ok plan) {v : NodeId}
    (hv : v ∉ g.nodes.map Node.id) : v ∉ plan.steps.map PlanStep.node := by
  intro hmem
  obtain ⟨s, hs, rfl⟩ := List.mem_map.1 hmem
  obtain ⟨n, d, hmade⟩ := Graph.exists_madeFrom hcompile hs
  exact hv (List.mem_map.2 ⟨n, List.mem_of_getElem? hmade.1, hmade.node_eq.symm⟩)

/-- A completed tick leaves alone what is remembered under an id that no node has. -/
theorem memoryOf_of_completed (h : e.Reachable) {now : Float} {info : TickInfo}
    (htick : e.tickAt now = (e', .completed info, events)) {v : NodeId}
    (hv : v ∉ e.graph.nodes.map Node.id) : e'.memoryOf v = e.memoryOf v := by
  obtain ⟨plan, t, hcompile, hpass, rfl, -⟩ := exists_of_completed h.planSound htick
  have hnone := not_mem_steps hcompile hv
  have hcompute := Tick.Touches.computePass
    ((e.readied plan now).beginTick now (e.sinceLast now)) plan.steps
  obtain ⟨hsink, -⟩ := Tick.Touches.of_sinkPass hpass
  exact (hsink.memory v hnone).trans (hcompute.memory v hnone)

theorem sinkMemoryOf_of_completed (h : e.Reachable) {now : Float} {info : TickInfo}
    (htick : e.tickAt now = (e', .completed info, events)) {v : NodeId}
    (hv : v ∉ e.graph.nodes.map Node.id) : e'.sinkMemoryOf v = e.sinkMemoryOf v := by
  rw [sinkMemoryOf, memoryOf_of_completed h htick hv, sinkMemoryOf]

/-! ### Which nodes are visited -/

section Visits

variable (e)

/-- Whether the gates let the sink pass of the next tick attend to a node: it is enabled,
compute-enabled and sink-enabled. By then the compute pass has asked the compute gate once. -/
def admits (v : NodeId) : Bool :=
  e.policy.node v && (e.policy.compute v (e.askedOf v + 1) && e.policy.sink v)

/-- Whether the next tick visits a node: it is admitted, and something is connected. -/
def visits (v : NodeId) : Bool := e.admits v && e.graph.isWired v

/-- Whether the next tick cleans a node up: it is disabled, or admitted with nothing connected. -/
def cleansUp (v : NodeId) : Bool := !e.policy.node v || e.admits v && !e.graph.isWired v

variable {e} {v : NodeId} {s : PlanStep} {d : NodeDefinition} {t : Tick}

theorem Turn.definition_eq (h : e.Turn e' events v s d t) : s.definition = d := by
  obtain ⟨n, hmade⟩ := h.made
  exact hmade.definition_eq

/-- The definition in the turn of a node is the one that its type has. -/
theorem Turn.unique {n : Node} {d' : NodeDefinition} (h : e.Turn e' events n.id s d t)
    (hids : e.graph.UniqueIds) (hn : n ∈ e.graph.nodes)
    (hd : e.graph.catalog.get? n.type = some d') : d = d' := by
  have hdefinition := h.definition
  rw [Graph.definitionOf?, Graph.node?_of_mem hids hn, Option.bind_some, hd] at hdefinition
  exact (Option.some.inj hdefinition).symm

/-- A step of the sink pass is allowed if its node is admitted. -/
theorem sinkAllowed_eq_admits (hpolicy : t.engine.policy = e.policy) (hnode : s.node = v)
    (hasked : e.policy.node v = true → t.engine.askedOf v = e.askedOf v + 1) :
    (t.sinkAllowed s).1 = e.admits v := by
  rw [Tick.sinkAllowed, admits, hpolicy, hnode]
  cases henabled : e.policy.node v with
  | false => rfl
  | true =>
    rw [if_pos rfl, Tick.computeAllowed_eq, hpolicy, hasked henabled]
    rfl

theorem Turn.allowed (h : e.Turn e' events v s d t) : (t.sinkAllowed s).1 = e.admits v :=
  sinkAllowed_eq_admits h.policy h.node fun hnode ↦ (h.enabled hnode).2

/-- A node is attended to if it has points of delivery and the gates admit it. -/
theorem Turn.attended?_isSome (h : e.Turn e' events v s d t) :
    (t.attended? s).isSome = (d.hasSinkInputs && e.admits v) := by
  obtain ⟨n, hmade⟩ := h.made
  rw [Tick.attended?, h.definition_eq, h.allowed, h.graph, hmade.1]
  split
  next hattended => rw [hattended]; rfl
  next hnot => rw [Bool.eq_false_of_not_eq_true hnot]; rfl

/-- A step counts connections exactly if its node is wired. -/
theorem Turn.count_eq_zero_iff (h : e.Turn e' events v s d t) (hids : e'.graph.UniqueIds) :
    s.sinkConnectionCount = 0 ↔ e.graph.isWired v = false := by
  obtain ⟨n, hmade⟩ := h.made
  have hnode : n.id = v := hmade.node_eq.symm.trans h.node
  rw [Graph.sinkConnectionCount_eq_zero_iff hids hmade, hnode, Graph.isWired_congr h.skeleton]

/-- A node that is not visited is handed nothing. -/
theorem Turn.call_of_not_visited (h : e.Turn e' events v s d t) (hnot : t.visited? s = none) :
    sinkCallFor? events v = none := by
  rw [h.call]
  exact Tick.handOver?_of_offer? (Tick.offer?_of_visited? hnot)

theorem enabled_of_admits (h : e.admits v = true) : e.policy.node v = true := by
  rw [admits, Bool.and_eq_true] at h
  exact h.1

theorem Turn.exists_visited (h : e.Turn e' events v s d t) (hids : e'.graph.UniqueIds)
    (hvisits : e.visits v = true) : ∃ n, t.visited? s = some n := by
  rw [visits, Bool.and_eq_true] at hvisits
  have hcount : s.sinkConnectionCount ≠ 0 := by
    rw [Ne, h.count_eq_zero_iff hids, hvisits.2]
    exact nofun
  have hpoints : d.hasSinkInputs = true := by
    -- Otherwise the step has no route to count a connection on.
    by_contra hnone
    have hempty : d.sinkInputs = [] := by
      rw [NodeDefinition.sinkInputs, List.filter_eq_nil_iff]
      simpa [NodeDefinition.hasSinkInputs] using hnone
    obtain ⟨n, hmade⟩ := h.made
    refine hcount ?_
    rw [PlanStep.sinkConnectionCount, hmade.sinkRoutes_eq, hempty]
    rfl
  have hattended := h.attended?_isSome
  rw [hpoints, hvisits.1] at hattended
  rw [Tick.visited?, if_neg hcount]
  exact Option.isSome_iff_exists.1 hattended

/-- What was remembered of a node whose turn has come is what was remembered before the tick. -/
theorem Turn.snapshot_eq (h : e.Turn e' events v s d t) (hnode : e.policy.node v = true) :
    (t.engine.memoryOf s.node).sinkSnapshot = (e.memoryOf v).sinkSnapshot := by
  rw [h.node]
  exact congrArg Prod.fst (h.enabled hnode).1

/-- A visit is remembered. -/
theorem Turn.memory_of_visited (h : e.Turn e' events v s d t) {n : Node}
    (hvisited : t.visited? s = some n) : e'.sinkMemoryOf v = (some (t.sight s n), true) := by
  rw [h.memory, ← h.node]
  exact Tick.sinkStep_of_visited hvisited h.verdict

/-- Only an enabled node is visited. -/
theorem Turn.enabled_of_visited (h : e.Turn e' events v s d t) {n : Node}
    (hvisited : t.visited? s = some n) : e.policy.node v = true := by
  have hattended := h.attended?_isSome
  rw [Tick.visited?] at hvisited
  split at hvisited
  · cases hvisited
  · rw [hvisited, Option.isSome_some, eq_comm, Bool.and_eq_true] at hattended
    exact enabled_of_admits hattended.2

/-- What a visit finds at a port is what is gathered there. -/
theorem Turn.get?_sight (h : e.Turn e' events v s d t) (hids : e'.graph.UniqueIds) (n : Node)
    (port : String) : (t.sight s n).sinkValues.get? port = e'.graph.gathered? v port := by
  obtain ⟨m, hmade⟩ := h.made
  have hnode : m.id = v := hmade.node_eq.symm.trans h.node
  show (s.gather t.engine.graph).get? port = _
  rw [h.graph, Graph.get?_gather hids hmade, hnode]

/-! ### What a turn leaves in memory -/

/-- A node that is visited is not cleaned up. -/
theorem not_cleansUp_of_visits (h : e.visits v = true) : e.cleansUp v = false := by
  rw [visits, Bool.and_eq_true] at h
  rw [cleansUp, enabled_of_admits h.1, h.2]
  simp

/-- The compute pass forgets the last visit of a disabled node, and no step after it remembers
one. -/
theorem Turn.memory_of_disabled (h : e.Turn e' events v s d t) (hnode : e.policy.node v = false) :
    (e'.sinkMemoryOf v).1 = none := by
  have hattended := h.attended?_isSome
  rw [admits, hnode, Bool.false_and, Bool.and_false] at hattended
  have hnone := Option.isNone_iff_eq_none.1 (Option.isSome_eq_false_iff.1 hattended)
  rw [h.memory, ← h.node, Tick.sinkStep_of_not_attended hnone, h.node]
  exact h.disabled hnode

/-- The turn of an enabled node that is not attended to leaves its memory alone. -/
theorem Turn.memory_of_not_attended (h : e.Turn e' events v s d t)
    (hnode : e.policy.node v = true) (hnone : t.attended? s = none) :
    e'.sinkMemoryOf v = e.sinkMemoryOf v := by
  rw [h.memory, ← h.node, Tick.sinkStep_of_not_attended hnone, h.node]
  exact (h.enabled hnode).1

/-- The turn of a node that is attended to with nothing connected forgets the last visit, if
anything was connected then. -/
theorem Turn.memory_of_unplugged (h : e.Turn e' events v s d t) (hids : e'.graph.UniqueIds)
    (hnode : e.policy.node v = true) (hwired : e.graph.isWired v = false) {n : Node}
    (hattended : t.attended? s = some n) : e'.sinkMemoryOf v =
      if (e.sinkMemoryOf v).2 then (none, false) else e.sinkMemoryOf v := by
  rw [h.memory, ← h.node,
    Tick.sinkStep_of_unplugged hattended ((h.count_eq_zero_iff hids).2 hwired), h.node,
    ← (h.enabled hnode).1]
  rfl

end Visits

end Engine

end CueFlow
