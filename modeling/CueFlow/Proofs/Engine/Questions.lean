import CueFlow.Proofs.Engine.Turn
/-!
# What a completed tick asks and resolves

Both passes ask the compute gate about an enabled node: the compute pass always, the sink pass if
the node has points of delivery (`Engine.asks`). What the answers are, and what comes of the
computation and of the delivery, makes no difference; so after a completed tick it is known how
often the gate has been asked, without knowing any of its answers (`askedOf_of_completed`).

A halt ends the sink pass early, and then the gate has not been asked about the nodes that were
still to come.
-/

namespace CueFlow

/-- The compute gate gives the same answer however often it has been asked. -/
def HostPolicy.Steady (p : HostPolicy) : Prop := ∀ v m n, p.compute v m = p.compute v n

theorem HostPolicy.steady_allEnabled : HostPolicy.allEnabled.Steady := fun _ _ _ ↦ rfl

namespace Tick

/-! ### Questions in a step -/

theorem asked_visit (t : Tick) (s : PlanStep) (n : Node) :
    (t.visit s n).1.engine.asked = t.engine.asked := by
  show _ = (t.connect s).engine.asked
  rw [visit]
  generalize t.connect s = t
  split
  next => rfl
  next delivered _ =>
    have hguard : (t.guardDelivery s (t.sight s n) delivered).1.engine.asked = t.engine.asked := rfl
    split
    next guarded report heq =>
      rw [heq] at hguard
      exact hguard
    next guarded heq =>
      rw [heq] at hguard
      exact (congrArg Engine.asked (engine_deliver guarded s _ delivered)).trans hguard

theorem asked_visitUnplugged (t : Tick) (s : PlanStep) (n : Node) :
    (t.visitUnplugged s n).engine.asked = t.engine.asked := by
  rw [visitUnplugged]
  split
  · rw [engine_mapEngine, engine_fireDisable]
    rfl
  · rfl

/-- A step of the sink pass asks about an enabled node with points of delivery, and then it asks
once, however it goes on. -/
theorem askedOf_sinkStep (t : Tick) (s : PlanStep) : (t.sinkStep s).1.engine.askedOf s.node =
    t.engine.askedOf s.node +
      if s.definition.hasSinkInputs && t.engine.policy.node s.node then 1 else 0 := by
  have hgates : (t.sinkAllowed s).2.engine.askedOf s.node =
      t.engine.askedOf s.node + if t.engine.policy.node s.node then 1 else 0 := by
    rw [sinkAllowed]
    split
    next => exact Engine.askedOf_askCompute t.engine s.node
    next => rfl
  rw [sinkStep]
  cases s.definition.hasSinkInputs with
  | false => rfl
  | true =>
    rw [if_pos rfl, Bool.true_and, ← hgates]
    -- Once the gates have been asked, the rest of the step asks nothing.
    generalize t.sinkAllowed s = gates
    obtain ⟨allowed, asked⟩ := gates
    have hvisit := fun n ↦ congrArg (fun asked ↦ (KeyMap.get? asked s.node).getD 0)
      (asked.asked_visit s n)
    have hunplugged := fun n ↦ congrArg (fun asked ↦ (KeyMap.get? asked s.node).getD 0)
      (asked.asked_visitUnplugged s n)
    dsimp only
    split
    · split
      · rfl
      · split
        · exact hunplugged _
        · exact hvisit _
    · rfl

/-- A step of the compute pass asks about an enabled node once. -/
theorem askedOf_computeStep (t : Tick) (s : PlanStep) : (t.computeStep s).engine.askedOf s.node =
    t.engine.askedOf s.node + if t.engine.policy.node s.node then 1 else 0 := by
  cases hnode : t.engine.policy.node s.node with
  | true => exact (computeStep_of_enabled hnode).2
  | false =>
    have hsame : (t.enterDisabled s).engine.askedOf s.node = t.engine.askedOf s.node := by
      rw [enterDisabled]
      split
      · rfl
      · split
        · rw [engine_mapEngine, engine_fireDisable]
          rfl
        · rfl
    rw [computeStep, if_neg (by simp [hnode])]
    exact hsame

/-- The step of a disabled node leaves alone whether anything was connected. -/
theorem sinkMemoryOf_computeStep_of_disabled {t : Tick} {s : PlanStep}
    (h : t.engine.policy.node s.node = false) :
    (t.computeStep s).engine.sinkMemoryOf s.node =
      (none, (t.engine.sinkMemoryOf s.node).2) := by
  rw [computeStep, if_neg (by simp [h])]
  show (t.enterDisabled s).engine.sinkMemoryOf s.node = _
  rw [enterDisabled, engine_mapEngine, Engine.sinkMemoryOf, Engine.memoryOf_remember_self]
  dsimp only
  split
  · rfl
  · split
    · rw [engine_fireDisable]
      rfl
    · rfl

end Tick

namespace Engine

variable {e e' : Engine} {events : List Event} {now : Float} {v : NodeId} {n : Node}
  {d : NodeDefinition}

/-- How often a completed tick asks the compute gate about a node. -/
def asks (e : Engine) (v : NodeId) (d : NodeDefinition) : Nat :=
  if e.policy.node v then if d.hasSinkInputs then 2 else 1 else 0

/-! ### After the compute pass -/

section Step

variable {plan : Plan} {s : PlanStep} {before after : List PlanStep} (hids : e.graph.UniqueIds)
  (hcompile : e.graph.compile = .ok plan) (hsplit : plan.steps = before ++ s :: after)
  (hmade : e.graph.MadeFrom s n d) (now : Float)

include hids hcompile hsplit hmade

/-- What the compute pass leaves of a node, its own step leaves. -/
theorem exists_underway_step : ∃ t : Tick, t.engine.policy = e.policy ∧
    t.engine.sinkMemoryOf n.id = e.sinkMemoryOf n.id ∧ t.engine.askedOf n.id = e.askedOf n.id ∧
    (e.underway plan now plan.steps).engine.sinkMemoryOf n.id =
      (t.computeStep s).engine.sinkMemoryOf n.id ∧
    (e.underway plan now plan.steps).engine.askedOf n.id =
      (t.computeStep s).engine.askedOf n.id := by
  have hnode := hmade.node_eq
  have hnodup := Graph.nodup_node_steps hids hcompile
  rw [hsplit] at hnodup
  obtain ⟨hnew, hlast⟩ := Tick.not_mem_of_nodup hnodup
  rw [hnode] at hnew hlast
  have hbefore := Tick.Touches.computePass
    ((e.readied plan now).beginTick now (e.sinceLast now)) before
  have hafter := Tick.Touches.computePass ((e.underway plan now before).computeStep s) after
  refine ⟨e.underway plan now before, (e.keeps_underway plan now before).policy,
    hbefore.sinkMemoryOf hnew, hbefore.asked _ hnew, ?_⟩
  rw [underway, hsplit, Tick.computePass_append]
  exact ⟨hafter.sinkMemoryOf hlast, hafter.asked _ hlast⟩

theorem sinkMemoryOf_underway_eq : (e.underway plan now plan.steps).engine.sinkMemoryOf n.id =
    if e.policy.node n.id then e.sinkMemoryOf n.id else (none, (e.sinkMemoryOf n.id).2) := by
  obtain ⟨t, hpolicy, hmemory, -, hstep, -⟩ := exists_underway_step hids hcompile hsplit hmade now
  rw [hstep, ← hpolicy, ← hmemory, ← hmade.node_eq]
  cases hnode : t.engine.policy.node s.node with
  | true => exact (Tick.computeStep_of_enabled hnode).1
  | false => exact Tick.sinkMemoryOf_computeStep_of_disabled hnode

theorem askedOf_underway_eq : (e.underway plan now plan.steps).engine.askedOf n.id =
    e.askedOf n.id + if e.policy.node n.id then 1 else 0 := by
  obtain ⟨t, hpolicy, -, hasked, -, hstep⟩ := exists_underway_step hids hcompile hsplit hmade now
  rw [hstep, ← hpolicy, ← hasked, ← hmade.node_eq]
  exact t.askedOf_computeStep s

end Step

/-- How often the compute pass has asked the gate, whether or not there is such a node. -/
theorem askedOf_underway_of_compile {plan : Plan} (hids : e.graph.UniqueIds)
    (hcompile : e.graph.compile = .ok plan) (now : Float) (v : NodeId) :
    (e.underway plan now plan.steps).engine.askedOf v =
      e.askedOf v + if (e.graph.node? v).isSome && e.policy.node v then 1 else 0 := by
  cases hn : e.graph.node? v with
  | none =>
    have hv : v ∉ e.graph.nodes.map Node.id := by
      rw [← Graph.node?_isSome_iff, hn]
      exact Bool.false_ne_true
    have hcompute := Tick.Touches.computePass
      ((e.readied plan now).beginTick now (e.sinceLast now)) plan.steps
    exact hcompute.asked v (not_mem_steps hcompile hv)
  | some n =>
    obtain rfl := Graph.id_of_node? hn
    obtain ⟨s, hs, d, hmade⟩ :=
      Graph.exists_madeFrom_of_mem hcompile (List.mem_of_find?_eq_some hn)
    obtain ⟨before, after, hsplit⟩ := List.append_of_mem hs
    exact askedOf_underway_eq hids hcompile hsplit hmade now

/-! ### After a completed tick -/

section Completed

variable (h : e.Reachable) {info : TickInfo}
  (htick : e.tickAt now = (e', .completed info, events))

include h htick

/-- **How often the compute gate has been asked** after a completed tick. -/
theorem askedOf_of_completed (hn : n ∈ e.graph.nodes) (hd : e.graph.catalog.get? n.type = some d) :
    e'.askedOf n.id = e.askedOf n.id + e.asks n.id d := by
  obtain ⟨plan, t', hcompile, hpass, rfl, -⟩ := exists_of_completed h.planSound htick
  obtain ⟨s, hs, d', hmade⟩ := Graph.exists_madeFrom_of_mem hcompile hn
  obtain rfl : d' = d := Option.some.inj (hmade.2.1.symm.trans hd)
  have hnode := hmade.node_eq
  have hnodup := Graph.nodup_node_steps h.uniqueIds hcompile
  obtain ⟨before, after, hsplit⟩ := List.append_of_mem hs
  rw [hsplit] at hnodup
  obtain ⟨hnew, hlast⟩ := Tick.not_mem_of_nodup hnodup
  have hpasses := hpass
  rw [hsplit] at hpass
  obtain ⟨t₁, t₂, hbefore, hstep, hafter⟩ := Tick.exists_of_sinkPass hpass
  obtain ⟨htouches, -⟩ := Tick.Touches.of_sinkPass hbefore
  obtain ⟨hrest, -⟩ := Tick.Touches.of_sinkPass hafter
  have hasked := t₁.askedOf_sinkStep s
  rw [hstep, htouches.asked _ hnew, htouches.keeps.policy,
    (e.keeps_underway plan now (before ++ s :: after)).policy, ← hsplit, hnode,
    askedOf_underway_eq h.uniqueIds hcompile hsplit hmade, hmade.definition_eq] at hasked
  have hlater : t'.engine.askedOf n.id = t₂.engine.askedOf n.id := hrest.asked _ (hnode ▸ hlast)
  show t'.engine.askedOf n.id = _
  rw [hlater, hasked, asks, Nat.add_assoc]
  have hpolicy : (e.readied plan now).policy = e.policy := rfl
  rw [hpolicy]
  cases e.policy.node n.id <;> cases d'.hasSinkInputs <;> rfl

/-- The inputs of a node as they are last resolved. -/
theorem lastInputs_of_completed (hn : n ∈ e.graph.nodes)
    (hd : e.graph.catalog.get? n.type = some d) : (e'.memoryOf n.id).lastInputs =
      if e.computes n.id then some ((e.atTime now).inputsOf e'.graph n d)
      else (e.memoryOf n.id).lastInputs := by
  obtain ⟨plan, t, hcompile, hpass, rfl, -⟩ := exists_of_completed h.planSound htick
  obtain ⟨s, hs, d', hmade⟩ := Graph.exists_madeFrom_of_mem hcompile hn
  obtain rfl : d' = d := Option.some.inj (hmade.2.1.symm.trans hd)
  obtain ⟨before, after, hsplit⟩ := List.append_of_mem hs
  have hsame := Tick.computeMemoryOf_sinkPass (e.underway plan now plan.steps) plan.steps n.id
  rw [hpass] at hsame
  have hgraph : t.engine.graph = (e.underway plan now plan.steps).engine.graph :=
    (keeps_sinkPass hpass).2
  show (t.engine.memoryOf n.id).lastInputs = if _ then some (inputsOf _ t.engine.graph n d') else _
  rw [hgraph, ← lastInputs_underway h.uniqueIds hcompile hsplit hmade]
  exact congrArg Prod.snd hsame

/-- A completed tick leaves alone how often the compute gate was asked, and what the watchdog has
observed, under an id that no node has, and calls no sink hook there. -/
theorem untouched_of_completed (hv : v ∉ e.graph.nodes.map Node.id) :
    e'.askedOf v = e.askedOf v ∧
      (∀ port, e'.watchdog.observed v port = e.watchdog.observed v port) ∧
      sinkCallsFor events v = [] := by
  obtain ⟨plan, t, hcompile, hpass, rfl, rfl⟩ := exists_of_completed h.planSound htick
  have hnone := not_mem_steps hcompile hv
  have hcompute := Tick.Touches.computePass
    ((e.readied plan now).beginTick now (e.sinceLast now)) plan.steps
  obtain ⟨hsink, -⟩ := Tick.Touches.of_sinkPass hpass
  refine ⟨(hsink.asked v hnone).trans (hcompute.asked v hnone), fun port ↦ ?_, ?_⟩
  · have hobserved := Tick.observed_sinkPass hnone (e.underway plan now plan.steps) port
    rw [hpass, watchdog_underway] at hobserved
    exact hobserved
  · rw [sinkCallsFor_append, hsink.sinkCallsFor_eq hnone,
      sinkCallsFor_of_sinkCalls (e.events_underway plan now plan.steps).1]
    rfl

end Completed

end Engine

end CueFlow
