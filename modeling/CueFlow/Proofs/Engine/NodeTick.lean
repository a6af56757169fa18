import CueFlow.Proofs.Engine.Dataflow
import CueFlow.Proofs.Engine.Gather
import CueFlow.Proofs.Engine.SinkPass
/-!
# Both passes, seen from one node

Every node has one step in each pass, and no other step touches what is remembered of it, what the
compute gate was asked about it, or what its hooks were called with. What is remembered of a node
falls into two parts: the sink pass leaves alone what the compute pass goes by
(`computeMemoryOf_sinkPass`), and the compute pass leaves alone what the sink pass goes by, unless
the node is disabled (`computePass_of_mem`). What a step of the sink pass does to the latter is said
for each of the ways that it may go.
-/

namespace CueFlow

namespace Engine

variable {e : Engine}

/-! ### What is remembered for either pass -/

/-- What is remembered of a node for the sink pass: the last visit, and whether anything was
connected then. -/
def sinkMemoryOf (e : Engine) (v : NodeId) : Option SinkSnapshot × Bool :=
  ((e.memoryOf v).sinkSnapshot, (e.memoryOf v).sinkConnected)

theorem sinkMemoryOf_remember {v : NodeId} {f : NodeMemory → NodeMemory}
    (hsnapshot : ∀ m, (f m).sinkSnapshot = m.sinkSnapshot)
    (hconnected : ∀ m, (f m).sinkConnected = m.sinkConnected) :
    (e.remember v f).sinkMemoryOf v = e.sinkMemoryOf v := by
  rw [sinkMemoryOf, memoryOf_remember_self, hsnapshot, hconnected, sinkMemoryOf]

/-- What is remembered of a node for the compute pass: whether it is known to be disabled, and its
inputs as last resolved. -/
def computeMemoryOf (e : Engine) (v : NodeId) : Bool × Option ValueMap :=
  ((e.memoryOf v).disabled, (e.memoryOf v).lastInputs)

theorem computeMemoryOf_remember {v : NodeId} {f : NodeMemory → NodeMemory}
    (hdisabled : ∀ m, (f m).disabled = m.disabled)
    (hinputs : ∀ m, (f m).lastInputs = m.lastInputs) :
    (e.remember v f).computeMemoryOf v = e.computeMemoryOf v := by
  rw [computeMemoryOf, memoryOf_remember_self, hdisabled, hinputs, computeMemoryOf]

theorem askedOf_askCompute (e : Engine) (v : NodeId) :
    (e.askCompute v).2.askedOf v = e.askedOf v + 1 := by
  show ((e.asked.insert v _).get? v).getD 0 = _
  rw [KeyMap.get?_insert_self]
  rfl

end Engine

/-- The calls of the sink hook of a node. -/
def sinkCallsFor (events : List Event) (v : NodeId) : List HookCall :=
  (sinkCalls events).filter fun call ↦ call.context.node == v

/-- The call of the sink hook of a node. -/
def sinkCallFor? (events : List Event) (v : NodeId) : Option HookCall :=
  (sinkCalls events).find? fun call ↦ call.context.node == v

theorem sinkCallFor?_eq_head? (events : List Event) (v : NodeId) :
    sinkCallFor? events v = (sinkCallsFor events v).head? := by
  rw [sinkCallFor?, sinkCallsFor, List.head?_filter]

theorem sinkCallsFor_append (xs ys : List Event) (v : NodeId) :
    sinkCallsFor (xs ++ ys) v = sinkCallsFor xs v ++ sinkCallsFor ys v := by
  rw [sinkCallsFor, sinkCalls_append, List.filter_append, sinkCallsFor, sinkCallsFor]

theorem sinkCallsFor_of_sinkCalls {events : List Event} (h : sinkCalls events = []) (v : NodeId) :
    sinkCallsFor events v = [] := by
  rw [sinkCallsFor, h]
  rfl

namespace Tick

variable {t t' : Tick} {s : PlanStep} {n : Node} {before after steps : List PlanStep}

/-! ### In the compute pass -/

theorem sinkMemoryOf_process (t : Tick) (s : PlanStep) (n : Node) :
    (t.process s n).engine.sinkMemoryOf s.node = t.engine.sinkMemoryOf s.node := by
  have hran : (t.callProcess s n).engine.sinkMemoryOf s.node = t.engine.sinkMemoryOf s.node := by
    show (t.engine.remember s.node fun m ↦ { m with
      lastInputs := some (t.engine.resolveInputs s n) }).sinkMemoryOf s.node = _
    exact Engine.sinkMemoryOf_remember (fun _ ↦ rfl) fun _ ↦ rfl
  rw [process]
  split
  · exact hran
  · exact hran

/-- The step of an enabled node leaves alone what is remembered for the sink pass, and asks the
compute gate once. -/
theorem computeStep_of_enabled (h : t.engine.policy.node s.node = true) :
    (t.computeStep s).engine.sinkMemoryOf s.node = t.engine.sinkMemoryOf s.node ∧
      (t.computeStep s).engine.askedOf s.node = t.engine.askedOf s.node + 1 := by
  have henable : (t.enable s).engine.sinkMemoryOf s.node = t.engine.sinkMemoryOf s.node :=
    Engine.sinkMemoryOf_remember (fun _ ↦ rfl) fun _ ↦ rfl
  have hasked : ((t.enable s).noteAsked s.node).engine.askedOf s.node =
      t.engine.askedOf s.node + 1 :=
    Engine.askedOf_askCompute _ s.node
  rw [computeStep, if_pos h, computeEnabled]
  split
  · split
    next n hn =>
      refine ⟨(sinkMemoryOf_process _ s n).trans henable, ?_⟩
      rw [process]
      split
      · exact hasked
      · exact hasked
    next => exact ⟨henable, hasked⟩
  · exact ⟨henable, hasked⟩

/-- The step of a disabled node forgets the last visit. -/
theorem computeStep_of_disabled (h : t.engine.policy.node s.node = false) :
    ((t.computeStep s).engine.memoryOf s.node).sinkSnapshot = none := by
  rw [computeStep, if_neg (by simp [h])]
  show ((t.enterDisabled s).engine.memoryOf s.node).sinkSnapshot = none
  rw [enterDisabled, engine_mapEngine, Engine.memoryOf_remember_self]

/-- A node has one step in a pass. -/
theorem not_mem_of_nodup (h : ((before ++ s :: after).map PlanStep.node).Nodup) :
    s.node ∉ before.map PlanStep.node ∧ s.node ∉ after.map PlanStep.node := by
  rw [List.map_append, List.map_cons] at h
  refine ⟨fun hmem ↦ ?_, (List.nodup_cons.1 (List.nodup_append.1 h).2.1).1⟩
  exact List.disjoint_of_nodup_append h hmem List.mem_cons_self

/-- What steps of other nodes leave alone. -/
theorem Touches.sinkMemoryOf {hooks : List HookKind} (h : Touches steps hooks t t') {v : NodeId}
    (hv : v ∉ steps.map PlanStep.node) : t'.engine.sinkMemoryOf v = t.engine.sinkMemoryOf v := by
  rw [Engine.sinkMemoryOf, h.memory v hv, Engine.sinkMemoryOf]

/-- **The compute pass, as the sink pass finds it.** -/
theorem computePass_of_mem (hnodup : ((before ++ s :: after).map PlanStep.node).Nodup) :
    (t.engine.policy.node s.node = true →
      (t.computePass (before ++ s :: after)).engine.sinkMemoryOf s.node =
        t.engine.sinkMemoryOf s.node ∧
      (t.computePass (before ++ s :: after)).engine.askedOf s.node =
        t.engine.askedOf s.node + 1) ∧
    (t.engine.policy.node s.node = false →
      ((t.computePass (before ++ s :: after)).engine.memoryOf s.node).sinkSnapshot = none) := by
  obtain ⟨hnew, hlast⟩ := not_mem_of_nodup hnodup
  have hbefore := Touches.computePass t before
  have hafter := Touches.computePass ((t.computePass before).computeStep s) after
  have hpass : t.computePass (before ++ s :: after) =
      ((t.computePass before).computeStep s).computePass after :=
    computePass_append t before (s :: after)
  have hpolicy := hbefore.keeps.policy
  rw [hpass]
  constructor
  · intro hnode
    obtain ⟨hmemory, hasked⟩ :=
      computeStep_of_enabled (t := t.computePass before) (s := s) (by rw [hpolicy]; exact hnode)
    rw [hafter.sinkMemoryOf hlast, hmemory, hbefore.sinkMemoryOf hnew, hafter.asked _ hlast,
      hasked, hbefore.asked _ hnew]
    exact ⟨rfl, rfl⟩
  · intro hnode
    rw [hafter.memory _ hlast]
    exact computeStep_of_disabled (by rw [hpolicy]; exact hnode)

/-- The step of a node whose computation runs remembers the inputs that it resolves. -/
theorem lastInputs_computeStep (hn : t.engine.graph.nodes[s.index]? = some n) :
    ((t.computeStep s).engine.memoryOf s.node).lastInputs =
      if t.computes s then some (t.engine.resolveInputs s n)
      else (t.engine.memoryOf s.node).lastInputs := by
  have henable : ((t.enable s).engine.memoryOf s.node).lastInputs =
      (t.engine.memoryOf s.node).lastInputs := by
    rw [enable, engine_mapEngine, Engine.memoryOf_remember_self]
  have hran : ∀ t : Tick, ((t.callProcess s n).engine.memoryOf s.node).lastInputs =
      some (t.engine.resolveInputs s n) := by
    intro t
    show ((t.engine.remember s.node fun m ↦ { m with
      lastInputs := some (t.engine.resolveInputs s n) }).memoryOf s.node).lastInputs = _
    rw [Engine.memoryOf_remember_self]
  have hasked : ((t.enable s).noteAsked s.node).engine.graph.nodes[s.index]? = some n := hn
  have hallowed : (t.enable s).computeAllowed s.node = t.computeAllowed s.node := rfl
  rw [computeStep, computes]
  cases t.engine.policy.node s.node with
  | true =>
    rw [if_pos rfl, computeEnabled, hallowed, Bool.true_and]
    cases t.computeAllowed s.node with
    | true =>
      rw [if_pos rfl, if_pos rfl, hasked]
      show ((((t.enable s).noteAsked s.node).process s n).engine.memoryOf s.node).lastInputs = _
      rw [process]
      split
      · exact hran _
      · exact hran _
    | false => exact henable
  | false =>
    show ((t.enterDisabled s).engine.memoryOf s.node).lastInputs = _
    rw [enterDisabled, engine_mapEngine, Engine.memoryOf_remember_self]
    show ((_ : Tick).engine.memoryOf s.node).lastInputs = (t.engine.memoryOf s.node).lastInputs
    split
    · rfl
    · split
      · rw [engine_fireDisable]
      · rfl

/-! ### In the sink pass -/

/-- A pass that ends without a report has gone through each of its steps. -/
theorem exists_of_sinkPass (h : t.sinkPass (before ++ s :: after) = (t', none)) :
    ∃ t₁ t₂, t.sinkPass before = (t₁, none) ∧ t₁.sinkStep s = (t₂, none) ∧
      t₂.sinkPass after = (t', none) := by
  induction before generalizing t with
  | nil =>
    rw [List.nil_append, sinkPass] at h
    split at h
    next t₂ report heq => cases h
    next t₂ heq => exact ⟨t, t₂, rfl, heq, h⟩
  | cons s' before ih =>
    rw [List.cons_append, sinkPass] at h
    split at h
    next t'' report heq => cases h
    next t'' heq =>
      obtain ⟨t₁, t₂, hbefore, hstep, hafter⟩ := ih h
      refine ⟨t₁, t₂, ?_, hstep, hafter⟩
      rw [sinkPass, heq]
      exact hbefore

/-- A pass that is let past a step goes on with the steps after it, however it ends. -/
theorem touches_of_sinkPass {t₀ : Tick} (hpass : t₀.sinkPass before = (t, none))
    (hverdict : t.verdict? s = none) (after : List PlanStep) :
    Touches after [.sink, .disable] (t.sinkStep s).1 (t₀.sinkPass (before ++ s :: after)).1 ∧
      (t₀.sinkPass (before ++ s :: after)).1.engine.graph = t.engine.graph := by
  have hstep := t.sinkStep_snd s
  have hgraph := t.graph_sinkStep s
  rw [hverdict] at hstep
  rw [sinkPass_append hpass, sinkPass]
  split
  next t' report heq =>
    rw [heq] at hstep
    cases hstep
  next t' heq =>
    rw [heq] at hgraph ⊢
    exact ⟨Touches.sinkPass t' after, (graph_sinkPass t' after).trans hgraph⟩

/-- What steps of other nodes do not call. -/
theorem Touches.sinkCallsFor_eq {hooks : List HookKind} (h : Touches steps hooks t t') {v : NodeId}
    (hv : v ∉ steps.map PlanStep.node) : sinkCallsFor t'.events v = sinkCallsFor t.events v := by
  obtain ⟨calls, hevents, hcalls⟩ := h.events
  have hnone : sinkCallsFor (calls.map .called) v = [] := by
    rw [sinkCallsFor, List.filter_eq_nil_iff]
    intro call hcall hnode
    obtain ⟨call', hcall', heq⟩ := List.mem_map.1 (mem_sinkCalls.1 hcall).1
    obtain rfl := Event.called.inj heq
    rw [beq_iff_eq] at hnode
    exact hv (hnode ▸ (hcalls call' hcall').1)
  rw [hevents, sinkCallsFor_append, hnone, List.append_nil]

/-- A step calls the sink hook of its node exactly to hand its offer over. -/
theorem sinkCallsFor_sinkStep (t : Tick) (s : PlanStep) :
    sinkCallsFor (t.sinkStep s).1.events s.node =
      sinkCallsFor t.events s.node ++ (t.handOver? s).toList := by
  rw [sinkCallsFor, sinkCalls_sinkStep, List.filter_append, sinkCallsFor]
  refine congrArg _ ?_
  cases hcall : t.handOver? s with
  | none => rfl
  | some call =>
    obtain ⟨found, delivered, -, -, rfl⟩ := exists_of_handOver? hcall
    simp [context]

theorem handOver?_of_offer? (h : t.offer? s = none) : t.handOver? s = none := by
  rw [handOver?, h]
  split <;> rfl

/-- A step that does not attend to its node leaves alone what is remembered of it. -/
theorem sinkStep_of_not_attended (h : t.attended? s = none) :
    (t.sinkStep s).1.engine.sinkMemoryOf s.node = t.engine.sinkMemoryOf s.node := by
  have hmove := t.sinkMove s
  generalize t.sinkStep s = r at hmove ⊢
  cases hmove with
  | skipped _ hsame => obtain rfl | rfl := hsame <;> rfl
  | unplugged hattended => rw [h] at hattended; cases hattended
  | quiet hvisited => rw [visited?_of_attended? h] at hvisited; cases hvisited
  | tripped hvisited => rw [visited?_of_attended? h] at hvisited; cases hvisited
  | delivered hvisited => rw [visited?_of_attended? h] at hvisited; cases hvisited

/-- A step that finds its node unplugged forgets the last visit, if there was one since anything was
connected. -/
theorem sinkStep_of_unplugged (hattended : t.attended? s = some n)
    (hcount : s.sinkConnectionCount = 0) :
    (t.sinkStep s).1.engine.sinkMemoryOf s.node =
      if (t.engine.memoryOf s.node).sinkConnected then (none, false)
      else t.engine.sinkMemoryOf s.node := by
  have hmove := t.sinkMove s
  generalize t.sinkStep s = r at hmove ⊢
  cases hmove with
  | skipped hnone => rw [hattended] at hnone; cases hnone
  | unplugged =>
    have hmemory : (t.noteAsked s.node).engine.memoryOf s.node = t.engine.memoryOf s.node := rfl
    rw [visitUnplugged, hmemory]
    dsimp only
    split
    · rw [engine_mapEngine, Engine.sinkMemoryOf, Engine.memoryOf_remember_self]
    · rfl
  | quiet hvisited => rw [visited?_of_count hcount] at hvisited; cases hvisited
  | tripped hvisited => rw [visited?_of_count hcount] at hvisited; cases hvisited
  | delivered hvisited => rw [visited?_of_count hcount] at hvisited; cases hvisited

/-- Remembering a visit of a connected node. -/
theorem sinkMemoryOf_keepVisit (hconnected : (t.engine.sinkMemoryOf s.node).2 = true)
    (current : SinkSnapshot) :
    (t.keepVisit s current).engine.sinkMemoryOf s.node = (some current, true) := by
  rw [keepVisit, engine_mapEngine, Engine.sinkMemoryOf, Engine.memoryOf_remember_self]
  exact congrArg (Prod.mk (some current)) hconnected

/-- A visit that ends without a report is remembered. -/
theorem sinkStep_of_visited (hvisited : t.visited? s = some n) (hverdict : t.verdict? s = none) :
    (t.sinkStep s).1.engine.sinkMemoryOf s.node = (some (t.sight s n), true) := by
  have hconnect : (((t.noteAsked s.node).connect s).engine.sinkMemoryOf s.node).2 = true := by
    rw [connect, engine_mapEngine, Engine.sinkMemoryOf, Engine.memoryOf_remember_self]
  have hreport := t.sinkStep_snd s
  rw [hverdict] at hreport
  have hmove := t.sinkMove s
  generalize t.sinkStep s = r at hmove hreport ⊢
  cases hmove with
  | skipped hnone => rw [visited?_of_attended? hnone] at hvisited; cases hvisited
  | unplugged _ hcount => rw [visited?_of_count hcount] at hvisited; cases hvisited
  | quiet hvisited' =>
    obtain rfl := Option.some.inj (hvisited.symm.trans hvisited')
    exact sinkMemoryOf_keepVisit hconnect _
  | tripped => cases hreport
  | delivered hvisited' =>
    obtain rfl := Option.some.inj (hvisited.symm.trans hvisited')
    refine sinkMemoryOf_keepVisit ?_ _
    rw [engine_deliver]
    exact hconnect

/-- A step of the sink pass leaves alone what is remembered of its node for the compute pass. -/
theorem computeMemoryOf_sinkStep (t : Tick) (s : PlanStep) :
    (t.sinkStep s).1.engine.computeMemoryOf s.node = t.engine.computeMemoryOf s.node := by
  have hconnect : ((t.noteAsked s.node).connect s).engine.computeMemoryOf s.node =
      t.engine.computeMemoryOf s.node :=
    Engine.computeMemoryOf_remember (fun _ ↦ rfl) fun _ ↦ rfl
  have hkeep : ∀ (t : Tick) (current : SinkSnapshot),
      (t.keepVisit s current).engine.computeMemoryOf s.node = t.engine.computeMemoryOf s.node :=
    fun t current ↦ Engine.computeMemoryOf_remember (fun _ ↦ rfl) fun _ ↦ rfl
  have hmove := t.sinkMove s
  generalize t.sinkStep s = r at hmove ⊢
  cases hmove with
  | skipped _ hsame => obtain rfl | rfl := hsame <;> rfl
  | unplugged =>
    rw [visitUnplugged]
    dsimp only
    split
    · rw [engine_mapEngine, engine_fireDisable]
      exact Engine.computeMemoryOf_remember (fun _ ↦ rfl) fun _ ↦ rfl
    · rfl
  | quiet => rw [hkeep, hconnect]
  | tripped => exact hconnect
  | delivered =>
    rw [hkeep, engine_deliver]
    exact hconnect

/-- The sink pass leaves alone what is remembered of the nodes for the compute pass. -/
theorem computeMemoryOf_sinkPass (t : Tick) (steps : List PlanStep) (v : NodeId) :
    (t.sinkPass steps).1.engine.computeMemoryOf v = t.engine.computeMemoryOf v := by
  induction steps generalizing t with
  | nil => rfl
  | cons s rest ih =>
    have hstep : (t.sinkStep s).1.engine.computeMemoryOf v = t.engine.computeMemoryOf v := by
      by_cases hv : v = s.node
      · subst hv
        exact t.computeMemoryOf_sinkStep s
      · rw [Engine.computeMemoryOf, (Touches.sinkStep t s).memory v (by simpa using hv),
          Engine.computeMemoryOf]
    rw [sinkPass]
    split
    next t' report heq =>
      rw [heq] at hstep
      exact hstep
    next t' heq =>
      rw [heq] at hstep
      rw [ih, hstep]

end Tick

/-! ### Between the passes -/

namespace Engine

variable {e : Engine} {plan : Plan} {s : PlanStep} {before after : List PlanStep} {n : Node}
  {d : NodeDefinition} (hids : e.graph.UniqueIds) (hcompile : e.graph.compile = .ok plan)
  (hsplit : plan.steps = before ++ s :: after) (hmade : e.graph.MadeFrom s n d) (now : Float)

include hids hcompile hsplit hmade

/-- The inputs of a node as they are last resolved: in this tick, if its computation runs. -/
theorem lastInputs_underway :
    ((e.underway plan now plan.steps).engine.memoryOf n.id).lastInputs =
      if e.computes n.id then
        some ((e.atTime now).inputsOf (e.underway plan now plan.steps).engine.graph n d)
      else (e.memoryOf n.id).lastInputs := by
  have hnode := hmade.node_eq
  have hnodup := Graph.nodup_node_steps hids hcompile
  have hplaces := Graph.nodup_index_steps hcompile
  rw [hsplit] at hnodup hplaces
  obtain ⟨hnew, hlast⟩ := Tick.not_mem_of_nodup hnodup
  have hfound := (Tick.nodes_computePass
    (t := (e.readied plan now).beginTick now (e.sinceLast now)) hplaces hmade.1).1
  have hstep := Tick.lastInputs_computeStep hfound
  have hbefore : (e.underway plan now before).engine.memoryOf s.node = e.memoryOf s.node :=
    (Tick.Touches.computePass _ before).memory _ hnew
  have hafter : (e.underway plan now plan.steps).engine.memoryOf s.node =
      ((e.underway plan now before).computeStep s).engine.memoryOf s.node := by
    rw [underway, hsplit, Tick.computePass_append]
    exact (Tick.Touches.computePass _ after).memory _ hlast
  rw [← resolveInputs_underway hids hcompile hsplit hmade,
    ← computes_underway hids hcompile hsplit hmade now, ← hnode, hafter, ← hbefore]
  exact hstep

/-- The compute pass leaves alone what is remembered of an enabled node for the sink pass, and asks
the compute gate about it once. -/
theorem sinkMemoryOf_underway (henabled : e.policy.node n.id = true) :
    (e.underway plan now plan.steps).engine.sinkMemoryOf n.id = e.sinkMemoryOf n.id ∧
      (e.underway plan now plan.steps).engine.askedOf n.id = e.askedOf n.id + 1 := by
  have hnodup := Graph.nodup_node_steps hids hcompile
  rw [hsplit] at hnodup
  have hcomputed := (Tick.computePass_of_mem
    (t := (e.readied plan now).beginTick now (e.sinceLast now)) hnodup).1
  rw [← hsplit, hmade.node_eq] at hcomputed
  exact hcomputed henabled

end Engine

end CueFlow
