import CueFlow.Engine.Run
import CueFlow.Proofs.Graph.Skeleton
import CueFlow.Proofs.Watchdog
/-!
# What a step of a tick touches

A tick moves on step by step, and a step leaves most of the engine alone. `Engine.Keeps` lists what
no part of a tick changes, and `Tick.Touches` what a run of steps may change: the nodes at the
places of these steps, what is remembered of them, and the calls of their hooks. Every small
operation touches one step only; the two steps and the two passes are put together from them
(`Touches.computeStep`, `Touches.sinkStep`, `Touches.computePass`, `Touches.sinkPass`). The sink
pass touches even less: it leaves the graph as it finds it (`graph_sinkPass`).
-/

namespace CueFlow

namespace Engine

variable (e : Engine)

/-! ### What is remembered -/

@[simp]
theorem graph_remember (v : NodeId) (f : NodeMemory → NodeMemory) :
    (e.remember v f).graph = e.graph :=
  rfl

/-- What is remembered of one node is entered under its id and nowhere else. -/
theorem get?_memory_remember (v : NodeId) (f : NodeMemory → NodeMemory) (w : NodeId) :
    (e.remember v f).memory.get? w =
      if v = w then some (f (e.memoryOf v)) else e.memory.get? w := by
  show (e.memory.update v {} f).get? w = _
  rw [KeyMap.update, KeyMap.get?_insert]
  rfl

/-- To remember something of one node leaves the memory of the others alone. -/
theorem memoryOf_remember (v : NodeId) (f : NodeMemory → NodeMemory) (w : NodeId) :
    (e.remember v f).memoryOf w = if v = w then f (e.memoryOf v) else e.memoryOf w := by
  rw [memoryOf, get?_memory_remember]
  split
  · rfl
  · rfl

@[simp]
theorem memoryOf_remember_self (v : NodeId) (f : NodeMemory → NodeMemory) :
    (e.remember v f).memoryOf v = f (e.memoryOf v) := by
  rw [memoryOf_remember, if_pos rfl]

/-- How often the compute gate has been asked about a node. -/
def askedOf (v : NodeId) : Nat := (e.asked.get? v).getD 0

/-! ### What no part of a tick changes -/

/-- What no part of a tick changes: of the graph the skeleton, and of the rest all but the memory,
the questions to the compute gate and what the watchdog has seen. -/
structure Keeps (e e' : Engine) : Prop where
  skeleton : e'.graph.skeleton = e.graph.skeleton
  config : e'.config = e.config
  plan : e'.plan = e.plan
  overrides : e'.overrides = e.overrides
  thresholds : e'.watchdog.config = e.watchdog.config
  policy : e'.policy = e.policy
  running : e'.running = e.running
  halted : e'.halted = e.halted
  tick : e'.tick = e.tick
  lastTickMs : e'.lastTickMs = e.lastTickMs

variable {e} {e' e'' : Engine}

theorem Keeps.refl (e : Engine) : e.Keeps e := ⟨rfl, rfl, rfl, rfl, rfl, rfl, rfl, rfl, rfl, rfl⟩

/-- What no part of a tick changes is the same after several parts. -/
theorem Keeps.trans (h : e.Keeps e') (h' : e'.Keeps e'') : e.Keeps e'' where
  skeleton := h'.skeleton.trans h.skeleton
  config := h'.config.trans h.config
  plan := h'.plan.trans h.plan
  overrides := h'.overrides.trans h.overrides
  thresholds := h'.thresholds.trans h.thresholds
  policy := h'.policy.trans h.policy
  running := h'.running.trans h.running
  halted := h'.halted.trans h.halted
  tick := h'.tick.trans h.tick
  lastTickMs := h'.lastTickMs.trans h.lastTickMs

end Engine

namespace Tick

variable {s : PlanStep} {steps : List PlanStep} {hooks : List HookKind} {t t' t'' : Tick}

/-! ### The small operations -/

@[simp]
theorem engine_mapEngine (t : Tick) (f : Engine → Engine) : (t.mapEngine f).engine = f t.engine :=
  rfl

/-- A cleanup hook is called for its effect on the device: the engine stays as it is. -/
@[simp]
theorem engine_fireDisable (t : Tick) (d : NodeDefinition) (inputs config : ValueMap) (v : NodeId) :
    (t.fireDisable d inputs config v).engine = t.engine := by
  rw [fireDisable]
  split
  · rfl
  · split <;> rfl

/-- A delivery changes nothing but the summary and the events. -/
@[simp]
theorem engine_deliver (t : Tick) (s : PlanStep) (current : SinkSnapshot) (delivered : ValueMap) :
    (t.deliver s current delivered).engine = t.engine := by
  rw [deliver]
  split
  · rfl
  · dsimp only
    split <;> rfl

/-- The answer of the compute gate depends on the node and on how often it was asked about it
before. -/
theorem computeAllowed_eq (t : Tick) (v : NodeId) :
    t.computeAllowed v = t.engine.policy.compute v (t.engine.askedOf v) :=
  rfl

@[simp]
theorem graph_noteAsked (t : Tick) (v : NodeId) : (t.noteAsked v).engine.graph = t.engine.graph :=
  rfl

@[simp]
theorem events_mapEngine (t : Tick) (f : Engine → Engine) : (t.mapEngine f).events = t.events := rfl

@[simp]
theorem events_mapInfo (t : Tick) (f : TickInfo → TickInfo) : (t.mapInfo f).events = t.events := rfl

@[simp]
theorem events_called (t : Tick) (call : HookCall) :
    (t.called call).events = t.events ++ [.called call] :=
  rfl

@[simp]
theorem events_failed (t : Tick) : t.failed.events = t.events := rfl

/-! ### What steps touch -/

/-- What the given steps may touch: the nodes at their places, what is kept under the ids of their
nodes, and hooks of the given kinds, called for them. The tick keeps its time and its number. -/
structure Touches (steps : List PlanStep) (hooks : List HookKind) (t t' : Tick) : Prop where
  keeps : t.engine.Keeps t'.engine
  nowMs : t'.nowMs = t.nowMs
  deltaMs : t'.deltaMs = t.deltaMs
  number : t'.info.tick = t.info.tick
  nodes : ∀ i ∉ steps.map PlanStep.index, t'.engine.graph.nodes[i]? = t.engine.graph.nodes[i]?
  entry : ∀ v ∉ steps.map PlanStep.node, t'.engine.memory.get? v = t.engine.memory.get? v
  history : ∀ v ∉ steps.map PlanStep.node,
    t'.engine.watchdog.history.get? v = t.engine.watchdog.history.get? v
  asked : ∀ v ∉ steps.map PlanStep.node, t'.engine.askedOf v = t.engine.askedOf v
  events : ∃ calls : List HookCall, t'.events = t.events ++ calls.map .called ∧
    ∀ call ∈ calls, call.context.node ∈ steps.map PlanStep.node ∧ call.hook ∈ hooks

namespace Touches

/-- What is remembered of other nodes stays. -/
theorem memory (h : Touches steps hooks t t') (v : NodeId) (hv : v ∉ steps.map PlanStep.node) :
    t'.engine.memoryOf v = t.engine.memoryOf v := by
  rw [Engine.memoryOf, h.entry v hv, Engine.memoryOf]

theorem refl (t : Tick) : Touches steps hooks t t :=
  ⟨.refl _, rfl, rfl, rfl, fun _ _ ↦ rfl, fun _ _ ↦ rfl, fun _ _ ↦ rfl, fun _ _ ↦ rfl, [],
    by simp, by simp⟩

/-- Steps that are done one after the other touch what each of them may touch. -/
theorem trans (h : Touches steps hooks t t') (h' : Touches steps hooks t' t'') :
    Touches steps hooks t t'' := by
  obtain ⟨calls, hevents, hcalls⟩ := h.events
  obtain ⟨calls', hevents', hcalls'⟩ := h'.events
  refine ⟨h.keeps.trans h'.keeps, h'.nowMs.trans h.nowMs, h'.deltaMs.trans h.deltaMs,
    h'.number.trans h.number, fun i hi ↦ (h'.nodes i hi).trans (h.nodes i hi),
    fun v hv ↦ (h'.entry v hv).trans (h.entry v hv),
    fun v hv ↦ (h'.history v hv).trans (h.history v hv),
    fun v hv ↦ (h'.asked v hv).trans (h.asked v hv), calls ++ calls', ?_, fun call hcall ↦ ?_⟩
  · rw [hevents', hevents, List.map_append, List.append_assoc]
  · rcases List.mem_append.1 hcall with hcall | hcall
    · exact hcalls call hcall
    · exact hcalls' call hcall

/-- More steps may touch more. -/
theorem mono {more : List PlanStep} (h : Touches steps hooks t t') (hsub : steps ⊆ more) :
    Touches more hooks t t' := by
  have hindex := List.map_subset PlanStep.index hsub
  have hnode := List.map_subset PlanStep.node hsub
  obtain ⟨calls, hevents, hcalls⟩ := h.events
  exact ⟨h.keeps, h.nowMs, h.deltaMs, h.number,
    fun i hi ↦ h.nodes i fun hmem ↦ hi (hindex hmem),
    fun v hv ↦ h.entry v fun hmem ↦ hv (hnode hmem),
    fun v hv ↦ h.history v fun hmem ↦ hv (hnode hmem),
    fun v hv ↦ h.asked v fun hmem ↦ hv (hnode hmem), calls, hevents,
    fun call hcall ↦ ⟨hnode (hcalls call hcall).1, (hcalls call hcall).2⟩⟩

/-- An operation on the engine alone calls no hook. -/
theorem mapEngine {f : Engine → Engine} (hkeeps : t.engine.Keeps (f t.engine))
    (hnodes : ∀ i ≠ s.index, (f t.engine).graph.nodes[i]? = t.engine.graph.nodes[i]?)
    (hentry : ∀ v ≠ s.node, (f t.engine).memory.get? v = t.engine.memory.get? v)
    (hhistory : ∀ v ≠ s.node,
      (f t.engine).watchdog.history.get? v = t.engine.watchdog.history.get? v)
    (hasked : ∀ v ≠ s.node, (f t.engine).askedOf v = t.engine.askedOf v) :
    Touches [s] hooks t (t.mapEngine f) :=
  ⟨hkeeps, rfl, rfl, rfl, fun i hi ↦ hnodes i (by simpa using hi),
    fun v hv ↦ hentry v (by simpa using hv), fun v hv ↦ hhistory v (by simpa using hv),
    fun v hv ↦ hasked v (by simpa using hv), [], by simp, by simp⟩

/-- A step may remember something of its own node. -/
theorem remember (f : NodeMemory → NodeMemory) :
    Touches [s] hooks t (t.mapEngine (·.remember s.node f)) := by
  refine mapEngine ⟨rfl, rfl, rfl, rfl, rfl, rfl, rfl, rfl, rfl, rfl⟩ (fun _ _ ↦ rfl)
    (fun v hv ↦ ?_) (fun _ _ ↦ rfl) fun _ _ ↦ rfl
  rw [Engine.get?_memory_remember, if_neg (Ne.symm hv)]

/-- Changing a node at the place of a step, all but its id and its type. -/
theorem modifyAt {f : Node → Node} (hf : ∀ n, (f n).bare = n.bare) :
    Touches [s] hooks t
      (t.mapEngine fun e ↦ { e with graph := e.graph.modifyAt s.index f }) := by
  refine mapEngine ⟨Graph.skeleton_modifyAt _ hf, rfl, rfl, rfl, rfl, rfl, rfl, rfl, rfl, rfl⟩
    (fun i hi ↦ ?_) (fun _ _ ↦ rfl) (fun _ _ ↦ rfl) fun _ _ ↦ rfl
  show (t.engine.graph.nodes.modify s.index f)[i]? = _
  rw [List.getElem?_modify]
  simp [Ne.symm hi]

/-- A step may set the outputs of the node at its place. -/
theorem setOutputs (outputs : ValueMap) : Touches [s] hooks t (t.setOutputs s.index outputs) :=
  modifyAt fun _ ↦ rfl

/-- A step may ask the compute gate about its own node. -/
theorem noteAsked : Touches [s] hooks t (t.noteAsked s.node) := by
  refine mapEngine ⟨rfl, rfl, rfl, rfl, rfl, rfl, rfl, rfl, rfl, rfl⟩ (fun _ _ ↦ rfl)
    (fun _ _ ↦ rfl) (fun _ _ ↦ rfl) fun v hv ↦ ?_
  show ((t.engine.asked.insert s.node _).get? v).getD 0 = _
  rw [KeyMap.get?_insert, if_neg (Ne.symm hv)]
  rfl

/-- Taking over what the watchdog has seen of the node of a step. -/
theorem watchdog {w : Watchdog Float} (hw : w.config = t.engine.watchdog.config)
    (hhistory : ∀ v ≠ s.node, w.history.get? v = t.engine.watchdog.history.get? v) :
    Touches [s] hooks t (t.mapEngine fun e ↦ { e with watchdog := w }) :=
  mapEngine ⟨rfl, rfl, rfl, rfl, hw, rfl, rfl, rfl, rfl, rfl⟩ (fun _ _ ↦ rfl) (fun _ _ ↦ rfl)
    hhistory fun _ _ ↦ rfl

/-- Counting is of no concern to the nodes, as long as the number of the tick stays. -/
theorem mapInfo (f : TickInfo → TickInfo) (hf : ∀ i, (f i).tick = i.tick) :
    Touches steps hooks t (t.mapInfo f) :=
  ⟨.refl _, rfl, rfl, hf _, fun _ _ ↦ rfl, fun _ _ ↦ rfl, fun _ _ ↦ rfl, fun _ _ ↦ rfl, [],
    by simp, by simp⟩

theorem failed : Touches steps hooks t t.failed := mapInfo _ fun _ ↦ rfl

/-- A step may call a hook for its own node, if the hook is of one of the given kinds. -/
theorem called {call : HookCall} (hnode : call.context.node = s.node) (hhook : call.hook ∈ hooks) :
    Touches [s] hooks t (t.called call) :=
  ⟨.refl _, rfl, rfl, rfl, fun _ _ ↦ rfl, fun _ _ ↦ rfl, fun _ _ ↦ rfl, fun _ _ ↦ rfl, [call],
    rfl, by simp [hnode, hhook]⟩

/-- A cleanup is one call of the cleanup hook, or nothing. -/
theorem fireDisable (hhook : .disable ∈ hooks) (d : NodeDefinition) (inputs config : ValueMap) :
    Touches [s] hooks t (t.fireDisable d inputs config s.node) := by
  rw [Tick.fireDisable]
  split
  · exact refl t
  · dsimp only
    split
    · exact called rfl hhook
    · exact (called rfl hhook).trans failed

/-! ### The compute pass -/

/-- Disabling a node cleans it up and forgets its last visit. -/
theorem enterDisabled (hhook : .disable ∈ hooks) (t : Tick) (s : PlanStep) :
    Touches [s] hooks t (t.enterDisabled s) := by
  rw [Tick.enterDisabled]
  refine trans ?_ (remember _)
  split
  · exact refl t
  · split
    · exact fireDisable hhook _ _ _
    · exact refl t

/-- Calling a computation stores inputs at the place of the node, and remembers them under its id.
-/
theorem callProcess (hhook : .process ∈ hooks) (t : Tick) (s : PlanStep) (n : Node) :
    Touches [s] hooks t (t.callProcess s n) :=
  (called rfl hhook).trans ((remember _).trans (modifyAt fun _ ↦ rfl))

/-- A computation touches its own node only, whether it succeeds or fails. -/
theorem process (hhook : .process ∈ hooks) (t : Tick) (s : PlanStep) (n : Node) :
    Touches [s] hooks t (t.process s n) := by
  refine (callProcess hhook t s n).trans ?_
  rw [Tick.process]
  generalize t.callProcess s n = ran
  split
  · exact (setOutputs _).trans (mapInfo _ fun _ ↦ rfl)
  · exact failed

/-- An enabled node calls its computation and no other hook. -/
theorem computeEnabled (hhook : .process ∈ hooks) (t : Tick) (s : PlanStep) :
    Touches [s] hooks t (t.computeEnabled s) := by
  refine noteAsked.trans ?_
  rw [Tick.computeEnabled]
  split
  · split
    · exact process hhook _ s _
    · exact refl _
  · exact setOutputs _

/-- A disabled node is cleaned up and passes its value through, and its computation does not run. -/
theorem bypass (hhook : .disable ∈ hooks) (t : Tick) (s : PlanStep) :
    Touches [s] hooks t (t.bypass s) :=
  (enterDisabled hhook t s).trans (setOutputs _)

/-- The step of an enabled node calls no cleanup. -/
theorem computeStep_of_enabled (henabled : t.engine.policy.node s.node = true) :
    Touches [s] [.process] t (t.computeStep s) := by
  rw [Tick.computeStep, if_pos henabled]
  exact (remember _).trans (computeEnabled (by simp) _ s)

/-- **A step of the compute pass touches its own node only**, and delivers nothing. -/
theorem computeStep (t : Tick) (s : PlanStep) :
    Touches [s] [.process, .disable] t (t.computeStep s) := by
  rw [Tick.computeStep]
  split
  · exact (remember _).trans (computeEnabled (by simp) _ s)
  · exact bypass (by simp) t s

/-- **The compute pass** touches what its steps may touch. -/
theorem computePass (t : Tick) (steps : List PlanStep) :
    Touches steps [.process, .disable] t (t.computePass steps) := by
  induction steps generalizing t with
  | nil => exact refl t
  | cons s rest ih =>
    have hstep := (computeStep t s).mono (List.cons_subset_cons s (List.nil_subset rest))
    exact hstep.trans ((ih _).mono (List.subset_cons_self s rest))

/-! ### The sink pass -/

/-- A visit is remembered under the id of the node. -/
theorem keepVisit (t : Tick) (s : PlanStep) (current : SinkSnapshot) :
    Touches [s] hooks t (t.keepVisit s current) :=
  remember _

/-- A visit of a node with nothing connected cleans it up at most. -/
theorem visitUnplugged (hhook : .disable ∈ hooks) (t : Tick) (s : PlanStep) (n : Node) :
    Touches [s] hooks t (t.visitUnplugged s n) := by
  rw [Tick.visitUnplugged]
  split
  · exact (fireDisable hhook _ _ _).trans (remember _)
  · exact refl t

/-- The watchdog enters a delivery under the node that it is made to. -/
theorem guardDelivery (t : Tick) (s : PlanStep) (current : SinkSnapshot) (delivered : ValueMap) :
    Touches [s] hooks t (t.guardDelivery s current delivered).1 :=
  watchdog (Watchdog.review_fst _ s.node delivered _ _).1 fun _ hv ↦
    Watchdog.get?_history_review (Ne.symm hv) delivered _

/-- A delivery calls the sink hook of the node, if there is one. -/
theorem deliver (t : Tick) (s : PlanStep) (current : SinkSnapshot) (delivered : ValueMap) :
    Touches [s] [.sink, .disable] t (t.deliver s current delivered) := by
  rw [Tick.deliver]
  split
  · exact refl t
  · dsimp only
    split
    · exact (called rfl (by simp)).trans (mapInfo _ fun _ ↦ rfl)
    · refine trans ?_ failed
      exact (called rfl (by simp)).trans (mapInfo _ fun _ ↦ rfl)

/-- A visit touches its own node only, whether it delivers, finds nothing new or trips the watchdog.
-/
theorem visit (t : Tick) (s : PlanStep) (n : Node) :
    Touches [s] [.sink, .disable] t (t.visit s n).1 := by
  have hconnect : Touches [s] [.sink, .disable] t (t.connect s) := remember _
  refine hconnect.trans ?_
  rw [Tick.visit]
  generalize t.connect s = t
  split
  next => exact keepVisit _ s _
  next delivered hdelivery =>
    have hguard : Touches [s] [.sink, .disable] t
        (t.guardDelivery s (t.sight s n) delivered).1 :=
      guardDelivery t s _ delivered
    split
    next guarded report heq =>
      rw [heq] at hguard
      exact hguard
    next guarded heq =>
      rw [heq] at hguard
      exact hguard.trans ((deliver _ s _ _).trans (keepVisit _ s _))

/-- Asking the gates touches no more than the count of questions about the node. -/
theorem sinkAllowed (t : Tick) (s : PlanStep) : Touches [s] hooks t (t.sinkAllowed s).2 := by
  rw [Tick.sinkAllowed]
  split
  · exact noteAsked
  · exact refl t

/-- **A step of the sink pass touches its own node only**, and computes nothing. -/
theorem sinkStep (t : Tick) (s : PlanStep) : Touches [s] [.sink, .disable] t (t.sinkStep s).1 := by
  have hgates : Touches [s] [.sink, .disable] t (t.sinkAllowed s).2 := sinkAllowed t s
  rw [Tick.sinkStep]
  cases hallowed : t.sinkAllowed s with
  | mk allowed asked =>
    rw [hallowed] at hgates
    dsimp only at hgates ⊢
    split
    · refine hgates.trans ?_
      split
      · split
        · exact refl _
        · split
          · exact visitUnplugged (by simp) _ s _
          · exact visit _ s _
      · exact refl _
    · exact refl t

/-- **The sink pass** touches what its steps may touch, as far as it goes. -/
theorem sinkPass (t : Tick) (steps : List PlanStep) :
    Touches steps [.sink, .disable] t (t.sinkPass steps).1 := by
  induction steps generalizing t with
  | nil => exact refl t
  | cons s rest ih =>
    have hstep := (sinkStep t s).mono (List.cons_subset_cons s (List.nil_subset rest))
    rw [Tick.sinkPass]
    split
    next t' report heq => simpa [heq] using hstep
    next t' heq =>
      have hrest := (ih t').mono (List.subset_cons_self s rest)
      exact (by simpa [heq] using hstep : Touches _ _ t t').trans hrest

end Touches

/-! ### The graph in the sink pass -/

/-- The watchdog does not touch the graph. -/
@[simp]
theorem graph_guardDelivery (t : Tick) (s : PlanStep) (current : SinkSnapshot)
    (delivered : ValueMap) :
    (t.guardDelivery s current delivered).1.engine.graph = t.engine.graph :=
  rfl

/-- A visit leaves the graph alone: what it gathers is read from outputs, and what it remembers is
not part of the graph. -/
theorem graph_visit (t : Tick) (s : PlanStep) (n : Node) :
    (t.visit s n).1.engine.graph = t.engine.graph := by
  show _ = (t.connect s).engine.graph
  rw [visit]
  generalize t.connect s = t
  split
  next => rfl
  next delivered _ =>
    have hguard := graph_guardDelivery t s (t.sight s n) delivered
    split
    next guarded report heq =>
      rw [heq] at hguard
      exact hguard
    next guarded heq =>
      rw [heq] at hguard
      exact (congrArg Engine.graph (engine_deliver guarded s _ delivered)).trans hguard

/-- A visit of a node with nothing connected leaves the graph alone. -/
theorem graph_visitUnplugged (t : Tick) (s : PlanStep) (n : Node) :
    (t.visitUnplugged s n).engine.graph = t.engine.graph := by
  rw [visitUnplugged]
  split
  · simp
  · rfl

/-- The gates leave the graph alone. -/
theorem graph_sinkAllowed (t : Tick) (s : PlanStep) :
    (t.sinkAllowed s).2.engine.graph = t.engine.graph := by
  rw [sinkAllowed]
  split
  · rfl
  · rfl

/-- A step of the sink pass leaves the graph alone. -/
theorem graph_sinkStep (t : Tick) (s : PlanStep) :
    (t.sinkStep s).1.engine.graph = t.engine.graph := by
  have hgates := t.graph_sinkAllowed s
  rw [sinkStep]
  cases hallowed : t.sinkAllowed s with
  | mk allowed asked =>
    rw [hallowed] at hgates
    rw [← hgates]
    dsimp only
    split
    · split
      · split
        · rfl
        · split
          · exact graph_visitUnplugged asked s _
          · exact graph_visit asked s _
      · rfl
    · exact hgates.symm

/-- The sink pass leaves the graph as it finds it. -/
theorem graph_sinkPass (t : Tick) (steps : List PlanStep) :
    (t.sinkPass steps).1.engine.graph = t.engine.graph := by
  induction steps generalizing t with
  | nil => rfl
  | cons s rest ih =>
    have hstep := t.graph_sinkStep s
    rw [sinkPass]
    split
    next t' report heq =>
      rw [heq] at hstep
      exact hstep
    next t' heq =>
      rw [heq] at hstep
      exact (ih t').trans hstep

/-- What the sink pass has come to. -/
theorem Touches.of_sinkPass {t t' : Tick} {steps : List PlanStep} {report : Option HaltReport}
    (hpass : t.sinkPass steps = (t', report)) :
    Touches steps [.sink, .disable] t t' ∧ t'.engine.graph = t.engine.graph := by
  have htouches := Touches.sinkPass t steps
  have hgraph := graph_sinkPass t steps
  rw [hpass] at htouches hgraph
  exact ⟨htouches, hgraph⟩

end Tick

end CueFlow
