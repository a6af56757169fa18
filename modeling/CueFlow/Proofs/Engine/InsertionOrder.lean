import CueFlow.Proofs.Engine.CallResult
import CueFlow.Proofs.Engine.Halt
import CueFlow.Proofs.Engine.Mirror
import CueFlow.Proofs.Graph.Reorder
import CueFlow.Proofs.Watchdog.Oscillation
/-!
# The order of insertion does not matter

The order in which nodes were added decides in which order a tick runs them, and with it the order
of deliveries and the place at which a tick that halts breaks off. What a tick comes to is not
decided by it. `Engine.Reorders` says that two engines differ in this order, in their plans and in
what they count, and agree in all that is kept under ids. Each of them then mirrors the other, so a
tick is completed by both or by neither (`Reorders.tick_of_completed`), and a tick that halts leaves
both as they were between its passes, which agrees again (`Reorders.tick_of_halted`). All other
calls go by ids to begin with.

Only the compute gate could tell: a tick that halts has asked it about some nodes and not about
others, and about which ones hangs on the order. A gate that answers alike however often it has been
asked (`HostPolicy.Steady`) cannot tell either.
-/

namespace CueFlow

namespace Engine

/-- The engines differ in the order of their nodes and in what follows from it, and agree in all
that is kept under ids. -/
structure Reorders (f e : Engine) : Prop where
  graph : f.graph.Reorders e.graph
  config : f.config = e.config
  running : f.running = e.running
  policy : f.policy = e.policy
  /-- The compute gate goes on giving the same answers. -/
  answers : ∀ v k, e.policy.compute v (f.askedOf v + k) = e.policy.compute v (e.askedOf v + k)
  overrides : f.overrides = e.overrides
  tick_eq : f.tick = e.tick
  lastTickMs : f.lastTickMs = e.lastTickMs
  memory : ∀ v, f.sinkMemoryOf v = e.sinkMemoryOf v
  lastInputs : ∀ v, (f.memoryOf v).lastInputs = (e.memoryOf v).lastInputs
  observed : ∀ v port, f.watchdog.observed v port = e.watchdog.observed v port

variable {e e' f : Engine} {events : List Event} {now : Float}

/-- Only a call that installs a policy changes the policy. -/
theorem policy_call (he : e.Reachable) (c : HostCall) :
    (∃ policy, c = .setPolicy policy ∧ (e.call c).1.policy = policy) ∨
      (e.call c).1.policy = e.policy := by
  have hforget : ∀ (e : Engine) (edit : GraphEdit), (e.forgetRemoved edit).policy = e.policy := by
    intro e edit
    rw [forgetRemoved]
    split <;> rfl
  cases c with
  | setPolicy policy => exact .inl ⟨policy, rfl, rfl⟩
  | load state =>
    refine .inr (orStay_of (P := fun e' ↦ e'.policy = e.policy) rfl fun e' h ↦ ?_)
    obtain ⟨g, report, -, rfl⟩ := of_load h
    rfl
  | compile =>
    refine .inr (orStay_of (P := fun e' ↦ e'.policy = e.policy) rfl fun e' h ↦ ?_)
    obtain ⟨plan, -, rfl⟩ := of_compileNow h
    rfl
  | applyEdit edit =>
    refine .inr (orStay_of (P := fun e' ↦ e'.policy = e.policy) rfl fun e' h ↦ ?_)
    obtain ⟨g, -, rfl⟩ := of_applyEdit h
    exact hforget _ edit
  | tryEdit edit =>
    refine .inr (orStay_of (P := fun e' ↦ e'.policy = e.policy) rfl fun e' h ↦ ?_)
    obtain ⟨g, -, ⟨-, plan, -, rfl⟩ | ⟨-, rfl⟩⟩ := of_tryEdit h <;> exact hforget _ edit
  | setOverride =>
    refine .inr (orStay_of (P := fun e' ↦ e'.policy = e.policy) rfl fun e' h ↦ ?_)
    obtain rfl := of_setOverride h
    rfl
  | clearOverride => exact .inr rfl
  | start =>
    refine .inr (orStay_of (P := fun e' ↦ e'.policy = e.policy) rfl fun e' h ↦ ?_)
    obtain ⟨plan, -, rfl⟩ := of_start h
    rfl
  | stop =>
    refine .inr ?_
    show e.stop.1.policy = e.policy
    rw [stop]
    split <;> rfl
  | tick now =>
    refine .inr ?_
    show (e.tickAt now).1.policy = e.policy
    cases houtcome : (e.tickAt now).2.1 with
    | idle => rw [tickAt_of_not_running (not_running_of_idle houtcome)]
    | completed info =>
      obtain ⟨plan, t, -, hpass, heq, -⟩ :=
        exists_of_completed he.planSound (tickAt_eq_of_outcome houtcome)
      rw [heq]
      exact (keeps_sinkPass hpass).1.policy
    | halted report => exact (haltedBy he (tickAt_eq_of_halted houtcome)).policy

namespace Reorders

theorem symm (h : f.Reorders e) : e.Reorders f where
  graph := h.graph.symm
  config := h.config.symm
  running := h.running.symm
  policy := h.policy.symm
  answers v k := by rw [h.policy, h.answers v k]
  overrides := h.overrides.symm
  tick_eq := h.tick_eq.symm
  lastTickMs := h.lastTickMs.symm
  memory v := (h.memory v).symm
  lastInputs v := (h.lastInputs v).symm
  observed v port := (h.observed v port).symm

/-- Each mirrors the other. -/
theorem mirrors (h : f.Reorders e) (he : e.Reachable) (hf : f.Reachable) : f.Mirrors e where
  part := h.graph.isClosedIn he.sound
  content v _ := h.graph.node? v
  running := h.running
  policy := h.policy
  answers v _ := h.answers v
  overrides := h.overrides
  thresholds := by rw [hf.thresholds, he.thresholds, h.config]
  tick_eq := h.tick_eq
  lastTickMs := h.lastTickMs
  memory v _ := h.memory v
  lastInputs v _ := h.lastInputs v
  observed v _ := h.observed v

/-- The plan does not matter. -/
theorem withGraph (h : f.Reorders e) {g g' : Graph} (hgraph : g'.Reorders g)
    (plan plan' : Option Plan) :
    ({ f with graph := g', plan := plan' } : Engine).Reorders { e with graph := g, plan } :=
  ⟨hgraph, h.config, h.running, h.policy, h.answers, h.overrides, h.tick_eq, h.lastTickMs, h.memory,
    h.lastInputs, h.observed⟩

/-! ### Ticks -/

section Tick

variable (h : f.Reorders e) (he : e.Reachable) (hf : f.Reachable)

include h he hf

/-- **A tick that one completes is completed by the other**, with the same calls of sink hooks. -/
theorem tick_of_completed {info : TickInfo}
    (htick : e.tickAt now = (e', .completed info, events)) :
    ∃ f' info' events', f.tickAt now = (f', .completed info', events') ∧ f'.Reorders e' ∧
      ∀ call, call ∈ sinkCalls events' ↔ call ∈ sinkCalls events := by
  obtain ⟨f', info', events', htick', hmirrors, hskel', hcalls⟩ :=
    (h.mirrors he hf).tick he hf htick
  have hskel : e'.graph.skeleton = e.graph.skeleton := by
    have heq := e.skeleton_tickAt now
    rwa [htick] at heq
  -- What is kept under the id of a node is as in a mirror; under any other id nothing happens.
  have hcases : ∀ v, (f'.graph.node? v).isSome = true ∨
      v ∉ f.graph.nodes.map Node.id ∧ v ∉ e.graph.nodes.map Node.id := by
    intro v
    rw [← Graph.node?_isSome_iff, ← Graph.node?_isSome_iff, ← h.graph.node?, and_self,
      ← Graph.isSome_node?_congr hskel']
    exact Classical.em _
  obtain ⟨plan, t, -, hpass, rfl, -⟩ := exists_of_completed he.planSound htick
  obtain ⟨plan', t', -, hpass', rfl, -⟩ := exists_of_completed hf.planSound htick'
  have hconfig := (keeps_sinkPass hpass).1.config
  have hconfig' := (keeps_sinkPass hpass').1.config
  refine ⟨_, info', events', htick', ⟨h.graph.congr hskel' hskel hmirrors.content,
    hconfig'.trans (h.config.trans hconfig.symm), hmirrors.running, hmirrors.policy,
    fun v ↦ ?_, hmirrors.overrides, hmirrors.tick_eq, hmirrors.lastTickMs, fun v ↦ ?_,
    fun v ↦ ?_, fun v ↦ ?_⟩, fun call ↦ ?_⟩
  · obtain hv | ⟨hnone', hnone⟩ := hcases v
    · exact hmirrors.answers v hv
    · rw [(untouched_of_completed hf htick' hnone').1, (untouched_of_completed he htick hnone).1]
      have hpolicy := (keeps_sinkPass hpass).1.policy
      show ∀ k, t.engine.policy.compute v _ = t.engine.policy.compute v _
      rw [hpolicy]
      exact h.answers v
  · obtain hv | ⟨hnone', hnone⟩ := hcases v
    · exact hmirrors.memory v hv
    · rw [sinkMemoryOf_of_completed hf htick' hnone', sinkMemoryOf_of_completed he htick hnone,
        h.memory v]
  · obtain hv | ⟨hnone', hnone⟩ := hcases v
    · exact hmirrors.lastInputs v hv
    · rw [memoryOf_of_completed hf htick' hnone', memoryOf_of_completed he htick hnone,
        h.lastInputs v]
  · obtain hv | ⟨hnone', hnone⟩ := hcases v
    · exact hmirrors.observed v hv
    · intro port
      rw [(untouched_of_completed hf htick' hnone').2.1,
        (untouched_of_completed he htick hnone).2.1, h.observed v]
  · have hof : ∀ calls : List Event,
        call ∈ sinkCalls calls ↔ call ∈ sinkCallsFor calls call.context.node := by
      intro calls
      simp [sinkCallsFor]
    rw [hof, hof]
    obtain hv | ⟨hnone', hnone⟩ := hcases call.context.node
    · rw [hcalls _ (Graph.isSome_node?_congr hskel' _ ▸ hv)]
    · rw [(untouched_of_completed hf htick' hnone').2.2,
        (untouched_of_completed he htick hnone).2.2]

/-- **The graphs between the passes of a tick agree**, whether the tick is completed or not. -/
theorem graphBetween (now : Float) : (f.graphBetween now).Reorders (e.graphBetween now) := by
  have hskel := e.skeleton_graphBetween now
  have hskel' := f.skeleton_graphBetween now
  refine h.graph.congr hskel' hskel fun v hv ↦ ?_
  rw [Graph.isSome_node?_congr hskel'] at hv
  have hcompile := h.graph.compile hf.uniqueIds he.uniqueIds he.sound
  cases hplan : e.graph.compile with
  | error error =>
    rw [hplan] at hcompile
    obtain ⟨error', hplan'⟩ := hcompile.of_error
    rw [Engine.graphBetween, hplan', Engine.graphBetween, hplan]
    exact h.graph.node? v
  | ok plan =>
    obtain ⟨plan', hplan'⟩ := hcompile.exists_ok_iff.2 ⟨plan, hplan⟩
    exact (h.mirrors he hf).content_graphBetween he hf hplan hplan' now hv

/-- **A tick that halts one halts the other**, and the graphs that are left agree; so do the engines
if the compute gate is steady. -/
theorem tick_of_halted {report : HaltReport}
    (htick : e.tickAt now = (e', .halted report, events)) :
    ∃ f' report' events', f.tickAt now = (f', .halted report', events') ∧
      f'.graph.Reorders e'.graph ∧ (e.policy.Steady → f'.Reorders e') := by
  have hrunning := running_of_halted htick
  obtain ⟨report', hhalted⟩ : ∃ report', (f.tickAt now).2.1 = .halted report' := by
    cases houtcome : (f.tickAt now).2.1 with
    | idle => exact absurd houtcome (outcome_tickAt_ne_idle (h.running.trans hrunning) now)
    | completed info =>
      obtain ⟨_, _, _, hcompleted, -⟩ :=
        h.symm.tick_of_completed hf he (tickAt_eq_of_outcome houtcome)
      rw [htick] at hcompleted
      cases hcompleted
    | halted report' => exact ⟨report', rfl⟩
  have htick' := tickAt_eq_of_halted hhalted
  have hleft := haltedBy he htick
  have hleft' := haltedBy hf htick'
  have hgraph : (f.tickAt now).1.graph.Reorders e'.graph := by
    rw [hleft.graph, hleft'.graph]
    exact (h.graphBetween he hf now).clearOutputs
  refine ⟨_, report', _, htick', hgraph, fun hsteady ↦ ?_⟩
  have hmemory : ∀ v, (f.tickAt now).1.memoryOf v = e'.memoryOf v := by
    intro v
    rw [memoryOf, hleft'.cold.memory, memoryOf, hleft.cold.memory]
  exact {
    graph := hgraph
    config := by rw [hleft'.config, hleft.config, h.config]
    running := by rw [hleft'.cold.running, hleft.cold.running]
    policy := by rw [hleft'.policy, hleft.policy, h.policy]
    answers := fun v k ↦ by
      rw [hleft.policy]
      exact hsteady v _ _
    overrides := by
      rw [hleft'.overrides, hleft.overrides]
      exact (h.mirrors he hf).overrides_atTime now
    tick_eq := by rw [hleft'.tick_eq, hleft.tick_eq, h.tick_eq]
    lastTickMs := by rw [hleft'.lastTickMs, hleft.lastTickMs]
    memory := fun v ↦ by rw [sinkMemoryOf, hmemory, sinkMemoryOf]
    lastInputs := fun v ↦ by rw [hmemory]
    observed := fun v port ↦ by
      rw [hleft'.cold.watchdog, hleft.cold.watchdog]
      rfl }

end Tick

/-! ### The other calls -/

theorem forgetRemoved (h : f.Reorders e) (edit : GraphEdit) :
    (f.forgetRemoved edit).Reorders (e.forgetRemoved edit) := by
  have hmemory : ∀ v,
      (f.forgetRemoved edit).sinkMemoryOf v = (e.forgetRemoved edit).sinkMemoryOf v ∧
      ((f.forgetRemoved edit).memoryOf v).lastInputs =
        ((e.forgetRemoved edit).memoryOf v).lastInputs := by
    intro v
    rw [sinkMemoryOf, sinkMemoryOf, memoryOf_forgetRemoved, memoryOf_forgetRemoved]
    split
    · exact ⟨rfl, rfl⟩
    · exact ⟨h.memory v, h.lastInputs v⟩
  cases hnode : edit.removedNode? with
  | none =>
    simp only [Engine.forgetRemoved, hnode]
    exact h
  | some node =>
    simp only [Engine.forgetRemoved, hnode] at hmemory ⊢
    exact {
      graph := h.graph
      config := h.config
      running := h.running
      policy := h.policy
      answers := h.answers
      overrides := congrArg (OverrideStore.clearNode · node) h.overrides
      tick_eq := h.tick_eq
      lastTickMs := h.lastTickMs
      memory := fun v ↦ (hmemory v).1
      lastInputs := fun v ↦ (hmemory v).2
      observed := fun v port ↦ by
        show (f.watchdog.forget node).observed v port = (e.watchdog.forget node).observed v port
        rw [Watchdog.observed_forget, Watchdog.observed_forget, h.observed] }

theorem stop (h : f.Reorders e) : f.stop.1.Reorders e.stop.1 := by
  rw [Engine.stop, h.running, Engine.stop]
  split
  · exact ⟨h.graph.clearOutputs, h.config, rfl, h.policy, h.answers, h.overrides, h.tick_eq,
      h.lastTickMs, fun _ ↦ rfl, fun _ ↦ rfl, fun _ _ ↦ rfl⟩
  · exact h

theorem load (h : f.Reorders e) (state : GraphState) :
    Agree (fun loaded' loaded : Engine × LoadReport ↦ loaded'.1.Reorders loaded.1)
      (f.load state) (e.load state) := by
  rw [Engine.load, Engine.load, h.graph.catalog, h.config]
  refine (Agree.refl _).bind fun _ loaded hloaded ↦ ?_
  subst hloaded
  exact .ok ⟨.refl _, rfl, h.running, h.policy, h.answers, rfl, h.tick_eq, h.lastTickMs,
    fun _ ↦ rfl, fun _ ↦ rfl, fun _ _ ↦ rfl⟩

theorem applyEdit (h : f.Reorders e) (edit : GraphEdit) :
    Agree Reorders (f.applyEdit edit) (e.applyEdit edit) :=
  (h.graph.apply edit).bind fun _ _ hgraph ↦
    .ok ((h.withGraph hgraph e.plan f.plan).forgetRemoved edit)

theorem setOverride (h : f.Reorders e) (node : NodeId) (kind : OverrideKind) (key : String)
    (value : Value) (lifetime : Option Float) (now : Float) :
    Agree Reorders (f.setOverride node kind key value lifetime now)
      (e.setOverride node kind key value lifetime now) := by
  rw [Engine.setOverride, h.graph.node?, Engine.setOverride]
  split
  · exact .error _ _
  · exact .ok ⟨h.graph, h.config, h.running, h.policy, h.answers,
      congrArg (OverrideStore.set · node kind key value lifetime now) h.overrides, h.tick_eq,
      h.lastTickMs, h.memory, h.lastInputs, h.observed⟩

section Compile

variable (h : f.Reorders e) (he : e.Reachable) (hf : f.Reachable)

include h he hf

theorem compileNow : Agree (fun made' made : Engine × Plan ↦ made'.1.Reorders made.1)
    f.compileNow e.compileNow :=
  (h.graph.compile hf.uniqueIds he.uniqueIds he.sound).bind fun plan' plan _ ↦
    .ok (h.withGraph h.graph (some plan) (some plan'))

theorem start : Agree Reorders f.start e.start :=
  (h.compileNow he hf).bind fun _ _ hmade ↦
    .ok ⟨hmade.graph, hmade.config, rfl, hmade.policy, hmade.answers, hmade.overrides, rfl, rfl,
      hmade.memory, hmade.lastInputs, fun _ _ ↦ rfl⟩

theorem tryEdit (edit : GraphEdit) : Agree Reorders (f.tryEdit edit) (e.tryEdit edit) := by
  have hedit := h.graph.apply edit
  rw [Engine.tryEdit, Engine.tryEdit]
  cases happly : e.graph.apply edit with
  | error error =>
    rw [happly] at hedit
    obtain ⟨error', happly'⟩ := hedit.of_error
    rw [happly']
    exact .error error' error
  | ok g =>
    obtain ⟨g', happly'⟩ := hedit.exists_ok_iff.2 ⟨g, happly⟩
    rw [happly, happly'] at hedit
    have hgraph := hedit.of_ok
    rw [happly']
    show Agree Reorders (if _ then _ else _) (if _ then _ else _)
    split
    · refine (hgraph.compile (hf.uniqueIds.edit happly') (he.uniqueIds.edit happly)
        (he.sound.edit happly)).bind fun plan' plan _ ↦ ?_
      exact .ok ((h.withGraph hgraph (some plan) (some plan')).forgetRemoved edit)
    · exact .ok ((h.withGraph hgraph e.plan f.plan).forgetRemoved edit)

end Compile

theorem orStay (h : f.Reorders e) {x y : Except EngineError Engine} (hxy : Agree Reorders x y) :
    (f.orStay x).Reorders (e.orStay y) := by
  cases hxy with
  | ok hnext => exact hnext
  | error => exact h

section Call

variable (h : f.Reorders e) (he : e.Reachable) (hf : f.Reachable)

include h he hf

/-- **Engines that agree do so after every call**, unless a gate that is not steady can tell. -/
theorem call (c : HostCall) (hgates : e.policy.Steady ∨ (e.result c).verdict ≠ .halted) :
    (f.call c).1.Reorders (e.call c).1 := by
  cases c with
  | load state => exact h.orStay ((h.load state).map fun _ _ hloaded ↦ hloaded)
  | compile => exact h.orStay ((h.compileNow he hf).map fun _ _ hmade ↦ hmade)
  | applyEdit edit => exact h.orStay (h.applyEdit edit)
  | tryEdit edit => exact h.orStay (h.tryEdit he hf edit)
  | setOverride node kind key value lifetime now =>
    exact h.orStay (h.setOverride node kind key value lifetime now)
  | clearOverride node kind key =>
    exact ⟨h.graph, h.config, h.running, h.policy, h.answers,
      congrArg (OverrideStore.clear · node kind key) h.overrides, h.tick_eq, h.lastTickMs,
      h.memory, h.lastInputs, h.observed⟩
  | setPolicy policy =>
    exact ⟨h.graph, h.config, h.running, rfl, fun _ _ ↦ rfl, h.overrides, h.tick_eq, h.lastTickMs,
      h.memory, h.lastInputs, h.observed⟩
  | start => exact h.orStay (h.start he hf)
  | stop => exact h.stop
  | tick now =>
    show (f.tickAt now).1.Reorders (e.tickAt now).1
    cases houtcome : (e.tickAt now).2.1 with
    | idle =>
      have hrunning := not_running_of_idle houtcome
      rw [tickAt_of_not_running hrunning, tickAt_of_not_running (h.running.trans hrunning)]
      exact h
    | completed info =>
      obtain ⟨f', info', events', htick', hnext, -⟩ :=
        h.tick_of_completed he hf (tickAt_eq_of_outcome houtcome)
      rw [htick']
      exact hnext
    | halted report =>
      obtain ⟨f', report', events', htick', -, hnext⟩ :=
        h.tick_of_halted he hf (tickAt_eq_of_halted houtcome)
      rw [htick']
      refine hnext (hgates.resolve_right fun hnot ↦ hnot ?_)
      rw [result, houtcome]
      rfl

/-- The graphs agree after every call, whatever the gates. -/
theorem graph_call (c : HostCall) : (f.call c).1.graph.Reorders (e.call c).1.graph := by
  by_cases hhalted : (e.result c).verdict = .halted
  · obtain ⟨now, report, rfl, houtcome⟩ := exists_of_halted hhalted
    obtain ⟨f', report', events', htick', hgraph, -⟩ :=
      h.tick_of_halted he hf (tickAt_eq_of_halted houtcome)
    show (f.tickAt now).1.graph.Reorders _
    rw [htick']
    exact hgraph
  · exact (h.call he hf c (.inr hhalted)).graph

/-- **Every call comes to the same.** -/
theorem verdict_result (c : HostCall) : (f.result c).verdict = (e.result c).verdict := by
  cases c with
  | load state => exact CallResult.verdict_of_agree (h.load state) (fun _ ↦ rfl) fun _ ↦ rfl
  | compile => exact CallResult.verdict_of_agree (h.compileNow he hf) (fun _ ↦ rfl) fun _ ↦ rfl
  | applyEdit edit =>
    exact CallResult.verdict_of_agree (h.applyEdit edit) (fun _ ↦ rfl) fun _ ↦ rfl
  | tryEdit edit =>
    exact CallResult.verdict_of_agree (h.tryEdit he hf edit) (fun _ ↦ rfl) fun _ ↦ rfl
  | setOverride node kind key value lifetime now =>
    exact CallResult.verdict_of_agree (h.setOverride node kind key value lifetime now)
      (fun _ ↦ rfl) fun _ ↦ rfl
  | clearOverride | setPolicy | stop => rfl
  | start => exact CallResult.verdict_of_agree (h.start he hf) (fun _ ↦ rfl) fun _ ↦ rfl
  | tick now =>
    rw [result, result]
    cases houtcome : (e.tickAt now).2.1 with
    | idle =>
      rw [tickAt_of_not_running (h.running.trans (not_running_of_idle houtcome))]
    | completed info =>
      obtain ⟨f', info', events', htick', -⟩ :=
        h.tick_of_completed he hf (tickAt_eq_of_outcome houtcome)
      rw [htick']
      rfl
    | halted report =>
      obtain ⟨f', report', events', htick', -⟩ :=
        h.tick_of_halted he hf (tickAt_eq_of_halted houtcome)
      rw [htick']
      rfl

end Call

/-! ### Runs -/

/-- **Engines that agree do so after every run**, if the gates that are installed are steady, or if
no tick halts. -/
theorem run (h : f.Reorders e) (he : e.Reachable) (hf : f.Reachable) {calls : List HostCall}
    (hgates : (e.policy.Steady ∧ ∀ policy, .setPolicy policy ∈ calls → policy.Steady) ∨
      ∀ report, .halted report ∉ (e.run calls).2) :
    (f.run calls).1.Reorders (e.run calls).1 := by
  induction calls generalizing e f with
  | nil => exact h
  | cons c rest ih =>
    have hevents : (e.run (c :: rest)).2 = (e.call c).2 ++ ((e.call c).1.run rest).2 := rfl
    have hcall : e.policy.Steady ∨ (e.result c).verdict ≠ .halted := by
      refine hgates.imp And.left fun hnone ↦ verdict_ne_halted he fun report hmem ↦ ?_
      exact hnone report (hevents ▸ List.mem_append_left _ hmem)
    have hrest : ((e.call c).1.policy.Steady ∧
        ∀ policy, .setPolicy policy ∈ rest → policy.Steady) ∨
          ∀ report, .halted report ∉ ((e.call c).1.run rest).2 := by
      obtain ⟨hsteady, hinstalled⟩ | hnone := hgates
      · refine .inl ⟨?_, fun policy hmem ↦ hinstalled policy (List.mem_cons_of_mem c hmem)⟩
        obtain ⟨policy, rfl, hpolicy⟩ | hpolicy := policy_call he c
        · rw [hpolicy]
          exact hinstalled policy List.mem_cons_self
        · rw [hpolicy]
          exact hsteady
      · exact .inr fun report hmem ↦ hnone report (hevents ▸ List.mem_append_right _ hmem)
    exact ih (h.call he hf c hcall) (he.call c) (hf.call c) hrest

end Reorders

/-! ### Engines around snapshots -/

theorem policy_of_ofState {catalog : Catalog} {config : EngineConfig} {state : GraphState}
    {report : LoadReport} (h : Engine.ofState catalog state config = .ok (e, report)) :
    e.policy = .allEnabled := by
  obtain ⟨g, -, hnew⟩ := of_ofState h
  rw [new_eq hnew]

/-- Engines around snapshots that differ in the order of their nodes agree from the start. -/
theorem ofState_perm {catalog : Catalog} {config : EngineConfig} {state state' : GraphState}
    (hnodes : state'.nodes.Perm state.nodes) (hids : (state.nodes.map Node.id).Nodup)
    (hconnections : state'.connections = state.connections) :
    Agree (fun made' made : Engine × LoadReport ↦ made'.1.Reorders made.1)
      (Engine.ofState catalog state' config) (Engine.ofState catalog state config) := by
  refine (Graph.load_perm hnodes hids hconnections).bind fun loaded' loaded hgraph ↦ ?_
  show Agree _ (Engine.new loaded'.1 config >>= _) (Engine.new loaded.1 config >>= _)
  rw [Engine.new, Engine.new]
  cases config.validate with
  | error error => exact .error _ _
  | ok =>
    exact .ok ⟨hgraph, rfl, rfl, rfl, fun _ _ ↦ rfl, rfl, rfl, rfl, fun _ ↦ rfl, fun _ ↦ rfl,
      fun _ _ ↦ rfl⟩

/-- **The order of insertion does not matter.** Two snapshots have the same connections, and the
same nodes with distinct ids in whatever order. Then an engine is made around both of them or around
neither. After the same calls, of which none has installed a gate that is not steady or no tick has
halted, the next call comes to the same in both: it succeeds, is refused, completes a tick or halts
in one as it does in the other. After it, every node is the same, with its config, its stored inputs
and its outputs. If it has completed a tick, the same calls of sink hooks have been made. -/
theorem insertion_order_irrelevant {catalog : Catalog} {config : EngineConfig}
    {state state' : GraphState} (hnodes : state'.nodes.Perm state.nodes)
    (hids : (state.nodes.map Node.id).Nodup)
    (hconnections : state'.connections = state.connections) :
    ((∃ made, Engine.ofState catalog state' config = .ok made) ↔
      ∃ made, Engine.ofState catalog state config = .ok made) ∧
    ∀ e f report report', Engine.ofState catalog state config = .ok (e, report) →
      Engine.ofState catalog state' config = .ok (f, report') → ∀ calls,
      (∀ policy, .setPolicy policy ∈ calls → policy.Steady) ∨
        (∀ report, .halted report ∉ (e.run calls).2) →
      ∀ c, ((f.run calls).1.result c).verdict = ((e.run calls).1.result c).verdict ∧
        (∀ v, ((f.run calls).1.call c).1.graph.node? v = ((e.run calls).1.call c).1.graph.node? v) ∧
        (((e.run calls).1.result c).verdict = .completed → ∀ call,
          call ∈ sinkCalls ((f.run calls).1.call c).2 ↔
            call ∈ sinkCalls ((e.run calls).1.call c).2) := by
  have hmade : Agree (fun made' made : Engine × LoadReport ↦ made'.1.Reorders made.1)
      (Engine.ofState catalog state' config) (Engine.ofState catalog state config) :=
    ofState_perm hnodes hids hconnections
  refine ⟨hmade.exists_ok_iff, fun e f report report' hload hload' calls hgates c ↦ ?_⟩
  rw [hload, hload'] at hmade
  have he := Reachable.ofState hload
  have hf := Reachable.ofState hload'
  have hpolicy : e.policy = .allEnabled := policy_of_ofState hload
  have hsame : (f.run calls).1.Reorders (e.run calls).1 := hmade.of_ok.run he hf
    (hgates.imp_left fun hsteady ↦ ⟨hpolicy ▸ HostPolicy.steady_allEnabled, hsteady⟩)
  refine ⟨hsame.verdict_result (he.run calls) (hf.run calls) c,
    (hsame.graph_call (he.run calls) (hf.run calls) c).node?, fun hcompleted call ↦ ?_⟩
  obtain ⟨now, info, rfl, houtcome⟩ := exists_of_completed_verdict hcompleted
  obtain ⟨f', info', events', htick', -, hcalls⟩ :=
    hsame.tick_of_completed (he.run calls) (hf.run calls) (tickAt_eq_of_outcome houtcome)
  have hevents' : ((f.run calls).1.call (.tick now)).2 = events' := by
    rw [Engine.call, htick']
  rw [hevents']
  exact hcalls call

/-- The sample with its nodes the other way round. -/
def reversedSnapshot : GraphState :=
  { sampleGraph.snapshot with nodes := sampleGraph.nodes.reverse }

/-- The sample runs the other way round as well: its first tick is completed, and the lamp is handed
the level of the dimmer. -/
theorem insertion_order_irrelevant_sample : ∃ f,
    Engine.ofState sampleCatalog reversedSnapshot {} = .ok (f, {}) ∧
    ((f.run [.start]).1.result (.tick 0.0)).verdict = .completed ∧
    ∃ call ∈ sinkCalls ((f.run [.start]).1.call (.tick 0.0)).2,
      call.context.node = "c" ∧ call.inputs = [("in", .number 1.0)] := by
  have hload : Engine.ofState sampleCatalog sampleGraph.snapshot {} = .ok (sampleEngine, {}) := rfl
  have hnodes : reversedSnapshot.nodes.Perm sampleGraph.snapshot.nodes := List.reverse_perm _
  have hids : (sampleGraph.snapshot.nodes.map Node.id).Nodup := by decide
  obtain ⟨f, hload'⟩ : ∃ f, Engine.ofState sampleCatalog reversedSnapshot {} = .ok (f, {}) :=
    ⟨_, rfl⟩
  obtain ⟨-, hsame⟩ := @insertion_order_irrelevant sampleCatalog {} sampleGraph.snapshot
    reversedSnapshot hnodes hids rfl
  obtain ⟨hverdict, -, hcalls⟩ := hsame _ f _ _ hload hload' [.start] (.inl (by simp)) (.tick 0.0)
  have hcompleted : ((sampleEngine.run [.start]).1.result (.tick 0.0)).verdict = .completed := rfl
  obtain ⟨call, hcall, hnode, hinputs⟩ :
      ∃ call ∈ sinkCalls ((sampleEngine.run [.start]).1.call (.tick 0.0)).2,
        call.context.node = "c" ∧ call.inputs = [("in", .number 1.0)] :=
    ⟨_, List.mem_singleton_self _, rfl, rfl⟩
  exact ⟨f, hload', hverdict.trans hcompleted, call, (hcalls hcompleted call).2 hcall, hnode,
    hinputs⟩

end Engine

end CueFlow
