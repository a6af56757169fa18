import CueFlow.Proofs.Engine.HookCalls
import CueFlow.Proofs.Engine.Record
/-!
# Every node is cleaned up

The cleanup of a node runs when it is disabled and when the engine stops, but not twice in between:
an engine that stops does not clean up what it knows to be disabled. `disable_lifecycle` says what
this comes to along a run, in terms of the past of the node alone, which is written down beside the
engine (`Lifetime`): whether the node was enabled in the last compute pass since the engine last
stopped, and all calls of its hooks.

The invariant `Lifetime.Of` has two parts. A node is known to be disabled exactly if it was disabled
in the last compute pass; and at that time, just as whenever the engine does not run, the last call
of its hooks was its cleanup.
-/

namespace CueFlow

namespace Engine

variable {e e' : Engine} {now : Float}

/-! ### The passes, seen from one node -/

section Node

variable {plan : Plan} {n : Node} {d : NodeDefinition}

/-- After the passes of a tick, a node is known to be disabled exactly if it is. -/
theorem disabled_passes (h : e.Reachable) (hcompile : e.graph.compile = .ok plan)
    (hn : n ∈ e.graph.nodes) (now : Float) :
    ((e.passes now).1.memoryOf n.id).disabled = !e.policy.node n.id := by
  obtain ⟨s, hs, d, hmade⟩ := Graph.exists_madeFrom_of_mem hcompile hn
  obtain ⟨before, after, hsplit⟩ := List.append_of_mem hs
  have hnodup := Graph.nodup_node_steps h.uniqueIds hcompile
  rw [hsplit] at hnodup
  have hunderway : e.underway plan now plan.steps =
      ((e.readied plan now).beginTick now (e.sinceLast now)).computePass (before ++ s :: after) :=
    congrArg (Tick.computePass _) hsplit
  have hsink := congrArg Prod.fst
    (Tick.computeMemoryOf_sinkPass (e.underway plan now plan.steps) plan.steps n.id)
  rw [passes_of_compile hcompile]
  refine hsink.trans ?_
  show ((e.underway plan now plan.steps).engine.memoryOf n.id).disabled = _
  rw [hunderway, ← hmade.node_eq, Tick.disabled_computePass hnodup]
  rfl

/-- **The passes of a tick, for a node with a cleanup.** If it is enabled, the compute pass does not
clean it up; if it is disabled, the compute pass cleans it up unless it is known to be disabled, and
calls nothing else for it, nor does the sink pass. -/
theorem calls_underway (h : e.Reachable) (hcompile : e.graph.compile = .ok plan)
    (hn : n ∈ e.graph.nodes) (hd : e.graph.definitionOf? n.id = some d) (hhook : d.disable.isSome)
    (now : Float) :
    (e.policy.node n.id = true →
      ∀ call ∈ callsFor (e.underway plan now plan.steps).events n.id, call.hook ≠ .disable) ∧
    (e.policy.node n.id = false →
      callsFor (e.passes now).2 n.id = callsFor (e.underway plan now plan.steps).events n.id ∧
      if (e.memoryOf n.id).disabled then
        callsFor (e.underway plan now plan.steps).events n.id = []
      else ∃ call : HookCall, call.hook = .disable ∧
        callsFor (e.underway plan now plan.steps).events n.id = [call]) := by
  obtain ⟨s, hs, d', hmade⟩ := Graph.exists_madeFrom_of_mem hcompile hn
  obtain ⟨before, after, hsplit⟩ := List.append_of_mem hs
  have hnodup := Graph.nodup_node_steps h.uniqueIds hcompile
  have hplaces := Graph.nodup_index_steps hcompile
  rw [hsplit] at hnodup hplaces
  have hnode := hmade.node_eq
  obtain rfl : d' = d := by
    rw [Graph.definitionOf?, Graph.node?_of_mem h.uniqueIds hn] at hd
    exact Option.some.inj (hmade.2.1.symm.trans hd)
  -- In front of its step the node is as the tick found it, and nothing has been called for it.
  let t := (e.readied plan now).beginTick now (e.sinceLast now)
  obtain ⟨hpass, hnothing⟩ := Tick.callsFor_computePass (t := t) hnodup
  have hbefore := Tick.Touches.computePass t before
  have hpolicy : (t.computePass before).engine.policy.node s.node = e.policy.node n.id := by
    rw [hbefore.keeps.policy, hnode]
    rfl
  have hmemory : (t.computePass before).engine.memoryOf s.node = e.memoryOf n.id := by
    rw [hbefore.memory _ (Tick.not_mem_of_nodup hnodup).1, hnode]
    rfl
  have hfound : (t.computePass before).engine.graph.nodes[s.index]? = some n :=
    (Tick.nodes_computePass (t := t) hplaces hmade.1).1
  have hunderway : e.underway plan now plan.steps = t.computePass (before ++ s :: after) :=
    congrArg t.computePass hsplit
  have hevents : callsFor (e.underway plan now plan.steps).events n.id =
      callsFor ((t.computePass before).computeStep s).events s.node := by
    rw [hunderway, ← hnode]
    exact hpass
  rw [passes_of_compile hcompile]
  refine ⟨fun henabled ↦ ?_, fun hdisabled ↦ ⟨?_, ?_⟩⟩
  · obtain ⟨calls, hcalls, hooks⟩ :=
      (Tick.Touches.computeStep_of_enabled (hpolicy.trans henabled)).exists_callsFor
    rw [hevents, hcalls, hnothing]
    intro call hcall hcleanup
    have hprocess : call.hook = .process := by simpa using hooks call hcall
    rw [hprocess] at hcleanup
    cases hcleanup
  · refine Tick.callsFor_sinkPass ?_ _
    rw [(e.keeps_underway plan now plan.steps).policy]
    exact hdisabled
  · have hstep := Tick.callsFor_computeStep_of_disabled (hpolicy.trans hdisabled)
      (hmade.definition_eq ▸ hhook) (by rw [hfound]; rfl)
    rw [hmemory, hnothing] at hstep
    rw [hevents]
    exact hstep

end Node

end Engine

/-! ### The past of a node -/

/-- What has happened to a node since it was created. -/
structure Lifetime where
  /-- Whether the node was enabled in the last compute pass since the engine last stopped. -/
  gate : Option Bool := none
  /-- All calls of its hooks, oldest first. -/
  calls : List HookCall := []

/-- How the past of a node is written down. -/
def lifetimes : Recorder Lifetime where
  fresh := {}
  stopped e n life := ⟨none, life.calls ++ callsFor e.stop.2 n.id⟩
  halted e now n life := ⟨none, life.calls ++ callsFor (e.tickAt now).2.2 n.id⟩
  completed e now n life :=
    ⟨some (e.policy.node n.id), life.calls ++ callsFor (e.tickAt now).2.2 n.id⟩

/-- The last of some calls, if there is any, is a cleanup. -/
def EndsClean (calls : List HookCall) : Prop :=
  ∀ call, calls.getLast? = some call → call.hook = .disable

theorem endsClean_concat {call : HookCall} (h : call.hook = .disable) (calls : List HookCall) :
    EndsClean (calls ++ [call]) := by
  intro last hlast
  rw [List.getLast?_concat] at hlast
  obtain rfl := Option.some.inj hlast
  exact h

/-- Where the last call is a cleanup, every other call is followed by one. -/
theorem EndsClean.exists_later {calls before after : List HookCall} {call : HookCall}
    (h : EndsClean calls) (hsplit : calls = before ++ call :: after)
    (hcall : call.hook ≠ .disable) : ∃ later ∈ after, later.hook = .disable := by
  obtain rfl | ⟨rest, last, rfl⟩ := List.eq_nil_or_concat after
  · refine absurd (h call ?_) hcall
    rw [hsplit, List.getLast?_concat]
  · refine ⟨last, by simp, h last ?_⟩
    rw [hsplit, List.concat_eq_append, ← List.cons_append, ← List.append_assoc,
      List.getLast?_concat]

/-- A node is known to be disabled exactly if it was disabled in the last compute pass, and then, as
whenever the engine does not run, the last call of its hooks was its cleanup. -/
structure Lifetime.Of (e : Engine) (v : NodeId) (life : Lifetime) : Prop where
  disabled : (e.memoryOf v).disabled = true ↔ life.gate = some false
  clean : ∀ d, e.graph.definitionOf? v = some d → d.disable.isSome →
    e.running = false ∨ life.gate = some false → EndsClean life.calls

namespace Engine

variable {e e' : Engine} {now : Float} {n : Node} {d : NodeDefinition} {life : Lifetime}

theorem definition_of_mem (h : e.Reachable) (hn : n ∈ e.graph.nodes) :
    e.graph.definitionOf? n.id = e.graph.catalog.get? n.type := by
  rw [Graph.definitionOf?, Graph.node?_of_mem h.uniqueIds hn]
  rfl

/-- When the passes of a tick are over, the last call for a node that is known to be disabled was
its cleanup. -/
theorem endsClean_passes (h : e.Reachable) (hn : n ∈ e.graph.nodes)
    (hd : e.graph.definitionOf? n.id = some d) (hhook : d.disable.isSome)
    (hlife : life.Of e n.id) (hdisabled : ((e.passes now).1.memoryOf n.id).disabled = true) :
    EndsClean (life.calls ++ callsFor (e.passes now).2 n.id) := by
  cases hcompile : e.graph.compile with
  | error error =>
    rw [passes, hcompile] at hdisabled ⊢
    rw [callsFor, List.filterMap_nil, List.append_nil]
    exact hlife.clean d hd hhook (.inr (hlife.disabled.1 hdisabled))
  | ok plan =>
    rw [disabled_passes h hcompile hn now, Bool.not_eq_true'] at hdisabled
    obtain ⟨hsame, hcalls⟩ := (calls_underway h hcompile hn hd hhook now).2 hdisabled
    rw [hsame]
    split at hcalls
    next hknown =>
      rw [hcalls, List.append_nil]
      exact hlife.clean d hd hhook (.inr (hlife.disabled.1 hknown))
    next =>
      obtain ⟨call, hcall, heq⟩ := hcalls
      rw [heq]
      exact endsClean_concat hcall _

/-- **A stop calls the cleanup of a node once**, unless it is known to be disabled. -/
theorem calls_stop (hids : e.graph.UniqueIds) (hrunning : e.running = true) {v : NodeId}
    (hd : e.graph.definitionOf? v = some d) (hhook : d.disable.isSome) :
    if (e.memoryOf v).disabled then callsFor e.stop.2 v = []
    else ∃ call : HookCall, call.hook = .disable ∧ callsFor e.stop.2 v = [call] := by
  obtain ⟨n, hn, htype⟩ := Option.bind_eq_some_iff.1 hd
  obtain rfl := Graph.id_of_node? hn
  have hcall := stopCall?_of_disable htype hhook
  rw [callsFor_stop hids hrunning (List.mem_of_find?_eq_some hn)]
  split
  next hdisabled =>
    rw [if_pos hdisabled] at hcall
    rw [hcall]
    rfl
  next hdisabled =>
    rw [if_neg hdisabled] at hcall
    obtain ⟨call, hcleanup, heq⟩ := hcall
    rw [heq]
    exact ⟨call, hcleanup, rfl⟩

/-- After a stop, the last call for a node was its cleanup. -/
theorem endsClean_stop (hids : e.graph.UniqueIds) (hrunning : e.running = true) {v : NodeId}
    (hd : e.graph.definitionOf? v = some d) (hhook : d.disable.isSome) {calls : List HookCall}
    (hclean : (e.memoryOf v).disabled = true → EndsClean calls) :
    EndsClean (calls ++ callsFor e.stop.2 v) := by
  have hcalls := calls_stop hids hrunning hd hhook
  split at hcalls
  next hdisabled =>
    rw [hcalls, List.append_nil]
    exact hclean hdisabled
  next =>
    obtain ⟨call, hcall, heq⟩ := hcalls
    rw [heq]
    exact endsClean_concat hcall calls

end Engine

/-- An engine that remembers nothing of a node does not know it to be disabled. -/
theorem disabled_fresh_iff :
    ({} : NodeMemory).disabled = true ↔ (none : Option Bool) = some false :=
  iff_of_false Bool.false_ne_true (Option.some_ne_none false).symm

/-- **The lifetime of a node tells what the engine knows of it.** -/
theorem lifetimes_maintains : lifetimes.Maintains fun e v life ↦ life.Of e v where
  created := by
    intro e v hmemory
    refine ⟨?_, fun d hd hhook hrest call hcall ↦ ?_⟩
    · rw [hmemory]
      exact disabled_fresh_iff
    · cases hcall
  kept := by
    intro e e' v life h hmemory hdefinition hrunning
    refine ⟨?_, fun d hd hhook hrest ↦ ?_⟩
    · rw [hmemory]
      exact h.disabled
    · exact h.clean d (hdefinition ▸ hd) hhook (hrest.imp_left hrunning)
  stopped := by
    intro e n life he hrunning hn h
    refine ⟨?_, fun d hd hhook _ ↦ ?_⟩
    · rw [Engine.memoryOf, Engine.memory_stop_of_running hrunning]
      exact disabled_fresh_iff
    · rw [Graph.definitionOf?_congr e.stop_fst.1] at hd
      exact Engine.endsClean_stop he.uniqueIds hrunning hd hhook
        fun hdisabled ↦ h.clean d hd hhook (.inr (h.disabled.1 hdisabled))
  halted := by
    intro e e' n life now report events he htick hn h
    have hrunning := Engine.running_of_halted htick
    have hskel := e.skeleton_tickAt now
    rw [htick] at hskel
    refine ⟨?_, fun d hd hhook _ ↦ ?_⟩
    · rw [Engine.memoryOf, Engine.memory_of_halted hrunning htick]
      exact disabled_fresh_iff
    · rw [Graph.definitionOf?_congr hskel] at hd
      obtain ⟨hpasses, hruns⟩ := e.passes_fst now
      show EndsClean (life.calls ++ callsFor (e.tickAt now).2.2 n.id)
      rw [Engine.events_of_halted he htick, callsFor_append, callsFor_append, ← List.append_assoc,
        ← List.append_assoc]
      have hreport : callsFor [.halted report] n.id = [] := rfl
      rw [hreport, List.append_nil]
      exact Engine.endsClean_stop (he.uniqueIds.congr hpasses) (hruns.trans hrunning)
        ((Graph.definitionOf?_congr hpasses n.id).trans hd) hhook
        fun hdisabled ↦ Engine.endsClean_passes he hn hd hhook h hdisabled
  completed := by
    intro e e' n life now info events he htick hn h
    obtain ⟨plan, hcompile, rfl, rfl⟩ := Engine.passes_of_completed he htick
    have hafter := Engine.disabled_passes he hcompile hn now
    refine ⟨?_, fun d hd hhook hrest ↦ ?_⟩
    · show ((e.passes now).1.memoryOf n.id).disabled = true ↔
        some (e.policy.node n.id) = some false
      rw [hafter, Option.some_inj, Bool.not_eq_true']
    · have hdisabled : ((e.passes now).1.memoryOf n.id).disabled = true := by
        -- The engine runs on, so the node is disabled in this tick.
        rw [hafter, Bool.not_eq_true']
        refine Option.some.inj (hrest.resolve_left ?_)
        have hrunning := (e.passes_fst now).2.trans (Engine.running_of_completed htick)
        exact fun hstopped ↦ Bool.false_ne_true (hstopped.symm.trans hrunning)
      show EndsClean (life.calls ++ callsFor (e.tickAt now).2.2 n.id)
      have hcalls : callsFor [.ticked info] n.id = [] := rfl
      rw [htick, callsFor_append, hcalls, List.append_nil]
      exact Engine.endsClean_passes he hn
        ((Graph.definitionOf?_congr (e.passes_fst now).1 n.id).symm.trans hd) hhook h hdisabled

/-! ### The result -/

namespace Engine

variable {e : Engine} {l : NodeId → Lifetime}

/-- Whether a node was enabled in the last compute pass since the engine last stopped, once the
passes of a tick are over. -/
def gateAfter (e : Engine) (v : NodeId) (life : Lifetime) : Option Bool :=
  match e.graph.compile with
  | .ok _ => some (e.policy.node v)
  | .error _ => life.gate

theorem length_cleanups_of_calls {events : List Event} {v : NodeId} {known : Bool}
    (h : if known then callsFor events v = []
      else ∃ call : HookCall, call.hook = .disable ∧ callsFor events v = [call]) :
    (cleanups events v).length = if known then 0 else 1 := by
  rw [cleanups]
  cases known with
  | true =>
    rw [if_pos rfl] at h
    rw [h]
    rfl
  | false =>
    rw [if_neg Bool.false_ne_true] at h
    obtain ⟨call, hcall, heq⟩ := h
    rw [heq]
    simp [hcall]

/-- In a compute pass, a node is cleaned up once if it is disabled and not known to be. -/
theorem length_cleanups_underway (h : e.Reachable) {plan : Plan}
    (hcompile : e.graph.compile = .ok plan) {n : Node} (hn : n ∈ e.graph.nodes)
    {d : NodeDefinition} (hd : e.graph.definitionOf? n.id = some d) (hhook : d.disable.isSome)
    (now : Float) : (cleanups (e.underway plan now plan.steps).events n.id).length =
      if e.policy.node n.id = false ∧ (e.memoryOf n.id).disabled = false then 1 else 0 := by
  obtain ⟨henabled, hdisabled⟩ := calls_underway h hcompile hn hd hhook now
  cases hnode : e.policy.node n.id with
  | true =>
    have hnone : cleanups (e.underway plan now plan.steps).events n.id = [] := by
      rw [cleanups, List.filter_eq_nil_iff]
      intro call hcall
      simpa using henabled hnode call hcall
    rw [hnone]
    rfl
  | false =>
    rw [length_cleanups_of_calls (hdisabled hnode).2]
    cases (e.memoryOf n.id).disabled with
    | true => rfl
    | false => rfl

/-- The compute pass comes first in a tick. -/
theorem prefix_tickAt (h : e.Reachable) (hrunning : e.running = true) {now : Float} {plan : Plan}
    (hcompile : e.graph.compile = .ok plan) :
    (e.underway plan now plan.steps).events <+: (e.tickAt now).2.2 := by
  obtain ⟨calls, hevents, -⟩ :=
    (Tick.Touches.sinkPass (e.underway plan now plan.steps) plan.steps).events
  have hpasses : (e.underway plan now plan.steps).events <+: (e.passes now).2 := by
    rw [passes_of_compile hcompile, hevents]
    exact List.prefix_append _ _
  refine hpasses.trans ?_
  obtain ⟨report, heq⟩ | ⟨plan, info, -, heq⟩ := tickAt_eq_passes h.planSound hrunning now
  · rw [heq]
    exact List.prefix_append _ _
  · rw [heq]
    exact List.prefix_append _ _

/-- When the passes of a tick are over, a node is known to be disabled exactly if it was disabled in
the last compute pass. -/
theorem disabled_passes_iff (h : e.Reachable) {n : Node} (hn : n ∈ e.graph.nodes) {life : Lifetime}
    (hlife : life.Of e n.id) (now : Float) :
    ((e.passes now).1.memoryOf n.id).disabled = true ↔ e.gateAfter n.id life = some false := by
  rw [gateAfter]
  cases hcompile : e.graph.compile with
  | error error =>
    rw [passes, hcompile]
    exact hlife.disabled
  | ok plan =>
    rw [disabled_passes h hcompile hn now, Bool.not_eq_true']
    exact Option.some_inj.symm

/-- **The lifecycle of a node with a cleanup.** In the compute pass of a tick it is cleaned up, and
then once, if it is disabled in this tick and was enabled in the tick before, or there was no tick
since it was created or the engine last stopped. A stop of a running engine, be it called or brought
about by a halt, cleans it up once, unless it was disabled in the last compute pass since the engine
last stopped. So whenever the engine does not run, every other call of a hook of the node has been
followed by its cleanup. -/
theorem disable_lifecycle (h : lifetimes.Kept e l) {n : Node} (hn : n ∈ e.graph.nodes)
    {d : NodeDefinition} (hd : e.graph.catalog.get? n.type = some d) (hhook : d.disable.isSome) :
    (e.running = true → ∀ now plan, e.graph.compile = .ok plan →
      (e.underway plan now plan.steps).events <+: (e.tickAt now).2.2 ∧
      (cleanups (e.underway plan now plan.steps).events n.id).length =
        if e.policy.node n.id = false ∧ ((l n.id).gate = some true ∨ (l n.id).gate = none)
          then 1 else 0) ∧
    (e.running = true → (cleanups e.stop.2 n.id).length =
      if (l n.id).gate = some false then 0 else 1) ∧
    (∀ e' now report events, e.tickAt now = (e', .halted report, events) →
      events = (e.passes now).2 ++ ((e.passes now).1.stop.2 ++ [.halted report]) ∧
      (cleanups (e.passes now).1.stop.2 n.id).length =
        if e.gateAfter n.id (l n.id) = some false then 0 else 1) ∧
    (e.running = false → ∀ before call after, (l n.id).calls = before ++ call :: after →
      call.hook ≠ .disable → ∃ later ∈ after, later.hook = .disable) := by
  have he := h.reachable
  have hdefinition := (definition_of_mem he hn).trans hd
  have hlife := h.holds lifetimes_maintains hn
  refine ⟨fun hrunning now plan hcompile ↦ ⟨prefix_tickAt he hrunning hcompile, ?_⟩,
    fun hrunning ↦ ?_, fun e' now report events htick ↦ ⟨?_, ?_⟩,
    fun hstopped before call after hsplit hcall ↦ ?_⟩
  · rw [length_cleanups_underway he hcompile hn hdefinition hhook]
    have hgate : (e.memoryOf n.id).disabled = false ↔
        (l n.id).gate = some true ∨ (l n.id).gate = none := by
      rw [← Bool.not_eq_true, hlife.disabled]
      cases (l n.id).gate with
      | none => simp
      | some gate => simp
    simp only [hgate]
  · rw [length_cleanups_of_calls (calls_stop he.uniqueIds hrunning hdefinition hhook)]
    simp only [hlife.disabled]
  · rw [← events_of_halted he htick, htick]
  · obtain ⟨hskel, hruns⟩ := e.passes_fst now
    rw [length_cleanups_of_calls (calls_stop (he.uniqueIds.congr hskel)
      (hruns.trans (running_of_halted htick))
      ((Graph.definitionOf?_congr hskel n.id).trans hdefinition) hhook)]
    simp only [disabled_passes_iff he hn hlife now]
  · exact (hlife.clean d hdefinition hhook (.inl hstopped)).exists_later hsplit hcall

/-- A lamp that is switched off when it is cleaned up. -/
def lampDefinition : NodeDefinition where
  type := "lamp"
  inputs := [{ id := "in", type := .number, kind := .sink }]
  sink := some fun _ _ _ ↦ .ok ()
  disable := some fun _ _ _ ↦ .ok ()

/-- The engine around one such lamp, at rest. -/
def lampEngine : Engine where
  graph := { catalog := .ofDefinitions [lampDefinition], nodes := [{ id := "a", type := "lamp" }] }
  config := {}
  watchdog := { config := .default }

/-- The calls that start the engine, run one tick, and disable the lamp. -/
def lampCalls : List HostCall := [.start, .tick 0.0, .setPolicy { node := fun _ ↦ false }]

/-- The engine with the lamp disabled. -/
def dimmedEngine : Engine := (lampEngine.run lampCalls).1

/-- The lamp has been enabled and is now disabled: the next tick cleans it up once, and so does a
stop in its place. -/
theorem disable_lifecycle_dimmedEngine : ∃ plan, dimmedEngine.graph.compile = .ok plan ∧
    (cleanups (dimmedEngine.underway plan 40.0 plan.steps).events "a").length = 1 ∧
    (cleanups dimmedEngine.stop.2 "a").length = 1 := by
  have hload : Graph.load (.ofDefinitions [lampDefinition]) lampEngine.graph.snapshot .strict =
      .ok (lampEngine.graph, {}) := rfl
  have hnew : Engine.new lampEngine.graph {} = .ok lampEngine := rfl
  have hkept : lifetimes.Kept dimmedEngine _ :=
    (((Recorder.Kept.new (.load hload) hnew).call .start).call (.tick 0.0)).call
      (.setPolicy { node := fun _ ↦ false })
  obtain ⟨n, hn, hid, hd⟩ : ∃ n ∈ dimmedEngine.graph.nodes, n.id = "a" ∧
      dimmedEngine.graph.catalog.get? n.type = some lampDefinition := ⟨_, .head _, rfl, rfl⟩
  obtain ⟨htick, hstop, -⟩ := disable_lifecycle hkept hn hd rfl
  rw [hid] at htick hstop
  exact ⟨_, rfl, (htick rfl 40.0 _ rfl).2, hstop rfl⟩

end Engine

end CueFlow
