import CueFlow.Proofs.Engine.Turn
/-!
# The calls of the hooks of one node

`callsFor` picks the calls of the hooks of one node out of some events, whatever their kind. A step
of a pass adds calls for its own node only (`Touches.callsFor_eq`), so that a pass adds for a node
what its one step adds. In the compute pass the step of a disabled node calls its cleanup unless it
has been cleaned up before, and the step of an enabled node calls none (`callsFor_computePass`); in
the sink pass nothing is called for a disabled node (`callsFor_sinkPass`). Whether a node is known
to be disabled is up to the compute pass alone (`disabled_computePass`). A stop
calls the cleanup of every node that is not known to be disabled (`callsFor_stop`).
-/

namespace CueFlow

/-- The call that an event tells of, if it is one for this node. -/
def Event.callFor? (v : NodeId) : Event → Option HookCall
  | .called call => if call.context.node = v then some call else none
  | _ => none

/-- The calls of the hooks of a node among some events. -/
def callsFor (events : List Event) (v : NodeId) : List HookCall :=
  events.filterMap (Event.callFor? v)

/-- The cleanups of a node among some events. -/
def cleanups (events : List Event) (v : NodeId) : List HookCall :=
  (callsFor events v).filter fun call ↦ call.hook = .disable

variable {v : NodeId}

@[simp]
theorem callsFor_append (xs ys : List Event) :
    callsFor (xs ++ ys) v = callsFor xs v ++ callsFor ys v :=
  List.filterMap_append

theorem cleanups_append (xs ys : List Event) :
    cleanups (xs ++ ys) v = cleanups xs v ++ cleanups ys v := by
  rw [cleanups, callsFor_append, List.filter_append, cleanups, cleanups]

theorem callsFor_eq_nil {calls : List HookCall} (h : ∀ call ∈ calls, call.context.node ≠ v) :
    callsFor (calls.map .called) v = [] := by
  rw [callsFor, List.filterMap_map, List.filterMap_eq_nil_iff]
  intro call hcall
  exact if_neg (h call hcall)

theorem callsFor_eq_self {calls : List HookCall} (h : ∀ call ∈ calls, call.context.node = v) :
    callsFor (calls.map .called) v = calls := by
  rw [callsFor, List.filterMap_map, ← List.filterMap_some (l := calls), List.filterMap_filterMap]
  refine List.filterMap_congr fun call hcall ↦ ?_
  exact if_pos (h call hcall)

namespace Tick

variable {t t' : Tick} {s : PlanStep} {steps before after : List PlanStep} {hooks : List HookKind}

/-- Steps of other nodes call nothing for a node. -/
theorem Touches.callsFor_eq (h : Touches steps hooks t t') (hv : v ∉ steps.map PlanStep.node) :
    callsFor t'.events v = callsFor t.events v := by
  obtain ⟨calls, hevents, hcalls⟩ := h.events
  have hnone : callsFor (calls.map .called) v = [] :=
    callsFor_eq_nil fun call hcall heq ↦ hv (heq ▸ (hcalls call hcall).1)
  rw [hevents, callsFor_append, hnone, List.append_nil]

/-- A step calls hooks of its own node, of the given kinds. -/
theorem Touches.exists_callsFor (h : Touches [s] hooks t t') :
    ∃ calls, callsFor t'.events s.node = callsFor t.events s.node ++ calls ∧
      ∀ call ∈ calls, call.hook ∈ hooks := by
  obtain ⟨calls, hevents, hcalls⟩ := h.events
  have hall : callsFor (calls.map .called) s.node = calls :=
    callsFor_eq_self fun call hcall ↦ by simpa using (hcalls call hcall).1
  exact ⟨calls, by rw [hevents, callsFor_append, hall], fun call hcall ↦ (hcalls call hcall).2⟩

/-! ### Whether a node is known to be disabled -/

theorem disabled_computeStep (t : Tick) (s : PlanStep) :
    ((t.computeStep s).engine.memoryOf s.node).disabled = !t.engine.policy.node s.node := by
  have henable : ((t.enable s).engine.memoryOf s.node).disabled = false := by
    rw [enable, engine_mapEngine, Engine.memoryOf_remember_self]
  have hran : ∀ (t : Tick) (n : Node), ((t.callProcess s n).engine.memoryOf s.node).disabled =
      (t.engine.memoryOf s.node).disabled := by
    intro t n
    show ((t.engine.remember s.node fun m ↦ { m with
      lastInputs := some (t.engine.resolveInputs s n) }).memoryOf s.node).disabled = _
    rw [Engine.memoryOf_remember_self]
  rw [computeStep]
  cases t.engine.policy.node s.node with
  | true =>
    rw [if_pos rfl, computeEnabled]
    split
    · split
      next n hn =>
        rw [process]
        split
        · exact (hran _ n).trans henable
        · exact (hran _ n).trans henable
      next => exact henable
    · exact henable
  | false =>
    rw [if_neg Bool.false_ne_true]
    show ((t.enterDisabled s).engine.memoryOf s.node).disabled = true
    rw [enterDisabled, engine_mapEngine, Engine.memoryOf_remember_self]

/-- After a compute pass, a node that has a step is known to be disabled exactly if it is. -/
theorem disabled_computePass (hnodup : ((before ++ s :: after).map PlanStep.node).Nodup) :
    ((t.computePass (before ++ s :: after)).engine.memoryOf s.node).disabled =
      !t.engine.policy.node s.node := by
  rw [computePass_append]
  show (((_ : Tick).computePass after).engine.memoryOf s.node).disabled = _
  rw [(Touches.computePass _ after).memory _ (not_mem_of_nodup hnodup).2, disabled_computeStep,
    (Touches.computePass t before).keeps.policy]

/-! ### Calls in the compute pass -/

/-- A cleanup that is fired is one call. -/
theorem callsFor_fireDisable {d : NodeDefinition} (hhook : d.disable.isSome)
    (t : Tick) (inputs config : ValueMap) (v : NodeId) : ∃ call : HookCall, call.hook = .disable ∧
      callsFor (t.fireDisable d inputs config v).events v = callsFor t.events v ++ [call] := by
  obtain ⟨hook, hhook⟩ := Option.isSome_iff_exists.1 hhook
  refine ⟨⟨.disable, inputs, config, t.context v⟩, rfl, ?_⟩
  have hone : callsFor [.called ⟨.disable, inputs, config, t.context v⟩] v =
      [⟨.disable, inputs, config, t.context v⟩] := by
    simp [callsFor, Event.callFor?, context]
  rw [fireDisable, hhook]
  dsimp only
  split
  · rw [events_called, callsFor_append, hone]
  · rw [events_failed, events_called, callsFor_append, hone]

/-- The step of a disabled node cleans it up unless it is known to be disabled. -/
theorem callsFor_computeStep_of_disabled (hdisabled : t.engine.policy.node s.node = false)
    (hhook : s.definition.disable.isSome) (hn : (t.engine.graph.nodes[s.index]?).isSome) :
    if (t.engine.memoryOf s.node).disabled then
      callsFor (t.computeStep s).events s.node = callsFor t.events s.node
    else ∃ call : HookCall, call.hook = .disable ∧
      callsFor (t.computeStep s).events s.node = callsFor t.events s.node ++ [call] := by
  obtain ⟨n, hn⟩ := Option.isSome_iff_exists.1 hn
  have hbypass : (t.computeStep s).events = (t.enterDisabled s).events := by
    rw [computeStep, hdisabled]
    rfl
  rw [hbypass, enterDisabled, events_mapEngine]
  cases (t.engine.memoryOf s.node).disabled with
  | true => rfl
  | false =>
    rw [if_neg Bool.false_ne_true, if_neg Bool.false_ne_true, hn]
    exact callsFor_fireDisable hhook t _ _ s.node

/-- **The calls for a node in a compute pass** are those of its one step. -/
theorem callsFor_computePass (hnodup : ((before ++ s :: after).map PlanStep.node).Nodup) :
    callsFor (t.computePass (before ++ s :: after)).events s.node =
        callsFor ((t.computePass before).computeStep s).events s.node ∧
      callsFor (t.computePass before).events s.node = callsFor t.events s.node := by
  obtain ⟨hnew, hlast⟩ := not_mem_of_nodup hnodup
  refine ⟨?_, (Touches.computePass t before).callsFor_eq hnew⟩
  rw [computePass_append]
  exact (Touches.computePass ((t.computePass before).computeStep s) after).callsFor_eq hlast

/-! ### Calls in the sink pass -/

/-- **In the sink pass nothing is called for a disabled node.** -/
theorem callsFor_sinkPass (hdisabled : t.engine.policy.node v = false) (steps : List PlanStep) :
    callsFor (t.sinkPass steps).1.events v = callsFor t.events v := by
  induction steps generalizing t with
  | nil => rfl
  | cons s rest ih =>
    have hpolicy := (Touches.sinkStep t s).keeps.policy
    have hstep : callsFor (t.sinkStep s).1.events v = callsFor t.events v := by
      by_cases hv : v = s.node
      · subst hv
        rw [sinkStep, sinkAllowed, hdisabled]
        dsimp only
        split <;> rfl
      · exact (Touches.sinkStep t s).callsFor_eq (by simpa using hv)
    rw [sinkPass]
    split
    next t' report heq =>
      rw [heq] at hstep
      exact hstep
    next t' heq =>
      rw [heq] at hstep hpolicy
      rw [ih (by rw [hpolicy]; exact hdisabled), hstep]

end Tick

/-! ### Calls in a stop -/

namespace Engine

variable {e : Engine} {n : Node}

theorem node_of_stopCall? {call : HookCall} (h : e.stopCall? n = some call) :
    call.context.node = n.id := by
  rw [stopCall?] at h
  obtain ⟨d, -, h⟩ := Option.bind_eq_some_iff.1 h
  obtain ⟨hook, -, h⟩ := Option.bind_eq_some_iff.1 h
  dsimp only at h
  split at h
  · cases h
  · obtain rfl := Option.some.inj h
    rfl

/-- **A stop calls for a node what it calls for it alone.** -/
theorem callsFor_stop (hids : e.graph.UniqueIds) (hrunning : e.running = true)
    (hn : n ∈ e.graph.nodes) : callsFor e.stop.2 n.id = (e.stopCall? n).toList := by
  obtain ⟨before, after, hsplit⟩ := List.append_of_mem hn
  have hnodup : ((before ++ n :: after).map Node.id).Nodup := hsplit ▸ hids
  rw [List.map_append, List.map_cons] at hnodup
  have hother : ∀ nodes : List Node, n.id ∉ nodes.map Node.id →
      callsFor ((nodes.filterMap e.stopCall?).map .called) n.id = [] := by
    intro nodes hnone
    refine callsFor_eq_nil fun call hcall heq ↦ ?_
    obtain ⟨m, hm, hcall⟩ := List.mem_filterMap.1 hcall
    rw [node_of_stopCall? hcall] at heq
    exact hnone (heq ▸ List.mem_map_of_mem hm)
  have hself : callsFor ((e.stopCall? n).toList.map .called) n.id = (e.stopCall? n).toList := by
    refine callsFor_eq_self fun call hcall ↦ ?_
    exact node_of_stopCall? (by simpa using hcall)
  have hbefore : n.id ∉ before.map Node.id := fun hmem ↦
    List.disjoint_of_nodup_append hnodup hmem List.mem_cons_self
  have hafter : n.id ∉ after.map Node.id :=
    (List.nodup_cons.1 (List.nodup_append.1 hnodup).2.1).1
  have hfilter : (n :: after).filterMap e.stopCall? =
      (e.stopCall? n).toList ++ after.filterMap e.stopCall? := by
    rw [List.filterMap_cons]
    cases e.stopCall? n <;> rfl
  rw [stop, if_pos hrunning, hsplit, List.filterMap_append, hfilter, List.map_append,
    List.map_append, callsFor_append, callsFor_append, hother before hbefore, hself,
    hother after hafter, List.nil_append, List.append_nil]

/-- A stop cleans up a node unless it is known to be disabled. -/
theorem stopCall?_of_disable {d : NodeDefinition} (hd : e.graph.catalog.get? n.type = some d)
    (hhook : d.disable.isSome) :
    if (e.memoryOf n.id).disabled then e.stopCall? n = none
    else ∃ call : HookCall, call.hook = .disable ∧ e.stopCall? n = some call := by
  obtain ⟨hook, hhook⟩ := Option.isSome_iff_exists.1 hhook
  rw [stopCall?, hd]
  simp only [Option.bind_eq_bind, Option.bind_some, hhook]
  split
  next => rfl
  next => exact ⟨_, rfl, rfl⟩

end Engine

end CueFlow
