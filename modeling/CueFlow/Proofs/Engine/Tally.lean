import CueFlow.Proofs.Engine.Turn
/-!
# The summary of a tick

While a tick is under way its summary is kept call by call: at each of the places where a hook is
called, a counter is moved on according to what the hook has come to. Here the summary is compared
with the calls themselves. A summary *tallies* with some calls if it counts the computations among
them that succeed, the deliveries, and whatever fails (`TickInfo.Tallies`). Every step keeps this
(`Tick.Tallies.computeStep`, `Tick.Tallies.sinkStep`), and so the summary of a completed tick
tallies with all calls of the tick (`Engine.tallies_of_completed`).
-/

namespace CueFlow

/-- Whether a hook of this definition succeeds when it is called like this. -/
def NodeDefinition.succeeds (d : NodeDefinition) (call : HookCall) : Bool :=
  match call.hook with
  | .process => succeeded (d.process call.inputs call.config call.context)
  | .sink => d.sink.any fun hook ↦ succeeded (hook call.inputs call.config call.context)
  | .disable => d.disable.any fun hook ↦ succeeded (hook call.inputs call.config call.context)

/-- Whether the hook of a node succeeds when it is called like this. -/
def Graph.succeeds (g : Graph) (call : HookCall) : Bool :=
  (g.definitionOf? call.context.node).any fun d ↦ d.succeeds call

/-- The call that an event tells of. -/
def Event.call? : Event → Option HookCall
  | .called call => some call
  | _ => none

/-- All calls of hooks among some events. -/
def hookCalls (events : List Event) : List HookCall := events.filterMap Event.call?

@[simp]
theorem hookCalls_append (xs ys : List Event) :
    hookCalls (xs ++ ys) = hookCalls xs ++ hookCalls ys :=
  List.filterMap_append

namespace TickInfo

/-- The summary counts the computations among these calls that succeed, the deliveries, and all
calls that fail. -/
structure Tallies (i : TickInfo) (g : Graph) (calls : List HookCall) : Prop where
  computed : i.computed = calls.countP fun call ↦ call.hook = .process ∧ g.succeeds call
  sinkCalls : i.sinkCalls = calls.countP fun call ↦ call.hook = .sink
  failures : i.failures = calls.countP fun call ↦ !g.succeeds call

/-- The summary with one more call. -/
def noting (i : TickInfo) (hook : HookKind) (succeeds : Bool) : TickInfo :=
  { i with
    computed := i.computed + if hook = .process ∧ succeeds then 1 else 0
    sinkCalls := i.sinkCalls + if hook = .sink then 1 else 0
    failures := i.failures + if succeeds then 0 else 1 }

/-- A summary that tallies with some calls tallies with one more if that is noted for what it has
come to. -/
theorem Tallies.noting {i : TickInfo} {g : Graph} {calls : List HookCall} (h : i.Tallies g calls)
    (call : HookCall) :
    (i.noting call.hook (g.succeeds call)).Tallies g (calls ++ [call]) := by
  refine ⟨?_, ?_, ?_⟩
  · rw [List.countP_append, ← h.computed, List.countP_singleton]
    simp [TickInfo.noting]
  · rw [List.countP_append, ← h.sinkCalls, List.countP_singleton]
    simp [TickInfo.noting]
  · rw [List.countP_append, ← h.failures, List.countP_singleton, TickInfo.noting]
    cases g.succeeds call <;> rfl

end TickInfo

namespace Tick

/-- The summary so far tallies with the calls so far. -/
def Tallies (t : Tick) (g : Graph) : Prop := t.info.Tallies g (hookCalls t.events)

variable {t : Tick} {g : Graph} {s : PlanStep} {n : Node}

namespace Tallies

/-- One more call of a hook, counted for what it has come to. -/
theorem called (h : t.Tallies g) (call : HookCall) (succeeds : Bool)
    (hcall : g.succeeds call = succeeds) :
    (t.info.noting call.hook succeeds).Tallies g (hookCalls (t.called call).events) := by
  rw [events_called, hookCalls_append, ← hcall]
  exact h.noting call

/-- A cleanup is noted for what the hook comes to. A definition without the hook calls nothing. -/
theorem fireDisable {d : NodeDefinition} {v : NodeId} (h : t.Tallies g)
    (hd : g.definitionOf? v = some d) (inputs config : ValueMap) :
    (t.fireDisable d inputs config v).Tallies g := by
  rw [Tick.fireDisable]
  split
  next => exact h
  next hook hhook =>
    have hcalled := h.called ⟨.disable, inputs, config, t.context v⟩
      (succeeded (hook inputs config (t.context v)))
      (by simp [Graph.succeeds, context, hd, NodeDefinition.succeeds, hhook])
    dsimp only
    cases hresult : succeeded (hook inputs config (t.context v)) with
    | true =>
      rw [hresult] at hcalled
      exact hcalled
    | false =>
      rw [hresult] at hcalled
      exact hcalled

variable (hd : g.definitionOf? s.node = some s.definition)

include hd

/-! ### The compute pass -/

/-- A step that finds its node disabled calls the cleanup hook at most. -/
theorem enterDisabled (h : t.Tallies g) : (t.enterDisabled s).Tallies g := by
  rw [Tick.enterDisabled]
  split
  · exact h
  · split
    · exact h.fireDisable hd _ _
    · exact h

/-- A computation is counted as one that ran or as a failure. -/
theorem process (h : t.Tallies g) (n : Node) : (t.process s n).Tallies g := by
  have hcalled := h.called
    ⟨.process, t.engine.resolveInputs s n, t.engine.effectiveConfig n, t.context s.node⟩
    (succeeded (s.definition.process (t.engine.resolveInputs s n)
      (t.engine.effectiveConfig n) (t.context s.node)))
    (by simp [Graph.succeeds, context, hd, NodeDefinition.succeeds])
  rw [Tick.process]
  cases hresult : s.definition.process (t.engine.resolveInputs s n) (t.engine.effectiveConfig n)
      (t.context s.node) with
  | ok outputs =>
    rw [hresult] at hcalled
    exact hcalled
  | error failure =>
    rw [hresult] at hcalled
    exact hcalled

/-- **A step of the compute pass** keeps the summary true, whichever way it goes. -/
theorem computeStep (h : t.Tallies g) : (t.computeStep s).Tallies g := by
  have henabled : ((t.enable s).noteAsked s.node).Tallies g := h
  rw [Tick.computeStep]
  split
  · rw [Tick.computeEnabled]
    split
    · split
      · exact henabled.process hd _
      · exact henabled
    · exact henabled
  · exact h.enterDisabled hd

/-! ### The sink pass -/

/-- A visit of a node with nothing connected calls the cleanup hook at most. -/
theorem visitUnplugged (h : t.Tallies g) (n : Node) : (t.visitUnplugged s n).Tallies g := by
  rw [Tick.visitUnplugged]
  split
  · exact h.fireDisable hd _ _
  · exact h

/-- A delivery is counted as such, and as a failure too if its hook fails. -/
theorem deliver (h : t.Tallies g) (current : SinkSnapshot) (delivered : ValueMap) :
    (t.deliver s current delivered).Tallies g := by
  rw [Tick.deliver]
  split
  next => exact h
  next hook hhook =>
    have hcalled := h.called
      ⟨.sink, sinkInputsFor s.definition current.computeInputs delivered, current.config,
        t.context s.node⟩
      (succeeded (hook (sinkInputsFor s.definition current.computeInputs delivered)
        current.config (t.context s.node)))
      (by simp [Graph.succeeds, context, hd, NodeDefinition.succeeds, hhook])
    dsimp only
    cases hresult : succeeded (hook (sinkInputsFor s.definition current.computeInputs delivered)
        current.config (t.context s.node)) with
    | true =>
      rw [hresult] at hcalled
      exact hcalled
    | false =>
      rw [hresult] at hcalled
      exact hcalled

/-- A visit makes one delivery at most, and calls nothing else. -/
theorem visit (h : t.Tallies g) (n : Node) : (t.visit s n).1.Tallies g := by
  have hconnected : (t.connect s).Tallies g := h
  rw [Tick.visit]
  generalize t.connect s = t at hconnected
  split
  next => exact hconnected
  next delivered _ =>
    have hguarded : (t.guardDelivery s (t.sight s n) delivered).1.Tallies g := hconnected
    generalize t.guardDelivery s (t.sight s n) delivered = guarded at hguarded
    obtain ⟨guarded, report | report⟩ := guarded
    · exact hguarded.deliver hd _ _
    · exact hguarded

/-- **A step of the sink pass** keeps the summary true, whichever way it goes. -/
theorem sinkStep (h : t.Tallies g) : (t.sinkStep s).1.Tallies g := by
  have hasked : (t.sinkAllowed s).2.Tallies g := by
    rw [Tick.sinkAllowed]
    split
    · exact h
    · exact h
  rw [Tick.sinkStep]
  split
  · generalize t.sinkAllowed s = gates at hasked
    obtain ⟨allowed, asked⟩ := gates
    dsimp only at hasked ⊢
    split
    · split
      · exact hasked
      · split
        · exact hasked.visitUnplugged hd _
        · exact hasked.visit hd _
    · exact hasked
  · exact h

end Tallies

/-! ### Whole passes -/

variable {steps : List PlanStep} (hd : ∀ s ∈ steps, g.definitionOf? s.node = some s.definition)

include hd

/-- A compute pass keeps the summary true, by induction along its steps. -/
theorem Tallies.computePass (h : t.Tallies g) : (t.computePass steps).Tallies g := by
  induction steps generalizing t with
  | nil => exact h
  | cons s rest ih =>
    exact ih (fun s' hs' ↦ hd s' (List.mem_cons_of_mem _ hs'))
      (h.computeStep (hd s List.mem_cons_self))

/-- A sink pass keeps the summary true as far as it goes. -/
theorem Tallies.sinkPass (h : t.Tallies g) : (t.sinkPass steps).1.Tallies g := by
  induction steps generalizing t with
  | nil => exact h
  | cons s rest ih =>
    have hstep := h.sinkStep (hd s List.mem_cons_self)
    rw [Tick.sinkPass]
    split
    next t' report heq =>
      rw [heq] at hstep
      exact hstep
    next t' heq =>
      rw [heq] at hstep
      exact ih (fun s' hs' ↦ hd s' (List.mem_cons_of_mem _ hs')) hstep

end Tick

namespace Engine

variable {e e' : Engine} {now : Float} {info : TickInfo} {events : List Event}

/-- **The summary of a completed tick** tallies with its calls. -/
theorem tallies_of_completed (h : e.Reachable)
    (htick : e.tickAt now = (e', .completed info, events)) :
    info.Tallies e.graph (hookCalls events) := by
  obtain ⟨plan, t, hcompile, hpass, -, rfl⟩ := exists_of_completed h.planSound htick
  obtain rfl : t.info = info := by
    rw [tickAt_eq_of_sinkPass h.planSound (running_of_completed htick) hcompile hpass] at htick
    exact TickOutcome.completed.inj (Prod.mk.inj (Prod.mk.inj htick).2).1
  have hdefinitions : ∀ s ∈ plan.steps, e.graph.definitionOf? s.node = some s.definition := by
    intro s hs
    obtain ⟨n, d, hmade⟩ := Graph.exists_madeFrom hcompile hs
    rw [hmade.node_eq, hmade.definition_eq, Graph.definitionOf?,
      Graph.node?_of_getElem? h.uniqueIds hmade.1]
    exact hmade.2.1
  have hbegin : ((e.readied plan now).beginTick now (e.sinceLast now)).Tallies e.graph :=
    ⟨rfl, rfl, rfl⟩
  have hpasses := (hbegin.computePass hdefinitions).sinkPass hdefinitions
  rw [← underway, hpass] at hpasses
  have hlast : hookCalls [.ticked t.info] = [] := rfl
  rw [hookCalls_append, hlast, List.append_nil]
  exact hpasses

end Engine

end CueFlow
