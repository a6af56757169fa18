import CueFlow.Proofs.Engine.Dataflow
import CueFlow.Proofs.Engine.Delivery
import CueFlow.Proofs.Engine.Gather
import CueFlow.Proofs.Engine.SinkPass
import Mathlib.Algebra.GroupWithZero.Nat
/-!
# The watchdog fails closed

When one of the two checks trips, nothing of what it saw reaches a device: the node at hand and all
nodes after it in the plan are not delivered to, the engine stops, tells the host once, and stays
silent until a start succeeds (`run_of_not_running`). As long as no check trips, the count of
what is about to be delivered stays within the ceiling, and what is handed over is what was counted
(`Tick.handed_of_handOver?`). `fails_closed` puts both together.
-/

namespace CueFlow

namespace Engine

variable {e e' : Engine}

/-! ### Silence after a stop -/

/-- Only a start that succeeds sets an engine running, and an engine that does not run is silent. -/
theorem call_of_not_running (hrunning : e.running = false) {c : HostCall}
    (hstart : c = .start → ∃ error, e.start = .error error) :
    (e.call c).2 = [] ∧ (e.call c).1.running = false := by
  have hstay : ∀ {result : Except EngineError Engine},
      (∀ e', result = .ok e' → e'.running = false) → (e.orStay result).running = false :=
    fun {_} h ↦ orStay_of (P := fun e' ↦ e'.running = false) hrunning h
  cases c with
  | load state =>
    refine ⟨rfl, hstay fun e' h ↦ ?_⟩
    obtain ⟨g, report, -, rfl⟩ := of_load h
    exact hrunning
  | compile =>
    refine ⟨rfl, hstay fun e' h ↦ ?_⟩
    obtain ⟨plan, -, rfl⟩ := of_compileNow h
    exact hrunning
  | applyEdit edit =>
    refine ⟨rfl, hstay fun e' h ↦ ?_⟩
    obtain ⟨g, -, rfl⟩ := of_applyEdit h
    exact (running_forgetRemoved _ edit).trans hrunning
  | tryEdit edit =>
    refine ⟨rfl, hstay fun e' h ↦ ?_⟩
    obtain ⟨g, -, ⟨-, plan, -, rfl⟩ | ⟨-, rfl⟩⟩ := of_tryEdit h
    · exact (running_forgetRemoved _ edit).trans hrunning
    · exact (running_forgetRemoved _ edit).trans hrunning
  | setOverride =>
    refine ⟨rfl, hstay fun e' h ↦ ?_⟩
    obtain rfl := of_setOverride h
    exact hrunning
  | clearOverride => exact ⟨rfl, hrunning⟩
  | setPolicy => exact ⟨rfl, hrunning⟩
  | start =>
    obtain ⟨error, herror⟩ := hstart rfl
    refine ⟨rfl, hstay fun e' h ↦ ?_⟩
    rw [herror] at h
    cases h
  | stop =>
    have hstop : e.stop = (e, []) := by
      rw [stop, hrunning]
      rfl
    rw [call, hstop]
    exact ⟨rfl, hrunning⟩
  | tick now =>
    rw [call, tickAt_of_not_running hrunning]
    exact ⟨rfl, hrunning⟩

/-- No start among some calls succeeds. -/
def NoStart (e : Engine) (calls : List HostCall) : Prop :=
  ∀ before after, calls = before ++ .start :: after →
    ∃ error, (e.run before).1.start = .error error

/-- **An engine that does not run is silent until a start succeeds.** -/
theorem run_of_not_running (hrunning : e.running = false) {calls : List HostCall}
    (hstart : e.NoStart calls) : (e.run calls).2 = [] ∧ (e.run calls).1.running = false := by
  induction calls generalizing e with
  | nil => exact ⟨rfl, hrunning⟩
  | cons c rest ih =>
    obtain ⟨hsilent, hrunning'⟩ := call_of_not_running hrunning fun heq ↦
      hstart [] rest (congrArg (· :: rest) heq)
    have hrest : (e.call c).1.NoStart rest := by
      intro before after hsplit
      exact hstart (c :: before) after (congrArg (c :: ·) hsplit)
    obtain ⟨hsilent', hstopped⟩ := ih hrunning' hrest
    refine ⟨?_, hstopped⟩
    show (e.call c).2 ++ ((e.call c).1.run rest).2 = []
    rw [hsilent, hsilent', List.append_nil]

/-! ### Stopping -/

theorem hook_of_stopCall? {n : Node} {call : HookCall} (h : e.stopCall? n = some call) :
    call.hook = .disable := by
  rw [stopCall?] at h
  obtain ⟨d, -, h⟩ := Option.bind_eq_some_iff.1 h
  obtain ⟨hook, -, h⟩ := Option.bind_eq_some_iff.1 h
  dsimp only at h
  split at h
  · cases h
  · obtain rfl := Option.some.inj h
    rfl

/-- Stopping calls cleanup hooks only. -/
theorem stop_snd (e : Engine) :
    ∃ calls : List HookCall,
      e.stop.2 = calls.map .called ∧ ∀ call ∈ calls, call.hook = .disable := by
  rw [stop]
  split
  · refine ⟨_, rfl, fun call hcall ↦ ?_⟩
    obtain ⟨n, -, hn⟩ := List.mem_filterMap.1 hcall
    exact hook_of_stopCall? hn
  · exact ⟨[], rfl, by simp⟩

/-- A running engine that stops has no outputs left. -/
theorem stop_of_running (hrunning : e.running = true) :
    e.stop.1.running = false ∧ ∀ v ∈ e.stop.1.graph.nodes, v.outputValues = [] := by
  rw [stop, if_pos hrunning]
  refine ⟨rfl, fun v hv ↦ ?_⟩
  obtain ⟨n, -, rfl⟩ := List.mem_map.1 hv
  rfl

end Engine

/-! ### What is handed over -/

/-- The gathered values among the inputs of a call: those at points of delivery that gather anything
in this graph. -/
def handed (g : Graph) (call : HookCall) : ValueMap :=
  call.inputs.filter fun entry ↦ (g.gathered? call.context.node entry.1).isSome

/-- How many gathered values the sink hooks called in some events are given. -/
def handedOver (g : Graph) (events : List Event) : Nat :=
  ((sinkCalls events).map fun call ↦ Watchdog.deliveries (handed g call)).sum

namespace Tick

variable {t : Tick} {s : PlanStep} {n : Node} {d : NodeDefinition} {g : Graph}

/-- **What is handed over is what was offered.** -/
theorem handed_of_handOver? (hids : t.engine.graph.UniqueIds)
    (hmade : t.engine.graph.MadeFrom s n d) {call : HookCall} (h : t.handOver? s = some call) :
    ∃ found, t.offer? s = some (found, handed t.engine.graph call) := by
  obtain ⟨found, delivered, -, hoffer, rfl⟩ := exists_of_handOver? h
  refine ⟨found, ?_⟩
  obtain ⟨n', hvisited, rfl, hdelivery⟩ := exists_of_offer? hoffer
  have hnode := hmade.node_eq
  have hdefinition := hmade.definition_eq
  obtain ⟨hsorted, hkeys⟩ := keys_delivery? hdelivery (Graph.sorted_gather s t.engine.graph)
  have hkeep : ∀ port, (t.engine.graph.gathered? s.node port).isSome =
      (delivered.get? port).isSome := by
    intro port
    rw [hkeys, hnode, ← Graph.get?_gather hids hmade]
    rfl
  have hports : ∀ port, (t.engine.graph.gathered? s.node port).isSome →
      port ∈ s.definition.sinkInputs.map Port.id := by
    intro port hsome
    by_contra hport
    rw [hdefinition] at hport
    rw [hnode, Graph.gathered?, Graph.produced_eq_nil hids hmade hport] at hsome
    cases hsome
  have hhanded : (sinkInputsFor s.definition (t.sight s n').computeInputs delivered).filter
      (fun entry ↦ (t.engine.graph.gathered? s.node entry.1).isSome) = delivered :=
    filter_sinkInputsFor (KeyMap.sorted_ofEntries _) hsorted hkeep hports
  rw [hoffer]
  exact congrArg (fun m ↦ some (t.sight s n', m)) hhanded.symm

theorem handedOver_sinkStep (hids : t.engine.graph.UniqueIds)
    (hmade : t.engine.graph.MadeFrom s n d) :
    handedOver t.engine.graph (t.sinkStep s).1.events ≤
      handedOver t.engine.graph t.events + t.offered s := by
  rw [handedOver, sinkCalls_sinkStep, List.map_append, List.sum_append]
  cases hover : t.handOver? s with
  | none => simp [handedOver]
  | some call =>
    obtain ⟨found, hoffer⟩ := handed_of_handOver? hids hmade hover
    simp [handedOver, offered, hoffer]

/-- What trips the watchdog is not handed over. -/
theorem handedOver_of_verdict? (h : (t.verdict? s).isSome) :
    handedOver g (t.sinkStep s).1.events = handedOver g t.events := by
  rw [handedOver, sinkCalls_sinkStep, handOver?, if_pos h]
  simp [handedOver]

/-- **The sink pass stays within the ceiling**, whether or not it ends with a report. -/
theorem handedOver_sinkPass {steps : List PlanStep} (hids : g.UniqueIds)
    (hmade : ∀ s ∈ steps, ∃ n d, g.MadeFrom s n d) (hgraph : t.engine.graph = g)
    (hcount : handedOver g t.events ≤ t.engine.watchdog.burstCount)
    (hceiling : t.engine.watchdog.burstCount ≤ t.engine.watchdog.config.burstCeiling) :
    handedOver g (t.sinkPass steps).1.events ≤ t.engine.watchdog.config.burstCeiling := by
  induction steps generalizing t with
  | nil => exact hcount.trans hceiling
  | cons s rest ih =>
    obtain ⟨n, d, hs⟩ := hmade s List.mem_cons_self
    have hverdict := t.sinkStep_snd s
    have hburst := t.burstCount_sinkStep s
    have hthresholds := (Touches.sinkStep t s).keeps.thresholds
    have hsame := t.graph_sinkStep s
    subst hgraph
    have hover := handedOver_sinkStep hids hs
    rw [sinkPass]
    split
    next t' report heq =>
      -- The report keeps the last offer from being handed over.
      have hnone := handedOver_of_verdict? (g := t.engine.graph) (t := t) (s := s)
        (by rw [← hverdict, heq]; rfl)
      rw [heq] at hnone
      rw [hnone]
      exact hcount.trans hceiling
    next t' heq =>
      rw [heq] at hverdict hburst hthresholds hsame hover
      dsimp only at hverdict hburst hthresholds hsame hover
      have hle := le_ceiling_of_verdict? hverdict.symm hceiling
      rw [← hthresholds] at hle ⊢
      exact ih (fun s' hs' ↦ hmade s' (List.mem_cons_of_mem _ hs')) hsame (by omega) (by omega)

end Tick

/-! ### The tick -/

namespace Engine

variable {e : Engine} {plan : Plan} {now : Float}

/-- The graph between the passes of a tick. -/
def graphBetween (e : Engine) (now : Float) : Graph :=
  match e.graph.compile with
  | .ok plan => (e.underway plan now plan.steps).engine.graph
  | .error _ => e.graph

/-- The watchdog trips in the tick at this time, on the offer of a step that is followed by the
others given: all steps before it have passed. -/
def TripsAt (e : Engine) (now : Float) (s : PlanStep) (after : List PlanStep)
    (report : HaltReport) : Prop :=
  ∃ plan before t, e.graph.compile = .ok plan ∧ plan.steps = before ++ s :: after ∧
    (e.underway plan now plan.steps).sinkPass before = (t, none) ∧ t.Trips s report

/-- Between the passes nothing has been delivered. -/
theorem events_underway (e : Engine) (plan : Plan) (now : Float) (done : List PlanStep) :
    sinkCalls (e.underway plan now done).events = [] ∧
      ∃ calls : List HookCall, (e.underway plan now done).events = calls.map .called := by
  have htouches : Tick.Touches done _ _ (e.underway plan now done) := .computePass _ done
  exact ⟨htouches.sinkCalls_eq (by simp), htouches.exists_calls ⟨[], rfl⟩⟩

/-- A sink pass that trips ends at once. -/
theorem sinkPass_of_trips {t₀ t : Tick} {before : List PlanStep} {s : PlanStep}
    {report : HaltReport} (hpass : t₀.sinkPass before = (t, none)) (htrips : t.Trips s report)
    (after : List PlanStep) :
    t₀.sinkPass (before ++ s :: after) = ((t.sinkStep s).1, some report) := by
  rw [Tick.sinkPass_append hpass, Tick.sinkPass_of_verdict? (Tick.verdict?_eq_some_iff.2 htrips)]

/-- A tick over a plan whose sink pass ends with a report. -/
theorem runPlan_of_report {t : Tick} {report : HaltReport} {delta : Float}
    (h : (e.computed plan now delta).sinkPass plan.steps = (t, some report)) :
    e.runPlan plan now delta = ({ t.engine.stop.1 with halted := some report }, .halted report,
      t.events ++ (t.engine.stop.2 ++ [.halted report])) := by
  rw [runPlan, h]
  rfl

/-- A stop with its report delivers nothing. -/
theorem sinkCalls_stop (e : Engine) (report : HaltReport) :
    sinkCalls (e.stop.2 ++ [.halted report]) = [] := by
  obtain ⟨calls, hstop, hcalls⟩ := e.stop_snd
  rw [sinkCalls_append, hstop, sinkCalls_eq_nil fun call hcall ↦ by simp [hcalls call hcall]]
  rfl

/-- What follows the passes of a tick hands nothing over. -/
theorem handedOver_stop (g : Graph) (e : Engine) (events : List Event) (report : HaltReport) :
    handedOver g (events ++ (e.stop.2 ++ [.halted report])) = handedOver g events := by
  rw [handedOver, sinkCalls_append, sinkCalls_stop, List.append_nil]
  rfl

/-- The count of deliveries begins at nothing, under the configured ceiling. -/
theorem Reachable.watchdog_underway (h : e.Reachable) (plan : Plan) (now : Float)
    (done : List PlanStep) :
    (e.underway plan now done).engine.watchdog.burstCount = 0 ∧
      (e.underway plan now done).engine.watchdog.config = e.config.watchdog := by
  rw [e.watchdog_underway]
  exact ⟨rfl, h.thresholds⟩

/-- What a tick over a plan hands over stays within the ceiling. -/
theorem handedOver_runPlan (h : e.Reachable) (hcompile : e.graph.compile = .ok plan) :
    handedOver (e.underway plan now plan.steps).engine.graph
      ((e.readied plan now).runPlan plan now (e.sinceLast now)).2.2 ≤
        e.config.watchdog.burstCeiling := by
  have hskel : (e.underway plan now plan.steps).engine.graph.skeleton = e.graph.skeleton :=
    (e.keeps_underway plan now plan.steps).skeleton
  have hmade : ∀ s ∈ plan.steps, ∃ n d,
      (e.underway plan now plan.steps).engine.graph.MadeFrom s n d := by
    intro s hs
    obtain ⟨n, d, hmade⟩ := Graph.exists_madeFrom hcompile hs
    obtain ⟨n', hmade', -⟩ := hmade.congr hskel
    exact ⟨n', d, hmade'⟩
  obtain ⟨hcount, hthresholds⟩ := h.watchdog_underway plan now plan.steps
  have hnothing : handedOver (e.underway plan now plan.steps).engine.graph
      (e.underway plan now plan.steps).events = 0 := by
    rw [handedOver, (e.events_underway plan now plan.steps).1]
    rfl
  have hpass := Tick.handedOver_sinkPass (h.uniqueIds.congr hskel) hmade rfl
    (hnothing.trans_le (Nat.zero_le _)) (hcount.trans_le (Nat.zero_le _))
  rw [hthresholds] at hpass
  obtain ⟨t, report, heq, hrun⟩ | ⟨t, heq, hrun⟩ :=
    (e.readied plan now).runPlan_cases plan now (e.sinceLast now)
  · have hevents := congrArg (fun r ↦ r.1.events) heq
    rw [hrun, handedOver_stop]
    exact hevents ▸ hpass
  · have hevents := congrArg (fun r ↦ r.1.events) heq
    have hticked : sinkCalls [.ticked t.info] = [] := rfl
    rw [hrun, handedOver, sinkCalls_append, hticked, List.append_nil]
    exact hevents ▸ hpass

/-- What a tick hands over stays within the ceiling, completed or halted. -/
theorem handedOver_tickAt (h : e.Reachable) (now : Float) :
    handedOver (e.graphBetween now) (e.tickAt now).2.2 ≤ e.config.watchdog.burstCeiling := by
  cases hrunning : e.running with
  | false =>
    rw [tickAt_of_not_running hrunning]
    exact Nat.zero_le _
  | true =>
    obtain ⟨error, hcompile, heq⟩ | ⟨plan, hcompile, heq⟩ :=
      tickAt_eq_runPlan h.planSound hrunning now
    · rw [heq, halt_eq]
      have hstop := handedOver_stop (e.graphBetween now) (e.atTime now) [] (compileReport error)
      rw [List.nil_append] at hstop
      rw [hstop]
      exact Nat.zero_le _
    · rw [heq, graphBetween, hcompile]
      exact handedOver_runPlan h hcompile

/-- A tick that completes has offered no more than the ceiling. -/
theorem offeredIn_le_of_completed (h : e.Reachable) (hcompile : e.graph.compile = .ok plan)
    {info : TickInfo} (htick : (e.tickAt now).2.1 = .completed info) :
    (e.underway plan now plan.steps).offeredIn plan.steps ≤ e.config.watchdog.burstCeiling := by
  obtain ⟨hcount, hthresholds⟩ := h.watchdog_underway plan now plan.steps
  obtain ⟨plan', t, hcompile', hpass, -, -⟩ :=
    exists_of_completed h.planSound (tickAt_eq_of_outcome htick)
  obtain rfl : plan = plan' := Except.ok.inj (hcompile.symm.trans hcompile')
  have hbound := Tick.le_ceiling_of_sinkPass (congrArg Prod.snd hpass)
    (hcount.trans_le (Nat.zero_le _))
  have hall := (e.underway plan now plan.steps).burstCount_sinkPass plan.steps
  rw [hcount, Nat.zero_add] at hall
  rw [← hall, ← hthresholds]
  exact hbound

/-- A step that trips the watchdog hands nothing over. -/
theorem sinkCalls_of_trips {t : Tick} {s : PlanStep} {report : HaltReport}
    (htrips : t.Trips s report) : sinkCalls (t.sinkStep s).1.events = sinkCalls t.events := by
  have hnone : t.handOver? s = none := by
    rw [Tick.handOver?, Tick.verdict?_eq_some_iff.2 htrips]
    rfl
  rw [Tick.sinkCalls_sinkStep, hnone, Option.toList_none, List.append_nil]

/-- The tick that trips, taken apart: it ends with the step that trips, and then the engine
stops. -/
theorem tickAt_eq_of_trips (h : e.Reachable) (hrunning : e.running = true)
    (hcompile : e.graph.compile = .ok plan) {before after : List PlanStep} {s : PlanStep}
    (hsplit : plan.steps = before ++ s :: after) {t : Tick}
    (hpass : (e.underway plan now plan.steps).sinkPass before = (t, none)) {report : HaltReport}
    (htrips : t.Trips s report) :
    e.tickAt now = ({ (t.sinkStep s).1.engine.stop.1 with halted := some report },
      .halted report, (t.sinkStep s).1.events ++
        ((t.sinkStep s).1.engine.stop.2 ++ [.halted report])) := by
  have htripped := sinkPass_of_trips hpass htrips after
  rw [← hsplit] at htripped
  rw [tickAt_eq_runPlan_of_compile h.planSound hrunning hcompile, runPlan_of_report htripped]

/-- **A tick that trips**: the engine stops without outputs, the host is told once, and neither the
node at hand nor a later one has been delivered to. -/
theorem tickAt_of_tripsAt (h : e.Reachable) (hrunning : e.running = true) {s : PlanStep}
    {after : List PlanStep} {report : HaltReport} (htrips : e.TripsAt now s after report) :
    ∃ (e' : Engine) (calls : List HookCall),
      e.tickAt now = (e', .halted report, calls.map .called ++ [.halted report]) ∧
      (∀ call ∈ calls, call.hook = .sink →
        call.context.node ∉ (s :: after).map PlanStep.node) ∧
      e'.running = false ∧ ∀ v ∈ e'.graph.nodes, v.outputValues = [] := by
  obtain ⟨plan, before, t, hcompile, hsplit, hpass, htrip⟩ := htrips
  have hstep := Tick.Touches.sinkStep t s
  obtain ⟨hbefore, -⟩ := Tick.Touches.of_sinkPass hpass
  obtain ⟨hnothing, hcalls⟩ := e.events_underway plan now plan.steps
  obtain ⟨calls, hevents⟩ := hstep.exists_calls (hbefore.exists_calls hcalls)
  obtain ⟨stopped, hstop, hdisable⟩ := (t.sinkStep s).1.engine.stop_snd
  have hrun := tickAt_eq_of_trips h hrunning hcompile hsplit hpass htrip
  rw [hevents, hstop, ← List.append_assoc, ← List.map_append] at hrun
  have hrunning' : (t.sinkStep s).1.engine.running = true := by
    rw [hstep.keeps.running, hbefore.keeps.running]
    exact (e.keeps_underway plan now plan.steps).running.trans hrunning
  refine ⟨_, _, hrun, fun call hcall hsink hmem ↦ ?_, stop_of_running hrunning'⟩
  -- Cleanups deliver nothing, so the call is one of the sink pass, and of a step before the last.
  have hcall' : call ∈ sinkCalls t.events := by
    rw [← sinkCalls_of_trips htrip, hevents, mem_sinkCalls]
    rcases List.mem_append.1 hcall with hcall | hcall
    · exact ⟨List.mem_map_of_mem hcall, hsink⟩
    · simp [hdisable call hcall] at hsink
  have hnodup := Graph.nodup_node_steps h.uniqueIds hcompile
  rw [hsplit, List.map_append] at hnodup
  exact List.disjoint_of_nodup_append hnodup (hbefore.node_mem hnothing hcall') hmem

/-- **The watchdog fails closed.** In a tick in which one of its checks trips, the node at hand and
all later nodes are not delivered to; the engine stops, the host is told once, and nothing happens
any more until a start succeeds. In any tick, what is handed over stays within the ceiling, and a
tick that is about to deliver more than that does not complete. -/
theorem fails_closed (h : e.Reachable) (now : Float) :
    (e.running = true → ∀ s after report, e.TripsAt now s after report →
      ∃ (e' : Engine) (calls : List HookCall),
      e.tickAt now = (e', .halted report, calls.map .called ++ [.halted report]) ∧
        (∀ call ∈ calls, call.hook = .sink →
          call.context.node ∉ (s :: after).map PlanStep.node) ∧
        e'.running = false ∧ (∀ v ∈ e'.graph.nodes, v.outputValues = []) ∧
        ∀ later, e'.NoStart later → (e'.run later).2 = []) ∧
    handedOver (e.graphBetween now) (e.tickAt now).2.2 ≤ e.config.watchdog.burstCeiling ∧
    ∀ plan, e.graph.compile = .ok plan →
      e.config.watchdog.burstCeiling < (e.underway plan now plan.steps).offeredIn plan.steps →
        ∀ info, (e.tickAt now).2.1 ≠ .completed info := by
  refine ⟨fun hrunning s after report htrips ↦ ?_, handedOver_tickAt h now,
    fun plan hcompile hexceeds info htick ↦ ?_⟩
  · obtain ⟨e', calls, heq, hsinks, hstopped, houtputs⟩ := tickAt_of_tripsAt h hrunning htrips
    exact ⟨e', calls, heq, hsinks, hstopped, houtputs,
      fun later hstart ↦ (run_of_not_running hstopped hstart).1⟩
  · exact absurd (offeredIn_le_of_completed h hcompile htick) (by omega)

/-- The dimmer with two lamps on the wire, under a ceiling of one value for each tick. -/
def crowdedEngine : Engine where
  graph := { sampleGraph with
    nodes := sampleGraph.nodes ++ [{ id := "d", type := "lamp" }]
    connections := sampleGraph.connections ++ [⟨"bd", "b", "out", "d", "in"⟩] }
  config := { watchdog := { WatchdogConfig.default with burstCeiling := 1 } }
  watchdog := { config := { WatchdogConfig.default with burstCeiling := 1 } }

theorem reachable_crowdedEngine : crowdedEngine.Reachable := by
  have hload : Graph.load sampleCatalog crowdedEngine.graph.snapshot .strict =
      .ok (crowdedEngine.graph, {}) := rfl
  have hnew : Engine.new crowdedEngine.graph crowdedEngine.config = .ok crowdedEngine := rfl
  exact .new (.load hload) hnew

/-- The second lamp is one value too many. -/
theorem tripsAt_crowdedEngine : ∃ s after, s.node = "d" ∧
    (crowdedEngine.call .start).1.TripsAt 0.0 s after (Watchdog.burstReport 1 "d" 2) := by
  refine ⟨_, _, ?_, _, _, _, rfl, (List.take_append_drop 2 _).symm, rfl, _, _, rfl, .inl rfl⟩
  rfl

/-- The engine with two lamps halts on its first tick. -/
theorem fails_closed_crowdedEngine : ∃ (e' : Engine) (calls : List HookCall),
    (crowdedEngine.call .start).1.tickAt 0.0 = (e', .halted (Watchdog.burstReport 1 "d" 2),
      calls.map .called ++ [.halted (Watchdog.burstReport 1 "d" 2)]) ∧ e'.running = false := by
  obtain ⟨s, after, -, htrips⟩ := tripsAt_crowdedEngine
  obtain ⟨e', calls, htick, -, hstopped, -⟩ :=
    (fails_closed (reachable_crowdedEngine.call .start) 0.0).1 rfl s after _ htrips
  exact ⟨e', calls, htick, hstopped⟩

end Engine

end CueFlow
