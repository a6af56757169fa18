import CueFlow.Proofs.Engine.Record
import CueFlow.Proofs.Engine.Sight
/-!
# Sink hooks are called exactly when something changed

A visit of a sink node calls its hook exactly if it is the first since the last cleanup of the node,
or finds anything else than the visit before it (`sink_idempotence`). The engine decides by a
snapshot that it keeps between visits. What the snapshot should be is written down beside the engine
(`Sightings`), from the compute inputs as they were last resolved, the config in force, and the
values at the sources of the connections; the invariant `Sightings.Of` says that it is.

A first visit and one that finds another setting hand over all that they find
(`Front.exists_handsOver`). What this means is said of the inputs of the call, port by port
(`HookCall.HandsOver`).
-/

namespace CueFlow

/-! ### What a visit should find -/

/-- A call of a sink hook hands over all that a visit finds. Its input at a point of delivery is the
value that was gathered there, or else the default. As a whole its inputs are the compute inputs
overlaid with these, which also says what is given under an id that several inputs share. -/
structure HookCall.HandsOver (call : HookCall) (d : NodeDefinition) (found : Sight) : Prop where
  gathered : (d.inputs.map Port.id).Nodup → ∀ p ∈ d.sinkInputs,
    call.inputs.get? p.id = some ((found.gathered p.id).getD p.default)
  inputs : ∃ full, (∀ port, KeyMap.get? full port = found.gathered port) ∧
    call.inputs = sinkInputsFor d found.inputs full
  config : call.config = found.config

/-- What has been seen of a node. -/
structure Sightings where
  /-- The compute inputs as they were last resolved. -/
  resolved : Option ValueMap := none
  /-- What the last visit since the last cleanup found. -/
  last : Option Sight := none

/-- The compute inputs of a node that were never resolved: the stored values, or the defaults. -/
def standingInputs (n : Node) (d : NodeDefinition) : ValueMap :=
  KeyMap.ofEntries (d.computeInputs.map fun p ↦ (p.id, (n.inputValues.get? p.id).getD p.default))

namespace Engine

variable (e : Engine) (now : Float) (n : Node) (d : NodeDefinition)

/-- The compute inputs of a node as they are last resolved by the end of the next compute pass. -/
def resolvedBy (past : Sightings) : Option ValueMap :=
  if e.computes n.id then some ((e.atTime now).inputsOf (e.graphBetween now) n d)
  else past.resolved

/-- What a visit in the next tick should find. -/
def sightIn (past : Sightings) : Sight where
  inputs := (e.resolvedBy now n d past).getD (standingInputs n d)
  config := (e.atTime now).effectiveConfig n
  gathered := (e.graphBetween now).gathered? n.id

end Engine

/-- How what has been seen of a node is written down. A cleanup, be it of a node that is disabled or
of one that has nothing connected, puts an end to what was seen before. -/
def sightings : Recorder Sightings where
  fresh := {}
  stopped _ _ _ := {}
  halted _ _ _ _ := {}
  completed e now n past :=
    match e.graph.catalog.get? n.type with
    | some d => {
        resolved := e.resolvedBy now n d past
        last :=
          if e.cleansUp n.id then none
          else if e.visits n.id then some (e.sightIn now n d past)
          else past.last }
    | none => past

/-- The memory of a node holds what has been seen of it. -/
structure Sightings.Of (e : Engine) (v : NodeId) (past : Sightings) : Prop where
  resolved : (e.memoryOf v).lastInputs = past.resolved
  /-- Inputs are resolved for the compute inputs of the definition and no others. -/
  inputs : ∀ d, e.graph.definitionOf? v = some d → ∀ m, past.resolved = some m →
    ∃ f : Port → Value, m = KeyMap.ofEntries (d.computeInputs.map fun p ↦ (p.id, f p))
  last : ∀ d, e.graph.definitionOf? v = some d → d.hasSinkInputs = true →
    past.last = (e.memoryOf v).sinkSnapshot.map SinkSnapshot.shown
  connected : (e.memoryOf v).sinkSnapshot.isSome → (e.memoryOf v).sinkConnected = true

/-! ### What a visit finds -/

/-- A visit finds the inputs as they were last resolved, if they ever were. -/
theorem visitInputs_eq {d : NodeDefinition} {n : Node} {memory : NodeMemory}
    (h : ∀ m, memory.lastInputs = some m →
      ∃ f : Port → Value, m = KeyMap.ofEntries (d.computeInputs.map fun p ↦ (p.id, f p))) :
    visitInputs d n memory = memory.lastInputs.getD (standingInputs n d) := by
  rw [visitInputs]
  cases hinputs : memory.lastInputs with
  | none => rfl
  | some m =>
    obtain ⟨f, rfl⟩ := h m hinputs
    refine (congrArg KeyMap.ofEntries (List.map_congr_left fun p _ ↦ ?_)).trans
      (ofEntries_map_ports d.computeInputs f fun p ↦ (n.inputValues.get? p.id).getD p.default)
    rw [Option.getD_some, Option.getD_or]

namespace Engine

variable {e e' : Engine} {now : Float} {n : Node} {plan : Plan} {before after : List PlanStep}
  {s : PlanStep} {d : NodeDefinition} {t : Tick} {past : Sightings}

/-- What is resolved is resolved for the compute inputs of the definition. -/
theorem exists_of_resolvedBy (hpast : past.Of e n.id) (hd : e.graph.definitionOf? n.id = some d)
    {m : ValueMap} (h : e.resolvedBy now n d past = some m) :
    ∃ f : Port → Value, m = KeyMap.ofEntries (d.computeInputs.map fun p ↦ (p.id, f p)) := by
  rw [resolvedBy] at h
  split at h
  · obtain rfl := Option.some.inj h
    exact ⟨_, rfl⟩
  · exact hpast.inputs d hd m h

/-- **A visit finds what it should.** -/
theorem Front.shown_sight (h : e.Front now n plan before s after d t) (he : e.Reachable)
    (hpast : past.Of e n.id) {n' : Node} (hn' : t.engine.graph.nodes[s.index]? = some n') :
    (t.sight s n').shown = e.sightIn now n d past := by
  have hids := he.uniqueIds
  have hnode := h.made.node_eq
  have hd : e.graph.definitionOf? n.id = some d := by
    rw [Graph.definitionOf?, Graph.node?_of_getElem? hids h.made.1]
    exact h.made.2.1
  have hskel : t.engine.graph.skeleton = e.graph.skeleton := h.keeps.skeleton
  obtain ⟨n'', hmade', hid⟩ := h.made.congr hskel
  have hinputs : (t.engine.memoryOf s.node).lastInputs = e.resolvedBy now n d past := by
    rw [hnode, h.lastInputs hids, hpast.resolved, resolvedBy]
  obtain rfl := Option.some.inj ((h.node hids).symm.trans hn')
  have hstanding : (t.engine.memoryOf s.node).lastInputs = none →
      (e.nodeIn now (e.graphBetween now) n d).inputValues = n.inputValues := by
    -- Nothing was resolved, so the computation has not run and has stored nothing.
    intro hnone
    rw [hinputs, resolvedBy] at hnone
    rw [nodeIn, storedIn]
    cases hcomputes : e.computes n.id with
    | true =>
      rw [hcomputes] at hnone
      cases hnone
    | false => rfl
  rw [Tick.sight, SinkSnapshot.shown, sightIn, Sight.mk.injEq]
  refine ⟨?_, ?_, funext fun port ↦ ?_⟩
  · rw [h.made.definition_eq, visitInputs_eq fun m hm ↦
      exists_of_resolvedBy hpast hd (hinputs.symm.trans hm), ← hinputs]
    cases hlast : (t.engine.memoryOf s.node).lastInputs with
    | some m => rfl
    | none =>
      rw [Option.getD_none, Option.getD_none, standingInputs, hstanding hlast]
      rfl
  · rw [effectiveConfig, h.keeps.overrides]
    rfl
  · rw [Graph.get?_gather (hids.congr hskel) hmade', hid, h.graphBetween_eq]

/-! ### The invariant -/

/-- **A completed tick leaves in memory what has been seen of a node.** -/
theorem Turn.sinkMemoryOf_eq {events : List Event} (hturn : e.Turn e' events n.id s d t)
    (h : e.Front now n plan before s after d t) (he : e.Reachable) (hpast : past.Of e n.id) :
    (d.hasSinkInputs = true →
      (if e.cleansUp n.id then none
        else if e.visits n.id then some (e.sightIn now n d past) else past.last) =
        (e'.memoryOf n.id).sinkSnapshot.map SinkSnapshot.shown) ∧
    ((e'.memoryOf n.id).sinkSnapshot.isSome → (e'.memoryOf n.id).sinkConnected = true) := by
  have hids : e'.graph.UniqueIds := he.uniqueIds.congr hturn.skeleton
  have hattended := hturn.attended?_isSome
  have hmemory : ((e'.memoryOf n.id).sinkSnapshot, (e'.memoryOf n.id).sinkConnected) =
      e'.sinkMemoryOf n.id := rfl
  cases hvisits : e.visits n.id with
  | true =>
    obtain ⟨n', hvisited⟩ := hturn.exists_visited hids hvisits
    rw [hturn.memory_of_visited hvisited] at hmemory
    obtain ⟨hsnapshot, hconnected⟩ := Prod.mk.inj hmemory
    rw [not_cleansUp_of_visits hvisits, hsnapshot, hconnected]
    refine ⟨fun _ ↦ ?_, fun _ ↦ rfl⟩
    rw [Option.map_some, h.shown_sight he hpast (Tick.nodes_of_visited? hvisited)]
    rfl
  | false =>
    cases hnode : e.policy.node n.id with
    | false =>
      have hnone : (e'.memoryOf n.id).sinkSnapshot = none := hturn.memory_of_disabled hnode
      have hcleans : e.cleansUp n.id = true := by
        rw [cleansUp, hnode]
        rfl
      rw [hcleans, hnone]
      exact ⟨fun _ ↦ rfl, fun hsome ↦ absurd hsome Bool.false_ne_true⟩
    | true =>
      cases hfound : t.attended? s with
      | none =>
        rw [hturn.memory_of_not_attended hnode hfound] at hmemory
        obtain ⟨hsnapshot, hconnected⟩ := Prod.mk.inj hmemory
        rw [hsnapshot, hconnected]
        refine ⟨fun hpoints ↦ ?_, hpast.connected⟩
        rw [hfound, hpoints, Bool.true_and] at hattended
        have hcleans : e.cleansUp n.id = false := by
          rw [cleansUp, hnode, ← hattended]
          rfl
        rw [hcleans]
        exact hpast.last d hturn.definition hpoints
      | some n' =>
        rw [hfound, Option.isSome_some, eq_comm, Bool.and_eq_true] at hattended
        rw [visits, hattended.2, Bool.true_and] at hvisits
        have hcleans : e.cleansUp n.id = true := by
          rw [cleansUp, hnode, hattended.2, hvisits]
          rfl
        -- If nothing was connected before either, there was no visit to forget.
        have hnone : (e'.memoryOf n.id).sinkSnapshot = none := by
          rw [hturn.memory_of_unplugged hids hnode hvisits hfound] at hmemory
          split at hmemory
          · exact (Prod.mk.inj hmemory).1
          next hconnected =>
            rw [(Prod.mk.inj hmemory).1, ← Option.not_isSome_iff_eq_none]
            exact fun hsome ↦ hconnected (hpast.connected hsome)
        rw [hcleans, hnone]
        exact ⟨fun _ ↦ rfl, fun hsome ↦ absurd hsome Bool.false_ne_true⟩

/-- A completed tick carries on what has been seen of a node. -/
theorem Front.sightings_completed (h : e.Front now n plan before s after d t) (he : e.Reachable)
    (hpast : past.Of e n.id) {info : TickInfo} {events : List Event}
    (htick : e.tickAt now = (e', .completed info, events)) :
    (sightings.completed e now n past).Of e' n.id := by
  obtain ⟨hgraph, hmemory⟩ := h.completed he htick
  have hcall := h.call he (running_of_completed htick)
  rw [htick] at hcall
  have hturn : e.Turn e' events n.id s d t := by
    refine h.turn he hgraph ?_ hcall
    rw [sinkMemoryOf, hmemory, sinkMemoryOf]
  have hd := hturn.definition
  have hsame : ∀ d', e'.graph.definitionOf? n.id = some d' → d' = d := by
    intro d' hd'
    rw [Graph.definitionOf?_congr hturn.skeleton, hd] at hd'
    exact (Option.some.inj hd').symm
  obtain ⟨hlast, hconnected⟩ := hturn.sinkMemoryOf_eq h he hpast
  have hentry : sightings.completed e now n past = {
      resolved := e.resolvedBy now n d past
      last :=
        if e.cleansUp n.id then none
        else if e.visits n.id then some (e.sightIn now n d past)
        else past.last } := by
    show (match e.graph.catalog.get? n.type with | some d => _ | none => _) = _
    rw [h.made.2.1]
  rw [hentry]
  refine ⟨?_, fun d' hd' m hm ↦ ?_, fun d' hd' hpoints ↦ ?_, hconnected⟩
  · have hstep := congrArg Prod.snd (t.computeMemoryOf_sinkStep s)
    have hinputs := h.lastInputs he.uniqueIds
    rw [h.made.node_eq] at hstep
    rw [hmemory]
    refine (hstep.trans hinputs).trans ?_
    rw [hpast.resolved]
    rfl
  · obtain rfl := hsame d' hd'
    exact exists_of_resolvedBy hpast hd hm
  · obtain rfl := hsame d' hd'
    exact hlast hpoints

end Engine

/-- Of a node of which nothing is remembered, nothing has been seen. -/
theorem Sightings.of_fresh {e : Engine} {v : NodeId} (hmemory : e.memoryOf v = {}) :
    Sightings.Of e v {} := by
  refine ⟨?_, fun d _ m hm ↦ ?_, fun d _ _ ↦ ?_, fun hsome ↦ ?_⟩
  · rw [hmemory]
  · cases hm
  · rw [hmemory]
    rfl
  · rw [hmemory] at hsome
    cases hsome

/-- **The memory of every node holds what has been seen of it.** -/
theorem sightings_maintains : sightings.Maintains fun e v past ↦ past.Of e v where
  created := Sightings.of_fresh
  kept h hmemory hdefinition _ := by
    refine ⟨?_, ?_, ?_, ?_⟩
    · rw [hmemory]
      exact h.resolved
    · rw [hdefinition]
      exact h.inputs
    · rw [hmemory, hdefinition]
      exact h.last
    · rw [hmemory]
      exact h.connected
  stopped := by
    intro e n past he hrunning hn h
    refine Sightings.of_fresh ?_
    rw [Engine.memoryOf, Engine.memory_stop_of_running hrunning]
    rfl
  halted := by
    intro e e' n past now report events he htick hn h
    refine Sightings.of_fresh ?_
    rw [Engine.memoryOf, Engine.memory_of_halted (Engine.running_of_halted htick) htick]
    rfl
  completed := by
    intro e e' n past now info events he htick hn h
    obtain ⟨plan, hcompile, -⟩ := Engine.passes_of_completed he htick
    obtain ⟨before, s, after, d, t, hfront⟩ := Engine.exists_front hcompile hn
      fun s after report htrips ↦ absurd htrips (Engine.not_tripsAt_of_completed he htick)
    exact hfront.sightings_completed he h htick

/-! ### The result -/

namespace Engine

variable {e : Engine} {now : Float} {r : NodeId → Sightings} {n : Node} {plan : Plan}
  {before after : List PlanStep} {s : PlanStep} {d : NodeDefinition} {t : Tick} {past : Sightings}

/-- The call of the sink hook on a visit is what comes of comparing it with the visit before. -/
theorem Front.exists_sight (h : e.Front now n plan before s after d t) (he : e.Reachable)
    (hrunning : e.running = true) (hpast : past.Of e n.id) (hsink : d.sink.isSome)
    (hvisits : e.visits n.id = true) :
    ∃ (found : SinkSnapshot) (previous : Option SinkSnapshot),
      found.shown = e.sightIn now n d past ∧ found.sinkValues.Sorted ∧
      past.last = previous.map SinkSnapshot.shown ∧
      t.offer? s = (delivery? previous found).map (fun delivered ↦ (found, delivered)) ∧
      sinkCallFor? (e.tickAt now).2.2 n.id = (delivery? previous found).map fun delivered ↦
        ⟨.sink, sinkInputsFor d found.computeInputs delivered, found.config, t.context s.node⟩ := by
  have hcall := h.call he hrunning
  have hturn : e.Turn (t.sinkStep s).1.engine (e.tickAt now).2.2 n.id s d t :=
    h.turn he (t.graph_sinkStep s) rfl hcall
  obtain ⟨n', hvisited⟩ := hturn.exists_visited (he.uniqueIds.congr hturn.skeleton) hvisits
  have hpoints : d.hasSinkInputs = true := by
    have hattended := hturn.attended?_isSome
    rw [Tick.attended?_of_visited? hvisited, Option.isSome_some, eq_comm,
      Bool.and_eq_true] at hattended
    exact hattended.1
  have hoffer := Tick.offer?_eq hvisited
  rw [hturn.snapshot_eq (hturn.enabled_of_visited hvisited)] at hoffer
  refine ⟨t.sight s n', (e.memoryOf n.id).sinkSnapshot,
    h.shown_sight he hpast (Tick.nodes_of_visited? hvisited), Graph.sorted_gather s _, ?_, hoffer,
    ?_⟩
  · exact hpast.last d hturn.definition hpoints
  · obtain ⟨hook, hhook⟩ := Option.isSome_iff_exists.1 hsink
    rw [hcall, Tick.handOver?, h.verdict, hoffer, h.made.definition_eq, hhook]
    cases delivery? (e.memoryOf n.id).sinkSnapshot (t.sight s n') with
    | none => rfl
    | some delivered => rfl

/-- **A first visit and one that finds another setting hand over all that they find.** -/
theorem Front.exists_handsOver (h : e.Front now n plan before s after d t) (he : e.Reachable)
    (hrunning : e.running = true) (hpast : past.Of e n.id) (hsink : d.sink.isSome)
    (hvisits : e.visits n.id = true) (hnew : past.last = none ∨
      ∃ last, past.last = some last ∧ last.NewSetting (e.sightIn now n d past)) :
    ∃ call, sinkCallFor? (e.tickAt now).2.2 n.id = some call ∧
      call.HandsOver d (e.sightIn now n d past) := by
  obtain ⟨found, previous, hfound, -, hlast, -, hcall⟩ :=
    h.exists_sight he hrunning hpast hsink hvisits
  have hwhole : delivery? previous found = some found.sinkValues := by
    refine delivery?_of_newSetting ?_
    rintro last rfl
    rw [hfound]
    simpa [hlast] using hnew
  rw [hwhole] at hcall
  rw [← hfound]
  exact ⟨_, hcall, fun hports p hp ↦ get?_sinkInputsFor_of_nodup hports _ _ hp,
    ⟨found.sinkValues, fun _ ↦ rfl, rfl⟩, rfl⟩

/-- **A sink hook is called exactly when something changed.** Take any run, any tick and any node
with a sink hook that is visited in it, with no watchdog tripping by then. The hook is called if and
only if this is the first visit since the last cleanup of the node, or finds another setting than
the visit before it, or something else on some port. On a first visit and with another setting, all
that is gathered is handed over. A visit without a call leaves the watchdog as it is. -/
theorem sink_idempotence (h : sightings.Kept e r) (hrunning : e.running = true)
    (hcompile : e.graph.compile = .ok plan) (hn : n ∈ e.graph.nodes)
    (hd : e.graph.catalog.get? n.type = some d) (hsink : d.sink.isSome)
    (hvisits : e.visits n.id = true) (hpassed : ∀ s after report,
      e.TripsAt now s after report → n.id ∉ (s :: after).map PlanStep.node) :
    ((sinkCallFor? (e.tickAt now).2.2 n.id).isSome ↔ (r n.id).last = none ∨
      ∃ last, (r n.id).last = some last ∧ last.Differs (e.sightIn now n d (r n.id))) ∧
    (((r n.id).last = none ∨ ∃ last, (r n.id).last = some last ∧
        last.NewSetting (e.sightIn now n d (r n.id))) →
      ∃ call, sinkCallFor? (e.tickAt now).2.2 n.id = some call ∧
        call.HandsOver d (e.sightIn now n d (r n.id))) ∧
    (sinkCallFor? (e.tickAt now).2.2 n.id = none → ∃ before s after t,
      plan.steps = before ++ s :: after ∧ s.node = n.id ∧
      (e.underway plan now plan.steps).sinkPass before = (t, none) ∧
      (t.sinkStep s).1.engine.watchdog = t.engine.watchdog) := by
  have he := h.reachable
  obtain ⟨before, s, after, d', t, hfront⟩ := exists_front hcompile hn hpassed
  obtain rfl : d' = d := Option.some.inj (hfront.made.2.1.symm.trans hd)
  have hpast := h.holds sightings_maintains hn
  obtain ⟨found, previous, hfound, hsorted, hlast, hoffer, hcall⟩ :=
    hfront.exists_sight he hrunning hpast hsink hvisits
  refine ⟨?_, hfront.exists_handsOver he hrunning hpast hsink hvisits,
    fun hnone ↦ ⟨before, s, after, t, hfront.split, hfront.made.node_eq, hfront.pass, ?_⟩⟩
  · rw [hcall, ← hfound, hlast, Option.isSome_map, delivery?_isSome_iff hsorted]
    cases previous with
    | none => simp
    | some last => simp
  · rw [hcall, Option.map_eq_none_iff] at hnone
    rw [hnone] at hoffer
    exact Tick.watchdog_of_offer? hoffer

/-- The engine with the dimmer and the lamp after its first tick. -/
def litEngine : Engine := (sampleEngine.run [.start, .tick 0.0]).1

/-- The dimmer stands still, so the second tick does not call the lamp, and the watchdog does not
learn of it. -/
theorem sink_idempotence_litEngine : ∃ plan before s after t,
    litEngine.graph.compile = .ok plan ∧ plan.steps = before ++ s :: after ∧ s.node = "c" ∧
      (litEngine.underway plan 40.0 plan.steps).sinkPass before = (t, none) ∧
      (t.sinkStep s).1.engine.watchdog = t.engine.watchdog := by
  have hload : Graph.load sampleCatalog sampleGraph.snapshot .strict = .ok (sampleGraph, {}) := rfl
  have hnew : Engine.new sampleGraph {} = .ok sampleEngine := rfl
  have hkept : sightings.Kept litEngine _ :=
    ((Recorder.Kept.new (.load hload) hnew).call .start).call (.tick 0.0)
  have htick : litEngine.tickAt 40.0 = ((litEngine.tickAt 40.0).1,
      .completed { tick := 1, timeMs := 40.0, computed := 3, sinkCalls := 0 },
      (litEngine.tickAt 40.0).2.2) := rfl
  obtain ⟨n, hn, hid, d, hd, hsink⟩ : ∃ n ∈ litEngine.graph.nodes, n.id = "c" ∧
      ∃ d, litEngine.graph.catalog.get? n.type = some d ∧ d.sink.isSome :=
    ⟨_, .tail _ (.tail _ (.head _)), rfl, _, rfl, rfl⟩
  obtain ⟨plan, hcompile⟩ : ∃ plan, litEngine.graph.compile = .ok plan := ⟨_, rfl⟩
  obtain ⟨-, -, hquiet⟩ := sink_idempotence hkept rfl hcompile hn hd hsink (hid ▸ rfl)
    fun s after report htrips ↦ absurd htrips (not_tripsAt_of_completed hkept.reachable htick)
  rw [hid] at hquiet
  obtain ⟨before, s, after, t, hpass⟩ := hquiet rfl
  exact ⟨plan, before, s, after, t, hcompile, hpass⟩

end Engine

end CueFlow
