import CueFlow.Proofs.Engine.Questions
import CueFlow.Proofs.Engine.HookCalls
import CueFlow.Proofs.Graph.Setting
/-!
# What a completed tick computes with

A tick calls `process` once for every node that computes and for no other, with the inputs and the
config that the dataflow equations speak of. This is so whatever the calls come to
(`processCallsFor_underway`), and whether the tick is completed (`processCallsFor_of_completed`) or
halts later (`processCallsFor_tickAt`).

What a node computes with depends on its setting alone, and not on which defaults have been stored
before (`get?_inputsOf`). The compute pass may store defaults, but it leaves every setting as it is
(`resembles_graphBetween`, `resembles_of_completed`).
-/

namespace CueFlow

/-- The calls of `process` for a node among some events. -/
def processCallsFor (events : List Event) (v : NodeId) : List HookCall :=
  (callsFor events v).filter fun call ↦ call.hook = .process

variable {v : NodeId}

theorem processCallsFor_append (xs ys : List Event) :
    processCallsFor (xs ++ ys) v = processCallsFor xs v ++ processCallsFor ys v := by
  rw [processCallsFor, callsFor_append, List.filter_append, processCallsFor, processCallsFor]

theorem processCallsFor_eq_nil {calls : List HookCall} (h : ∀ call ∈ calls, call.hook ≠ .process) :
    processCallsFor (calls.map .called) v = [] := by
  rw [processCallsFor, List.filter_eq_nil_iff]
  intro call hcall
  obtain ⟨event, hevent, hfor⟩ := List.mem_filterMap.1 hcall
  obtain ⟨made, hmade, rfl⟩ := List.mem_map.1 hevent
  rw [Event.callFor?] at hfor
  split at hfor
  next =>
    obtain rfl := Option.some.inj hfor
    simpa using h made hmade
  next => cases hfor

namespace Tick

variable {s : PlanStep} {hooks : List HookKind} {t t' : Tick} {n : Node}

/-- What calls other hooks only calls no `process`. -/
theorem Touches.processCallsFor_eq {steps : List PlanStep} (h : Touches steps hooks t t')
    (hhooks : .process ∉ hooks) : processCallsFor t'.events v = processCallsFor t.events v := by
  obtain ⟨calls, hevents, hcalls⟩ := h.events
  have hnone : processCallsFor (calls.map .called) v = [] :=
    processCallsFor_eq_nil fun call hcall heq ↦ hhooks (heq ▸ (hcalls call hcall).2)
  rw [hevents, processCallsFor_append, hnone, List.append_nil]

/-- A step of the compute pass calls `process` if it computes, and then once. -/
theorem processCallsFor_computeStep (hn : t.engine.graph.nodes[s.index]? = some n) :
    processCallsFor (t.computeStep s).events s.node = processCallsFor t.events s.node ++
      if t.computes s then
        [⟨.process, t.engine.resolveInputs s n, t.engine.effectiveConfig n, t.context s.node⟩]
      else [] := by
  rw [computeStep, computes]
  cases t.engine.policy.node s.node with
  | false =>
    rw [if_neg Bool.false_ne_true, Bool.false_and, if_neg Bool.false_ne_true, List.append_nil]
    have hbypass : Touches [s] [.disable] t (t.bypass s) := .bypass (by simp) t s
    exact hbypass.processCallsFor_eq (by simp)
  | true =>
    have hallowed : (t.enable s).computeAllowed s.node = t.computeAllowed s.node := rfl
    have hasked : ((t.enable s).noteAsked s.node).engine.graph.nodes[s.index]? = some n := hn
    rw [if_pos rfl, Bool.true_and, computeEnabled, hallowed]
    cases t.computeAllowed s.node with
    | false =>
      rw [if_neg Bool.false_ne_true, if_neg Bool.false_ne_true, List.append_nil]
      rfl
    | true =>
      have hevents : (((t.enable s).noteAsked s.node).process s n).events = t.events ++
          [.called ⟨.process, t.engine.resolveInputs s n, t.engine.effectiveConfig n,
            t.context s.node⟩] := by
        rw [process]
        split
        · rfl
        · rfl
      rw [if_pos rfl, if_pos rfl, hasked]
      dsimp only
      rw [hevents, processCallsFor_append]
      simp [processCallsFor, callsFor, Event.callFor?, context]

end Tick

namespace Graph

/-- A connection into a compute input feeds. -/
theorem feeds_source_of_feed? {g : Graph} {port : String} {c : Connection}
    (h : g.feed? v port = some c) : g.Feeds c.source v := by
  obtain ⟨-, hkind, htarget, -⟩ := feeds_of_feed? h
  have hmem := (List.mem_filter.1 (List.mem_of_find?_eq_some h)).1
  obtain ⟨p, hp, hkind⟩ := Option.any_eq_true _ _ |>.1 hkind
  exact ⟨c, hmem, rfl, htarget, p, hp, by simpa using hkind⟩

/-- What arrives at an input is up to the connections into compute inputs and to the outputs of the
nodes that feed it. -/
theorem upstream?_of_connectionsInto {g h : Graph}
    (hinto : h.connectionsInto .compute = g.connectionsInto .compute)
    (houtputs : ∀ u, g.Feeds u v →
      (h.node? u).map Node.outputValues = (g.node? u).map Node.outputValues) (port : String) :
    h.upstream? v port = g.upstream? v port := by
  refine upstream?_of_feed? hinto fun c hc ↦ ?_
  have hread : ∀ k : Graph, k.outputOf? c.source c.sourcePort =
      ((k.node? c.source).map Node.outputValues).bind fun outputs ↦ outputs.get? c.sourcePort := by
    intro k
    rw [outputOf?, Option.bind_map]
    rfl
  rw [hread, houtputs c.source (feeds_source_of_feed? hc), hread]

/-- In graphs with one skeleton, it is up to the outputs of these nodes alone. -/
theorem upstream?_congr {g h : Graph} (hskel : h.skeleton = g.skeleton)
    (houtputs : ∀ u, g.Feeds u v →
      (h.node? u).map Node.outputValues = (g.node? u).map Node.outputValues) (port : String) :
    h.upstream? v port = g.upstream? v port := by
  refine upstream?_of_connectionsInto ?_ houtputs port
  rw [← skeleton_connectionsInto, hskel, skeleton_connectionsInto]

end Graph

namespace Engine

variable {e e' : Engine} {events : List Event} {now : Float} {n : Node} {d : NodeDefinition}

/-! ### Inputs by look-up -/

/-- **The inputs of a node**, by look-up: an active override, else the value at the source, else
what the input falls back on. -/
theorem get?_inputsOf {g : Graph} (hd : g.catalog.get? n.type = some d) (e : Engine) (h : Graph)
    (port : String) : (e.inputsOf h n d).get? port = (d.defaults.get? port).bind fun _ ↦
      (e.overrides.input? n.id port).or ((h.upstream? n.id port).or (g.restingInput? n port)) := by
  have hentries : (d.computeInputs.map fun p ↦ (p.id, e.inputOf h n p)) =
      (d.computeInputs.map fun p ↦ (p.id, p.default)).map fun entry ↦
        (entry.1, ((e.overrides.input? n.id entry.1).or
          ((h.upstream? n.id entry.1).or (n.inputValues.get? entry.1))).getD entry.2) := by
    rw [List.map_map]
    rfl
  rw [inputsOf, KeyMap.ofEntries, KeyMap.get?_overlay, hentries, ← List.map_reverse,
    KeyMap.get?_map_snd, NodeDefinition.defaults, KeyMap.ofEntries, KeyMap.get?_overlay,
    KeyMap.get?_nil, Option.or_none, Option.or_none, Graph.restingInput?, hd, Option.bind_some,
    NodeDefinition.defaults, KeyMap.ofEntries, KeyMap.get?_overlay, KeyMap.get?_nil, Option.or_none]
  cases KeyMap.get? (d.computeInputs.map fun p ↦ (p.id, p.default)).reverse port with
  | none => rfl
  | some x =>
    rw [Option.map_some, Option.bind_some, ← Option.or_some, Option.or_assoc, Option.or_assoc]

/-- A computation finds nothing at an input: no override is active there, and nothing arrives in the
given graph. -/
structure FindsNothing (e : Engine) (now : Float) (g : Graph) (v : NodeId) (port : String) :
    Prop where
  computes : e.computes v = true
  override : (e.atTime now).overrides.input? v port = none
  upstream : g.upstream? v port = none

/-- **What a tick stores**, by look-up: where a computation finds nothing and nothing is stored, the
declared default. -/
theorem get?_storedIn (e : Engine) (now : Float) (g : Graph) (n : Node) (d : NodeDefinition)
    (port : String) :
    (e.FindsNothing now g n.id port → (e.storedIn now g n d).get? port =
      (n.inputValues.get? port).or (d.defaults.get? port)) ∧
    (¬ e.FindsNothing now g n.id port →
      (e.storedIn now g n d).get? port = n.inputValues.get? port) := by
  rw [storedIn]
  split
  next hcomputes =>
    have hdefault : d.defaults.get? port =
        KeyMap.get? (d.computeInputs.map fun p ↦ (p.id, p.default)).reverse port := by
      rw [NodeDefinition.defaults, KeyMap.ofEntries, KeyMap.get?_overlay, KeyMap.get?_nil,
        Option.or_none]
    -- Which defaults are stored is decided by the names of the inputs.
    obtain ⟨keep, hkeep⟩ : ∃ keep : String → Bool, ∀ k, keep k =
        (((e.atTime now).overrides.input? n.id k).or
          ((g.upstream? n.id k).or (n.inputValues.get? k))).isNone := ⟨_, fun _ ↦ rfl⟩
    have hfilter : ((d.computeInputs.filter fun p ↦ keep p.id).map fun p ↦ (p.id, p.default)) =
        (d.computeInputs.map fun p ↦ (p.id, p.default)).filter fun entry ↦ keep entry.1 := by
      rw [List.filter_map]
      rfl
    have hnone : keep port = true ↔
        e.FindsNothing now g n.id port ∧ n.inputValues.get? port = none := by
      rw [hkeep, Option.isNone_iff_eq_none, Option.or_eq_none_iff, Option.or_eq_none_iff]
      constructor
      · rintro ⟨ho, hu, hs⟩
        exact ⟨⟨hcomputes, ho, hu⟩, hs⟩
      · rintro ⟨h, hs⟩
        exact ⟨h.override, h.upstream, hs⟩
    simp only [← hkeep]
    rw [hfilter, KeyMap.get?_overlay, ← List.filter_reverse, KeyMap.get?_filter_fst, ← hdefault]
    refine ⟨fun hfinds ↦ ?_, fun hfinds ↦ ?_⟩
    · cases hstored : n.inputValues.get? port with
      | none => rw [if_pos (hnone.2 ⟨hfinds, hstored⟩), Option.or_none, Option.none_or]
      | some x => rw [if_neg fun hk ↦ by simp [(hnone.1 hk).2] at hstored]; rfl
    · rw [if_neg fun hk ↦ hfinds (hnone.1 hk).1, Option.none_or]
  next hcomputes => exact ⟨fun h ↦ absurd h.computes hcomputes, fun _ ↦ rfl⟩

/-- Storing the defaults that a node falls back on leaves its setting as it is. -/
theorem settingOf_nodeIn (e : Engine) (now : Float) (g : Graph)
    (hd : e.graph.catalog.get? n.type = some d) :
    e.graph.settingOf (e.nodeIn now g n d) = e.graph.settingOf n := by
  refine congrArg (NodeSetting.mk n.config) (funext fun port ↦ ?_)
  have hdefault : (e.graph.catalog.get? n.type).bind (fun d ↦ d.defaults.get? port) =
      d.defaults.get? port := by
    rw [hd, Option.bind_some]
  obtain ⟨hfinds, hnot⟩ := e.get?_storedIn now g n d port
  show ((e.storedIn now g n d).get? port).or ((e.graph.catalog.get? n.type).bind _) =
    (n.inputValues.get? port).or _
  rw [hdefault]
  by_cases h : e.FindsNothing now g n.id port
  · rw [hfinds h, Option.or_assoc, Option.or_self]
  · rw [hnot h]

/-! ### Calls of `process` -/

/-- The call of `process` for a node that computes, given the graph between the passes. -/
def processCall (e : Engine) (now : Float) (g : Graph) (n : Node) (d : NodeDefinition) : HookCall :=
  ⟨.process, (e.atTime now).inputsOf g n d, (e.atTime now).effectiveConfig n,
    ⟨n.id, e.tick, now, e.sinceLast now⟩⟩

/-- **The compute pass calls `process` once for a node that computes**, whatever it has come to for
other nodes. -/
theorem processCallsFor_underway {plan : Plan} (hids : e.graph.UniqueIds)
    (hcompile : e.graph.compile = .ok plan) (now : Float) (hn : n ∈ e.graph.nodes)
    (hd : e.graph.catalog.get? n.type = some d) :
    processCallsFor (e.underway plan now plan.steps).events n.id =
      if e.computes n.id then
        [e.processCall now (e.underway plan now plan.steps).engine.graph n d]
      else [] := by
  obtain ⟨s, hs, d', hmade⟩ := Graph.exists_madeFrom_of_mem hcompile hn
  obtain rfl : d' = d := Option.some.inj (hmade.2.1.symm.trans hd)
  obtain ⟨before, after, hsplit⟩ := List.append_of_mem hs
  have hnode := hmade.node_eq
  have hnodup := Graph.nodup_node_steps hids hcompile
  have hplaces := Graph.nodup_index_steps hcompile
  rw [hsplit] at hnodup hplaces
  obtain ⟨hpasses, hbefore⟩ := Tick.callsFor_computePass
    (t := (e.readied plan now).beginTick now (e.sinceLast now)) hnodup
  have hfound : (e.underway plan now before).engine.graph.nodes[s.index]? = some n :=
    (Tick.nodes_computePass hplaces hmade.1).1
  have hstep := Tick.processCallsFor_computeStep hfound
  have hfirst : processCallsFor (e.underway plan now before).events s.node = [] := by
    rw [processCallsFor, underway, hbefore]
    rfl
  have hconfig : (e.underway plan now before).engine.effectiveConfig n =
      (e.atTime now).effectiveConfig n := by
    rw [effectiveConfig, (e.keeps_underway plan now before).overrides]
    rfl
  have hwhole : processCallsFor (e.underway plan now plan.steps).events s.node =
      processCallsFor ((e.underway plan now before).computeStep s).events s.node := by
    rw [processCallsFor, processCallsFor, hsplit]
    exact congrArg (List.filter _) hpasses
  rw [← hnode, hwhole, hstep, hfirst, List.nil_append, hnode,
    computes_underway hids hcompile hsplit hmade, resolveInputs_underway hids hcompile hsplit hmade,
    hconfig, context_underway, processCall]

/-- **A tick calls `process` once for every node that computes**, also if it halts later. -/
theorem processCallsFor_tickAt {plan : Plan} (h : e.Reachable) (hrunning : e.running = true)
    (hcompile : e.graph.compile = .ok plan) (now : Float) (hn : n ∈ e.graph.nodes)
    (hd : e.graph.catalog.get? n.type = some d) : processCallsFor (e.tickAt now).2.2 n.id =
      if e.computes n.id then [e.processCall now (e.graphBetween now) n d] else [] := by
  have hsink : processCallsFor (e.passes now).2 n.id =
      processCallsFor (e.underway plan now plan.steps).events n.id := by
    rw [passes_of_compile hcompile]
    exact (Tick.Touches.sinkPass _ plan.steps).processCallsFor_eq (by simp)
  have hpasses :
      processCallsFor (e.tickAt now).2.2 n.id = processCallsFor (e.passes now).2 n.id := by
    obtain ⟨report, heq⟩ | ⟨plan, info, -, heq⟩ := tickAt_eq_passes h.planSound hrunning now
    · obtain ⟨calls, hstop, hdisable⟩ := (e.passes now).1.stop_snd
      have hstopped : processCallsFor (e.passes now).1.stop.2 n.id = [] := by
        rw [hstop]
        exact processCallsFor_eq_nil fun call hcall ↦ by simp [hdisable call hcall]
      have hlast : processCallsFor [.halted report] n.id = [] := rfl
      rw [heq, processCallsFor_append, processCallsFor_append, hstopped, hlast, List.append_nil,
        List.append_nil]
    · have hlast : processCallsFor [.ticked info] n.id = [] := rfl
      rw [heq, processCallsFor_append, hlast, List.append_nil]
  rw [hpasses, hsink, processCallsFor_underway h.uniqueIds hcompile now hn hd,
    graphBetween_of_compile hcompile]

/-- **The compute pass leaves every setting as it is.** -/
theorem resembles_graphBetween (h : e.Reachable) (now : Float) :
    (e.graphBetween now).Resembles e.graph := by
  have hskel := e.skeleton_graphBetween now
  cases hcompile : e.graph.compile with
  | error error =>
    rw [graphBetween, hcompile]
    exact .refl _
  | ok plan =>
    have hgraph : e.graphBetween now = (e.underway plan now plan.steps).engine.graph :=
      graphBetween_of_compile hcompile
    refine ⟨hskel, ?_, fun v ↦ ?_⟩
    · rw [hgraph, underway, Tick.version_computePass]
      rfl
    · have hcatalog := Graph.catalog_congr hskel
      have hsome := Graph.isSome_node?_congr hskel v
      rw [Graph.setting?, Graph.setting?]
      cases hn : e.graph.node? v with
      | none =>
        rw [hn, Option.isSome_none, Option.isSome_eq_false_iff, Option.isNone_iff_eq_none] at hsome
        rw [hsome]
        rfl
      | some n =>
        obtain ⟨d, hd, hleft⟩ :=
          node?_underway h.uniqueIds hcompile now (List.mem_of_find?_eq_some hn)
        rw [Graph.id_of_node? hn, ← hgraph] at hleft
        rw [hleft, Option.map_some, Option.map_some,
          ← settingOf_nodeIn e now (e.graphBetween now) hd]
        refine congrArg (fun f ↦ some (NodeSetting.mk n.config f)) (funext fun port ↦ ?_)
        rw [Graph.restingInput?, hcatalog]
        rfl

/-! ### After a completed tick -/

/-- What the engine `e'` has in common with `e` if it is what a completed tick has left. -/
structure CompletedBy (e' e : Engine) (now : Float) : Prop where
  config : e'.config = e.config
  running : e'.running = e.running
  policy : e'.policy = e.policy
  overrides : e'.overrides = (e.atTime now).overrides
  tick_eq : e'.tick = e.tick + 1
  lastTickMs : e'.lastTickMs = some now

section Completed

variable (h : e.Reachable) {info : TickInfo}
  (htick : e.tickAt now = (e', .completed info, events))

include h htick

/-- What no pass changes, and the overrides that have not expired. -/
theorem completedBy_of_completed : e'.CompletedBy e now := by
  obtain ⟨plan, t, -, hpass, rfl, -⟩ := exists_of_completed h.planSound htick
  have hkeeps := (keeps_sinkPass hpass).1
  exact ⟨hkeeps.config, hkeeps.running, hkeeps.policy, hkeeps.overrides,
    congrArg (· + 1) hkeeps.tick, hkeeps.lastTickMs⟩

/-- **A completed tick leaves every setting as it is.** -/
theorem resembles_of_completed : e'.graph.Resembles e.graph := by
  obtain ⟨plan, hcompile, hgraph⟩ := graph_of_completed h.planSound htick
  rw [hgraph, ← graphBetween_of_compile hcompile]
  exact resembles_graphBetween h now

/-- **A completed tick calls `process` once for a node that computes.** -/
theorem processCallsFor_of_completed (hn : n ∈ e.graph.nodes)
    (hd : e.graph.catalog.get? n.type = some d) : processCallsFor events n.id =
      if e.computes n.id then [⟨.process, (e.atTime now).inputsOf e'.graph n d,
        (e.atTime now).effectiveConfig n, ⟨n.id, e.tick, now, e.sinceLast now⟩⟩]
      else [] := by
  obtain ⟨plan, t, hcompile, hpass, rfl, rfl⟩ := exists_of_completed h.planSound htick
  have hgraph : t.engine.graph = (e.underway plan now plan.steps).engine.graph :=
    (keeps_sinkPass hpass).2
  have hsink : processCallsFor t.events n.id =
      processCallsFor (e.underway plan now plan.steps).events n.id :=
    (Tick.Touches.of_sinkPass hpass).1.processCallsFor_eq (by simp)
  have hlast : processCallsFor [.ticked info] n.id = [] := rfl
  rw [processCallsFor_append, hlast, List.append_nil, hsink,
    processCallsFor_underway h.uniqueIds hcompile now hn hd, ← hgraph]
  rfl

/-- It calls nothing for a node that does not exist. -/
theorem processCallsFor_of_not_mem (hv : v ∉ e.graph.nodes.map Node.id) :
    processCallsFor events v = [] := by
  obtain ⟨plan, t, hcompile, hpass, rfl, rfl⟩ := exists_of_completed h.planSound htick
  have hnone := not_mem_steps hcompile hv
  have hcompute := (Tick.Touches.computePass
    ((e.readied plan now).beginTick now (e.sinceLast now)) plan.steps).callsFor_eq hnone
  have hsink := (Tick.Touches.of_sinkPass hpass).1.callsFor_eq hnone
  rw [processCallsFor, callsFor_append, hsink, underway, hcompute]
  rfl

end Completed

end Engine

end CueFlow
