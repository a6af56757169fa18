import CueFlow.Proofs.Engine.CallResult
import CueFlow.Proofs.Engine.Computation
import CueFlow.Proofs.Engine.Muted
import CueFlow.Proofs.Graph.Padding
import CueFlow.Proofs.Watchdog.Oscillation
/-!
# Engines whose bundles are padded

An engine is a padded version of another (`Engine.Padded`) if its graph is one and both agree in all
that a tick decides by: policy, questions, time, overrides, and what the watchdog has observed. They
may remember other deliveries, since bundles with a modulated command in them change more often.

No call but a tick can tell such engines apart; there is one lemma for each. Of a tick, the compute
pass leaves padded graphs again (`Padded.graphBetween`), as long as the padded outputs lead into no
compute input: by induction along the plan, a node is fed what is spared, so it computes with the
same inputs, and what it puts out is padded and nothing else (`Padded.rel_dataflow`).
-/

namespace CueFlow

namespace Graph

variable {F : Recasting} {g h : Graph}

/-! ### Settings and hooks -/

@[simp]
theorem recast_defaults (F : Recasting) (d : NodeDefinition) : (F d).defaults = d.defaults := by
  rw [NodeDefinition.defaults, NodeDefinition.recast_computeInputs, NodeDefinition.defaults]

@[simp]
theorem recast_passPairs (F : Recasting) (d : NodeDefinition) : (F d).passPairs = d.passPairs := by
  rw [NodeDefinition.passPairs, NodeDefinition.recast_computeInputs, F.outputs_eq,
    NodeDefinition.passPairs]

/-- What an input falls back on is up to the node and to the declared defaults, and to no hook. -/
theorem recast_restingInput? (F : Recasting) (g : Graph) (n : Node) (port : String) :
    (g.recast F).restingInput? n port = g.restingInput? n port := by
  rw [restingInput?, recast_catalog_get?, Option.bind_map, restingInput?]
  simp only [Function.comp_def, recast_defaults]

/-- Settings do not hang on the hooks. -/
theorem Resembles.recast (hr : h.Resembles g) (F : Recasting) :
    (h.recast F).Resembles (g.recast F) where
  skeleton := congrArg (Graph.recast F) hr.skeleton
  version := hr.version
  setting v := by
    have hsetting : ∀ k : Graph, (k.recast F).setting? v = k.setting? v := by
      intro k
      rw [setting?, recast_node?, setting?]
      refine congrArg (Option.map · (k.node? v)) (funext fun n ↦ ?_)
      exact congrArg (NodeSetting.mk n.config) (funext (k.recast_restingInput? F n))
    rw [hsetting, hr.setting, hsetting]

end Graph

namespace Engine

variable {continuous : List String} {pad : Padding continuous} {e e' f f' : Engine} {now : Float}

/-- The engine `f` is the engine `e` with padded outputs. What the two remember of deliveries may
differ. -/
structure Padded (pad : Padding continuous) (f e : Engine) : Prop where
  graph : f.graph.Padded pad e.graph
  config : f.config = e.config
  overrides : f.overrides = e.overrides
  policy : f.policy = e.policy
  asked : ∀ v, f.askedOf v = e.askedOf v
  running : f.running = e.running
  tick_eq : f.tick = e.tick
  lastTickMs : f.lastTickMs = e.lastTickMs
  thresholds : f.watchdog.config = e.watchdog.config
  observed : ∀ v port, f.watchdog.observed v port = e.watchdog.observed v port

namespace Padded

section

variable (h : f.Padded pad e)

include h

/-! ### Calls -/

/-- A change of the graph that pads it again pads the engine. The plans do not matter. -/
theorem withGraph {g g' : Graph} (hgraph : g'.Padded pad g) (plan plan' : Option Plan) :
    ({ f with graph := g', plan := plan' } : Engine).Padded pad { e with graph := g, plan } :=
  { h with graph := hgraph }

/-- The overrides that a tick finds expired are the same in both. -/
theorem atTime (now : Float) : (f.atTime now).Padded pad (e.atTime now) :=
  { h with
    overrides := congrArg (OverrideStore.expire · now) h.overrides
    lastTickMs := rfl }

/-- If a call is refused in both or pads what it makes, the engines are padded after it. -/
theorem orStay {x y : Except EngineError Engine} (hxy : Agree (Padded pad) x y) :
    (f.orStay x).Padded pad (e.orStay y) := by
  cases hxy with
  | ok hnext => exact hnext
  | error => exact h

/-- An edit takes the same overrides and the same history with it in both. -/
theorem forgetRemoved (edit : GraphEdit) :
    (f.forgetRemoved edit).Padded pad (e.forgetRemoved edit) := by
  rw [Engine.forgetRemoved, Engine.forgetRemoved]
  cases edit.removedNode? with
  | none => exact h
  | some node =>
    exact { h with
      overrides := congrArg (OverrideStore.clearNode · node) h.overrides
      observed := fun v port ↦ by
        show (f.watchdog.forget node).observed v port = (e.watchdog.forget node).observed v port
        rw [Watchdog.observed_forget, h.observed, Watchdog.observed_forget] }

/-- A load succeeds in both with padded graphs, or is refused in both. -/
theorem load (state : GraphState) :
    Agree (fun loaded' loaded : Engine × LoadReport ↦ loaded'.1.Padded pad loaded.1)
      (f.load state) (e.load state) := by
  have hcatalog : f.graph.catalog = e.graph.catalog.recast pad.recasting :=
    Graph.catalog_congr h.graph.resembles.skeleton
  rw [Engine.load, Engine.load, hcatalog, Graph.load_recast, h.config]
  cases Graph.load e.graph.catalog state e.config.loadPolicy with
  | error error => exact .error error error
  | ok loaded =>
    exact .ok { h with
      graph := .recast pad loaded.1
      config := rfl
      overrides := rfl
      observed := fun _ _ ↦ rfl }

/-- A padded graph compiles exactly if the other one does, to steps with padded computations. -/
theorem compileNow : Agree (fun made' made : Engine × Plan ↦ made'.1.Padded pad made.1)
    f.compileNow e.compileNow := by
  rw [Engine.compileNow, h.graph.compile_eq, Engine.compileNow]
  cases e.graph.compile with
  | error error => exact .error error error
  | ok plan => exact .ok (h.withGraph h.graph (some plan) (some (plan.recast pad.recasting)))

/-- A start succeeds in both or is refused in both. -/
theorem start : Agree (Padded pad) f.start e.start :=
  h.compileNow.bind fun _ _ hmade ↦ .ok { hmade with
    running := rfl
    tick_eq := rfl
    lastTickMs := rfl
    observed := fun _ _ ↦ rfl }

/-- An edit is carried out in both or refused in both. -/
theorem applyEdit (edit : GraphEdit) :
    Agree (Padded pad) (f.applyEdit edit) (e.applyEdit edit) :=
  (h.graph.apply edit).bind fun _ _ hgraph ↦
    .ok ((h.withGraph hgraph e.plan f.plan).forgetRemoved edit)

/-- An edit that must keep the graph free of cycles is carried out in both or refused in both. -/
theorem tryEdit (edit : GraphEdit) : Agree (Padded pad) (f.tryEdit edit) (e.tryEdit edit) := by
  refine (h.graph.apply edit).bind fun g' g hgraph ↦ ?_
  split
  · rw [hgraph.compile_eq]
    cases g.compile with
    | error error => exact .error error error
    | ok plan =>
      exact .ok ((h.withGraph hgraph (some plan)
        (some (plan.recast pad.recasting))).forgetRemoved edit)
  · exact .ok ((h.withGraph hgraph e.plan f.plan).forgetRemoved edit)

/-- An override is accepted in both or refused in both: the engines have the same nodes. -/
theorem setOverride (node : NodeId) (kind : OverrideKind) (key : String) (value : Value)
    (lifetime : Option Float) (now : Float) :
    Agree (Padded pad) (f.setOverride node kind key value lifetime now)
      (e.setOverride node kind key value lifetime now) := by
  have hsome := h.graph.isSome_node? node
  rw [Engine.setOverride, Engine.setOverride]
  cases hn : e.graph.node? node with
  | none =>
    cases hm : f.graph.node? node with
    | none => exact .error _ _
    | some m => simp [hn, hm] at hsome
  | some n =>
    cases hm : f.graph.node? node with
    | none => simp [hn, hm] at hsome
    | some m =>
      exact .ok { h with
        overrides := congrArg (OverrideStore.set · node kind key value lifetime now) h.overrides }

theorem clearOverride (node : NodeId) (kind : OverrideKind) (key : String) :
    (f.clearOverride node kind key).1.Padded pad (e.clearOverride node kind key).1 :=
  { h with overrides := congrArg (OverrideStore.clear · node kind key) h.overrides }

/-- A stop clears all outputs, and with them the padding. -/
theorem stop : f.stop.1.Padded pad e.stop.1 := by
  rw [Engine.stop, h.running, Engine.stop]
  split
  · exact { h with
      graph := h.graph.clearOutputs
      running := rfl
      observed := fun _ _ ↦ rfl }
  · exact h

/-- A halt is a stop with a report. -/
theorem halt (report : HaltReport) :
    ({ f.stop.1 with halted := some report } : Engine).Padded pad
      { e.stop.1 with halted := some report } :=
  { h.stop with }

end

/-! ### The compute pass -/

section Compute

variable (h : f.Padded pad e) (he : e.Reachable) (hf : f.Reachable)
  (hspares : ∀ c ∈ e.graph.connectionsInto .compute, pad.Spares c.source c.sourcePort)

include h in
/-- What feeds a node is the same, so what it computes is padded and nothing else. -/
theorem rel_dataflow {n m : Node} {d : NodeDefinition} (hd : e.graph.catalog.get? n.type = some d)
    (hn : e.graph.node? n.id = some n) (hm : f.graph.node? n.id = some m) {g g' : Graph}
    (hupstream : ∀ port, g'.upstream? n.id port = g.upstream? n.id port) (now : Float)
    (port : String) :
    Option.Rel (pad.Pads n.id port) ((f.dataflow now g' m (pad.recasting d)).get? port)
      ((e.dataflow now g n d).get? port) := by
  obtain ⟨htype, hconfig, hresting⟩ := h.graph.resembles.node hn hm
  have hid : m.id = n.id := Graph.id_of_node? hm
  have hd' : f.graph.catalog.get? m.type = some (pad.recasting d) := by
    rw [Graph.catalog_congr h.graph.resembles.skeleton, htype, Graph.recast_catalog_get?, hd]
    rfl
  have hoverrides : (f.atTime now).overrides = (e.atTime now).overrides :=
    (h.atTime now).overrides
  have hinputs :
      (f.atTime now).inputsOf g' m (pad.recasting d) = (e.atTime now).inputsOf g n d := by
    refine KeyMap.Sorted.ext (KeyMap.sorted_ofEntries _) (KeyMap.sorted_ofEntries _) fun port ↦ ?_
    show ((f.atTime now).inputsOf g' m (pad.recasting d)).get? port =
      ((e.atTime now).inputsOf g n d).get? port
    rw [get?_inputsOf hd', get?_inputsOf hd, hoverrides, hid, hupstream, hresting,
      Graph.recast_restingInput?, Graph.recast_defaults]
  have heffective : (f.atTime now).effectiveConfig m = (e.atTime now).effectiveConfig n := by
    rw [effectiveConfig, hoverrides, hid, hconfig, effectiveConfig]
  have hbypassed : g'.bypassed n.id (pad.recasting d) = g.bypassed n.id d := by
    simp only [Graph.bypassed, Graph.recast_passPairs, hupstream]
  have hsince : f.sinceLast now = e.sinceLast now := by rw [sinceLast, h.lastTickMs, sinceLast]
  have hkept := h.graph.outputs n.id port
  rw [Graph.outputOf?, Graph.outputOf?, hn, hm] at hkept
  rw [dataflow, dataflow, hinputs, heffective, hid, hbypassed, h.policy, h.asked, h.tick_eq, hsince]
  cases e.policy.node n.id with
  | false => exact Padding.rel_refl _
  | true =>
    cases e.policy.compute n.id (e.askedOf n.id) with
    | false => exact .none
    | true =>
      rw [if_pos rfl, if_pos rfl, if_pos rfl, if_pos rfl]
      have hprocess : ∀ inputs config context, (pad.recasting d).process inputs config context =
          (d.process inputs config context).map
            (pad.outputs ⟨.process, inputs, config, context⟩) :=
        fun _ _ _ ↦ rfl
      rw [hprocess]
      cases d.process ((e.atTime now).inputsOf g n d) ((e.atTime now).effectiveConfig n)
          ⟨n.id, e.tick, now, e.sinceLast now⟩ with
      | ok outputs =>
        exact pad.rel_outputs ⟨.process, _, _, ⟨n.id, e.tick, now, e.sinceLast now⟩⟩ outputs port
      | error failure => exact hkept

include h he hf hspares in
/-- **The compute pass pads outputs and nothing else**, by induction along the plan: a node is fed
what is spared, so it computes with the same. -/
theorem graphBetween (now : Float) : (f.graphBetween now).Padded pad (e.graphBetween now) := by
  have hresembles := (resembles_graphBetween hf now).trans
    (h.graph.resembles.trans ((resembles_graphBetween he now).recast pad.recasting).symm)
  refine ⟨hresembles, fun v port ↦ ?_⟩
  have hcompile' := h.graph.compile_eq
  cases hcompile : e.graph.compile with
  | error error =>
    rw [hcompile] at hcompile'
    rw [Engine.graphBetween, hcompile', Engine.graphBetween, hcompile]
    exact h.graph.outputs v port
  | ok plan =>
    rw [hcompile] at hcompile'
    have hskel := e.skeleton_graphBetween now
    have hinto : (f.graphBetween now).connectionsInto .compute =
        (e.graphBetween now).connectionsInto .compute := by
      rw [← Graph.skeleton_connectionsInto, hresembles.skeleton, Graph.skeleton_connectionsInto,
        Graph.recast_connectionsInto]
    have hsome := Graph.isSome_node?_congr hresembles.skeleton v
    rw [Graph.recast_node?] at hsome
    cases hv : ((e.graphBetween now).node? v).isSome with
    | false =>
      rw [hv] at hsome
      rw [Option.isSome_eq_false_iff, Option.isNone_iff_eq_none] at hv hsome
      rw [Graph.outputOf?, hsome, Graph.outputOf?, hv]
      exact .none
    | true =>
      rw [Graph.isSome_node?_congr hskel] at hv
      refine Graph.induction_on_feeds he.uniqueIds he.sound hcompile
        (P := fun v ↦ ∀ port, Option.Rel (pad.Pads v port) ((f.graphBetween now).outputOf? v port)
          ((e.graphBetween now).outputOf? v port)) (fun v hv hfeeds port ↦ ?_) hv port
      have hupstream : ∀ port, (f.graphBetween now).upstream? v port =
          (e.graphBetween now).upstream? v port := by
        intro port
        refine Graph.upstream?_of_feed? hinto fun c hc ↦ ?_
        have hfeeds := hfeeds c.source
          ((Graph.feeds_congr hskel).1 (Graph.feeds_source_of_feed? hc)) c.sourcePort
        refine Padding.eq_of_rel hfeeds (hspares c ?_)
        rw [← Graph.skeleton_connectionsInto, ← hskel, Graph.skeleton_connectionsInto]
        exact List.mem_of_find?_eq_some hc
      obtain ⟨n, hn⟩ := Option.isSome_iff_exists.1 hv
      obtain ⟨m, hm⟩ := Option.isSome_iff_exists.1 ((h.graph.isSome_node? v).trans hv)
      obtain rfl := Graph.id_of_node? hn
      obtain ⟨d, hd, hleft⟩ :=
        node?_underway he.uniqueIds hcompile now (List.mem_of_find?_eq_some hn)
      obtain ⟨d', hd', hleft'⟩ :=
        node?_underway hf.uniqueIds hcompile' now (List.mem_of_find?_eq_some hm)
      obtain rfl : d' = pad.recasting d := by
        have hfound := Graph.catalog_congr h.graph.resembles.skeleton
        have htype := (h.graph.resembles.node hn hm).1
        rw [hfound, htype, Graph.recast_catalog_get?, hd] at hd'
        exact (Option.some.inj hd').symm
      rw [Graph.id_of_node? hm] at hleft'
      have hrel := h.rel_dataflow hd hn hm hupstream now port
      rw [Graph.outputOf?, graphBetween_of_compile hcompile', hleft', Graph.outputOf?,
        graphBetween_of_compile hcompile, hleft, ← graphBetween_of_compile hcompile,
        ← graphBetween_of_compile hcompile']
      exact hrel

end Compute

end Padded

end Engine

end CueFlow
