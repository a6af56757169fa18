import CueFlow.Proofs.Engine.CallResult
import CueFlow.Proofs.Engine.Computation
import CueFlow.Proofs.Engine.HeldOverrides
/-!
# Overrides leave no trace

An override changes what a node computes with, and thereby what the nodes behind it compute, and
which inputs have to fall back on their defaults; and a default that is fallen back on is stored in
the graph. Nothing else of it gets that far. An engine with overrides *overlays* one without
(`Engine.Overlays`) if both are set up alike, where a default counts as set whether it has been
stored or not. The same calls keep it so, and overrides may be set and cleared in between
(`Overlays.run`).

As soon as no override is active any more, a tick resolves all inputs from the same settings again.
By induction along the plan, every node is given the same inputs and has the same outputs as if
there never had been an override (`Overlays.outputs?_eq`).
-/

namespace CueFlow

/-- Whether a call sets or clears an override. -/
def HostCall.isOverride : HostCall → Bool
  | setOverride .. | clearOverride .. => true
  | _ => false

/-- The calls that neither set nor clear an override. -/
def withoutOverrides (calls : List HostCall) : List HostCall :=
  calls.filter fun c ↦ !c.isOverride

namespace Graph

/-- The graphs differ in nothing but outputs, and in which of the declared defaults are stored. -/
structure SameButDefaults (h g : Graph) : Prop where
  version : h.version = g.version
  connections : h.connections = g.connections
  ids : h.nodes.map Node.id = g.nodes.map Node.id
  node : ∀ v n m, g.node? v = some n → h.node? v = some m → m.type = n.type ∧ m.config = n.config
  stored : ∀ v n m d, g.node? v = some n → h.node? v = some m → g.catalog.get? n.type = some d →
    ∀ port, m.inputValues.get? port = n.inputValues.get? port ∨
      ∃ p ∈ d.computeInputs, p.id = port ∧
        (m.inputValues.get? port = some p.default ∧ n.inputValues.get? port = none ∨
          m.inputValues.get? port = none ∧ n.inputValues.get? port = some p.default)

variable {g h : Graph}

/-- A default is the default of an input. -/
theorem exists_of_defaults {d : NodeDefinition} {port : String} {x : Value}
    (hx : d.defaults.get? port = some x) :
    ∃ p ∈ d.computeInputs, p.id = port ∧ p.default = x := by
  rw [NodeDefinition.defaults, KeyMap.ofEntries, KeyMap.get?_overlay, KeyMap.get?_nil,
    Option.or_none] at hx
  obtain ⟨p, hp, heq⟩ := List.mem_map.1 (List.mem_reverse.1 (KeyMap.mem_of_get? hx))
  obtain ⟨rfl, rfl⟩ := Prod.mk.inj heq
  exact ⟨p, hp, rfl, rfl⟩

namespace Resembles

variable (hr : h.Resembles g)

include hr

/-- Graphs that resemble each other differ in which of the defaults are stored. -/
theorem sameButDefaults : h.SameButDefaults g where
  version := hr.version
  connections := connections_congr hr.skeleton
  ids := ids_congr hr.skeleton
  node v n m hn hm := ⟨(hr.node hn hm).1, (hr.node hn hm).2.1⟩
  stored v n m d hn hm hd port := by
    obtain ⟨htype, -, hresting⟩ := hr.node hn hm
    have hsame := hresting port
    rw [restingInput?, restingInput?, catalog_congr hr.skeleton, htype, hd, Option.bind_some]
      at hsame
    cases hstored : m.inputValues.get? port with
    | none =>
      cases hstored' : n.inputValues.get? port with
      | none => exact .inl rfl
      | some x =>
        rw [hstored, hstored'] at hsame
        obtain ⟨p, hp, hid, rfl⟩ := exists_of_defaults hsame
        exact .inr ⟨p, hp, hid, .inr ⟨rfl, rfl⟩⟩
    | some x =>
      cases hstored' : n.inputValues.get? port with
      | none =>
        rw [hstored, hstored'] at hsame
        obtain ⟨p, hp, hid, rfl⟩ := exists_of_defaults hsame.symm
        exact .inr ⟨p, hp, hid, .inl ⟨rfl, rfl⟩⟩
      | some y =>
        rw [hstored, hstored'] at hsame
        exact .inl hsame

end Resembles

end Graph

namespace Engine

/-- The engine `f` is set up like `e`, which has no overrides. -/
structure Overlays (f e : Engine) : Prop where
  graph : f.graph.Resembles e.graph
  config : f.config = e.config
  running : f.running = e.running
  policy : f.policy = e.policy
  asked : ∀ v, f.askedOf v = e.askedOf v
  tick_eq : f.tick = e.tick
  lastTickMs : f.lastTickMs = e.lastTickMs
  plain : e.overrides = {}

/-- Every computation of a node among some events has succeeded. -/
def ProcessesSucceed (e : Engine) (events : List Event) : Prop :=
  ∀ v d, e.graph.definitionOf? v = some d → ∀ call ∈ processCallsFor events v,
    succeeded (d.process call.inputs call.config call.context) = true

variable {e e' f f' : Engine} {events events' : List Event} {now : Float}

namespace Overlays

/-- An engine without overrides overlays itself. -/
theorem refl (hnone : e.overrides = {}) : e.Overlays e :=
  ⟨.refl _, rfl, rfl, rfl, fun _ ↦ rfl, rfl, rfl, hnone⟩

section

variable (h : f.Overlays e)

include h

/-- The plan does not matter. -/
theorem withGraph {g g' : Graph} (hgraph : g'.Resembles g) (plan plan' : Option Plan) :
    ({ f with graph := g', plan := plan' } : Engine).Overlays { e with graph := g, plan } :=
  ⟨hgraph, h.config, h.running, h.policy, h.asked, h.tick_eq, h.lastTickMs, h.plain⟩

/-- Whatever overrides there are, the engine is set up alike. -/
theorem withOverrides (overrides : OverrideStore Float) :
    ({ f with overrides } : Engine).Overlays e :=
  ⟨h.graph, h.config, h.running, h.policy, h.asked, h.tick_eq, h.lastTickMs, h.plain⟩

/-! ### Calls -/

theorem plain_atTime (now : Float) : (e.atTime now).overrides = {} := by
  show e.overrides.expire now = {}
  rw [h.plain]
  rfl

theorem compile_eq : f.graph.compile = e.graph.compile := Graph.compile_congr h.graph.skeleton

theorem forgetRemoved (edit : GraphEdit) :
    (f.forgetRemoved edit).Overlays (e.forgetRemoved edit) := by
  rw [Engine.forgetRemoved, Engine.forgetRemoved]
  cases edit.removedNode? with
  | none => exact h
  | some node =>
    have hcleared : e.overrides.clearNode node = {} := by
      rw [h.plain]
      rfl
    exact ⟨h.graph, h.config, h.running, h.policy, h.asked, h.tick_eq, h.lastTickMs, hcleared⟩

theorem load (state : GraphState) :
    Agree (fun loaded' loaded : Engine × LoadReport ↦ loaded'.1.Overlays loaded.1)
      (f.load state) (e.load state) := by
  rw [Engine.load, Engine.load, Graph.catalog_congr h.graph.skeleton, h.config]
  refine (Agree.refl _).bind fun _ loaded hloaded ↦ ?_
  subst hloaded
  exact .ok ⟨.refl _, rfl, h.running, h.policy, h.asked, h.tick_eq, h.lastTickMs, rfl⟩

theorem compileNow : Agree (fun made' made : Engine × Plan ↦ made'.1.Overlays made.1)
    f.compileNow e.compileNow := by
  rw [Engine.compileNow, h.compile_eq, Engine.compileNow]
  exact (Agree.refl _).bind fun plan' plan _ ↦ .ok (h.withGraph h.graph (some plan) (some plan'))

theorem start : Agree Overlays f.start e.start :=
  h.compileNow.bind fun _ _ hmade ↦
    .ok ⟨hmade.graph, hmade.config, rfl, hmade.policy, hmade.asked, rfl, rfl, hmade.plain⟩

theorem applyEdit (edit : GraphEdit) : Agree Overlays (f.applyEdit edit) (e.applyEdit edit) :=
  (h.graph.apply edit).bind fun _ _ hgraph ↦
    .ok ((h.withGraph hgraph e.plan f.plan).forgetRemoved edit)

theorem tryEdit (edit : GraphEdit) : Agree Overlays (f.tryEdit edit) (e.tryEdit edit) := by
  refine (h.graph.apply edit).bind fun g' g hgraph ↦ ?_
  split
  · rw [Graph.compile_congr hgraph.skeleton]
    exact (Agree.refl _).bind fun plan' plan _ ↦
      .ok ((h.withGraph hgraph (some plan) (some plan')).forgetRemoved edit)
  · exact .ok ((h.withGraph hgraph e.plan f.plan).forgetRemoved edit)

theorem stop : f.stop.1.Overlays e.stop.1 := by
  rw [Engine.stop, h.running, Engine.stop]
  split
  · exact ⟨(Graph.Resembles.clearOutputs _).trans
      (h.graph.trans (Graph.Resembles.clearOutputs _).symm), h.config, rfl, h.policy, h.asked,
      h.tick_eq, h.lastTickMs, h.plain⟩
  · exact h

theorem orStay {x y : Except EngineError Engine} (hxy : Agree Overlays x y) :
    (f.orStay x).Overlays (e.orStay y) := by
  cases hxy with
  | ok hnext => exact hnext
  | error => exact h

/-- A call that sets or clears an override makes no difference. -/
theorem call_override {c : HostCall} (hc : c.isOverride = true) : (f.call c).1.Overlays e := by
  cases c with
  | setOverride node kind key value lifetime now =>
    refine orStay_of (P := fun f' ↦ f'.Overlays e) h fun f' hset ↦ ?_
    obtain rfl := of_setOverride hset
    exact h.withOverrides _
  | clearOverride => exact h.withOverrides _
  | load | compile | applyEdit | tryEdit | setPolicy | start | stop | tick => cases hc

end

/-! ### Ticks -/

section Tick

variable (h : f.Overlays e) (he : e.Reachable) (hf : f.Reachable) {info info' : TickInfo}
  (htick : e.tickAt now = (e', .completed info, events))
  (htick' : f.tickAt now = (f', .completed info', events'))

include h he hf htick htick'

/-- **A completed tick keeps the engines set up alike**, whatever overrides it has run with. -/
theorem tick : f'.Overlays e' := by
  have hleft := completedBy_of_completed he htick
  have hleft' := completedBy_of_completed hf htick'
  refine ⟨(resembles_of_completed hf htick').trans
      (h.graph.trans (resembles_of_completed he htick).symm), ?_, ?_, ?_, fun v ↦ ?_, ?_, ?_, ?_⟩
  · rw [hleft'.config, hleft.config, h.config]
  · rw [hleft'.running, hleft.running, h.running]
  · rw [hleft'.policy, hleft.policy, h.policy]
  · have hsome := Graph.isSome_node?_congr h.graph.skeleton v
    cases hn : e.graph.node? v with
    | none =>
      have hv : v ∉ e.graph.nodes.map Node.id := by
        rw [← Graph.node?_isSome_iff, hn]
        exact Bool.false_ne_true
      have hv' : v ∉ f.graph.nodes.map Node.id := by rwa [Graph.ids_congr h.graph.skeleton]
      rw [(untouched_of_completed he htick hv).1, (untouched_of_completed hf htick' hv').1, h.asked]
    | some n =>
      rw [hn] at hsome
      obtain ⟨m, hm⟩ := Option.isSome_iff_exists.1 hsome
      obtain ⟨d, hd⟩ := he.sound.exists_definition (List.mem_of_find?_eq_some hn)
      have hd' : f.graph.catalog.get? m.type = some d := by
        rw [Graph.catalog_congr h.graph.skeleton, (h.graph.node hn hm).1, hd]
      have hasked := askedOf_of_completed he htick (List.mem_of_find?_eq_some hn) hd
      have hasked' := askedOf_of_completed hf htick' (List.mem_of_find?_eq_some hm) hd'
      rw [Graph.id_of_node? hn] at hasked
      rw [Graph.id_of_node? hm] at hasked'
      rw [hasked, hasked', h.asked, asks, h.policy, asks]
  · rw [hleft'.tick_eq, hleft.tick_eq, h.tick_eq]
  · rw [hleft'.lastTickMs, hleft.lastTickMs]
  · rw [hleft.overrides, h.plain_atTime]

/-! ### When no override is active any more -/

section Over

variable (hover : (f.atTime now).overrides = {})

include hover

omit he hf htick htick' in
/-- With the same setting, the same inputs are resolved from the same values. -/
theorem inputsOf_eq {n m : Node} {d : NodeDefinition} (hd : e.graph.catalog.get? n.type = some d)
    (hn : e.graph.node? n.id = some n) (hm : f.graph.node? n.id = some m) {g g' : Graph}
    (hupstream : ∀ port, g'.upstream? n.id port = g.upstream? n.id port) :
    (f.atTime now).inputsOf g' m d = (e.atTime now).inputsOf g n d := by
  obtain ⟨htype, -, hresting⟩ := h.graph.node hn hm
  have hd' : f.graph.catalog.get? m.type = some d := by
    rw [Graph.catalog_congr h.graph.skeleton, htype, hd]
  refine KeyMap.Sorted.ext (KeyMap.sorted_ofEntries _) (KeyMap.sorted_ofEntries _) fun port ↦ ?_
  show ((f.atTime now).inputsOf g' m d).get? port = ((e.atTime now).inputsOf g n d).get? port
  rw [get?_inputsOf hd', get?_inputsOf hd, hover, h.plain_atTime, Graph.id_of_node? hm,
    hupstream, hresting]

omit h he hf htick htick' in
/-- Without overrides, the config of a node is its own. -/
theorem effectiveConfig_eq {m : Node} : (f.atTime now).effectiveConfig m = m.config := by
  rw [effectiveConfig, hover]
  rfl

/-- The nodes that feed a node are the same; if their outputs are, it is given the same. -/
theorem processCallsFor_eq {n m : Node} (hn : e.graph.node? n.id = some n)
    (hm : f.graph.node? n.id = some m)
    (hupstream : ∀ port, f'.graph.upstream? n.id port = e'.graph.upstream? n.id port) :
    processCallsFor events' n.id = processCallsFor events n.id := by
  obtain ⟨d, hd⟩ := he.sound.exists_definition (List.mem_of_find?_eq_some hn)
  obtain ⟨htype, hconfig, -⟩ := h.graph.node hn hm
  have hd' : f.graph.catalog.get? m.type = some d := by
    rw [Graph.catalog_congr h.graph.skeleton, htype, hd]
  have hcalls := processCallsFor_of_completed he htick (List.mem_of_find?_eq_some hn) hd
  have hcalls' := processCallsFor_of_completed hf htick' (List.mem_of_find?_eq_some hm) hd'
  have hid := Graph.id_of_node? hm
  rw [h.inputsOf_eq hover hd hn hm hupstream, effectiveConfig_eq hover, hconfig, hid, h.tick_eq,
    sinceLast, h.lastTickMs, computes, h.policy, h.asked] at hcalls'
  rw [hcalls, hcalls', effectiveConfig_eq (h.plain_atTime now), computes, sinceLast]

omit hf htick' in
/-- Then it computes the same, unless its computation fails. -/
theorem dataflow_eq {n m : Node} {d : NodeDefinition} (hd : e.graph.catalog.get? n.type = some d)
    (hn : e.graph.node? n.id = some n) (hm : f.graph.node? n.id = some m)
    (hupstream : ∀ port, f'.graph.upstream? n.id port = e'.graph.upstream? n.id port)
    (hsucceed : ∀ call ∈ processCallsFor events n.id,
      succeeded (d.process call.inputs call.config call.context) = true) :
    f.dataflow now f'.graph m d = e.dataflow now e'.graph n d := by
  have hinputs : (f.atTime now).inputsOf f'.graph m d = (e.atTime now).inputsOf e'.graph n d :=
    h.inputsOf_eq hover hd hn hm hupstream
  have hbypassed : f'.graph.bypassed n.id d = e'.graph.bypassed n.id d := by
    simp only [Graph.bypassed, hupstream]
  rw [processCallsFor_of_completed he htick (List.mem_of_find?_eq_some hn) hd, computes] at hsucceed
  rw [dataflow, dataflow, hinputs, effectiveConfig_eq hover,
    effectiveConfig_eq (h.plain_atTime now), (h.graph.node hn hm).2.1, Graph.id_of_node? hm,
    h.policy, h.asked, h.tick_eq, sinceLast, h.lastTickMs, hbypassed, sinceLast]
  rw [effectiveConfig_eq (h.plain_atTime now), sinceLast] at hsucceed
  cases hnode : e.policy.node n.id with
  | false => rfl
  | true =>
    cases hcompute : e.policy.compute n.id (e.askedOf n.id) with
    | false => rfl
    | true =>
      rw [if_pos rfl, if_pos rfl, if_pos rfl, if_pos rfl]
      rw [hnode, hcompute] at hsucceed
      have hmade := hsucceed _ (List.mem_singleton_self _)
      dsimp only at hmade
      split
      next => rfl
      next failure hfailed =>
        rw [hfailed] at hmade
        cases hmade

/-- **All nodes have the same outputs as without overrides**, by induction along the plan: what
feeds a node has the same outputs already. -/
theorem outputs?_eq (hsucceed : e'.ProcessesSucceed events) (v : NodeId) :
    f'.outputs? v = e'.outputs? v := by
  have hskel : e'.graph.skeleton = e.graph.skeleton := (resembles_of_completed he htick).skeleton
  have hsame : f'.graph.skeleton = e'.graph.skeleton := (h.tick he hf htick htick').graph.skeleton
  have hsome := Graph.isSome_node?_congr hsame v
  cases hv : (e'.graph.node? v).isSome with
  | false =>
    rw [hv] at hsome
    rw [Option.isSome_eq_false_iff, Option.isNone_iff_eq_none] at hv hsome
    rw [outputs?, outputs?, hv, hsome]
  | true =>
    obtain ⟨plan, t, hcompile, -⟩ := exists_of_completed he.planSound htick
    refine Graph.induction_on_feeds (he.uniqueIds.congr hskel) (he.sound.congr hskel)
      ((Graph.compile_congr hskel).trans hcompile) (P := fun v ↦ f'.outputs? v = e'.outputs? v)
      (fun v hv hfeeds ↦ ?_) hv
    have hupstream : ∀ port, f'.graph.upstream? v port = e'.graph.upstream? v port :=
      Graph.upstream?_congr hsame hfeeds
    have hsome := Graph.isSome_node?_congr h.graph.skeleton v
    rw [Graph.isSome_node?_congr hskel] at hv
    rw [hv] at hsome
    obtain ⟨n, hn⟩ := Option.isSome_iff_exists.1 hv
    obtain ⟨m, hm⟩ := Option.isSome_iff_exists.1 hsome
    obtain rfl := Graph.id_of_node? hn
    obtain ⟨d, hd, hout⟩ := outputs_of_completed he htick (List.mem_of_find?_eq_some hn)
    obtain ⟨d', hd', hout'⟩ := outputs_of_completed hf htick' (List.mem_of_find?_eq_some hm)
    obtain rfl : d' = d := by
      rw [Graph.catalog_congr h.graph.skeleton, (h.graph.node hn hm).1, hd] at hd'
      exact (Option.some.inj hd').symm
    have hdefinition : e'.graph.definitionOf? n.id = some d' := by
      rw [Graph.definitionOf?_congr hskel, Graph.definitionOf?, hn]
      exact hd
    rw [Graph.id_of_node? hm] at hout'
    rw [hout, hout', h.dataflow_eq he htick hover hd hn hm hupstream
      (hsucceed n.id d' hdefinition)]

end Over

end Tick

/-! ### Runs -/

/-- **A call keeps the engines set up alike**, if it is the same for both and no tick halts. -/
theorem call (h : f.Overlays e) (he : e.Reachable) (hf : f.Reachable) {c : HostCall}
    (hc : c.isOverride = false) (hplain : (e.result c).verdict ≠ .halted)
    (hoverridden : (f.result c).verdict ≠ .halted) : (f.call c).1.Overlays (e.call c).1 := by
  cases c with
  | load state => exact h.orStay ((h.load state).map fun _ _ hloaded ↦ hloaded)
  | compile => exact h.orStay (h.compileNow.map fun _ _ hmade ↦ hmade)
  | applyEdit edit => exact h.orStay (h.applyEdit edit)
  | tryEdit edit => exact h.orStay (h.tryEdit edit)
  | setOverride | clearOverride => cases hc
  | setPolicy policy =>
    exact ⟨h.graph, h.config, h.running, rfl, fun _ ↦ rfl, h.tick_eq, h.lastTickMs, h.plain⟩
  | start => exact h.orStay h.start
  | stop => exact h.stop
  | tick now =>
    show (f.tickAt now).1.Overlays (e.tickAt now).1
    cases hrunning : e.running with
    | false =>
      rw [tickAt_of_not_running hrunning, tickAt_of_not_running (h.running.trans hrunning)]
      exact h
    | true =>
      obtain ⟨info, houtcome⟩ := exists_of_not_halted hrunning hplain
      obtain ⟨info', houtcome'⟩ := exists_of_not_halted (h.running.trans hrunning) hoverridden
      exact h.tick he hf (tickAt_eq_of_outcome houtcome) (tickAt_eq_of_outcome houtcome')

/-- **A run keeps the engines set up alike**, with and without the calls about overrides, if no tick
halts. -/
theorem run (h : f.Overlays e) (he : e.Reachable) (hf : f.Reachable) {calls : List HostCall}
    (hplain : ∀ report, .halted report ∉ (e.run (withoutOverrides calls)).2)
    (hoverridden : ∀ report, .halted report ∉ (f.run calls).2) :
    (f.run calls).1.Overlays (e.run (withoutOverrides calls)).1 := by
  induction calls generalizing e f with
  | nil => exact h
  | cons c rest ih =>
    have hevents : (f.run (c :: rest)).2 = (f.call c).2 ++ ((f.call c).1.run rest).2 := rfl
    have hcall : ∀ report, .halted report ∉ (f.call c).2 :=
      fun report hmem ↦ hoverridden report (hevents ▸ List.mem_append_left _ hmem)
    have hrest : ∀ report, .halted report ∉ ((f.call c).1.run rest).2 :=
      fun report hmem ↦ hoverridden report (hevents ▸ List.mem_append_right _ hmem)
    cases hc : c.isOverride with
    | true =>
      have hskipped : withoutOverrides (c :: rest) = withoutOverrides rest :=
        List.filter_cons_of_neg (by simp [hc])
      rw [hskipped] at hplain ⊢
      exact ih (h.call_override hc) he (hf.call c) hplain hrest
    | false =>
      have hkept : withoutOverrides (c :: rest) = c :: withoutOverrides rest :=
        List.filter_cons_of_pos (by simp [hc])
      have hevents' : (e.run (c :: withoutOverrides rest)).2 =
          (e.call c).2 ++ ((e.call c).1.run (withoutOverrides rest)).2 := rfl
      rw [hkept] at hplain ⊢
      refine ih (h.call he hf hc ?_ (verdict_ne_halted hf hcall)) (he.call c) (hf.call c)
        (fun report hmem ↦ hplain report (hevents' ▸ List.mem_append_right _ hmem)) hrest
      exact verdict_ne_halted he fun report hmem ↦
        hplain report (hevents' ▸ List.mem_append_left _ hmem)

end Overlays

/-- **Overrides leave no trace.** From an engine without overrides, make the same calls with and
without those that set and clear overrides, and let no tick halt. Then the graphs have the same
nodes with the same configs, the same connections and the same version, and their stored inputs
differ at most in values that are the declared defaults. Let both complete a further tick, for which
no override is active any more, and let every computation of the first succeed. Then every node has
the same outputs in both, and `process` was called for it with the same inputs, config and context.
-/
theorem overrides_leave_no_trace (he : e.Reachable) (hnone : e.overrides = {})
    {calls : List HostCall}
    (hplain : ∀ report, .halted report ∉ (e.run (withoutOverrides calls)).2)
    (hoverridden : ∀ report, .halted report ∉ (e.run calls).2) :
    (e.run calls).1.graph.SameButDefaults (e.run (withoutOverrides calls)).1.graph ∧
    ∀ now e' f' info info' events events',
      (e.run (withoutOverrides calls)).1.tickAt now = (e', .completed info, events) →
      (e.run calls).1.tickAt now = (f', .completed info', events') →
      (∀ v kind key o, (e.run calls).1.overrides.get? v kind key = some o →
        o.isExpired now = true) →
      e'.ProcessesSucceed events →
      ∀ v, f'.outputs? v = e'.outputs? v ∧
        processCallsFor events' v = processCallsFor events v := by
  have hsame := (Overlays.refl hnone).run he he hplain hoverridden
  have hplainReach := he.run (withoutOverrides calls)
  have hreach := he.run calls
  refine ⟨hsame.graph.sameButDefaults, ?_⟩
  intro now e' f' info info' events events' htick htick' hexpired hsucceed v
  have hover : ((e.run calls).1.atTime now).overrides = {} :=
    hreach.holdsOverrides.valid.expire_eq_empty hexpired
  have houtputs := hsame.outputs?_eq hplainReach hreach htick htick' hover hsucceed
  refine ⟨houtputs v, ?_⟩
  have hskel := (hsame.tick hplainReach hreach htick htick').graph.skeleton
  have hsome := Graph.isSome_node?_congr hsame.graph.skeleton v
  cases hn : (e.run (withoutOverrides calls)).1.graph.node? v with
  | none =>
    have hv : v ∉ (e.run (withoutOverrides calls)).1.graph.nodes.map Node.id := by
      rw [← Graph.node?_isSome_iff, hn]
      exact Bool.false_ne_true
    have hv' : v ∉ (e.run calls).1.graph.nodes.map Node.id := by
      rwa [Graph.ids_congr hsame.graph.skeleton]
    rw [processCallsFor_of_not_mem hplainReach htick hv,
      processCallsFor_of_not_mem hreach htick' hv']
  | some n =>
    rw [hn] at hsome
    obtain ⟨m, hm⟩ := Option.isSome_iff_exists.1 hsome
    obtain rfl := Graph.id_of_node? hn
    exact hsame.processCallsFor_eq hplainReach hreach htick htick' hover hn hm
      (Graph.upstream?_congr hskel fun u _ ↦ houtputs u)

/-- The level of the dimmer is overridden on its way through the wire for one tick. -/
def overriddenCalls : List HostCall :=
  [.start, .setOverride "b" .input "in" (.number 0.5) none 0.0, .tick 0.0,
    .clearOverride "b" .input "in"]

/-- No computation of the sample fails. -/
theorem sampleCatalog_succeeds : ∀ d ∈ sampleCatalog.definitions, ∀ inputs config context,
    succeeded (d.process inputs config context) = true := by
  intro d hd inputs config context
  rcases hd with _ | ⟨_, _ | ⟨_, _ | ⟨_, hd⟩⟩⟩
  · rfl
  · rfl
  · rfl
  · cases hd

/-- In the tick after, the wire is back at the level of the dimmer, as it is without the override.
-/
theorem overrides_leave_no_trace_sample :
    (sampleEngine.run overriddenCalls).1.outputs? "b" = some [("out", .number 0.5)] ∧
    ((sampleEngine.run overriddenCalls).1.tickAt 1.0).1.outputs? "b" =
      some [("out", .number 1.0)] := by
  have hquiet : ∀ {events : List Event}, (events.all fun event ↦
      match event with
      | .halted _ => false
      | _ => true) = true → ∀ report, .halted report ∉ events :=
    fun hall report hmem ↦ Bool.false_ne_true (List.all_eq_true.1 hall _ hmem)
  have htick : (sampleEngine.run (withoutOverrides overriddenCalls)).1.tickAt 1.0 =
      (((sampleEngine.run (withoutOverrides overriddenCalls)).1.tickAt 1.0).1,
        .completed { tick := 1, timeMs := 1.0, computed := 3, sinkCalls := 0 },
        ((sampleEngine.run (withoutOverrides overriddenCalls)).1.tickAt 1.0).2.2) := rfl
  have htick' : (sampleEngine.run overriddenCalls).1.tickAt 1.0 =
      (((sampleEngine.run overriddenCalls).1.tickAt 1.0).1,
        .completed { tick := 1, timeMs := 1.0, computed := 3, sinkCalls := 1 },
        ((sampleEngine.run overriddenCalls).1.tickAt 1.0).2.2) := rfl
  have hover : ∀ v kind key o, (sampleEngine.run overriddenCalls).1.overrides.get? v kind key =
      some o → o.isExpired 1.0 = true := nofun
  have hsucceed : (((sampleEngine.run (withoutOverrides overriddenCalls)).1.tickAt
      1.0).1).ProcessesSucceed
        ((sampleEngine.run (withoutOverrides overriddenCalls)).1.tickAt 1.0).2.2 := by
    intro v d hd call hcall
    obtain ⟨n, -, hd⟩ := Option.bind_eq_some_iff.1 hd
    have hmem : d ∈ sampleCatalog.definitions := List.mem_of_find?_eq_some hd
    exact sampleCatalog_succeeds d hmem call.inputs call.config call.context
  have hplain : ∀ report, .halted report ∉
      (sampleEngine.run (withoutOverrides overriddenCalls)).2 := hquiet rfl
  obtain ⟨-, hsame⟩ := overrides_leave_no_trace reachable_sampleEngine rfl hplain (hquiet rfl)
  exact ⟨rfl, ((hsame 1.0 _ _ _ _ _ _ htick htick' hover hsucceed "b").1).trans rfl⟩

end Engine

end CueFlow
