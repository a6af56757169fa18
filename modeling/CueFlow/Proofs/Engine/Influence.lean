import CueFlow.Proofs.Engine.CallResult
import CueFlow.Proofs.Engine.Computation
import CueFlow.Proofs.Engine.HeldOverrides
import CueFlow.Proofs.Graph.AgreesOff
/-!
# Influence follows connections into compute inputs

Let two engines differ in some nodes only: in their configs, stored inputs, outputs, overrides and
gates (`Engine.AgreesOff`). Whatever a tick computes for another node, it makes of the node itself
and of what the nodes that feed it have computed. So if all that the nodes of a set feed lies in the
set, the engines go on to differ in that set only (`AgreesOff.run`), and the least such set is what
is downstream of the nodes that make the difference (`Graph.downstream`).

Connections into points of delivery are not among those that feed, and the engines may well have
different ones, with different hooks behind them, and remember different deliveries. The sink pass
leaves the graph alone, so nothing of it is seen by a computation, in this tick or in a later one.
-/

namespace CueFlow

/-- Whether a call leaves it as it is which nodes and connections there are. -/
def HostCall.keepsTopology : HostCall → Bool
  | load _ => false
  | applyEdit edit | tryEdit edit => !edit.isTopology
  | _ => true

/-- The nodes of a set together with all nodes that they feed, directly or through others. -/
def Graph.downstream (g : Graph) (S : Set NodeId) : Set NodeId :=
  {v | ∃ x ∈ S, Relation.ReflTransGen g.Feeds x v}

namespace Engine

/-- The engines are at the same point of time, and differ in nothing that is computed with, except
for the nodes of a set. -/
structure AgreesOff (S : Set NodeId) (f e : Engine) : Prop where
  graph : f.graph.AgreesOff S e.graph
  overrides : ∀ v ∉ S, f.overrides.nodes.get? v = e.overrides.nodes.get? v
  nodeGate : ∀ v ∉ S, f.policy.node v = e.policy.node v
  computeGate : ∀ v ∉ S, f.policy.compute v = e.policy.compute v
  asked : ∀ v ∉ S, f.askedOf v = e.askedOf v
  running : f.running = e.running
  tick_eq : f.tick = e.tick
  lastTickMs : f.lastTickMs = e.lastTickMs

variable {S T : Set NodeId} {e e' f f' : Engine} {events events' : List Event} {now : Float}

/-- What a node becomes is a matter of its computation alone. -/
theorem nodeIn_computation (e : Engine) (now : Float) (g : Graph) (n : Node) (d : NodeDefinition) :
    e.nodeIn now g n d.computation = e.nodeIn now g n d := rfl

/-- A call that keeps the topology keeps the skeleton of the graph. -/
theorem skeleton_call {c : HostCall} (hc : c.keepsTopology = true) :
    (e.call c).1.graph.skeleton = e.graph.skeleton := by
  have hedit : ∀ {edit : GraphEdit} {g : Graph} (plan : Option Plan),
      (!edit.isTopology) = true → e.graph.apply edit = .ok g →
      (forgetRemoved { e with graph := g, plan } edit).graph.skeleton = e.graph.skeleton := by
    intro edit g plan hcontent happly
    rw [(forgetRemoved_eq _ edit).1]
    exact Graph.skeleton_of_apply (by simpa using hcontent) happly
  cases c with
  | load => cases hc
  | compile =>
    refine orStay_of (P := fun e' ↦ e'.graph.skeleton = _) rfl fun e' h ↦ ?_
    obtain ⟨plan, -, rfl⟩ := of_compileNow h
    rfl
  | applyEdit edit =>
    refine orStay_of (P := fun e' ↦ e'.graph.skeleton = _) rfl fun e' h ↦ ?_
    obtain ⟨g, happly, rfl⟩ := of_applyEdit h
    exact hedit e.plan hc happly
  | tryEdit edit =>
    refine orStay_of (P := fun e' ↦ e'.graph.skeleton = _) rfl fun e' h ↦ ?_
    obtain ⟨g, happly, ⟨-, plan, -, rfl⟩ | ⟨-, rfl⟩⟩ := of_tryEdit h
    · exact hedit (some plan) hc happly
    · exact hedit e.plan hc happly
  | setOverride =>
    refine orStay_of (P := fun e' ↦ e'.graph.skeleton = _) rfl fun e' h ↦ ?_
    obtain rfl := of_setOverride h
    rfl
  | clearOverride | setPolicy => rfl
  | start =>
    refine orStay_of (P := fun e' ↦ e'.graph.skeleton = _) rfl fun e' h ↦ ?_
    obtain ⟨plan, -, rfl⟩ := of_start h
    rfl
  | stop => exact e.stop_fst.1
  | tick now => exact e.skeleton_tickAt now

namespace AgreesOff

theorem mono (h : f.AgreesOff S e) (hST : S ⊆ T) : f.AgreesOff T e where
  graph := h.graph.mono hST
  overrides v hv := h.overrides v fun hmem ↦ hv (hST hmem)
  nodeGate v hv := h.nodeGate v fun hmem ↦ hv (hST hmem)
  computeGate v hv := h.computeGate v fun hmem ↦ hv (hST hmem)
  asked v hv := h.asked v fun hmem ↦ hv (hST hmem)
  running := h.running
  tick_eq := h.tick_eq
  lastTickMs := h.lastTickMs

section

variable (h : f.AgreesOff S e)

include h

/-! ### Calls -/

/-- Plans do not matter. -/
theorem withGraph {g g' : Graph} (hgraph : g'.AgreesOff S g) (plan plan' : Option Plan) :
    ({ f with graph := g', plan := plan' } : Engine).AgreesOff S { e with graph := g, plan } :=
  ⟨hgraph, h.overrides, h.nodeGate, h.computeGate, h.asked, h.running, h.tick_eq, h.lastTickMs⟩

theorem withOverrides {o o' : OverrideStore Float}
    (ho : ∀ v ∉ S, o'.nodes.get? v = o.nodes.get? v) :
    ({ f with overrides := o' } : Engine).AgreesOff S { e with overrides := o } :=
  ⟨h.graph, ho, h.nodeGate, h.computeGate, h.asked, h.running, h.tick_eq, h.lastTickMs⟩

theorem orStay {x y : Except EngineError Engine} (hxy : Agree (AgreesOff S) x y) :
    (f.orStay x).AgreesOff S (e.orStay y) := by
  cases hxy with
  | ok hnext => exact hnext
  | error => exact h

/-- Both graphs compile or neither does. -/
theorem compile (hf : f.Reachable) (he : e.Reachable) :
    Agree (fun _ _ ↦ True) f.graph.compile e.graph.compile := by
  have hboth := h.graph.exists_compile_iff hf.sound he.sound
  cases hcompile : e.graph.compile with
  | ok plan =>
    obtain ⟨plan', hcompile'⟩ := hboth.2 ⟨plan, hcompile⟩
    rw [hcompile']
    exact .ok trivial
  | error error =>
    cases hcompile' : f.graph.compile with
    | ok plan' =>
      obtain ⟨plan, hok⟩ := hboth.1 ⟨plan', hcompile'⟩
      rw [hcompile] at hok
      cases hok
    | error error' => exact .error error' error

theorem compileNow (hf : f.Reachable) (he : e.Reachable) :
    Agree (fun made' made : Engine × Plan ↦ made'.1.AgreesOff S made.1) f.compileNow e.compileNow :=
  (h.compile hf he).bind fun plan' plan _ ↦ .ok (h.withGraph h.graph (some plan) (some plan'))

theorem start (hf : f.Reachable) (he : e.Reachable) : Agree (AgreesOff S) f.start e.start :=
  (h.compileNow hf he).bind fun _ _ hmade ↦
    .ok ⟨hmade.graph, hmade.overrides, hmade.nodeGate, hmade.computeGate, hmade.asked, rfl, rfl,
      rfl⟩

/-- An edit of the content removes no node. -/
theorem forgetRemoved {edit : GraphEdit} (hedit : edit.isTopology = false) :
    (f.forgetRemoved edit).AgreesOff S (e.forgetRemoved edit) := by
  cases edit with
  | addNode | removeNode | addConnection | removeConnection => cases hedit
  | setConfig | setInputValue => exact h

theorem applyEdit {edit : GraphEdit} (hedit : edit.isTopology = false) :
    Agree (AgreesOff S) (f.applyEdit edit) (e.applyEdit edit) :=
  (h.graph.apply hedit).bind fun _ _ hgraph ↦
    .ok ((h.withGraph hgraph e.plan f.plan).forgetRemoved hedit)

theorem tryEdit {edit : GraphEdit} (hedit : edit.isTopology = false) :
    Agree (AgreesOff S) (f.tryEdit edit) (e.tryEdit edit) :=
  (h.graph.apply hedit).bind fun _ _ hgraph ↦ by
    rw [hedit]
    exact .ok ((h.withGraph hgraph e.plan f.plan).forgetRemoved hedit)

theorem setOverride (node : NodeId) (kind : OverrideKind) (key : String) (value : Value)
    (lifetime : Option Float) (now : Float) :
    Agree (AgreesOff S) (f.setOverride node kind key value lifetime now)
      (e.setOverride node kind key value lifetime now) := by
  have hsome := h.graph.isSome_node? node
  have hset : ∀ v ∉ S, (f.overrides.set node kind key value lifetime now).nodes.get? v =
      (e.overrides.set node kind key value lifetime now).nodes.get? v := by
    intro v hv
    rw [OverrideStore.get?_nodes_set, h.overrides v hv, OverrideStore.get?_nodes_set]
  rw [Engine.setOverride, Engine.setOverride]
  cases hn : e.graph.node? node with
  | none =>
    cases hm : f.graph.node? node with
    | none => exact .error _ _
    | some m => simp [hn, hm] at hsome
  | some n =>
    cases hm : f.graph.node? node with
    | none => simp [hn, hm] at hsome
    | some m => exact .ok (h.withOverrides hset)

theorem clearOverride (node : NodeId) (kind : OverrideKind) (key : String) :
    (f.clearOverride node kind key).1.AgreesOff S (e.clearOverride node kind key).1 :=
  h.withOverrides fun v hv ↦ by
    rw [OverrideStore.get?_nodes_clear, h.overrides v hv, OverrideStore.get?_nodes_clear]

theorem stop : f.stop.1.AgreesOff S e.stop.1 := by
  rw [Engine.stop, h.running, Engine.stop]
  split
  · exact ⟨h.graph.clearOutputs, h.overrides, h.nodeGate, h.computeGate, h.asked, rfl, h.tick_eq,
      h.lastTickMs⟩
  · exact h

end

/-! ### Ticks -/

section Tick

variable (h : f.AgreesOff S e) (he : e.Reachable) (hf : f.Reachable)

include h he hf

/-- Off the set, both have the same overrides left. -/
theorem overrides_atTime (now : Float) {v : NodeId} (hv : v ∉ S) :
    (f.atTime now).overrides.nodes.get? v = (e.atTime now).overrides.nodes.get? v := by
  show (f.overrides.expire now).nodes.get? v = (e.overrides.expire now).nodes.get? v
  rw [hf.holdsOverrides.valid.get?_nodes_expire, h.overrides v hv,
    he.holdsOverrides.valid.get?_nodes_expire]

theorem computesAlike (now : Float) {v : NodeId} (hv : v ∉ S) : f.ComputesAlike e now v where
  node := h.nodeGate v hv
  compute := by rw [h.computeGate v hv, h.asked v hv]
  overrides := h.overrides_atTime he hf now hv
  tick_eq := h.tick_eq
  sinceLast := by rw [sinceLast, h.lastTickMs, sinceLast]

variable {info info' : TickInfo} (htick : e.tickAt now = (e', .completed info, events))
  (htick' : f.tickAt now = (f', .completed info', events'))

include htick htick'

/-- **The nodes off a set that keeps what it feeds become the same**, by induction along the plan:
what feeds such a node is off the set as well, and has become the same already. -/
theorem node?_eq (hclosed : ∀ u v, e.graph.Feeds u v → u ∈ S → v ∈ S) {v : NodeId} (hv : v ∉ S) :
    f'.graph.node? v = e'.graph.node? v := by
  have hskel := (resembles_of_completed he htick).skeleton
  have hskel' := (resembles_of_completed hf htick').skeleton
  obtain ⟨plan, hcompile, -⟩ := graph_of_completed he.planSound htick
  have hsome : (f'.graph.node? v).isSome = (e'.graph.node? v).isSome := by
    rw [Graph.isSome_node?_congr hskel', h.graph.isSome_node?, Graph.isSome_node?_congr hskel]
  cases hfound : (e'.graph.node? v).isSome with
  | false =>
    rw [hfound] at hsome
    rw [Option.isSome_eq_false_iff, Option.isNone_iff_eq_none] at hfound hsome
    rw [hfound, hsome]
  | true =>
    refine Graph.induction_on_feeds (he.uniqueIds.congr hskel) (he.sound.congr hskel)
      ((Graph.compile_congr hskel).trans hcompile)
      (P := fun v ↦ v ∉ S → f'.graph.node? v = e'.graph.node? v) (fun v hv hfeeds hoff ↦ ?_)
      hfound hv
    have hinto : f'.graph.connectionsInto .compute = e'.graph.connectionsInto .compute := by
      rw [← Graph.skeleton_connectionsInto, hskel', Graph.skeleton_connectionsInto, h.graph.inputs,
        ← Graph.skeleton_connectionsInto, ← hskel, Graph.skeleton_connectionsInto]
    have hupstream : ∀ port, f'.graph.upstream? v port = e'.graph.upstream? v port :=
      Graph.upstream?_of_connectionsInto hinto fun u hu ↦
        congrArg (Option.map Node.outputValues) (hfeeds u hu fun hmem ↦
          hoff (hclosed u v ((Graph.feeds_congr hskel).1 hu) hmem))
    rw [Graph.isSome_node?_congr hskel] at hv
    obtain ⟨n, hn⟩ := Option.isSome_iff_exists.1 hv
    have hn' : f.graph.node? v = some n := (h.graph.node v hoff).trans hn
    obtain rfl := Graph.id_of_node? hn
    obtain ⟨d, hd, hleft⟩ := node?_of_completed he htick (List.mem_of_find?_eq_some hn)
    obtain ⟨d', hd', hleft'⟩ := node?_of_completed hf htick' (List.mem_of_find?_eq_some hn')
    obtain ⟨d'', hd'', hsame⟩ := h.graph.exists_definition hd
    obtain rfl : d' = d'' := Option.some.inj (hd'.symm.trans hd'')
    rw [hleft, hleft', ← nodeIn_computation, hsame, nodeIn_computation,
      (h.computesAlike he hf now hoff).nodeIn_eq hupstream]

/-- A completed tick asks the gate about them the same number of times. -/
theorem askedOf_eq {v : NodeId} (hv : v ∉ S) : f'.askedOf v = e'.askedOf v := by
  have hnode := h.graph.node v hv
  cases hn : e.graph.node? v with
  | none =>
    have hnone : v ∉ e.graph.nodes.map Node.id := by
      rw [← Graph.node?_isSome_iff, hn]
      exact Bool.false_ne_true
    have hnone' : v ∉ f.graph.nodes.map Node.id := by
      rw [← Graph.node?_isSome_iff, hnode, hn]
      exact Bool.false_ne_true
    rw [(untouched_of_completed he htick hnone).1, (untouched_of_completed hf htick' hnone').1,
      h.asked v hv]
  | some n =>
    rw [hn] at hnode
    obtain rfl := Graph.id_of_node? hn
    obtain ⟨d, hd⟩ := he.sound.exists_definition (List.mem_of_find?_eq_some hn)
    obtain ⟨d', hd', hsame⟩ := h.graph.exists_definition hd
    have hsink : d'.hasSinkInputs = d.hasSinkInputs := by
      rw [← NodeDefinition.computation_hasSinkInputs, hsame,
        NodeDefinition.computation_hasSinkInputs]
    rw [askedOf_of_completed he htick (List.mem_of_find?_eq_some hn) hd,
      askedOf_of_completed hf htick' (List.mem_of_find?_eq_some hnode) hd', h.asked _ hv, asks,
      h.nodeGate _ hv, hsink, asks]

/-- **A completed tick brings about no further difference** off a set that keeps what it feeds. -/
theorem tick (hclosed : ∀ u v, e.graph.Feeds u v → u ∈ S → v ∈ S) : f'.AgreesOff S e' := by
  have hleft := completedBy_of_completed he htick
  have hleft' := completedBy_of_completed hf htick'
  exact {
    graph := h.graph.congr (resembles_of_completed hf htick').skeleton
      (resembles_of_completed he htick).skeleton
      fun _ hv ↦ h.node?_eq he hf htick htick' hclosed hv
    overrides := fun v hv ↦ by
      rw [hleft'.overrides, h.overrides_atTime he hf now hv, hleft.overrides]
    nodeGate := fun v hv ↦ by rw [hleft'.policy, h.nodeGate v hv, hleft.policy]
    computeGate := fun v hv ↦ by rw [hleft'.policy, h.computeGate v hv, hleft.policy]
    asked := fun _ hv ↦ h.askedOf_eq he hf htick htick' hv
    running := by rw [hleft'.running, h.running, hleft.running]
    tick_eq := by rw [hleft'.tick_eq, h.tick_eq, hleft.tick_eq]
    lastTickMs := by rw [hleft'.lastTickMs, hleft.lastTickMs] }

end Tick

/-! ### Runs -/

/-- **A call that keeps the topology brings about no further difference**, if no tick halts. -/
theorem call (h : f.AgreesOff S e) (he : e.Reachable) (hf : f.Reachable)
    (hclosed : ∀ u v, e.graph.Feeds u v → u ∈ S → v ∈ S) {c : HostCall}
    (hc : c.keepsTopology = true) (hgoes : (e.result c).verdict ≠ .halted)
    (hgoes' : (f.result c).verdict ≠ .halted) : (f.call c).1.AgreesOff S (e.call c).1 := by
  cases c with
  | load => cases hc
  | compile => exact h.orStay ((h.compileNow hf he).map fun _ _ hmade ↦ hmade)
  | applyEdit edit => exact h.orStay (h.applyEdit (by simpa [HostCall.keepsTopology] using hc))
  | tryEdit edit => exact h.orStay (h.tryEdit (by simpa [HostCall.keepsTopology] using hc))
  | setOverride node kind key value lifetime now =>
    exact h.orStay (h.setOverride node kind key value lifetime now)
  | clearOverride node kind key => exact h.clearOverride node kind key
  | setPolicy policy =>
    exact ⟨h.graph, h.overrides, fun _ _ ↦ rfl, fun _ _ ↦ rfl, fun _ _ ↦ rfl, h.running, h.tick_eq,
      h.lastTickMs⟩
  | start => exact h.orStay (h.start hf he)
  | stop => exact h.stop
  | tick now =>
    show (f.tickAt now).1.AgreesOff S (e.tickAt now).1
    cases hrunning : e.running with
    | false =>
      rw [tickAt_of_not_running hrunning, tickAt_of_not_running (h.running.trans hrunning)]
      exact h
    | true =>
      obtain ⟨info, houtcome⟩ := exists_of_not_halted hrunning hgoes
      obtain ⟨info', houtcome'⟩ := exists_of_not_halted (h.running.trans hrunning) hgoes'
      exact h.tick he hf (tickAt_eq_of_outcome houtcome) (tickAt_eq_of_outcome houtcome') hclosed

/-- **A run brings about no further difference** off a set that keeps what it feeds. -/
theorem run (h : f.AgreesOff S e) (he : e.Reachable) (hf : f.Reachable)
    (hclosed : ∀ u v, e.graph.Feeds u v → u ∈ S → v ∈ S) {calls : List HostCall}
    (hcalls : ∀ c ∈ calls, c.keepsTopology = true)
    (hgoes : ∀ report, .halted report ∉ (e.run calls).2)
    (hgoes' : ∀ report, .halted report ∉ (f.run calls).2) :
    (f.run calls).1.AgreesOff S (e.run calls).1 := by
  induction calls generalizing e f with
  | nil => exact h
  | cons c rest ih =>
    obtain ⟨hc, hrest⟩ := List.forall_mem_cons.1 hcalls
    have hevents : ∀ e : Engine,
        (e.run (c :: rest)).2 = (e.call c).2 ++ ((e.call c).1.run rest).2 := fun _ ↦ rfl
    have hskel := skeleton_call (e := e) hc
    refine ih (h.call he hf hclosed hc ?_ ?_) (he.call c) (hf.call c)
      (fun u v hfeeds ↦ hclosed u v ((Graph.feeds_congr hskel).1 hfeeds)) hrest
      (fun report hmem ↦ hgoes report (hevents e ▸ List.mem_append_right _ hmem))
      (fun report hmem ↦ hgoes' report (hevents f ▸ List.mem_append_right _ hmem))
    · exact verdict_ne_halted he fun report hmem ↦
        hgoes report (hevents e ▸ List.mem_append_left _ hmem)
    · exact verdict_ne_halted hf fun report hmem ↦
        hgoes' report (hevents f ▸ List.mem_append_left _ hmem)

end AgreesOff

/-- **Influence follows connections into compute inputs only.** Let two engines differ in some
nodes: in their configs, stored inputs, outputs, overrides or gates. Make the same calls of both,
which start, stop and tick them, set and clear overrides, install policies and edit the content of
nodes, and let no tick halt. Then every node that is not among these nodes, and that they do not
feed, directly or through others, has the same outputs in both. It makes no difference for any node
which connections there are into points of delivery, what the hooks behind them do, and what has
been delivered. -/
theorem influence_follows_feeds (he : e.Reachable) (hf : f.Reachable) (h : f.AgreesOff S e)
    {calls : List HostCall} (hcalls : ∀ c ∈ calls, c.keepsTopology = true)
    (hgoes : ∀ report, .halted report ∉ (e.run calls).2)
    (hgoes' : ∀ report, .halted report ∉ (f.run calls).2) {v : NodeId}
    (hv : v ∉ e.graph.downstream S) : (f.run calls).1.outputs? v = (e.run calls).1.outputs? v := by
  have hsub : S ⊆ e.graph.downstream S := fun x hx ↦ ⟨x, hx, .refl⟩
  have hclosed : ∀ u v, e.graph.Feeds u v →
      u ∈ e.graph.downstream S → v ∈ e.graph.downstream S := by
    rintro u v hfeeds ⟨x, hx, hreaches⟩
    exact ⟨x, hx, hreaches.tail hfeeds⟩
  have hleft := (h.mono hsub).run he hf hclosed hcalls hgoes hgoes'
  exact congrArg (Option.map Node.outputValues) (hleft.graph.node v hv)

/-- The lamp and its filter without the way back to the lamp, and with another value stored. -/
def openGraph : Graph :=
  { Graph.feedbackGraph.modifyNode "f"
      (fun n ↦ { n with inputValues := [("in", .number 0.25)] }) with
    connections := Graph.feedbackGraph.connections.take 1 }

/-- The engine around the lamp and its filter. -/
def closedEngine : Engine :=
  { graph := Graph.feedbackGraph, config := {}, watchdog := { config := .default } }

/-- The engine without the way back, in which the filter is disabled and overridden. -/
def openEngine : Engine :=
  (run { graph := openGraph, config := {}, watchdog := { config := .default } }
    [.setPolicy { node := fun v ↦ v != "f" },
      .setOverride "f" .input "in" (.number 0.5) none 0.0]).1

theorem reachable_closedEngine : closedEngine.Reachable := by
  have hload : Graph.load Graph.feedbackGraph.catalog Graph.feedbackGraph.snapshot .strict =
      .ok (Graph.feedbackGraph, {}) := rfl
  have hnew : new Graph.feedbackGraph {} = .ok closedEngine := rfl
  exact .new (.load hload) hnew

theorem reachable_openEngine : openEngine.Reachable := by
  have hload : Graph.load openGraph.catalog openGraph.snapshot .strict = .ok (openGraph, {}) := rfl
  have hnew : new openGraph {} =
      .ok { graph := openGraph, config := {}, watchdog := { config := .default } } := rfl
  exact (Reachable.new (.load hload) hnew).run _

/-- They differ in the filter and in a connection into a point of delivery. -/
theorem agreesOff_openEngine : openEngine.AgreesOff {"f"} closedEngine where
  graph :=
    have hstored := Graph.feedbackGraph.agreesOff_modifyNode "f"
      (f := fun n ↦ { n with inputValues := [("in", .number 0.25)] }) fun _ ↦ rfl
    ⟨hstored.computation, hstored.type, rfl, hstored.node⟩
  overrides v hv := by
    have hne : "f" ≠ v := fun heq ↦ hv heq.symm
    exact if_neg hne
  nodeGate v hv := by
    show (v != "f") = true
    simpa using hv
  computeGate _ _ := rfl
  asked _ _ := rfl
  running := rfl
  tick_eq := rfl
  lastTickMs := rfl

/-- The lamp has the same level with its filter in another state and the way back cut. -/
theorem influence_follows_feeds_feedback :
    closedEngine.outputs? "l" = some [] ∧
    (openEngine.run [.start, .tick 0.0, .applyEdit (.setConfig "l" "dim" (.number 0.5)),
      .tick 1.0]).1.outputs? "l" = some [("level", .number 1.0)] := by
  have hlast : ∀ w, ¬ closedEngine.graph.Feeds "f" w := by
    rintro w ⟨c, hc, hsource, -, p, hp, hkind⟩
    rcases hc with _ | ⟨_, _ | ⟨_, hc⟩⟩
    · exact absurd hsource (by decide)
    · obtain rfl := Option.some.inj hp
      cases hkind
    · cases hc
  have hoff : "l" ∉ closedEngine.graph.downstream {"f"} := by
    rintro ⟨x, rfl, hreaches⟩
    obtain heq | ⟨w, hfeeds, -⟩ := hreaches.cases_head
    · exact absurd heq (by decide)
    · exact hlast w hfeeds
  have hcalls : ∀ c ∈ [HostCall.start, .tick 0.0, .applyEdit (.setConfig "l" "dim" (.number 0.5)),
      .tick 1.0], c.keepsTopology = true := by
    simp [HostCall.keepsTopology, GraphEdit.isTopology]
  exact ⟨rfl, (influence_follows_feeds reachable_closedEngine reachable_openEngine
    agreesOff_openEngine hcalls (halted_not_mem_of_reportsPass rfl)
    (halted_not_mem_of_reportsPass rfl) hoff).trans rfl⟩

end Engine

end CueFlow
