import CueFlow.Proofs.Engine.Computation
import CueFlow.Proofs.Engine.Halt
/-!
# What a tick writes into the graph

Whatever a tick comes to, the graph that it leaves is the one between its passes, with or without
the outputs (`graph_tickAt`). There, every node is still in its place, with its type and its config,
and it has gained a stored value only at inputs where its computation found nothing
(`node?_graphBetween`). A tick without passes stores nothing: the engine does not run, or the graph
does not compile.

So overrides leave the graph alone (`tick_writes_defaults_only`). What a tick stores is a declared
default, and it stores none at an input that is overridden.
-/

namespace CueFlow

namespace Engine

variable {e : Engine} {now : Float} {v : Node}

/-- The graph that a tick leaves is the one between its passes; a halt clears the outputs. -/
theorem graph_tickAt (he : e.PlanSound) (hrunning : e.running = true) (now : Float) :
    (e.tickAt now).1.graph = e.graphBetween now ∨
      (e.tickAt now).1.graph = (e.graphBetween now).clearOutputs := by
  obtain ⟨report, heq⟩ | ⟨plan, info, -, heq⟩ := tickAt_eq_passes he hrunning now
  · refine .inr ?_
    rw [heq, stop, if_pos ((e.passes_fst now).2.trans hrunning), ← graph_passes]
  · refine .inl ?_
    rw [heq, ← graph_passes]

/-- In the tick at this time, the computation of a node finds nothing at an input: no override is
active there, and nothing arrives. -/
structure FallsBack (e : Engine) (now : Float) (v : NodeId) (port : String) : Prop where
  running : e.running = true
  compiles : ∃ plan, e.graph.compile = .ok plan
  finds : e.FindsNothing now (e.graphBetween now) v port

/-- The node `v'` is `v` after the tick at this time: of the same type and with the same config. At
the inputs where its computation found nothing and nothing was stored, the declared default is
stored now, and nowhere else has a stored value come or gone or changed. Stored values are still in
the order of their ports. -/
structure LeftBy (v' v : Node) (e : Engine) (now : Float) (d : NodeDefinition) : Prop where
  type : v'.type = v.type
  config : v'.config = v.config
  stored : ∀ port, e.FallsBack now v.id port →
    v'.inputValues.get? port = (v.inputValues.get? port).or (d.defaults.get? port)
  kept : ∀ port, ¬ e.FallsBack now v.id port → v'.inputValues.get? port = v.inputValues.get? port
  sorted : v.inputValues.Sorted → v'.inputValues.Sorted

/-- A node that a tick does not get to is as it was. -/
theorem LeftBy.of_no_passes (hnone : ∀ port, ¬ e.FallsBack now v.id port) (d : NodeDefinition) :
    LeftBy v v e now d :=
  ⟨rfl, rfl, fun port h ↦ absurd h (hnone port), fun _ _ ↦ rfl, id⟩

/-- What a tick stores is put in at its place. -/
theorem sorted_storedIn (h : v.inputValues.Sorted) (e : Engine) (now : Float) (g : Graph)
    (d : NodeDefinition) : (e.storedIn now g v d).Sorted := by
  rw [storedIn]
  split
  · exact KeyMap.sorted_overlay h _
  · exact h

/-- Clearing the outputs makes no difference to this. -/
theorem LeftBy.withoutOutputs {v' : Node} {d : NodeDefinition} (h : LeftBy v' v e now d) :
    LeftBy v'.withoutOutputs v e now d :=
  ⟨h.type, h.config, h.stored, h.kept, h.sorted⟩

/-- **Between the passes of a tick** every node is found as the tick leaves it. -/
theorem node?_graphBetween (he : e.Reachable) (hrunning : e.running = true) (now : Float)
    (hv : v ∈ e.graph.nodes) :
    ∃ d v', e.graph.catalog.get? v.type = some d ∧ (e.graphBetween now).node? v.id = some v' ∧
      LeftBy v' v e now d := by
  cases hcompile : e.graph.compile with
  | ok plan =>
    obtain ⟨d, hd, hfound⟩ := node?_underway he.uniqueIds hcompile now hv
    rw [← graphBetween_of_compile hcompile] at hfound
    have hstored := e.get?_storedIn now (e.graphBetween now) v d
    refine ⟨d, _, hd, hfound, rfl, rfl, fun port h ↦ (hstored port).1 h.finds, fun port h ↦ ?_,
      fun hsorted ↦ sorted_storedIn hsorted e now _ d⟩
    exact (hstored port).2 fun hfinds ↦ h ⟨hrunning, ⟨plan, hcompile⟩, hfinds⟩
  | error error =>
    obtain ⟨d, hd⟩ := he.sound.exists_definition hv
    refine ⟨d, v, hd, ?_, .of_no_passes (fun port h ↦ ?_) d⟩
    · rw [graphBetween, hcompile]
      exact Graph.node?_of_mem he.uniqueIds hv
    · obtain ⟨plan, hplan⟩ := h.compiles
      rw [hcompile] at hplan
      cases hplan

/-- **A tick writes outputs and first-use defaults only**, whatever it comes to. The catalog, the
nodes with their order and types, the connections, the generation and the version stay, and so do
all configs. A stored value never changes; a node gains one exactly where its computation, in a tick
that gets to it, found neither an override nor a connected value nor a stored one, and then it is
the declared default. -/
theorem tick_writes_defaults_only (h : e.Reachable) (now : Float) :
    (e.tickAt now).1.graph.skeleton = e.graph.skeleton ∧
    (e.tickAt now).1.graph.version = e.graph.version ∧
    ∀ v ∈ e.graph.nodes, ∃ d v', e.graph.catalog.get? v.type = some d ∧
      (e.tickAt now).1.graph.node? v.id = some v' ∧ LeftBy v' v e now d := by
  cases hrunning : e.running with
  | false =>
    rw [tickAt_of_not_running hrunning]
    refine ⟨rfl, rfl, fun v hv ↦ ?_⟩
    obtain ⟨d, hd⟩ := h.sound.exists_definition hv
    refine ⟨d, v, hd, Graph.node?_of_mem h.uniqueIds hv, .of_no_passes (fun port hfalls ↦ ?_) d⟩
    exact absurd hfalls.running (by simp [hrunning])
  | true =>
    have hversion := (resembles_graphBetween h now).version
    obtain hgraph | hgraph := graph_tickAt h.planSound hrunning now
    · rw [hgraph]
      exact ⟨e.skeleton_graphBetween now, hversion,
        fun v hv ↦ node?_graphBetween h hrunning now hv⟩
    · rw [hgraph, Graph.skeleton_clearOutputs]
      refine ⟨e.skeleton_graphBetween now, hversion, fun v hv ↦ ?_⟩
      obtain ⟨d, v', hd, hfound, hleft⟩ := node?_graphBetween h hrunning now hv
      refine ⟨d, v'.withoutOutputs, hd, ?_, hleft.withoutOutputs⟩
      rw [Graph.node?_clearOutputs, hfound, Option.map_some]

/-- The wire is unplugged, and overridden for one tick. -/
def unpluggedCalls : List HostCall :=
  [.applyEdit (.removeConnection "ab"), .start,
    .setOverride "b" .input "in" (.number 0.5) (some 1.0) 0.0, .tick 0.0]

/-- The override is not stored in its tick, and the default is in the next. -/
theorem tick_writes_defaults_only_unplugged :
    ((sampleEngine.run unpluggedCalls).1.graph.node? "b").map Node.inputValues = some [] ∧
    ∃ v', ((sampleEngine.run unpluggedCalls).1.tickAt 1.0).1.graph.node? "b" = some v' ∧
      v'.inputValues.get? "in" = some .null := by
  have hv : ({ id := "b", type := "wire", outputValues := [("out", .number 0.5)] } : Node) ∈
      (sampleEngine.run unpluggedCalls).1.graph.nodes := .tail _ (.head _)
  obtain ⟨-, -, hnodes⟩ :=
    tick_writes_defaults_only (reachable_sampleEngine.run unpluggedCalls) 1.0
  obtain ⟨d, v', hd, hfound, hleft⟩ := hnodes _ hv
  obtain rfl := Option.some.inj hd
  exact ⟨rfl, v', hfound, hleft.stored "in" ⟨rfl, ⟨_, rfl⟩, rfl, rfl, rfl⟩⟩

end Engine

end CueFlow
