import CueFlow.Proofs.Engine.Mirror
import CueFlow.Proofs.Graph.Snapshot
import CueFlow.Proofs.Partition.Patch
/-!
# Deployed patches

A patch is exported to run on a device, by an engine of its own. If the walk has skipped no
connection into a node of the patch, the patch is a closed part of the graph (`isClosedIn_graphIn`).
It then loads as it is and compiles, and the engine on the device mirrors the engine on the whole
graph from the start (`exists_mirrors`), so it does so as long as the whole completes its ticks
(`deployed_patch_mirrors`).
-/

namespace CueFlow

/-- The graph that a patch loads as. -/
def PatchExport.graphIn (p : PatchExport) (catalog : Catalog) : Graph := p.graph.graphIn catalog

namespace PatchExport

variable {p : PatchExport} {g : Graph} {policy : PartitionPolicy} {roots : List NodeId} {v : NodeId}

theorem node?_graphIn_isSome_iff (catalog : Catalog) :
    ((p.graphIn catalog).node? v).isSome ↔ v ∈ p.graph.ids :=
  Graph.node?_isSome_iff

namespace IsPartOf

variable (h : p.IsPartOf g policy roots) (hg : g.Buildable)

include h

theorem uniqueIds : (p.graphIn g.catalog).UniqueIds := h.nodup

/-- The nodes of a patch are needed by its roots. -/
theorem needed (hv : v ∈ p.graph.ids) : g.Needed policy roots v := by
  obtain ⟨n, hn, rfl⟩ := List.mem_map.1 hv
  obtain ⟨m, -, hneeded, rfl⟩ := (h.mem_nodes n).1 hn
  exact hneeded

include hg

/-- A node of a patch is that of the graph, without its outputs. -/
theorem node?_graphIn (hv : v ∈ p.graph.ids) :
    (p.graphIn g.catalog).node? v = (g.node? v).map Node.withoutOutputs := by
  obtain ⟨n, hn, rfl⟩ := List.mem_map.1 hv
  obtain ⟨m, hm, -, rfl⟩ := (h.mem_nodes n).1 hn
  have hfound : (p.graphIn g.catalog).node? m.withoutOutputs.id = some m.withoutOutputs :=
    Graph.node?_of_mem h.uniqueIds hn
  have hid : m.withoutOutputs.id = m.id := rfl
  rw [hfound, hid, Graph.node?_of_mem hg.uniqueIds hm]
  rfl

/-- It is that of the graph if the graph has no outputs. -/
theorem node?_graphIn_of_outputs (houtputs : ∀ n ∈ g.nodes, n.outputValues = [])
    (hv : v ∈ p.graph.ids) : (p.graphIn g.catalog).node? v = g.node? v := by
  rw [h.node?_graphIn hg hv]
  cases hn : g.node? v with
  | none => rfl
  | some n =>
    have hempty := houtputs n (List.mem_of_find?_eq_some hn)
    rw [Option.map_some, Node.withoutOutputs, ← hempty]

/-- **A patch is a closed part of the graph** if no connection into its nodes is skipped. -/
theorem isClosedIn_graphIn
    (hfollowed : ∀ c ∈ g.connections, c.target ∈ p.graph.ids → g.Followed policy c) :
    (p.graphIn g.catalog).IsClosedIn g := by
  refine ⟨rfl, fun v hv ↦ ?_, ?_, fun c hc ↦ ?_⟩
  · rw [node?_graphIn_isSome_iff] at hv
    rw [h.node?_graphIn hg hv, Option.map_map]
    rfl
  · classical
    show p.graph.connections = _
    have hsame : ∀ c ∈ g.connections, (g.Followed policy c ∧ g.Needed policy roots c.target) ↔
        c.target ∈ p.graph.ids := by
      intro c hc
      refine ⟨fun hboth ↦ ?_, fun htarget ↦ ⟨hfollowed c hc htarget, h.needed htarget⟩⟩
      have hmem : c ∈ p.graph.connections := by
        rw [h.connections]
        exact List.mem_filter.2 ⟨hc, by simpa using hboth⟩
      exact (h.no_dangling c hmem).2
    rw [h.connections]
    refine List.filter_congr fun c hc ↦ ?_
    rw [Bool.eq_iff_iff, decide_eq_true_iff, node?_graphIn_isSome_iff, hsame c hc]
  · rw [node?_graphIn_isSome_iff]
    exact (h.no_dangling c hc).1

end IsPartOf

end PatchExport

/-! ### Two engines from the start -/

namespace Engine

variable {g part : Graph} {config : EngineConfig} {e e' : Engine}

/-- An engine around a snapshot has the graph of the snapshot. -/
theorem ofState_snapshot_iff (hids : g.UniqueIds) (hsound : g.Sound) (hwired : g.Wired)
    {report : LoadReport} :
    Engine.ofState g.catalog g.snapshot config = .ok (e, report) ↔
      Engine.new g.reloaded config = .ok e ∧ report = {} := by
  have hload := Graph.load_snapshot hids hsound hwired config.loadPolicy
  constructor
  · intro h
    obtain ⟨g', hload', hnew⟩ := of_ofState h
    obtain ⟨rfl, rfl⟩ := Prod.mk.inj (Except.ok.inj (hload.symm.trans hload'))
    exact ⟨hnew, rfl⟩
  · rintro ⟨hnew, rfl⟩
    exact bind_eq_ok_iff.2 ⟨_, hload, bind_eq_ok_iff.2 ⟨e, hnew, rfl⟩⟩

/-- **An engine on a closed part starts if one on the whole graph does**, and mirrors it from the
start if the nodes of the part have the same content. -/
theorem exists_mirrors (hpart : part.IsClosedIn g) (hids : part.UniqueIds)
    (hcontent : ∀ v, (part.node? v).isSome → part.node? v = g.node? v) (hg : g.Buildable)
    {report : LoadReport} (hload : Engine.ofState g.catalog g.snapshot config = .ok (e, report))
    (hstart : e.start = .ok e') :
    ∃ f f', Engine.ofState g.catalog part.snapshot config = .ok (f, {}) ∧ f.start = .ok f' ∧
      f'.graph = part.reloaded ∧ f'.Mirrors e' := by
  obtain ⟨hnew, -⟩ := (ofState_snapshot_iff hg.uniqueIds hg.sound hg.wired).1 hload
  have hnew' := new_of_new hnew part.reloaded
  have hload' := (ofState_snapshot_iff hids (hpart.isPartIn.sound hids hg.sound)
    (hpart.isPartIn.wired hg.wired)).2 ⟨hnew', rfl⟩
  rw [hpart.catalog] at hload'
  obtain ⟨plan, hplan, rfl⟩ := of_start hstart
  obtain rfl := new_eq hnew
  -- A load counts no changes, which matters neither to the part nor to what feeds what.
  have hpart' : part.reloaded.IsClosedIn g.reloaded :=
    ⟨hpart.catalog, hpart.type, hpart.connections, hpart.source⟩
  obtain ⟨plan', hplan'⟩ :=
    hpart'.isPartIn.exists_compile hids ⟨hg.sound.types, hg.sound.fits⟩ ⟨plan, hplan⟩
  refine ⟨_, _, hload', start_of_compile hplan', rfl, ?_⟩
  exact {
    part := hpart'
    content := hcontent
    running := rfl
    policy := rfl
    answers := fun _ _ _ ↦ rfl
    overrides := rfl
    thresholds := rfl
    tick_eq := rfl
    lastTickMs := rfl
    memory := fun _ _ ↦ rfl
    lastInputs := fun _ _ ↦ rfl
    observed := fun _ _ _ ↦ rfl }

end Engine

/-! ### On a device -/

namespace Graph

variable {g : Graph} {policy : PartitionPolicy} {roots : List NodeId} {p : PatchExport}

/-- **A deployed patch computes what the manager computes.** The nodes of the graph have no outputs
yet, and no connection into a node of the patch is skipped. An engine on the patch then starts if
one on the whole graph does. At whatever times both are ticked, as long as the whole completes its
ticks, so does the patch. After each of them every node of the patch is the same in both, with its
outputs and its stored inputs, and its sink hook has had the same calls in it. -/
theorem deployed_patch_mirrors (hg : g.Buildable) (houtputs : ∀ n ∈ g.nodes, n.outputValues = [])
    (hexport : exportPatch g.snapshot g.catalog roots policy = .ok p)
    (hfollowed : ∀ c ∈ g.connections, c.target ∈ p.graph.ids → g.Followed policy c)
    {config : EngineConfig} {report : LoadReport} {e e' : Engine}
    (hload : Engine.ofState g.catalog g.snapshot config = .ok (e, report))
    (hstart : e.start = .ok e') :
    ∃ f f', Engine.ofState g.catalog p.graph config = .ok (f, {}) ∧ f.start = .ok f' ∧
      ∀ times now, e'.Completes (times ++ [now]) → f'.Completes (times ++ [now]) ∧
        ∀ v ∈ p.graph.ids, ∃ n,
          ((e'.afterTicks times).tickAt now).1.graph.node? v = some n ∧
          ((f'.afterTicks times).tickAt now).1.graph.node? v = some n ∧
          sinkCallsFor ((f'.afterTicks times).tickAt now).2.2 v =
            sinkCallsFor ((e'.afterTicks times).tickAt now).2.2 v := by
  have hpart := isPartOf_of_exportPatch hg hexport
  obtain ⟨f, f', hload', hstart', hgraph, hmirrors⟩ :=
    Engine.exists_mirrors (hpart.isClosedIn_graphIn hg hfollowed) hpart.uniqueIds
      (fun v hv ↦ hpart.node?_graphIn_of_outputs hg houtputs
        ((PatchExport.node?_graphIn_isSome_iff g.catalog).1 hv)) hg hload hstart
  have hreach := (Engine.Reachable.ofState hload).start hstart
  have hreach' := (Engine.Reachable.ofState hload').start hstart'
  refine ⟨f, f', hload', hstart', fun times now hcompletes ↦ ?_⟩
  obtain ⟨hcompletes', hsame⟩ := hmirrors.run_concat hreach hreach' hcompletes
  refine ⟨hcompletes', fun v hv ↦ hsame v ?_⟩
  rw [hgraph]
  exact (PatchExport.node?_graphIn_isSome_iff g.catalog).2 hv

/-- A level feeds a speaker through a mixer. The mixer also feeds a lamp, which is no part of the
patch of the speaker but takes part in the traffic of the whole. -/
def stageGraph : Graph where
  catalog := .ofDefinitions [
    { type := "number"
      outputs := [{ id := "value", type := .number }]
      process := fun _ _ _ ↦ .ok [("value", .number 1.0)] },
    { type := "math"
      inputs := [{ id := "a", type := .number }]
      outputs := [{ id := "out", type := .number }]
      process := fun inputs _ _ ↦ .ok ((inputs.get? "a").toList.map fun v ↦ ("out", v)) },
    { type := "audio-out"
      inputs := [{ id := "level", type := .number, kind := .sink }]
      sink := some fun _ _ _ ↦ .ok () },
    { type := "lamp"
      inputs := [{ id := "in", type := .number, kind := .sink }]
      sink := some fun _ _ _ ↦ .ok () }]
  nodes := [{ id := "n", type := "number" }, { id := "l", type := "lamp" },
    { id := "x", type := "math" }, { id := "s", type := "audio-out" }]
  connections := [⟨"nx", "n", "value", "x", "a"⟩, ⟨"xl", "x", "out", "l", "in"⟩,
    ⟨"xs", "x", "out", "s", "level"⟩]

/-- The engine around the stage, at rest. -/
def stageEngine : Engine where
  graph := stageGraph
  config := {}
  watchdog := { config := .default }

/-- The device starts with the patch of the speaker and completes its first tick. The sink hook of
the speaker is called once in it, as in that of the whole, and the mixer has the same output. -/
theorem deployed_patch_mirrors_stage : ∃ p f f',
    exportPatch stageGraph.snapshot stageGraph.catalog ["s"] .standard = .ok p ∧
    p.graph.ids = ["s", "x", "n"] ∧
    Engine.ofState stageGraph.catalog p.graph {} = .ok (f, {}) ∧ f.start = .ok f' ∧
    f'.Completes [0.0] ∧ (sinkCallsFor (f'.tickAt 0.0).2.2 "s").length = 1 ∧
    (f'.tickAt 0.0).1.outputs? "x" = some [("out", .number 1.0)] := by
  have hload : Graph.load stageGraph.catalog stageGraph.snapshot .strict =
      .ok (stageGraph, {}) := rfl
  have hexport : ∃ p, exportPatch stageGraph.snapshot stageGraph.catalog ["s"] .standard = .ok p ∧
      p.graph.ids = ["s", "x", "n"] := ⟨_, rfl, rfl⟩
  obtain ⟨p, hp, hids⟩ := hexport
  have hfollowed : ∀ c ∈ stageGraph.connections, c.target ∈ p.graph.ids →
      stageGraph.Followed .standard c := by
    rw [hids]
    intro c hc htarget
    have hmem := hc
    simp only [stageGraph, List.mem_cons, List.not_mem_nil, or_false] at hc
    obtain rfl | rfl | rfl := hc
    · exact ⟨hmem, ⟨_, rfl, nofun, nofun⟩, _, rfl, by decide⟩
    · simp at htarget
    · exact ⟨hmem, ⟨_, rfl, nofun, nofun⟩, _, rfl, by decide⟩
  have hrest : Engine.ofState stageGraph.catalog stageGraph.snapshot {} =
      .ok (stageEngine, {}) := rfl
  have hstart : stageEngine.start = .ok (stageEngine.call .start).1 := rfl
  obtain ⟨f, f', hload', hstart', hticks⟩ :=
    deployed_patch_mirrors (.load hload) (by simp [stageGraph]) hp hfollowed hrest hstart
  obtain ⟨hcompletes, hsame⟩ := hticks [] 0.0 ⟨⟨_, rfl⟩, trivial⟩
  rw [hids] at hsame
  obtain ⟨-, -, -, hcalls⟩ := hsame "s" (.head _)
  obtain ⟨n, hwhole, hpatch, -⟩ := hsame "x" (.tail _ (.head _))
  refine ⟨p, f, f', hp, hids, hload', hstart', hcompletes, ?_, ?_⟩
  · exact (congrArg List.length hcalls).trans rfl
  · exact (congrArg (Option.map Node.outputValues) (hpatch.trans hwhole.symm)).trans rfl

end Graph

end CueFlow
