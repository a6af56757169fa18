import CueFlow.Proofs.Graph.Part
import CueFlow.Proofs.Graph.Snapshot
import CueFlow.Proofs.Partition.LoopExport
import CueFlow.Proofs.Partition.Patch
/-!
# Exports stand on their own

What is exported from a graph, a loop or a patch, has nodes of the graph and connections of the
graph among them, so it is a part of the graph (`isPartIn_of_exportLoop`, `isPartIn_of_isPartOf`).
The checks of a load ask nothing of a part that they have not asked of the graph, so it loads with
nothing left out, under the strictest policy (`load_of_isPartIn`).

The loop of a device is a cycle of connections, which runs through a point of delivery if the graph
compiles. A part has no cycle that the graph does not have, so that the loop then compiles as well.
A patch compiles in any case: what feeds a node in it has been followed, and a cycle of connections
that have been followed is what an export is refused for (`supplies_of_feeds`).
-/

namespace CueFlow

namespace Graph

variable {g : Graph} {catalog : Catalog} {policy : PartitionPolicy} {s : GraphState}
  {loop : LocalLoop} {roots : List NodeId} {p : PatchExport} {u w : NodeId}

/-- **A part of a valid graph loads as it is.** -/
theorem load_of_isPartIn (hg : g.Valid catalog) (hids : s.ids.Nodup)
    (hpart : (s.graphIn catalog).IsPartIn g) (policy : LoadPolicy) :
    Graph.load catalog s policy = .ok (s.graphIn catalog, {}) :=
  load_snapshot (g := s.graphIn catalog) hids (hpart.sound hids hg.sound) (hpart.wired hg.wired)
    policy

/-! ### Loops -/

/-- What a loop exports is a part of the graph. -/
theorem isPartIn_of_exportLoop (hg : g.UniqueIds)
    (hloop : loop ∈ detectLocalLoops g.snapshot policy)
    (h : exportLoop g.snapshot loop policy = .ok s) :
    s.ids.Nodup ∧ (s.graphIn g.catalog).IsPartIn g := by
  obtain ⟨u, -, -, -, hisOf⟩ := (mem_detectLocalLoops hg.nodup_ids).1 hloop
  have hclass := isClassOf_of_exportLoop hg.nodup_ids hisOf h
  constructor
  · rw [ids_of_exportLoop h]
    exact hisOf.nodes_sorted.imp ne_of_lt
  · refine .of_nodes hg rfl (fun n hn ↦ ?_) ?_ fun c hc ↦ ((hclass.mem_connections c).1 hc).2
    · obtain ⟨m, hm, -, rfl⟩ := (hclass.mem_nodes n).1 hn
      exact ⟨m, hm, rfl, rfl⟩
    · show s.connections.Sublist g.connections
      rw [(exportLoop_eq_ok_iff.1 h).2.1]
      exact List.filter_sublist

/-! ### Patches -/

/-- What a patch is made of is a part of the graph. -/
theorem isPartIn_of_isPartOf (hg : g.UniqueIds) (h : p.IsPartOf g policy roots) :
    (p.graph.graphIn g.catalog).IsPartIn g := by
  refine .of_nodes hg rfl (fun n hn ↦ ?_) ?_ h.no_dangling
  · obtain ⟨m, hm, -, rfl⟩ := (h.mem_nodes n).1 hn
    exact ⟨m, hm, rfl, rfl⟩
  · show p.graph.connections.Sublist g.connections
    rw [h.connections]
    exact List.filter_sublist

/-- What feeds a node in the patch has been followed into it. -/
theorem supplies_of_feeds (h : p.IsPartOf g policy roots)
    (hfeeds : (p.graph.graphIn catalog).Feeds u w) : g.Supplies policy roots u w := by
  obtain ⟨c, hc, hu, hw, -⟩ := hfeeds
  have hmem : c ∈ p.graph.connections := hc
  rw [h.connections] at hmem
  have hkept : g.Followed policy c ∧ g.Needed policy roots c.target := by
    simpa using (List.mem_filter.1 hmem).2
  exact ⟨c, hkept.1, hu, hw, hw ▸ hkept.2⟩

/-- **Exports stand on their own.** From a valid graph, an exported loop loads strictly with nothing
left out, and compiles if the graph does; an exported patch loads so, and compiles in any case. -/
theorem exports_stand_alone (hg : g.Valid catalog) (policy : PartitionPolicy) :
    (∀ loop ∈ detectLocalLoops g.snapshot policy, ∀ s,
      exportLoop g.snapshot loop policy = .ok s →
      ∃ part, Graph.load catalog s .strict = .ok (part, {}) ∧ part.snapshot = s ∧
        ((∃ plan, g.compile = .ok plan) → ∃ plan, part.compile = .ok plan)) ∧
    ∀ roots p, exportPatch g.snapshot catalog roots policy = .ok p →
      ∃ part, Graph.load catalog p.graph .strict = .ok (part, {}) ∧ part.snapshot = p.graph ∧
        ∃ plan, part.compile = .ok plan := by
  obtain rfl := hg.catalog_eq
  constructor
  · intro loop hloop s hexport
    obtain ⟨hids, hpart⟩ := isPartIn_of_exportLoop hg.uniqueIds hloop hexport
    exact ⟨_, load_of_isPartIn hg hids hpart .strict, rfl, hpart.exists_compile hids hg.sound⟩
  · intro roots p hexport
    -- The count of changes does not matter to an export.
    have hbuildable : g.reloaded.Buildable := hg.buildable
    have hpartOf : p.IsPartOf g.reloaded policy roots := isPartOf_of_exportPatch hbuildable hexport
    have hpart := isPartIn_of_isPartOf hbuildable.uniqueIds hpartOf
    have hload := load_of_isPartIn hg.reloaded hpartOf.nodup hpart .strict
    have hsound := hpart.sound hpartOf.nodup hbuildable.sound
    refine ⟨_, hload, rfl, (exists_compile_iff hsound).2 fun v hcycle ↦ ?_⟩
    exact not_transGen_of_exportPatch hbuildable hexport v
      (hcycle.lift id fun _ _ ↦ supplies_of_feeds hpartOf)

/-! ### A torch and a speaker -/

/-- The sensors of a phone set its torch, which a number dims. The number also feeds a speaker. -/
def torchGraph : Graph where
  catalog := .ofDefinitions [
    { type := "number", outputs := [{ id := "value", type := .number }] },
    { type := "client"
      inputs := [{ id := "cmd", type := .command, kind := .sink }]
      outputs := [{ id := "device", type := .client }] },
    { type := "client-sensors"
      inputs := [{ id := "client", type := .client }]
      outputs := [{ id := "value", type := .number }] },
    { type := "flashlight"
      inputs := [{ id := "level", type := .number }, { id := "dim", type := .number }]
      outputs := [{ id := "cmd", type := .command }] },
    { type := "audio-out", inputs := [{ id := "level", type := .number }] }]
  nodes := [{ id := "t", type := "flashlight" }, { id := "n", type := "number" },
    { id := "p", type := "client" }, { id := "s", type := "client-sensors" },
    { id := "a", type := "audio-out" }]
  connections := [⟨"nt", "n", "value", "t", "dim"⟩, ⟨"tp", "t", "cmd", "p", "cmd"⟩,
    ⟨"ps", "p", "device", "s", "client"⟩, ⟨"st", "s", "value", "t", "level"⟩,
    ⟨"na", "n", "value", "a", "level"⟩]

/-- The loop of the phone, whose feedback is a delivery, loads and compiles without the number; so
does the patch of the speaker. -/
theorem exports_stand_alone_torch :
    (∃ loop s part, loop ∈ detectLocalLoops torchGraph.snapshot .standard ∧
      exportLoop torchGraph.snapshot loop .standard = .ok s ∧
      s.connections.map Connection.id = ["tp", "ps", "st"] ∧
      Graph.load torchGraph.catalog s .strict = .ok (part, {}) ∧
      ∃ plan, part.compile = .ok plan) ∧
    ∃ p part, exportPatch torchGraph.snapshot torchGraph.catalog ["a"] .standard = .ok p ∧
      p.graph.ids = ["a", "n"] ∧
      Graph.load torchGraph.catalog p.graph .strict = .ok (part, {}) ∧
      ∃ plan, part.compile = .ok plan := by
  have hload : Graph.load torchGraph.catalog torchGraph.snapshot .strict =
      .ok (torchGraph, {}) := rfl
  have hvalid : torchGraph.Valid torchGraph.catalog := (Buildable.load hload).valid
  have hcompile : ∃ plan, torchGraph.compile = .ok plan := ⟨_, rfl⟩
  obtain ⟨hloops, hpatches⟩ := exports_stand_alone hvalid .standard
  constructor
  · have hloop : ∃ loop,
        LocalLoop.ofMembers? .standard (torchGraph.snapshot.members [3, 2, 0]) = some loop ∧
          loop.nodes = sortTexts ["s", "p", "t"] := ⟨_, rfl, rfl⟩
    obtain ⟨loop, hloop, hnodes⟩ := hloop
    have hmem : loop ∈ detectLocalLoops torchGraph.snapshot .standard :=
      mem_detectLocalLoops_iff_group.2 ⟨[3, 2, 0], by decide, rfl, hloop⟩
    have hsorted : loop.nodes = ["p", "s", "t"] :=
      hnodes.trans (sortTexts_of_perm (by decide) (by decide))
    have hexport : ∃ s, exportLoop torchGraph.snapshot loop .standard = .ok s ∧
        s.connections.map Connection.id = ["tp", "ps", "st"] := by
      rw [exportLoop, hsorted]
      exact ⟨_, rfl, rfl⟩
    obtain ⟨s, hs, hconnections⟩ := hexport
    obtain ⟨part, hpart, -, hcompiles⟩ := hloops loop hmem s hs
    exact ⟨loop, s, part, hmem, hs, hconnections, hpart, hcompiles hcompile⟩
  · have hexport : ∃ p,
        exportPatch torchGraph.snapshot torchGraph.catalog ["a"] .standard = .ok p ∧
          p.graph.ids = ["a", "n"] := ⟨_, rfl, rfl⟩
    obtain ⟨p, hp, hids⟩ := hexport
    obtain ⟨part, hpart, -, hcompiles⟩ := hpatches ["a"] p hp
    exact ⟨p, part, hp, hids, hpart, hcompiles⟩

end Graph

end CueFlow
