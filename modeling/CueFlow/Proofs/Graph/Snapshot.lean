import CueFlow.Proofs.Graph.Generation
import CueFlow.Proofs.Graph.Valid
/-!
# Snapshots that stand for a graph

A snapshot is plain data, and a load may leave some of it out or refuse it. A snapshot *stands for*
a graph if its content, taken as it is, makes a valid one (`GraphState.graphIn`, `Graph.Valid`).
Such a snapshot loads as that graph, with nothing left out, under either policy (`load_of_valid`).

Whatever a host has built is valid, and its snapshot stands for it. So it reloads as it is, up to
the count of changes, which begins anew and on which no plan hangs; and what has been loaded once
loads as itself (`snapshot_reloads`).
-/

namespace CueFlow

/-- The graph that the content of a snapshot makes, taken as it is. -/
def GraphState.graphIn (s : GraphState) (catalog : Catalog) : Graph where
  catalog
  nodes := s.nodes
  connections := s.connections
  version := s.version

namespace Graph

variable {g : Graph} {catalog : Catalog} {s : GraphState}

@[simp] theorem snapshot_graphIn (s : GraphState) (catalog : Catalog) :
    (s.graphIn catalog).snapshot = s := rfl

namespace Valid

variable (h : g.Valid catalog)

include h

theorem uniqueIds : g.UniqueIds := h.nodeIds

theorem sound : g.Sound := ⟨h.catalog_eq ▸ h.types, h.fits⟩

/-- Two connections into one compute input would be one connection. -/
theorem wired : g.Wired := by
  refine ⟨h.connectionIds, (List.Nodup.of_map _ h.connectionIds).pairwise_of_forall_ne ?_⟩
  intro c hc c' hc' hne htarget hport
  by_contra hcompute
  exact hne (h.single c hc c' hc' htarget hport (by simpa using hcompute))

/-- What is valid is so whatever has been counted. -/
theorem reloaded : g.reloaded.Valid catalog :=
  ⟨h.catalog_eq, h.nodeIds, h.types, h.connectionIds, h.fits, h.single⟩

end Valid

/-- **A snapshot that stands for a graph loads as that graph**, under either policy. -/
theorem load_of_valid (h : (s.graphIn catalog).Valid catalog) (policy : LoadPolicy) :
    Graph.load catalog s policy = .ok (s.graphIn catalog, {}) :=
  load_snapshot h.uniqueIds h.sound h.wired policy

/-- A valid graph can be built, up to the count of changes. -/
theorem Valid.buildable (h : g.Valid catalog) : g.reloaded.Buildable := by
  obtain rfl := h.catalog_eq
  exact .load (load_of_valid (s := g.snapshot) h.reloaded .strict)

/-- **A snapshot reloads as it is**, with nothing left out. The graph that it loads as has the same
nodes and connections in the same order and the same version, hence the same snapshot, and it
compiles to the same plan or is refused for the same cycle. A graph that has just been loaded,
strictly or leniently, loads from its snapshot as itself. -/
theorem snapshot_reloads (hg : g.Buildable) (policy : LoadPolicy) :
    (∃ g', Graph.load g.catalog g.snapshot policy = .ok (g', {}) ∧ g'.nodes = g.nodes ∧
      g'.connections = g.connections ∧ g'.version = g.version ∧ g'.snapshot = g.snapshot ∧
      g'.compile.map Plan.content = g.compile.map Plan.content) ∧
    ∀ catalog state policy' report, Graph.load catalog state policy' = .ok (g, report) →
      Graph.load catalog g.snapshot policy = .ok (g, {}) := by
  have hload : Graph.load g.catalog g.snapshot policy = .ok (g.reloaded, {}) :=
    load_of_valid hg.valid.reloaded policy
  refine ⟨⟨g.reloaded, hload, rfl, rfl, rfl, rfl, g.content_compile_reloaded⟩, ?_⟩
  intro catalog state policy' report hfirst
  rwa [catalog_of_load hfirst, reloaded_of_load hfirst] at hload

/-- The sample as it has been edited reloads, and so does what a lenient load has made of an untidy
snapshot. -/
theorem snapshot_reloads_swapped :
    (∃ g', Graph.load sampleCatalog (sampleGraph.afterEdits swapEdits).snapshot .strict =
        .ok (g', {}) ∧ g'.connections = [⟨"ab", "a", "out", "b", "in"⟩] ∧
      g'.version = (sampleGraph.afterEdits swapEdits).version ∧ g'.version ≠ 0) ∧
    Graph.load sampleCatalog untidySnapshot .lenient =
      .ok (sampleGraph, ⟨["a", "d"], ["ab", "ad", "cb"]⟩) ∧
    Graph.load sampleCatalog sampleGraph.snapshot .strict = .ok (sampleGraph, {}) := by
  have hload : Graph.load sampleCatalog untidySnapshot .lenient =
      .ok (sampleGraph, ⟨["a", "d"], ["ab", "ad", "cb"]⟩) := rfl
  have hbuildable : sampleGraph.Buildable := .load hload
  obtain ⟨⟨g', hreload, -, hconnections, hversion, -⟩, -⟩ :=
    snapshot_reloads (hbuildable.afterEdits swapEdits) .strict
  obtain ⟨-, hagain⟩ := snapshot_reloads hbuildable .strict
  refine ⟨⟨g', hreload, hconnections, hversion, ?_⟩, hload, hagain _ _ _ _ hload⟩
  rw [hversion]
  decide

end Graph

end CueFlow
