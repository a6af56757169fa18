import CueFlow.Proofs.Engine.Calls
import Mathlib.Data.List.Pairwise
/-!
# What every graph holds

Loading and editing are two ways into a graph, each with its own checks. `Graph.Valid` is what both
of them restore: ids name one node and one connection each, types are known, connections fit, and no
compute input is fed twice. A host may send any edits, and those that are refused leave the graph as
it is (`Graph.afterEdits`), so whatever a host starts from and whatever it sends, it works on a
valid graph (`valid_afterEdits`).
-/

namespace CueFlow

namespace Graph

/-- The graph after some edits. A refused edit leaves the graph as it is. -/
def afterEdits (g : Graph) (edits : List GraphEdit) : Graph :=
  edits.foldl (fun g edit ↦ (g.apply edit).toOption.getD g) g

/-- What loading and editing restore. -/
structure Valid (catalog : Catalog) (g : Graph) : Prop where
  catalog_eq : g.catalog = catalog
  nodeIds : (g.nodes.map Node.id).Nodup
  types : ∀ n ∈ g.nodes, catalog.contains n.type = true
  connectionIds : (g.connections.map Connection.id).Nodup
  fits : ∀ c ∈ g.connections, g.Fits c
  /-- A compute input has one connection at most. -/
  single : ∀ c ∈ g.connections, ∀ c' ∈ g.connections, c.target = c'.target →
    c.targetPort = c'.targetPort → g.isSinkConnection c = false → c = c'

variable {g g' : Graph}

/-! ### The catalog stays -/

/-- An edit keeps the catalog. -/
theorem catalog_of_apply {edit : GraphEdit} (h : g.apply edit = .ok g') :
    g'.catalog = g.catalog := by
  cases editMove_of_apply h with
  | addNode | removeNode | addConnection | removeConnection | setConfig | setInputValue => rfl

/-- A load is made against the catalog that it is given. -/
theorem catalog_of_load {catalog : Catalog} {state : GraphState} {policy : LoadPolicy}
    {report : LoadReport} (h : Graph.load catalog state policy = .ok (g, report)) :
    g.catalog = catalog :=
  load_induction (P := fun g ↦ g.catalog = catalog) h rfl (fun _ _ hg _ ↦ hg) fun _ _ hg _ ↦ hg

/-! ### Edits, refused or not -/

/-- What every edit that is carried out keeps, all edits keep. -/
theorem afterEdits_induction {P : Graph → Prop}
    (hedit : ∀ g edit g', P g → g.apply edit = .ok g' → P g') (hg : P g)
    (edits : List GraphEdit) : P (g.afterEdits edits) := by
  induction edits generalizing g with
  | nil => exact hg
  | cons edit rest ih =>
    refine ih (g := (g.apply edit).toOption.getD g) ?_
    cases happly : g.apply edit with
    | ok g' => exact hedit g edit g' hg happly
    | error error => exact hg

/-- What can be built can be built on by edits. -/
theorem Buildable.afterEdits (hg : g.Buildable) (edits : List GraphEdit) :
    (g.afterEdits edits).Buildable :=
  afterEdits_induction (fun _ _ _ hg happly ↦ hg.edit happly) hg edits

/-- Edits keep the catalog, be they refused or not. -/
theorem catalog_afterEdits (edits : List GraphEdit) :
    (g.afterEdits edits).catalog = g.catalog :=
  afterEdits_induction (P := fun h ↦ h.catalog = g.catalog)
    (fun _ _ _ hg happly ↦ (catalog_of_apply happly).trans hg) rfl edits

/-! ### Validity -/

/-- One end of delivery is one, whichever connection leads there. -/
theorem isSinkConnection_congr {c c' : Connection} (htarget : c.target = c'.target)
    (hport : c.targetPort = c'.targetPort) : g.isSinkConnection c = g.isSinkConnection c' := by
  rw [isSinkConnection, isSinkConnection, targetPort?, targetPort?, htarget, hport]

instance : Std.Symm g.Apart where
  symm _ _ hapart htarget hport :=
    (isSinkConnection_congr htarget hport).trans (hapart htarget.symm hport.symm)

/-- Connections into one compute input are one connection. -/
theorem Wired.eq_of_input (h : g.Wired) {c c' : Connection} (hc : c ∈ g.connections)
    (hc' : c' ∈ g.connections) (htarget : c.target = c'.target)
    (hport : c.targetPort = c'.targetPort) (hcompute : g.isSinkConnection c = false) : c = c' := by
  by_contra hne
  have hsink := h.apart.forall hc hc' hne htarget hport
  rw [hcompute] at hsink
  cases hsink

/-- **What can be built is valid** for its own catalog. -/
theorem Buildable.valid (hg : g.Buildable) : g.Valid g.catalog where
  catalog_eq := rfl
  nodeIds := hg.uniqueIds
  types := hg.sound.types
  connectionIds := hg.wired.nodup
  fits := hg.sound.fits
  single := fun _ hc _ hc' ↦ hg.wired.eq_of_input hc hc'

/-- **Every graph is valid**, whatever it was loaded from, strictly or leniently, and whatever edits
it has been sent since, refused or not. -/
theorem valid_afterEdits {catalog : Catalog} {start : Graph}
    (hstart : start = Graph.empty catalog ∨
      ∃ state policy report, Graph.load catalog state policy = .ok (start, report))
    (edits : List GraphEdit) : (start.afterEdits edits).Valid catalog := by
  obtain ⟨hbuildable, hcatalog⟩ : start.Buildable ∧ start.catalog = catalog := by
    obtain rfl | ⟨state, policy, report, hload⟩ := hstart
    · exact ⟨.empty catalog, rfl⟩
    · exact ⟨.load hload, catalog_of_load hload⟩
  have hvalid := (hbuildable.afterEdits edits).valid
  rwa [catalog_afterEdits, hcatalog] at hvalid

/-- The sample as a lenient load finds it among entries that do not fit. -/
def untidySnapshot : GraphState where
  nodes := sampleGraph.nodes ++ [{ id := "a", type := "lamp" }, { id := "d", type := "bell" }]
  connections := sampleGraph.connections ++
    [⟨"ab", "a", "out", "c", "in"⟩, ⟨"ad", "a", "out", "d", "in"⟩, ⟨"cb", "b", "out", "b", "in"⟩]
  version := 0

/-- A wire goes, and a lamp comes back under its id: what the wire was connected to has to be
connected anew, and the connection that the lamp cannot be the source of is refused. -/
def swapEdits : List GraphEdit :=
  [.removeNode "b", .addNode { id := "b", type := "lamp" },
    .addConnection ⟨"ab", "a", "out", "b", "in"⟩, .addConnection ⟨"bc", "b", "out", "c", "in"⟩]

theorem valid_swapped :
    Graph.load sampleCatalog untidySnapshot .lenient =
      .ok (sampleGraph, ⟨["a", "d"], ["ab", "ad", "cb"]⟩) ∧
    (sampleGraph.afterEdits swapEdits).connections = [⟨"ab", "a", "out", "b", "in"⟩] ∧
    (sampleGraph.afterEdits swapEdits).Valid sampleCatalog := by
  have hload : Graph.load sampleCatalog untidySnapshot .lenient =
      .ok (sampleGraph, ⟨["a", "d"], ["ab", "ad", "cb"]⟩) := rfl
  exact ⟨hload, rfl, valid_afterEdits (.inr ⟨_, _, _, hload⟩) swapEdits⟩

end Graph

end CueFlow
