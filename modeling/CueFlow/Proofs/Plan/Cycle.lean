import CueFlow.Proofs.Graph.Snapshot
import CueFlow.Proofs.Plan.Order
import Mathlib.Data.List.Induction
/-!
# What a refused compilation names

A graph in which computations feed each other in a circle is refused, and the refusal names the
nodes that could not be ordered. In a valid graph places and ids are two names of one thing, and the
dependencies are what feeds what (`named_dependencies`); so a compilation either succeeds or names
the ids of the places that the schedule leaves out (`compile_of_stuck`, `compile_cases`). These are
the nodes on a cycle and the nodes behind one, in their order in the graph (`compile_eq_cycle`).
-/

namespace CueFlow

/-- The places of a list lead to its entries in order. -/
theorem filterMap_range_getElem? {α : Type*} (l : List α) :
    (List.range l.length).filterMap (l[·]?) = l := by
  induction l using List.reverseRecOn with
  | nil => rfl
  | append_singleton l a ih =>
    have hfront : (List.range l.length).filterMap ((l ++ [a])[·]?) = l := by
      refine (List.filterMap_congr fun i hi ↦ ?_).trans ih
      exact List.getElem?_append_left (List.mem_range.1 hi)
    rw [List.length_append, List.length_singleton, List.range_succ, List.filterMap_append, hfront]
    simp

namespace Graph

variable {g : Graph} {catalog : Catalog}

/-! ### Places and ids -/

theorem indexOf?_of_map_id (hids : g.UniqueIds) {i : Nat} {v : NodeId}
    (h : (g.nodes[i]?).map Node.id = some v) : g.indexOf? v = some i := by
  obtain ⟨n, hn, rfl⟩ := Option.map_eq_some_iff.1 h
  exact indexOf?_of_getElem? hids hn

/-- The dependencies of a graph are what feeds what, by the places of nodes. -/
theorem named_dependencies (hids : g.UniqueIds) (hg : g.Sound) :
    g.dependencies.Named (fun i ↦ (g.nodes[i]?).map Node.id) g.Feeds := by
  constructor
  · intro i j v hi hj
    have hplace := indexOf?_of_map_id hids hi
    rw [indexOf?_of_map_id hids hj] at hplace
    exact (Option.some.inj hplace).symm
  · intro i j
    rw [dependencies_edge_iff]
    constructor
    · rintro ⟨c, hc, hi, hj, hport⟩
      exact ⟨_, _, map_id_of_indexOf? hi, map_id_of_indexOf? hj, c, hc, rfl, rfl, hport⟩
    · rintro ⟨_, _, hi, hj, c, hc, rfl, rfl, hport⟩
      exact ⟨c, hc, indexOf?_of_map_id hids hi, indexOf?_of_map_id hids hj, hport⟩
  · intro u w hfeeds
    obtain ⟨i, j, hi, hj, -⟩ := hfeeds.exists_edge hg
    exact ⟨⟨i, map_id_of_indexOf? hi⟩, j, map_id_of_indexOf? hj⟩

/-! ### Refused for a cycle -/

/-- The ids of the nodes that the schedule leaves out. -/
def stuckIds (g : Graph) : List NodeId :=
  g.dependencies.unscheduled.filterMap fun i ↦ (g.nodes[i]?).map Node.id

theorem compile_of_stuck (hstuck : g.dependencies.unscheduled ≠ []) :
    g.compile = .error (.cycle g.stuckIds) := by
  rw [compile]
  split
  next hall => exact absurd hall hstuck
  next => rfl

/-- A sound graph is refused for nothing but a cycle. -/
theorem compile_cases (hg : g.Sound) :
    (∃ plan, g.compile = .ok plan) ∨ g.compile = .error (.cycle g.stuckIds) := by
  by_cases hall : g.dependencies.unscheduled = []
  · obtain ⟨steps, hsteps⟩ := exists_planSteps hg.types g.dependencies.schedule
    exact .inl ⟨_, compile_eq_ok_iff.2 ⟨hall, steps, hsteps, rfl⟩⟩
  · exact .inr (compile_of_stuck hall)

/-- What is left out stands in the order of the graph. -/
theorem stuckIds_sublist (g : Graph) : g.stuckIds.Sublist (g.nodes.map Node.id) := by
  have hall : (List.range g.nodes.length).filterMap (fun i ↦ (g.nodes[i]?).map Node.id) =
      g.nodes.map Node.id := by
    rw [← List.map_filterMap, filterMap_range_getElem?]
  rw [← hall]
  exact List.filter_sublist.filterMap _

/-- **What is left out lies on a cycle or behind one.** -/
theorem mem_stuckIds_iff (hids : g.UniqueIds) (hg : g.Sound) {v : NodeId} : v ∈ g.stuckIds ↔
    ∃ u, Relation.TransGen g.Feeds u u ∧ Relation.ReflTransGen g.Feeds u v := by
  have hnamed := named_dependencies hids hg
  rw [stuckIds, hnamed.mem_filterMap_unscheduled_iff g.inRange_dependencies]
  refine and_iff_right_of_imp ?_
  rintro ⟨u, hcycle, hreach⟩
  -- On a cycle and behind one, something feeds the node, so the node is there.
  obtain ⟨w, -, hfeeds⟩ := Relation.TransGen.tail'_iff.1 (hcycle.trans_left hreach)
  obtain ⟨-, j, hj⟩ := hnamed.exists_name hfeeds
  obtain ⟨n, hn, -⟩ := Option.map_eq_some_iff.1 hj
  exact ⟨j, (List.getElem?_eq_some_iff.1 hn).1, hj⟩

/-- **The refusal of a cycle is exact.** A valid graph in which some node feeds itself, directly or
through others, is refused, and the refusal names exactly the nodes that lie on such a cycle or are
fed from one, directly or through others: each of them once, in the order of the graph. -/
theorem compile_eq_cycle (hg : g.Valid catalog)
    (hcycle : ∃ v, Relation.TransGen g.Feeds v v) :
    ∃ ids, g.compile = .error (.cycle ids) ∧ ids.Sublist (g.nodes.map Node.id) ∧ ids.Nodup ∧
      ∀ v, v ∈ ids ↔ ∃ u, Relation.TransGen g.Feeds u u ∧ Relation.ReflTransGen g.Feeds u v := by
  refine ⟨g.stuckIds, ?_, g.stuckIds_sublist, g.stuckIds_sublist.nodup hg.nodeIds,
    fun v ↦ mem_stuckIds_iff hg.uniqueIds hg.sound⟩
  refine (compile_cases hg.sound).resolve_left fun hcompile ↦ ?_
  obtain ⟨v, hv⟩ := hcycle
  exact (exists_compile_iff hg.sound).1 hcompile v hv

/-- Two wires feed each other, and one of them a third, which feeds a lamp. -/
def circleGraph : Graph where
  catalog := sampleCatalog
  nodes := [{ id := "a", type := "level" }, { id := "d", type := "wire" },
    { id := "c", type := "wire" }, { id := "b", type := "wire" }, { id := "e", type := "lamp" }]
  connections := [⟨"bc", "b", "out", "c", "in"⟩, ⟨"cb", "c", "out", "b", "in"⟩,
    ⟨"cd", "c", "out", "d", "in"⟩, ⟨"de", "d", "out", "e", "in"⟩]

/-- The third wire is named with the two, and the lamp is not: it is only delivered to. -/
theorem compile_eq_cycle_circleGraph : circleGraph.Valid sampleCatalog ∧
    Relation.TransGen circleGraph.Feeds "b" "b" ∧
    circleGraph.compile = .error (.cycle ["d", "c", "b"]) ∧
    (∃ u, Relation.TransGen circleGraph.Feeds u u ∧
      Relation.ReflTransGen circleGraph.Feeds u "d") ∧
    ¬ ∃ u, Relation.TransGen circleGraph.Feeds u u ∧
      Relation.ReflTransGen circleGraph.Feeds u "e" := by
  have hload : Graph.load sampleCatalog circleGraph.snapshot .strict = .ok (circleGraph, {}) := rfl
  have hvalid : circleGraph.Valid sampleCatalog := (Buildable.load hload).valid
  have hfeeds : circleGraph.Feeds "b" "c" :=
    ⟨⟨"bc", "b", "out", "c", "in"⟩, by decide, rfl, rfl, _, rfl, rfl⟩
  have hback : circleGraph.Feeds "c" "b" :=
    ⟨⟨"cb", "c", "out", "b", "in"⟩, by decide, rfl, rfl, _, rfl, rfl⟩
  have hcycle : Relation.TransGen circleGraph.Feeds "b" "b" := .tail (.single hfeeds) hback
  obtain ⟨ids, hrefused, -, -, hmem⟩ := compile_eq_cycle hvalid ⟨"b", hcycle⟩
  have hids : circleGraph.compile = .error (.cycle ["d", "c", "b"]) := rfl
  obtain rfl : ids = ["d", "c", "b"] :=
    EngineError.cycle.inj (Except.error.inj (hrefused.symm.trans hids))
  exact ⟨hvalid, hcycle, hids, (hmem "d").1 (by decide),
    fun h ↦ absurd ((hmem "e").2 h) (by decide)⟩

end Graph

end CueFlow
