import CueFlow.Proofs.Graph.Wired
import CueFlow.Proofs.Plan.Order
/-!
# Parts of a graph

A part of a graph has some of its nodes and, among these, some of its connections in their order
(`Graph.IsPartIn`). The content of the nodes does not matter. What is looked up by ids is the same
in the part as in the graph (`definitionOf?_eq`, `targetPort?_eq`), so what the checks of a load ask
for is handed down: the part is sound and wired (`sound`, `wired`), and as it has no cycle that the
graph does not have, it compiles if the graph does (`exists_compile`).
-/

namespace CueFlow

namespace Graph

/-- The part has nodes of the graph, and connections of the graph among them in the same order. -/
structure IsPartIn (part g : Graph) : Prop where
  catalog : part.catalog = g.catalog
  type : ∀ v, (part.node? v).isSome → (part.node? v).map Node.type = (g.node? v).map Node.type
  connections : part.connections.Sublist g.connections
  inside : ∀ c ∈ part.connections, (part.node? c.source).isSome ∧ (part.node? c.target).isSome

variable {part g : Graph} {v : NodeId}

namespace IsPartIn

/-- Nodes with the ids and types of nodes of the graph make a part, with connections of the graph
among them. -/
theorem of_nodes (hg : g.UniqueIds) (hcatalog : part.catalog = g.catalog)
    (hnodes : ∀ n ∈ part.nodes, ∃ m ∈ g.nodes, n.id = m.id ∧ n.type = m.type)
    (hconnections : part.connections.Sublist g.connections)
    (hinside : ∀ c ∈ part.connections,
      c.source ∈ part.nodes.map Node.id ∧ c.target ∈ part.nodes.map Node.id) :
    part.IsPartIn g := by
  refine ⟨hcatalog, fun v hv ↦ ?_, hconnections, fun c hc ↦ ?_⟩
  · obtain ⟨n, hn⟩ := Option.isSome_iff_exists.1 hv
    obtain ⟨m, hm, hid, htype⟩ := hnodes n (List.mem_of_find?_eq_some hn)
    rw [hn, ← id_of_node? hn, hid, node?_of_mem hg hm, Option.map_some, Option.map_some, htype]
  · rw [node?_isSome_iff, node?_isSome_iff]
    exact hinside c hc

section

variable (h : part.IsPartIn g)

include h

/-- A node of the part is a node of the graph. -/
theorem isSome_node? (hv : (part.node? v).isSome) : (g.node? v).isSome := by
  have hsome := congrArg Option.isSome (h.type v hv)
  rw [Option.isSome_map, Option.isSome_map] at hsome
  rwa [← hsome]

/-- A node of the part is of the same definition as in the graph. -/
theorem definitionOf?_eq (hv : (part.node? v).isSome) :
    part.definitionOf? v = g.definitionOf? v := by
  have htype : ∀ k : Graph,
      k.definitionOf? v = ((k.node? v).map Node.type).bind k.catalog.get? := by
    intro k
    rw [Option.bind_map]
    rfl
  rw [htype, htype, h.type v hv, h.catalog]

/-- A connection into the part leads to the same port as in the graph. -/
theorem targetPort?_eq {c : Connection} (hc : (part.node? c.target).isSome) :
    part.targetPort? c = g.targetPort? c := by
  rw [targetPort?, h.definitionOf?_eq hc, targetPort?]

/-- A part of a sound graph is sound. -/
theorem sound (hids : part.UniqueIds) (hg : g.Sound) : part.Sound := by
  refine ⟨fun n hn ↦ ?_, fun c hc ↦ ?_⟩
  · have hfound := node?_of_mem hids hn
    have hsome : (part.node? n.id).isSome := by rw [hfound]; rfl
    have htype := h.type n.id hsome
    rw [hfound, Option.map_some, eq_comm, Option.map_eq_some_iff] at htype
    obtain ⟨m, hm, htype⟩ := htype
    rw [h.catalog, ← htype]
    exact hg.types m (List.mem_of_find?_eq_some hm)
  · obtain ⟨hsource, htarget⟩ := h.inside c hc
    obtain ⟨source, target, output, input, hsourceOf, htargetOf, hports⟩ :=
      hg.fits c (h.connections.mem hc)
    refine ⟨source, target, output, input, ?_, ?_, hports⟩
    · rw [h.definitionOf?_eq hsource, hsourceOf]
    · rw [h.definitionOf?_eq htarget, htargetOf]

/-- A part of a wired graph is wired. -/
theorem wired (hg : g.Wired) : part.Wired := by
  refine hg.mono h.connections fun c hc d hd ↦ ?_
  rw [h.definitionOf?_eq (h.inside c hc).2, hd]

/-- What feeds a node in the part feeds it in the graph. -/
theorem feeds {u w : NodeId} (hfeeds : part.Feeds u w) : g.Feeds u w := by
  obtain ⟨c, hc, rfl, rfl, p, hp, hkind⟩ := hfeeds
  exact ⟨c, h.connections.mem hc, rfl, rfl, p,
    (h.targetPort?_eq (h.inside c hc).2).symm.trans hp, hkind⟩

/-- **A part of a graph that compiles compiles.** -/
theorem exists_compile (hids : part.UniqueIds) (hg : g.Sound)
    (hcompile : ∃ plan, g.compile = .ok plan) : ∃ plan, part.compile = .ok plan := by
  rw [exists_compile_iff (h.sound hids hg)]
  rw [exists_compile_iff hg] at hcompile
  exact fun v hcycle ↦ hcompile v (hcycle.lift id fun _ _ ↦ h.feeds)

end

end IsPartIn

end Graph

end CueFlow
