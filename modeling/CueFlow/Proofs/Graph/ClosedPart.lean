import CueFlow.Proofs.Engine.Dataflow
import CueFlow.Proofs.Engine.Gather
import CueFlow.Proofs.Graph.Part
/-!
# Closed parts of a graph

A part of a graph is closed if it has all connections into its nodes, and the sources of these with
them (`Graph.IsClosedIn`). It is then a part in the sense of `Graph.IsPartIn` (`isPartIn`), and
whatever is looked up for a node of the part by following connections backwards is the same in the
part as in the graph: what feeds an input (`feed?_eq`), whether anything is connected
(`isWired_eq`), and, if the nodes have the same content in both, the values that arrive
(`upstream?_eq`, `gathered?_eq`).
-/

namespace CueFlow

namespace Graph

/-- The part has nodes of the graph, all connections into them, and no connection from outside. The
content of the nodes does not matter. -/
structure IsClosedIn (part g : Graph) : Prop where
  catalog : part.catalog = g.catalog
  type : ∀ v, (part.node? v).isSome → (part.node? v).map Node.type = (g.node? v).map Node.type
  connections : part.connections = g.connections.filter fun c ↦ (part.node? c.target).isSome
  source : ∀ c ∈ part.connections, (part.node? c.source).isSome

variable {part part' g g' : Graph} {v : NodeId}

theorem map_type_node?_congr (hskel : g'.skeleton = g.skeleton) (v : NodeId) :
    (g'.node? v).map Node.type = (g.node? v).map Node.type := by
  have hbare := congrArg (fun k : Graph ↦ (k.node? v).map Node.type) hskel
  simpa only [skeleton_node?, Option.map_map, Function.comp_def, Node.bare_type] using hbare

theorem isSome_endpoints? (g : Graph) (c : Connection) :
    (g.endpoints? c).isSome = ((g.node? c.source).isSome && (g.node? c.target).isSome) := by
  rw [← isSome_indexOf?, ← isSome_indexOf?, endpoints?]
  cases g.indexOf? c.source <;> cases g.indexOf? c.target <;> rfl

namespace IsClosedIn

/-- Running the part or the graph does not open the part. -/
theorem congr (h : part.IsClosedIn g) (hpart : part'.skeleton = part.skeleton)
    (hg : g'.skeleton = g.skeleton) : part'.IsClosedIn g' := by
  have hsome := isSome_node?_congr hpart
  refine ⟨?_, fun v hv ↦ ?_, ?_, fun c hc ↦ ?_⟩
  · rw [catalog_congr hpart, catalog_congr hg, h.catalog]
  · rw [hsome] at hv
    rw [map_type_node?_congr hpart, map_type_node?_congr hg, h.type v hv]
  · rw [connections_congr hpart, connections_congr hg, h.connections]
    simp only [hsome]
  · rw [connections_congr hpart] at hc
    rw [hsome]
    exact h.source c hc

section

variable (h : part.IsClosedIn g)

include h

theorem mem_connections_iff {c : Connection} :
    c ∈ part.connections ↔ c ∈ g.connections ∧ (part.node? c.target).isSome := by
  rw [h.connections, List.mem_filter]

/-- A closed part is a part. -/
theorem isPartIn : part.IsPartIn g := by
  refine ⟨h.catalog, h.type, ?_, fun c hc ↦ ⟨h.source c hc, (h.mem_connections_iff.1 hc).2⟩⟩
  rw [h.connections]
  exact List.filter_sublist

/-- The connections of the part into a kind of port are those of the graph into its nodes. -/
theorem connectionsInto_eq (kind : PortKind) : part.connectionsInto kind =
    (g.connectionsInto kind).filter fun c ↦ (part.node? c.target).isSome := by
  rw [connectionsInto, h.connections, List.filter_filter, connectionsInto, List.filter_filter]
  refine List.filter_congr fun c hc ↦ ?_
  cases htarget : (part.node? c.target).isSome with
  | false => rw [Bool.and_false, Bool.false_and]
  | true =>
    have hsource := h.source c (h.mem_connections_iff.2 ⟨hc, htarget⟩)
    rw [isSome_endpoints?, isSome_endpoints?, htarget, hsource, h.isPartIn.isSome_node? htarget,
      h.isPartIn.isSome_node? hsource, h.isPartIn.targetPort?_eq htarget, Bool.and_true]
    simp only [Bool.true_and]

/-! ### What is looked up backwards -/

omit h in
/-- What leads to a node of the part is let through. -/
theorem and_target (hv : (part.node? v).isSome) (c : Connection) (b : Bool) :
    ((part.node? c.target).isSome && (c.target == v && b)) = (c.target == v && b) := by
  by_cases htarget : c.target = v
  · rw [htarget, hv, Bool.true_and]
  · simp [htarget]

theorem feed?_eq (hv : (part.node? v).isSome) (port : String) :
    part.feed? v port = g.feed? v port := by
  rw [feed?, h.connectionsInto_eq, List.find?_filter, feed?]
  simp only [← Bool.and_eq_true, Bool.decide_eq_true, and_target hv]

theorem isWired_eq (hv : (part.node? v).isSome) : part.isWired v = g.isWired v := by
  have htarget : ∀ c : Connection,
      ((part.node? c.target).isSome && c.target == v) = (c.target == v) := by
    intro c
    have hall := and_target hv c true
    rwa [Bool.and_true] at hall
  rw [isWired, h.connectionsInto_eq, List.any_filter, isWired]
  simp only [htarget]

/-- What feeds a node of the part lies in the part. -/
theorem source_of_feed? {port : String} {c : Connection} (hfeed : part.feed? v port = some c) :
    part.Feeds c.source v ∧ (part.node? c.source).isSome := by
  have hmem := (List.mem_filter.1 (List.mem_of_find?_eq_some hfeed)).1
  obtain ⟨-, hkind, htarget, -⟩ := feeds_of_feed? hfeed
  obtain ⟨p, hp, hkind⟩ := Option.any_eq_true _ _ |>.1 hkind
  exact ⟨⟨c, hmem, rfl, htarget, p, hp, by simpa using hkind⟩, h.source c hmem⟩

/-- The value at the source of an input, if the source has the same content in both. -/
theorem upstream?_eq (hv : (part.node? v).isSome) {port : String}
    (hsource : ∀ u, part.Feeds u v → (part.node? u).isSome → part.node? u = g.node? u) :
    part.upstream? v port = g.upstream? v port := by
  rw [upstream?, upstream?, ← h.feed?_eq hv]
  cases hfeed : part.feed? v port with
  | none => rfl
  | some c =>
    obtain ⟨hfeeds, hmem⟩ := h.source_of_feed? hfeed
    rw [Option.bind_some, Option.bind_some, hsource c.source hfeeds hmem]

/-- What a point of delivery gathers, if all nodes have the same content in both. -/
theorem gathered?_eq (hv : (part.node? v).isSome)
    (hsame : ∀ u, (part.node? u).isSome → part.node? u = g.node? u) (port : String) :
    part.gathered? v port = g.gathered? v port := by
  have hinto : ((part.connectionsInto .sink).filter fun c ↦
        c.target == v && c.targetPort == port) =
      (g.connectionsInto .sink).filter fun c ↦ c.target == v && c.targetPort == port := by
    rw [h.connectionsInto_eq, List.filter_filter]
    refine List.filter_congr fun c _ ↦ ?_
    rw [Bool.and_comm, and_target hv]
  rw [gathered?, gathered?, produced, produced, ← hinto]
  refine congrArg gatherAll (List.filterMap_congr fun c hc ↦ ?_)
  have hmem := (List.mem_filter.1 (List.mem_filter.1 hc).1).1
  rw [hsame c.source (h.source c hmem)]

end

end IsClosedIn

end Graph

end CueFlow
