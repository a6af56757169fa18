import CueFlow.Proofs.Graph.Wired
import CueFlow.Proofs.Partition.LocalLoop
import CueFlow.Proofs.Partition.PatchWalk
/-!
# A patch is what its roots need

A connection is *followed* if it carries data and its source does not stay with the manager
(`Graph.Followed`). What the roots *need* is the least set with the roots and the sources of all
followed connections into it (`Graph.Needed`). The walk over places meets the needed nodes and
follows the followed connections into them, because with distinct ids places and ids are two names
of one thing (`mem_followed_iff`, `mem_patchNodes_iff`, `mem_patchConnections_iff`), and the search
for a cycle over the members finds the needed nodes on or behind a cycle (`mem_stuck_iff`). What is
followed is told connection by connection (`GraphState.followInto?`).

Connections are kept by their ids, so it matters that no id occurs twice in a graph that a host can
build (`Graph.Wired`). What an export is refused for, and in which order of precedence, is
`PatchRefusal`.
-/

namespace CueFlow

theorem PortType.isRouting_eq_false_iff {ty : PortType} :
    ty.isRouting = false ↔ ty ≠ .client ∧ ty ≠ .command := by
  cases ty <;> decide

namespace Graph

variable (g : Graph) (policy : PartitionPolicy) (roots : List NodeId)

/-- The input that the connection leads into carries data, neither clients nor commands, and its
source does not stay with the manager. -/
structure Followed (c : Connection) : Prop where
  mem : c ∈ g.connections
  data : ∃ p, g.targetPort? c = some p ∧ p.type ≠ .client ∧ p.type ≠ .command
  source : ∃ n, g.node? c.source = some n ∧ n.type ∉ policy.managerOnlyTypes

/-- The least set that has the roots and the sources of all followed connections into it. -/
inductive Needed : NodeId → Prop
  | root {v : NodeId} : v ∈ roots → Needed v
  | source {c : Connection} : g.Followed policy c → Needed c.target → Needed c.source

/-- A followed connection leads from the one node to the other, which is needed. -/
def Supplies (u w : NodeId) : Prop :=
  ∃ c, g.Followed policy c ∧ c.source = u ∧ c.target = w ∧ g.Needed policy roots w

/-- The node exists and is an output that a patch can be rooted at. -/
def IsRoot (v : NodeId) : Prop := ∃ n, g.node? v = some n ∧ n.type ∈ policy.rootTypes

/-- All that the roots need can run on a device. -/
def Deployable : Prop :=
  ∀ n ∈ g.nodes, g.Needed policy roots n.id → n.type ∈ policy.deployableTypes

end Graph

open scoped Classical in
/-- The patch is the part of a graph that the roots need: each needed node once, without its outputs
and otherwise as it is, and the followed connections into needed nodes, in the order of the graph.
None of them dangles. -/
structure PatchExport.IsPartOf (p : PatchExport) (g : Graph) (policy : PartitionPolicy)
    (roots : List NodeId) : Prop where
  nodup : p.graph.ids.Nodup
  mem_nodes : ∀ n, n ∈ p.graph.nodes ↔
    ∃ m ∈ g.nodes, g.Needed policy roots m.id ∧ n = m.withoutOutputs
  connections : p.graph.connections =
    g.connections.filter fun c ↦ g.Followed policy c ∧ g.Needed policy roots c.target
  no_dangling : ∀ c ∈ p.graph.connections, c.source ∈ p.graph.ids ∧ c.target ∈ p.graph.ids
  version : p.graph.version = g.version
  roots : p.roots = roots

/-- What an export is refused for: the first root that is not one; if there is none, a needed node
that cannot run on a device; and if there is none either, the needed nodes that lie on a cycle of
followed connections or behind one. -/
inductive PatchRefusal (g : Graph) (policy : PartitionPolicy) (roots : List NodeId) :
    PartitionError → Prop
  | unknownNode {before after : List NodeId} {root : NodeId} :
      roots = before ++ root :: after → (∀ v ∈ before, g.IsRoot policy v) →
      g.node? root = none → PatchRefusal g policy roots (.unknownNode root)
  | notARoot {before after : List NodeId} {root : NodeId} {n : Node} :
      roots = before ++ root :: after → (∀ v ∈ before, g.IsRoot policy v) →
      g.node? root = some n → n.type ∉ policy.rootTypes →
      PatchRefusal g policy roots (.notARoot root)
  | notDeployable {n : Node} :
      (∀ v ∈ roots, g.IsRoot policy v) →
      n ∈ g.nodes → g.Needed policy roots n.id → n.type ∉ policy.deployableTypes →
      PatchRefusal g policy roots (.notDeployable n.id n.type (n.type == policy.deviceType))
  | cyclic {stuck : List NodeId} :
      (∀ v ∈ roots, g.IsRoot policy v) → g.Deployable policy roots → stuck ≠ [] → stuck.Nodup →
      (∀ v, v ∈ stuck ↔ g.Needed policy roots v ∧
        ∃ u, Relation.TransGen (g.Supplies policy roots) u u ∧
          Relation.ReflTransGen (g.Supplies policy roots) u v) →
      PatchRefusal g policy roots (.cyclic stuck)

/-! ### What is followed into a place -/

namespace GraphState

variable {s : GraphState} {catalog : Catalog} {policy : PartitionPolicy} {i j : Nat} {n : Node}
  {c : Connection}

/-- The connection with the place of its source, if a walk follows it into the node. -/
def followInto? (s : GraphState) (catalog : Catalog) (policy : PartitionPolicy) (n : Node)
    (c : Connection) : Option (Connection × Nat) :=
  if c.target == n.id && !isRoutingInput catalog n c then
    match s.lastIndexOf? c.source with
    | none => none
    | some source =>
      if (s.nodes[source]?).any fun m ↦ policy.managerOnlyTypes.contains m.type then none
      else some (c, source)
  else none

theorem followed_eq (hn : s.nodes[i]? = some n) :
    followed s catalog policy i = s.connections.filterMap (s.followInto? catalog policy n) := by
  rw [followed, hn]
  exact List.filterMap_filter

theorem followInto?_eq_some_iff (hs : s.ids.Nodup) {c' : Connection} :
    s.followInto? catalog policy n c = some (c', j) ↔
      c = c' ∧ (c.target = n.id ∧ isRoutingInput catalog n c = false) ∧
        ∃ m, s.nodes[j]? = some m ∧ m.id = c.source ∧ m.type ∉ policy.managerOnlyTypes := by
  have hlook : s.followInto? catalog policy n c = some (c', j) ↔
      c = c' ∧ (c.target = n.id ∧ isRoutingInput catalog n c = false) ∧
        s.lastIndexOf? c.source = some j ∧
        ((s.nodes[j]?).any fun m ↦ policy.managerOnlyTypes.contains m.type) = false := by
    rw [followInto?]
    cases s.lastIndexOf? c.source <;> grind
  rw [hlook, lastIndexOf?_eq_some_iff hs, idAt?_eq_some_iff]
  refine and_congr_right fun _ ↦ and_congr_right fun _ ↦ ?_
  constructor
  · rintro ⟨⟨m, hm, hid⟩, hmanager⟩
    exact ⟨m, hm, hid, by simpa [hm] using hmanager⟩
  · rintro ⟨m, hm, hid, hmanager⟩
    exact ⟨⟨m, hm, hid⟩, by simpa [hm] using hmanager⟩

theorem mem_followed (hs : s.ids.Nodup) {edge : Connection × Nat} :
    edge ∈ followed s catalog policy i ↔
      ∃ n, s.nodes[i]? = some n ∧ edge.1 ∈ s.connections ∧
        s.followInto? catalog policy n edge.1 = some edge := by
  constructor
  · intro h
    cases hn : s.nodes[i]? with
    | none => simp [followed, hn] at h
    | some n =>
      rw [followed_eq hn] at h
      obtain ⟨c, hc, hinto⟩ := List.mem_filterMap.1 h
      obtain rfl := ((followInto?_eq_some_iff hs).1 hinto).1
      exact ⟨n, rfl, hc, hinto⟩
  · rintro ⟨n, hn, hc, hinto⟩
    rw [followed_eq hn]
    exact List.mem_filterMap.2 ⟨edge.1, hc, hinto⟩

/-- The place of a source that a walk follows is the last of its id, whether or not ids are
distinct. -/
theorem lastIndexOf?_of_mem_followed {edge : Connection × Nat}
    (h : edge ∈ followed s catalog policy i) : s.lastIndexOf? edge.1.source = some edge.2 := by
  cases hn : s.nodes[i]? with
  | none => simp [followed, hn] at h
  | some n =>
    rw [followed_eq hn] at h
    obtain ⟨c, -, hinto⟩ := List.mem_filterMap.1 h
    rw [followInto?] at hinto
    cases hsource : s.lastIndexOf? c.source <;> grind

theorem lt_of_mem_followed :
    ∀ i, ∀ edge ∈ followed s catalog policy i, edge.2 < s.nodes.length :=
  fun _ _ hedge ↦ lt_of_idAt? (idAt?_of_lastIndexOf? (lastIndexOf?_of_mem_followed hedge))

/-- So is the place of a root. -/
theorem lastIndexOf?_of_rootIndex {v : NodeId} (h : rootIndex s policy v = .ok i) :
    s.lastIndexOf? v = some i := by
  rw [rootIndex] at h
  cases hplace : s.lastIndexOf? v <;> grind

/-- With distinct ids, the place of a root is that of an output of its id. -/
theorem rootIndex_eq_ok_iff (hs : s.ids.Nodup) {v : NodeId} : rootIndex s policy v = .ok i ↔
    ∃ n, s.nodes[i]? = some n ∧ n.id = v ∧ n.type ∈ policy.rootTypes := by
  have hlook : rootIndex s policy v = .ok i ↔ s.lastIndexOf? v = some i ∧
      ((s.nodes[i]?).any fun n ↦ policy.rootTypes.contains n.type) = true := by
    rw [rootIndex]
    cases s.lastIndexOf? v <;> grind
  rw [hlook, lastIndexOf?_eq_some_iff hs, idAt?_eq_some_iff]
  constructor
  · rintro ⟨⟨n, hn, hid⟩, htype⟩
    exact ⟨n, hn, hid, by simpa [hn] using htype⟩
  · rintro ⟨n, hn, hid, htype⟩
    exact ⟨⟨n, hn, hid⟩, by simpa [hn] using htype⟩

end GraphState

/-! ### Places and ids -/

namespace Graph

variable {g : Graph} {policy : PartitionPolicy} {roots : List NodeId} {starts : List Nat}

theorem UniqueIds.nodup_ids (hg : g.UniqueIds) : g.snapshot.ids.Nodup := hg

/-- The place of a node is the one at which the snapshot has it. -/
theorem node?_eq_some_iff_idAt? (hg : g.UniqueIds) {v : NodeId} {n : Node} :
    g.node? v = some n ↔ ∃ i, g.snapshot.idAt? i = some v ∧ g.nodes[i]? = some n := by
  constructor
  · intro hn
    obtain ⟨i, hi⟩ := List.mem_iff_getElem?.1 (List.mem_of_find?_eq_some hn)
    have hid : n.id = v := id_of_node? hn
    exact ⟨i, GraphState.idAt?_eq_some_iff.2 ⟨n, hi, hid⟩, hi⟩
  · rintro ⟨i, hv, hi⟩
    obtain ⟨n', hn', rfl⟩ := GraphState.idAt?_eq_some_iff.1 hv
    obtain rfl := Option.some.inj (hn'.symm.trans hi)
    exact node?_of_getElem? hg hi

theorem isRoutingInput_eq {c : Connection} {n : Node} (hn : g.node? c.target = some n) :
    isRoutingInput g.catalog n c = (g.targetPort? c).any fun p ↦ p.type.isRouting := by
  rw [isRoutingInput, targetPort?, definitionOf?, hn]
  rfl

/-- What the walk follows into a place are the followed connections into the node there. -/
theorem mem_followed_iff (hg : g.Buildable) {i j : Nat} {c : Connection} :
    (c, j) ∈ CueFlow.followed g.snapshot g.catalog policy i ↔
      g.Followed policy c ∧ g.snapshot.idAt? i = some c.target ∧
        g.snapshot.idAt? j = some c.source := by
  have hs := hg.uniqueIds.nodup_ids
  simp only [GraphState.mem_followed hs, GraphState.followInto?_eq_some_iff hs, true_and]
  constructor
  · rintro ⟨n, hn, hc, ⟨htarget, hdata⟩, m, hm, hsource, hmanager⟩
    have hn' : g.node? c.target = some n := htarget ▸ node?_of_getElem? hg.uniqueIds hn
    have hm' : g.node? c.source = some m := hsource ▸ node?_of_getElem? hg.uniqueIds hm
    obtain ⟨_, d, _, input, -, hd, -, hinput, -⟩ := hg.sound.fits c hc
    have hport : g.targetPort? c = some input := by rw [targetPort?, hd, Option.bind_some, hinput]
    refine ⟨⟨hc, ⟨input, hport, ?_⟩, m, hm', hmanager⟩,
      GraphState.idAt?_eq_some_iff.2 ⟨n, hn, htarget.symm⟩,
      GraphState.idAt?_eq_some_iff.2 ⟨m, hm, hsource⟩⟩
    rw [← PortType.isRouting_eq_false_iff]
    simpa [isRoutingInput_eq hn', hport] using hdata
  · rintro ⟨⟨hc, ⟨p, hp, htype⟩, m, hm, hmanager⟩, htarget, hsource⟩
    obtain ⟨n, hn, hid⟩ := GraphState.idAt?_eq_some_iff.1 htarget
    obtain ⟨m', hm', hid'⟩ := GraphState.idAt?_eq_some_iff.1 hsource
    have hn' : g.node? c.target = some n := hid ▸ node?_of_getElem? hg.uniqueIds hn
    obtain rfl : m' = m :=
      Option.some.inj ((hid' ▸ node?_of_getElem? hg.uniqueIds hm').symm.trans hm)
    refine ⟨n, hn, hc, ⟨hid.symm, ?_⟩, m', hm', hid', hmanager⟩
    rw [isRoutingInput_eq hn', hp]
    exact PortType.isRouting_eq_false_iff.2 htype

theorem rootIndex_of_node? (hg : g.UniqueIds) {v : NodeId} {i : Nat} {n : Node}
    (hv : g.snapshot.idAt? i = some v) (hn : g.nodes[i]? = some n) :
    rootIndex g.snapshot policy v =
      if n.type ∈ policy.rootTypes then .ok i else .error (.notARoot v) := by
  rw [rootIndex, (GraphState.lastIndexOf?_eq_some_iff hg.nodup_ids).2 hv]
  simp [show g.snapshot.nodes[i]? = some n from hn]

theorem rootIndex_of_node?_eq_none (hg : g.UniqueIds) {v : NodeId} (hv : g.node? v = none) :
    rootIndex g.snapshot policy v = .error (.unknownNode v) := by
  have hnone : g.snapshot.lastIndexOf? v = none := by
    by_contra hsome
    obtain ⟨i, hi⟩ := Option.ne_none_iff_exists'.1 hsome
    have hid := GraphState.idAt?_of_lastIndexOf? hi
    obtain ⟨n, hn, -⟩ := GraphState.idAt?_eq_some_iff.1 hid
    rw [(node?_eq_some_iff_idAt? hg).2 ⟨i, hid, hn⟩] at hv
    cases hv
  rw [rootIndex, hnone]

theorem rootIndex_eq_ok_iff (hg : g.UniqueIds) {v : NodeId} {i : Nat} :
    rootIndex g.snapshot policy v = .ok i ↔ g.snapshot.idAt? i = some v ∧ g.IsRoot policy v := by
  rw [GraphState.rootIndex_eq_ok_iff hg.nodup_ids]
  constructor
  · rintro ⟨n, hn, rfl, htype⟩
    exact ⟨GraphState.idAt?_eq_some_iff.2 ⟨n, hn, rfl⟩, n, node?_of_getElem? hg hn, htype⟩
  · rintro ⟨hi, n, hv, htype⟩
    obtain ⟨k, hk, hn⟩ := (node?_eq_some_iff_idAt? hg).1 hv
    obtain rfl := GraphState.idAt?_inj hg.nodup_ids hk hi
    exact ⟨n, hn, id_of_node? hv, htype⟩

/-- The place of a root is refused for the root. -/
theorem patchRefusal_of_rootIndex (hg : g.UniqueIds) {before after : List NodeId} {root : NodeId}
    {e : PartitionError} (hroots : roots = before ++ root :: after)
    (hbefore : ∀ v ∈ before, g.IsRoot policy v)
    (h : rootIndex g.snapshot policy root = .error e) : PatchRefusal g policy roots e := by
  cases hv : g.node? root with
  | none =>
    rw [rootIndex_of_node?_eq_none hg hv] at h
    obtain rfl := Except.error.inj h
    exact .unknownNode hroots hbefore hv
  | some n =>
    obtain ⟨k, hk, hn⟩ := (node?_eq_some_iff_idAt? hg).1 hv
    rw [rootIndex_of_node? hg hk hn] at h
    split at h
    · cases h
    next htype =>
      obtain rfl := Except.error.inj h
      exact .notARoot hroots hbefore hv htype

/-! ### The nodes and connections of the walk -/

/-- The walk from these places. -/
def patchWalk (g : Graph) (policy : PartitionPolicy) (starts : List Nat) : PatchWalk :=
  .run (CueFlow.followed g.snapshot g.catalog policy) g.nodes.length
    (starts.foldl PatchWalk.meet {})

/-- The ids of the nodes that a walk has met. -/
def memberIds (g : Graph) (walk : PatchWalk) : List NodeId :=
  (g.snapshot.members walk.members).map Node.id

/-- The connections that a walk has followed, as a digraph over the nodes that it has met. -/
def memberLinks (g : Graph) (walk : PatchWalk) : Digraph :=
  patchLinks (g.memberIds walk) walk.connections

/-- These are the places of the roots. -/
def PlacesOf (g : Graph) (roots : List NodeId) (starts : List Nat) : Prop :=
  (∀ i ∈ starts, ∃ v ∈ roots, g.snapshot.idAt? i = some v) ∧
    ∀ v ∈ roots, ∃ i ∈ starts, g.snapshot.idAt? i = some v

theorem placesOf_of_mapM (hg : g.UniqueIds)
    (h : roots.mapM (rootIndex g.snapshot policy) = .ok starts) :
    g.PlacesOf roots starts ∧ ∀ v ∈ roots, g.IsRoot policy v := by
  obtain ⟨hforth, hback⟩ := mem_of_mapM_eq_ok h
  refine ⟨⟨fun i hi ↦ ?_, fun v hv ↦ ?_⟩, fun v hv ↦ ?_⟩
  · obtain ⟨v, hv, hindex⟩ := hback i hi
    exact ⟨v, hv, ((rootIndex_eq_ok_iff hg).1 hindex).1⟩
  · obtain ⟨i, hi, hindex⟩ := hforth v hv
    exact ⟨i, hi, ((rootIndex_eq_ok_iff hg).1 hindex).1⟩
  · obtain ⟨i, -, hindex⟩ := hforth v hv
    exact ((rootIndex_eq_ok_iff hg).1 hindex).2

theorem lt_of_mem_starts (hstarts : g.PlacesOf roots starts) :
    ∀ i ∈ starts, i < g.nodes.length := by
  intro i hi
  obtain ⟨v, -, hid⟩ := hstarts.1 i hi
  exact GraphState.lt_of_idAt? hid

/-- The walk meets what is reached, each place once. -/
theorem members_patchWalk (hstarts : ∀ i ∈ starts, i < g.nodes.length) :
    (g.patchWalk policy starts).members.Nodup ∧ ∀ i, i ∈ (g.patchWalk policy starts).members ↔
      PatchWalk.Reached (CueFlow.followed g.snapshot g.catalog policy) starts i :=
  PatchWalk.members_run hstarts GraphState.lt_of_mem_followed

/-- The walk follows what is to be followed into what is reached. -/
theorem connections_patchWalk (hstarts : ∀ i ∈ starts, i < g.nodes.length)
    {c : Connection} : c ∈ (g.patchWalk policy starts).connections ↔
      ∃ i, PatchWalk.Reached (CueFlow.followed g.snapshot g.catalog policy) starts i ∧
        ∃ source, (c, source) ∈ CueFlow.followed g.snapshot g.catalog policy i :=
  PatchWalk.connections_run hstarts GraphState.lt_of_mem_followed

/-! ### Links among some nodes -/

section

variable {members : List NodeId} (hnodup : members.Nodup) {connections : List Connection}

include hnodup

theorem patchLinks_edge_iff {i j : Nat} : (patchLinks members connections).Edge i j ↔
    ∃ c ∈ connections, members[i]? = some c.source ∧ members[j]? = some c.target := by
  have hat : ∀ {v : NodeId} {k : Nat}, members.idxOf? v = some k ↔ members[k]? = some v := by
    intro v k
    rw [List.idxOf?_eq_some_iff, List.getElem?_eq_some_iff]
    refine ⟨fun ⟨hk, hv, _⟩ ↦ ⟨hk, hv⟩, fun ⟨hk, hv⟩ ↦ ⟨hk, hv, fun m hm hmv ↦ ?_⟩⟩
    exact hm.ne ((hnodup.getElem_inj_iff).1 (hmv.trans hv.symm))
  simp only [Digraph.Edge, patchLinks, List.mem_filterMap, ← hat]
  refine exists_congr fun c ↦ and_congr_right fun _ ↦ ?_
  cases members.idxOf? c.source <;> cases members.idxOf? c.target <;> simp

/-- The digraph over some nodes joins two places exactly if a connection joins the nodes there. -/
theorem named_patchLinks (hends : ∀ c ∈ connections, c.source ∈ members ∧ c.target ∈ members) :
    (patchLinks members connections).Named (members[·]?) fun u w ↦
      ∃ c ∈ connections, c.source = u ∧ c.target = w := by
  constructor
  · intro i j u hi hj
    exact (List.getElem?_inj (List.getElem?_eq_some_iff.1 hi).1 hnodup).1 (hi.trans hj.symm)
  · intro i j
    rw [patchLinks_edge_iff hnodup]
    constructor
    · rintro ⟨c, hc, hi, hj⟩
      exact ⟨_, _, hi, hj, c, hc, rfl, rfl⟩
    · rintro ⟨_, _, hi, hj, c, hc, rfl, rfl⟩
      exact ⟨c, hc, hi, hj⟩
  · rintro u w ⟨c, hc, rfl, rfl⟩
    exact ⟨List.mem_iff_getElem?.1 (hends c hc).1, List.mem_iff_getElem?.1 (hends c hc).2⟩

theorem inRange_patchLinks : (patchLinks members connections).InRange := by
  rintro ⟨i, j⟩ hedge
  obtain ⟨c, -, hi, hj⟩ := (patchLinks_edge_iff hnodup).1 hedge
  exact ⟨(List.getElem?_eq_some_iff.1 hi).1, (List.getElem?_eq_some_iff.1 hj).1⟩

end

/-! ### What the walk from the roots meets -/

section

variable (hg : g.Buildable) (hstarts : g.PlacesOf roots starts)

include hg hstarts

/-- To reach a place is to need the node there. -/
theorem reached_iff {i : Nat} : PatchWalk.Reached (CueFlow.followed g.snapshot g.catalog policy)
    starts i ↔ ∃ v, g.snapshot.idAt? i = some v ∧ g.Needed policy roots v := by
  constructor
  · intro h
    induction h with
    | start hi =>
      obtain ⟨v, hv, hid⟩ := hstarts.1 _ hi
      exact ⟨v, hid, .root hv⟩
    | source _ hedge ih =>
      obtain ⟨hfollowed, htarget, hsource⟩ := (mem_followed_iff hg).1 hedge
      obtain ⟨v, hv, hneeded⟩ := ih
      obtain rfl := Option.some.inj (htarget.symm.trans hv)
      exact ⟨_, hsource, .source hfollowed hneeded⟩
  · rintro ⟨v, hv, hneeded⟩
    induction hneeded generalizing i with
    | root hroot =>
      obtain ⟨j, hj, hid⟩ := hstarts.2 _ hroot
      rw [GraphState.idAt?_inj hg.uniqueIds.nodup_ids hv hid]
      exact .start hj
    | @source c hfollowed hneeded ih =>
      obtain ⟨_, _, _, _, -, htarget, -⟩ := hg.sound.fits c hfollowed.mem
      obtain ⟨n, hn, -⟩ := Option.bind_eq_some_iff.1 htarget
      obtain ⟨j, hj, -⟩ := (node?_eq_some_iff_idAt? hg.uniqueIds).1 hn
      exact .source (ih hj) ((mem_followed_iff hg).2 ⟨hfollowed, hj, hv⟩)

theorem mem_patchWalk_iff {i : Nat} : i ∈ (g.patchWalk policy starts).members ↔
    ∃ v, g.snapshot.idAt? i = some v ∧ g.Needed policy roots v :=
  ((members_patchWalk (lt_of_mem_starts hstarts)).2 i).trans (reached_iff hg hstarts)

/-- What is needed exists. -/
theorem Needed.exists_idAt? {v : NodeId} (h : g.Needed policy roots v) :
    ∃ i, g.snapshot.idAt? i = some v := by
  cases h with
  | root hv =>
    obtain ⟨i, -, hi⟩ := hstarts.2 v hv
    exact ⟨i, hi⟩
  | source hfollowed _ =>
    obtain ⟨n, hn, -⟩ := hfollowed.source
    obtain ⟨i, hi, -⟩ := (node?_eq_some_iff_idAt? hg.uniqueIds).1 hn
    exact ⟨i, hi⟩

/-- **The nodes of the walk are the needed ones**, each once. -/
theorem mem_patchNodes_iff {n : Node} :
    n ∈ g.snapshot.members (g.patchWalk policy starts).members ↔
      n ∈ g.nodes ∧ g.Needed policy roots n.id := by
  rw [GraphState.members, List.mem_filterMap]
  constructor
  · rintro ⟨i, hi, hn⟩
    obtain ⟨v, hv, hneeded⟩ := (mem_patchWalk_iff hg hstarts).1 hi
    obtain ⟨n', hn', rfl⟩ := GraphState.idAt?_eq_some_iff.1 hv
    obtain rfl := Option.some.inj (hn'.symm.trans hn)
    exact ⟨List.mem_of_getElem? hn, hneeded⟩
  · rintro ⟨hn, hneeded⟩
    obtain ⟨i, hi⟩ := List.mem_iff_getElem?.1 hn
    exact ⟨i, (mem_patchWalk_iff hg hstarts).2
      ⟨_, GraphState.idAt?_eq_some_iff.2 ⟨n, hi, rfl⟩, hneeded⟩, hi⟩

theorem nodup_memberIds : (g.memberIds (g.patchWalk policy starts)).Nodup :=
  GraphState.nodup_members hg.uniqueIds.nodup_ids (members_patchWalk (lt_of_mem_starts hstarts)).1

theorem mem_memberIds_iff {v : NodeId} :
    v ∈ g.memberIds (g.patchWalk policy starts) ↔ g.Needed policy roots v := by
  rw [memberIds, List.mem_map]
  constructor
  · rintro ⟨n, hn, rfl⟩
    exact ((mem_patchNodes_iff hg hstarts).1 hn).2
  · intro hneeded
    obtain ⟨i, hi⟩ := hneeded.exists_idAt? hg hstarts
    obtain ⟨n, hn, rfl⟩ := GraphState.idAt?_eq_some_iff.1 hi
    exact ⟨n, (mem_patchNodes_iff hg hstarts).2 ⟨List.mem_of_getElem? hn, hneeded⟩, rfl⟩

/-- **The connections of the walk are the followed ones into needed nodes.** -/
theorem mem_patchConnections_iff {c : Connection} :
    c ∈ (g.patchWalk policy starts).connections ↔
      g.Followed policy c ∧ g.Needed policy roots c.target := by
  rw [connections_patchWalk (lt_of_mem_starts hstarts)]
  constructor
  · rintro ⟨i, hreached, j, hedge⟩
    obtain ⟨v, hv, hneeded⟩ := (reached_iff hg hstarts).1 hreached
    obtain ⟨hfollowed, htarget, -⟩ := (mem_followed_iff hg).1 hedge
    obtain rfl := Option.some.inj (htarget.symm.trans hv)
    exact ⟨hfollowed, hneeded⟩
  · rintro ⟨hfollowed, hneeded⟩
    obtain ⟨i, hi⟩ := hneeded.exists_idAt? hg hstarts
    obtain ⟨j, hj⟩ := (Needed.source hfollowed hneeded).exists_idAt? hg hstarts
    exact ⟨i, (reached_iff hg hstarts).2 ⟨_, hi, hneeded⟩, j,
      (mem_followed_iff hg).2 ⟨hfollowed, hi, hj⟩⟩

/-! ### Cycles among the members -/

/-- The digraph over the members joins two places exactly if the node at the one supplies the node
at the other. -/
theorem named_memberLinks :
    (g.memberLinks (g.patchWalk policy starts)).Named
      ((g.memberIds (g.patchWalk policy starts))[·]?) (g.Supplies policy roots) := by
  have hsupplies : g.Supplies policy roots = fun u w ↦
      ∃ c ∈ (g.patchWalk policy starts).connections, c.source = u ∧ c.target = w := by
    funext u w
    simp only [mem_patchConnections_iff hg hstarts, Supplies, eq_iff_iff]
    constructor
    · rintro ⟨c, hfollowed, rfl, rfl, hneeded⟩
      exact ⟨c, ⟨hfollowed, hneeded⟩, rfl, rfl⟩
    · rintro ⟨c, ⟨hfollowed, hneeded⟩, rfl, rfl⟩
      exact ⟨c, hfollowed, rfl, rfl, hneeded⟩
  rw [hsupplies]
  refine named_patchLinks (nodup_memberIds hg hstarts) fun c hc ↦ ?_
  obtain ⟨hfollowed, hneeded⟩ := (mem_patchConnections_iff hg hstarts).1 hc
  rw [mem_memberIds_iff hg hstarts, mem_memberIds_iff hg hstarts]
  exact ⟨.source hfollowed hneeded, hneeded⟩

theorem inRange_memberLinks : (g.memberLinks (g.patchWalk policy starts)).InRange :=
  inRange_patchLinks (nodup_memberIds hg hstarts)

/-- **What the search leaves out are the needed nodes on a cycle or behind one.** -/
theorem mem_stuck_iff {v : NodeId} :
    v ∈ (g.memberLinks (g.patchWalk policy starts)).unscheduled.filterMap
        ((g.memberIds (g.patchWalk policy starts))[·]?) ↔
      g.Needed policy roots v ∧ ∃ u, Relation.TransGen (g.Supplies policy roots) u u ∧
        Relation.ReflTransGen (g.Supplies policy roots) u v := by
  rw [(named_memberLinks hg hstarts).mem_filterMap_unscheduled_iff
    (inRange_memberLinks hg hstarts), ← mem_memberIds_iff hg hstarts, List.mem_iff_getElem?]
  refine and_congr_left fun _ ↦ exists_congr fun j ↦ and_iff_right_of_imp fun hj ↦ ?_
  exact (List.getElem?_eq_some_iff.1 hj).1

/-- Nothing is left out exactly if no needed node supplies itself. -/
theorem stuck_eq_nil_iff : (g.memberLinks (g.patchWalk policy starts)).unscheduled = [] ↔
    ∀ v, ¬ Relation.TransGen (g.Supplies policy roots) v v :=
  (named_memberLinks hg hstarts).unscheduled_eq_nil_iff (inRange_memberLinks hg hstarts)

end

/-! ### The export -/

/-- The patch of a walk. -/
def patchOf (g : Graph) (roots : List NodeId) (walk : PatchWalk) : PatchExport where
  id := "patch:" ++ shortHash (patchIdentity (g.memberIds walk) roots)
  roots
  graph := {
    version := g.version
    nodes := (g.snapshot.members walk.members).map Node.withoutOutputs
    connections := g.connections.filter fun c ↦
      (walk.connections.map Connection.id).contains c.id }
  assetRefs := assetRefsOf (g.snapshot.members walk.members)

theorem ids_patchOf (walk : PatchWalk) : (g.patchOf roots walk).graph.ids = g.memberIds walk := by
  rw [GraphState.ids, patchOf, List.map_map]
  rfl

/-- A connection is kept for its id, and no other connection has that. -/
theorem connections_patchOf {walk : PatchWalk} (hids : (g.connections.map Connection.id).Nodup)
    (hwalked : ∀ c ∈ walk.connections, c ∈ g.connections) :
    (g.patchOf roots walk).graph.connections =
      g.connections.filter (· ∈ walk.connections) := by
  refine List.filter_congr fun c hc ↦ ?_
  rw [Bool.eq_iff_iff, List.contains_iff_mem, decide_eq_true_iff, List.mem_map]
  refine ⟨?_, fun hmem ↦ ⟨c, hmem, rfl⟩⟩
  rintro ⟨c', hc', hid⟩
  rwa [← List.inj_on_of_nodup_map hids (hwalked c' hc') hc hid]

/-- What becomes of a walk: refused if some node cannot run on a device or some nodes supply
themselves, else a patch. -/
def concludeWalk (g : Graph) (policy : PartitionPolicy) (roots : List NodeId) (walk : PatchWalk) :
    Except PartitionError PatchExport :=
  match (g.snapshot.members walk.members).find? fun n ↦
      !policy.deployableTypes.contains n.type with
  | some n => .error (policy.notDeployable n)
  | none =>
    if (g.memberLinks walk).unscheduled = [] then .ok (g.patchOf roots walk)
    else .error (.cyclic ((g.memberLinks walk).unscheduled.filterMap ((g.memberIds walk)[·]?)))

theorem exportPatch_eq (hroots : roots ≠ []) : exportPatch g.snapshot g.catalog roots policy =
    (roots.mapM (rootIndex g.snapshot policy)).bind fun starts ↦
      g.concludeWalk policy roots (g.patchWalk policy starts) := by
  rw [exportPatch, if_neg (by simpa using hroots)]
  show Except.bind _ _ = _
  refine congrArg _ (funext fun starts ↦ ?_)
  change (do
    let walk := g.patchWalk policy starts
    match (g.snapshot.members walk.members).find? fun n ↦
        !policy.deployableTypes.contains n.type with
    | some n => throw (policy.notDeployable n)
    | none => pure ()
    let stuck := (g.memberLinks walk).unscheduled
    if !stuck.isEmpty then throw (.cyclic (stuck.filterMap ((g.memberIds walk)[·]?)))
    return g.patchOf roots walk : Except PartitionError PatchExport) = _
  rw [concludeWalk]
  dsimp only
  cases (g.snapshot.members (g.patchWalk policy starts).members).find? fun n ↦
      !policy.deployableTypes.contains n.type with
  | some n => rfl
  | none =>
    cases (g.memberLinks (g.patchWalk policy starts)).unscheduled with
    | nil => rfl
    | cons i rest => rfl

/-- An export succeeds if its roots have places and the walk from these makes a patch. -/
theorem exportPatch_eq_ok_iff {p : PatchExport} :
    exportPatch g.snapshot g.catalog roots policy = .ok p ↔
      roots ≠ [] ∧ ∃ starts, roots.mapM (rootIndex g.snapshot policy) = .ok starts ∧
        g.concludeWalk policy roots (g.patchWalk policy starts) = .ok p := by
  by_cases hroots : roots = []
  · subst hroots
    exact ⟨fun h ↦ (by cases h), fun h ↦ absurd rfl h.1⟩
  · rw [exportPatch_eq hroots, and_iff_right hroots]
    exact bind_eq_ok_iff

theorem find?_deployable_eq_none_iff (hg : g.Buildable) (hstarts : g.PlacesOf roots starts) :
    ((g.snapshot.members (g.patchWalk policy starts).members).find? fun n ↦
      !policy.deployableTypes.contains n.type) = none ↔ g.Deployable policy roots := by
  simp only [List.find?_eq_none, mem_patchNodes_iff hg hstarts, Deployable, and_imp]
  simp

/-- The nodes and connections of a walk are what the roots need. -/
theorem isPartOf_patchOf (hg : g.Buildable) (hstarts : g.PlacesOf roots starts) :
    (g.patchOf roots (g.patchWalk policy starts)).IsPartOf g policy roots := by
  have hconnections : (g.patchOf roots (g.patchWalk policy starts)).graph.connections =
      g.connections.filter (· ∈ (g.patchWalk policy starts).connections) :=
    connections_patchOf hg.wired.nodup fun c hc ↦
      ((mem_patchConnections_iff hg hstarts).1 hc).1.mem
  constructor
  case nodup =>
    rw [ids_patchOf]
    exact nodup_memberIds hg hstarts
  case mem_nodes =>
    intro n
    simp only [patchOf, List.mem_map, mem_patchNodes_iff hg hstarts, and_assoc, eq_comm]
  case connections =>
    classical
    rw [hconnections]
    refine List.filter_congr fun c _ ↦ ?_
    rw [decide_eq_decide, mem_patchConnections_iff hg hstarts]
  case no_dangling =>
    intro c hc
    rw [hconnections] at hc
    obtain ⟨hfollowed, hneeded⟩ :=
      (mem_patchConnections_iff hg hstarts).1 (of_decide_eq_true (List.mem_filter.1 hc).2)
    rw [ids_patchOf, mem_memberIds_iff hg hstarts, mem_memberIds_iff hg hstarts]
    exact ⟨.source hfollowed hneeded, hneeded⟩
  case version => rfl
  case roots => rfl

/-- A walk makes a patch if all that it has met can run on a device and nothing is on a cycle. -/
theorem concludeWalk_eq_ok {walk : PatchWalk} {p : PatchExport} :
    g.concludeWalk policy roots walk = .ok p ↔
      ((g.snapshot.members walk.members).find? fun n ↦
          !policy.deployableTypes.contains n.type) = none ∧
        (g.memberLinks walk).unscheduled = [] ∧ g.patchOf roots walk = p := by
  rw [concludeWalk]
  split
  next n hn => simp only [hn, reduceCtorEq, false_and]
  next hnone =>
    split
    next hstuck => simp only [hnone, hstuck, Except.ok.injEq, true_and]
    next hstuck => simp only [hstuck, reduceCtorEq, false_and, and_false]

theorem concludeWalk_eq_ok_iff (hg : g.Buildable) (hstarts : g.PlacesOf roots starts)
    {p : PatchExport} :
    g.concludeWalk policy roots (g.patchWalk policy starts) = .ok p ↔
      (g.Deployable policy roots ∧ ∀ v, ¬ Relation.TransGen (g.Supplies policy roots) v v) ∧
        g.patchOf roots (g.patchWalk policy starts) = p := by
  rw [concludeWalk_eq_ok, find?_deployable_eq_none_iff hg hstarts, stuck_eq_nil_iff hg hstarts,
    and_assoc]

theorem patchRefusal_of_concludeWalk (hg : g.Buildable) (hstarts : g.PlacesOf roots starts)
    (hroots : ∀ v ∈ roots, g.IsRoot policy v) {e : PartitionError}
    (h : g.concludeWalk policy roots (g.patchWalk policy starts) = .error e) :
    PatchRefusal g policy roots e := by
  rw [concludeWalk] at h
  split at h
  next n hn =>
    obtain rfl := Except.error.inj h
    obtain ⟨hmem, hneeded⟩ := (mem_patchNodes_iff hg hstarts).1 (List.mem_of_find?_eq_some hn)
    exact .notDeployable hroots hmem hneeded (by simpa using List.find?_some hn)
  next hnone =>
    split at h
    · cases h
    next hstuck =>
      obtain rfl := Except.error.inj h
      have hcycle : ∃ u, Relation.TransGen (g.Supplies policy roots) u u := by
        rw [stuck_eq_nil_iff hg hstarts] at hstuck
        push Not at hstuck
        exact hstuck
      obtain ⟨u, hcycle⟩ := hcycle
      obtain ⟨_, -, _, -, -, -, hneeded⟩ := Relation.TransGen.tail'_iff.1 hcycle
      refine .cyclic hroots ((find?_deployable_eq_none_iff hg hstarts).1 hnone) ?_
        (named_memberLinks hg hstarts).nodup_filterMap_unscheduled
        fun v ↦ mem_stuck_iff hg hstarts
      exact List.ne_nil_of_mem ((mem_stuck_iff hg hstarts).2 ⟨hneeded, u, hcycle, .refl⟩)

/-- An export that succeeds is what its roots need. -/
theorem isPartOf_of_exportPatch (hg : g.Buildable) {p : PatchExport}
    (h : exportPatch g.snapshot g.catalog roots policy = .ok p) : p.IsPartOf g policy roots := by
  obtain ⟨-, starts, hmap, hconclude⟩ := exportPatch_eq_ok_iff.1 h
  obtain ⟨hstarts, -⟩ := placesOf_of_mapM hg.uniqueIds hmap
  obtain ⟨-, rfl⟩ := (concludeWalk_eq_ok_iff hg hstarts).1 hconclude
  exact isPartOf_patchOf hg hstarts

/-- No node of an export supplies itself. -/
theorem not_transGen_of_exportPatch (hg : g.Buildable) {p : PatchExport}
    (h : exportPatch g.snapshot g.catalog roots policy = .ok p) (v : NodeId) :
    ¬ Relation.TransGen (g.Supplies policy roots) v v := by
  obtain ⟨-, starts, hmap, hconclude⟩ := exportPatch_eq_ok_iff.1 h
  obtain ⟨hstarts, -⟩ := placesOf_of_mapM hg.uniqueIds hmap
  obtain ⟨⟨-, hacyclic⟩, -⟩ := (concludeWalk_eq_ok_iff hg hstarts).1 hconclude
  exact hacyclic v

/-- **An export is what its roots need, or says why there is none.** It succeeds exactly if the
roots are outputs, all that they need can run on a device, and no needed node supplies itself. -/
theorem exportPatch_correct (h : g.Buildable) (policy : PartitionPolicy) (hroots : roots ≠ []) :
    ((∃ p, exportPatch g.snapshot g.catalog roots policy = .ok p) ↔
      (∀ v ∈ roots, g.IsRoot policy v) ∧ g.Deployable policy roots ∧
        ∀ v, ¬ Relation.TransGen (g.Supplies policy roots) v v) ∧
    (∀ p, exportPatch g.snapshot g.catalog roots policy = .ok p → p.IsPartOf g policy roots) ∧
    ∀ e, exportPatch g.snapshot g.catalog roots policy = .error e →
      PatchRefusal g policy roots e := by
  rw [exportPatch_eq hroots]
  cases hmap : roots.mapM (rootIndex g.snapshot policy) with
  | error e =>
    obtain ⟨before, root, after, hsplit, hbefore, hroot⟩ := exists_of_mapM_eq_error hmap
    have hbefore' : ∀ v ∈ before, g.IsRoot policy v := by
      intro v hv
      obtain ⟨i, hi⟩ := hbefore v hv
      exact ((rootIndex_eq_ok_iff h.uniqueIds).1 hi).2
    refine ⟨⟨fun ⟨_, hp⟩ ↦ (by cases hp), fun ⟨hall, _⟩ ↦ ?_⟩, fun _ hp ↦ (by cases hp), ?_⟩
    · obtain ⟨n, hn, htype⟩ := hall root (by simp [hsplit])
      obtain ⟨i, hi, hat⟩ := (node?_eq_some_iff_idAt? h.uniqueIds).1 hn
      rw [(rootIndex_eq_ok_iff h.uniqueIds).2 ⟨hi, n, hn, htype⟩] at hroot
      cases hroot
    · intro e' he
      obtain rfl := Except.error.inj he
      exact patchRefusal_of_rootIndex h.uniqueIds hsplit hbefore' hroot
  | ok starts =>
    obtain ⟨hstarts, hall⟩ := placesOf_of_mapM h.uniqueIds hmap
    refine ⟨?_, fun p hp ↦ ?_, fun e he ↦ patchRefusal_of_concludeWalk h hstarts hall he⟩
    · rw [and_iff_right hall]
      show (∃ p, g.concludeWalk policy roots _ = .ok p) ↔ _
      simp [concludeWalk_eq_ok_iff h hstarts]
    · obtain ⟨-, rfl⟩ := (concludeWalk_eq_ok_iff h hstarts).1 hp
      exact isPartOf_patchOf h hstarts

/-! ### A speaker on a device -/

/-- A mixer feeds a speaker. It is set by a controller that stays with the manager, and the speaker
is routed to a device. -/
def speakerGraph : Graph where
  catalog := .ofDefinitions [
    { type := "midi-input", outputs := [{ id := "value", type := .number }] },
    { type := "client", outputs := [{ id := "device", type := .client }] },
    { type := "math"
      inputs := [{ id := "a", type := .number }]
      outputs := [{ id := "out", type := .number }] },
    { type := "audio-out"
      inputs := [{ id := "level", type := .number }, { id := "device", type := .client }] }]
  nodes := [{ id := "m", type := "midi-input" }, { id := "c", type := "client" },
    { id := "x", type := "math" }, { id := "s", type := "audio-out" }]
  connections := [⟨"mx", "m", "value", "x", "a"⟩, ⟨"xs", "x", "out", "s", "level"⟩,
    ⟨"cs", "c", "device", "s", "device"⟩]

/-- The patch of the speaker has the speaker and the mixer; a patch of the mixer is refused. -/
theorem exportPatch_correct_speaker : ∃ p, speakerGraph.Buildable ∧
    exportPatch speakerGraph.snapshot speakerGraph.catalog ["s"] .standard = .ok p ∧
    p.IsPartOf speakerGraph .standard ["s"] ∧ p.graph.ids = ["s", "x"] ∧
    p.graph.connections.map Connection.id = ["xs"] ∧
    exportPatch speakerGraph.snapshot speakerGraph.catalog ["s", "x"] .standard =
      .error (.notARoot "x") ∧
    PatchRefusal speakerGraph .standard ["s", "x"] (.notARoot "x") := by
  have hload : Graph.load speakerGraph.catalog speakerGraph.snapshot .strict =
      .ok (speakerGraph, {}) := rfl
  have hspeaker : ∃ p,
      exportPatch speakerGraph.snapshot speakerGraph.catalog ["s"] .standard = .ok p ∧
        p.graph.ids = ["s", "x"] ∧ p.graph.connections.map Connection.id = ["xs"] :=
    ⟨_, rfl, rfl, rfl⟩
  have hmixer : exportPatch speakerGraph.snapshot speakerGraph.catalog ["s", "x"] .standard =
      .error (.notARoot "x") := rfl
  obtain ⟨p, hp, hids, hconnections⟩ := hspeaker
  obtain ⟨-, hpart, -⟩ := exportPatch_correct (.load hload) .standard (List.cons_ne_nil "s" [])
  obtain ⟨-, -, hrefused⟩ :=
    exportPatch_correct (.load hload) .standard (List.cons_ne_nil "s" ["x"])
  exact ⟨p, .load hload, hp, hpart p hp, hids, hconnections, hmixer, hrefused _ hmixer⟩

end Graph

end CueFlow
