import CueFlow.Proofs.Graph.Snapshot
import CueFlow.Proofs.Partition.Patch
/-!
# The order of a snapshot makes no difference to a patch

A walk goes by places: the order of the roots is that in which it starts, the order of the
connections that in which it meets nodes, and the order of the nodes decides what a place is. Which
nodes it comes to meet is another matter. It meets the *drawn* ones (`GraphState.Drawn`), the least
set that has the roots and is closed under going back along connections, and this is said of nodes
and connections without a place or an order (`mem_members_iff_drawn`,
`mem_connections_iff_drawn`).

All that an export is refused for is a property of this set, and so is the verdict of the search for
a cycle, which numbers the nodes as the walk has met them (`unscheduled_memberLinks_eq_nil_iff`). An
id is made of sorted texts. So snapshots that differ in order, exported for the same roots in any
order and with any repeats, are exported together, and the patches differ in order too
(`exportPatch_shuffle`). Nothing is asked of them but that ids are distinct.
-/

namespace CueFlow

namespace GraphState

/-- A walk goes from the one node along the connection back to the other: the connection leads into
an input that carries data, and its source does not stay with the manager. -/
structure Draws (s : GraphState) (catalog : Catalog) (policy : PartitionPolicy) (n : Node)
    (c : Connection) (m : Node) : Prop where
  connection : c ∈ s.connections
  target : c.target = n.id
  data : isRoutingInput catalog n c = false
  node : m ∈ s.nodes
  source : m.id = c.source
  deployed : m.type ∉ policy.managerOnlyTypes

/-- The least set of nodes that has the roots and whatever a walk goes back to from it. -/
inductive Drawn (s : GraphState) (catalog : Catalog) (policy : PartitionPolicy)
    (roots : List NodeId) : Node → Prop
  | root {n : Node} : n ∈ s.nodes → n.id ∈ roots → Drawn s catalog policy roots n
  | source {n m : Node} {c : Connection} : Drawn s catalog policy roots n →
      s.Draws catalog policy n c m → Drawn s catalog policy roots m

/-- The snapshots differ in the order of their nodes and connections, and in nothing else. -/
structure Shuffles (s' s : GraphState) : Prop where
  version : s'.version = s.version
  nodes : s'.nodes.Perm s.nodes
  connections : s'.connections.Perm s.connections

variable {s s' : GraphState} {catalog : Catalog} {policy : PartitionPolicy}
  {roots roots' : List NodeId} {starts starts' : List Nat} {i j : Nat} {n m : Node} {c : Connection}

theorem Drawn.mem (h : s.Drawn catalog policy roots n) : n ∈ s.nodes := by
  cases h with
  | root hn _ => exact hn
  | source _ hdraws => exact hdraws.node

/-! ### What does not depend on order -/

namespace Shuffles

theorem symm (h : s'.Shuffles s) : s.Shuffles s' :=
  ⟨h.version.symm, h.nodes.symm, h.connections.symm⟩

variable (h : s'.Shuffles s)

include h

theorem nodup_ids (hs : s.ids.Nodup) : s'.ids.Nodup := (h.nodes.map Node.id).nodup_iff.2 hs

theorem nodup_connections (hs : (s.connections.map Connection.id).Nodup) :
    (s'.connections.map Connection.id).Nodup :=
  (h.connections.map Connection.id).nodup_iff.2 hs

theorem draws (hdraws : s.Draws catalog policy n c m) : s'.Draws catalog policy n c m :=
  { hdraws with
    connection := h.connections.mem_iff.2 hdraws.connection
    node := h.nodes.mem_iff.2 hdraws.node }

theorem drawn (hroots : ∀ v ∈ roots, v ∈ roots') (hdrawn : s.Drawn catalog policy roots n) :
    s'.Drawn catalog policy roots' n := by
  induction hdrawn with
  | root hn hroot => exact .root (h.nodes.mem_iff.2 hn) (hroots _ hroot)
  | source _ hdraws ih => exact .source ih (h.draws hdraws)

theorem drawn_iff (hroots : ∀ v, v ∈ roots' ↔ v ∈ roots) :
    s'.Drawn catalog policy roots' n ↔ s.Drawn catalog policy roots n :=
  ⟨h.symm.drawn fun v ↦ (hroots v).1, h.drawn fun v ↦ (hroots v).2⟩

end Shuffles

/-! ### What a walk meets -/

/-- What is followed into a place is what a walk goes back along from the node there. -/
theorem mem_followed_iff_draws (hs : s.ids.Nodup) :
    (c, j) ∈ followed s catalog policy i ↔ ∃ n m, s.nodes[i]? = some n ∧ s.nodes[j]? = some m ∧
      s.Draws catalog policy n c m := by
  simp only [mem_followed hs, followInto?_eq_some_iff hs, true_and]
  constructor
  · rintro ⟨n, hn, hc, ⟨htarget, hdata⟩, m, hm, hsource, hdeployed⟩
    exact ⟨n, m, hn, hm, hc, htarget, hdata, List.mem_of_getElem? hm, hsource, hdeployed⟩
  · rintro ⟨n, m, hn, hm, hdraws⟩
    exact ⟨n, hn, hdraws.connection, ⟨hdraws.target, hdraws.data⟩, m, hm, hdraws.source,
      hdraws.deployed⟩

section

variable (hs : s.ids.Nodup) (hstarts : (s.graphIn catalog).PlacesOf roots starts)

include hs hstarts

/-- To reach a place is to draw the node there. -/
theorem reached_iff_drawn : PatchWalk.Reached (followed s catalog policy) starts i ↔
    ∃ n, s.nodes[i]? = some n ∧ s.Drawn catalog policy roots n := by
  constructor
  · intro h
    induction h with
    | start hi =>
      obtain ⟨v, hv, hid⟩ := hstarts.1 _ hi
      obtain ⟨n, hn, rfl⟩ := idAt?_eq_some_iff.1 hid
      exact ⟨n, hn, .root (List.mem_of_getElem? hn) hv⟩
    | source _ hedge ih =>
      obtain ⟨n, m, hn, hm, hdraws⟩ := (mem_followed_iff_draws hs).1 hedge
      obtain ⟨n', hn', hdrawn⟩ := ih
      obtain rfl := Option.some.inj (hn.symm.trans hn')
      exact ⟨m, hm, .source hdrawn hdraws⟩
  · rintro ⟨n, hn, hdrawn⟩
    induction hdrawn generalizing i with
    | root _ hroot =>
      obtain ⟨k, hk, hid⟩ := hstarts.2 _ hroot
      obtain rfl := idAt?_inj hs (idAt?_eq_some_iff.2 ⟨_, hn, rfl⟩) hid
      exact .start hk
    | source hdrawn hdraws ih =>
      obtain ⟨k, hk⟩ := List.mem_iff_getElem?.1 hdrawn.mem
      exact .source (ih hk) ((mem_followed_iff_draws hs).2 ⟨_, _, hk, hn, hdraws⟩)

/-- **The nodes of a walk are the drawn ones.** -/
theorem mem_members_iff_drawn :
    n ∈ s.members ((s.graphIn catalog).patchWalk policy starts).members ↔
      s.Drawn catalog policy roots n := by
  have hmet : ∀ i, i ∈ ((s.graphIn catalog).patchWalk policy starts).members ↔
      PatchWalk.Reached (followed s catalog policy) starts i :=
    (Graph.members_patchWalk (Graph.lt_of_mem_starts hstarts)).2
  rw [members, List.mem_filterMap]
  constructor
  · rintro ⟨i, hi, hn⟩
    obtain ⟨n', hn', hdrawn⟩ := (reached_iff_drawn hs hstarts).1 ((hmet i).1 hi)
    obtain rfl := Option.some.inj (hn'.symm.trans hn)
    exact hdrawn
  · intro hdrawn
    obtain ⟨i, hi⟩ := List.mem_iff_getElem?.1 hdrawn.mem
    exact ⟨i, (hmet i).2 ((reached_iff_drawn hs hstarts).2 ⟨n, hi, hdrawn⟩), hi⟩

/-- **The connections of a walk are those that it goes back along from drawn nodes.** -/
theorem mem_connections_iff_drawn :
    c ∈ ((s.graphIn catalog).patchWalk policy starts).connections ↔
      ∃ n m, s.Drawn catalog policy roots n ∧ s.Draws catalog policy n c m := by
  rw [Graph.connections_patchWalk (Graph.lt_of_mem_starts hstarts)]
  constructor
  · rintro ⟨i, hreached, j, hedge⟩
    obtain ⟨n, m, hn, -, hdraws⟩ := (mem_followed_iff_draws hs).1 hedge
    obtain ⟨n', hn', hdrawn⟩ := (reached_iff_drawn hs hstarts).1 hreached
    obtain rfl := Option.some.inj (hn.symm.trans hn')
    exact ⟨n, m, hdrawn, hdraws⟩
  · rintro ⟨n, m, hdrawn, hdraws⟩
    obtain ⟨i, hi⟩ := List.mem_iff_getElem?.1 hdrawn.mem
    obtain ⟨j, hj⟩ := List.mem_iff_getElem?.1 hdraws.node
    exact ⟨i, (reached_iff_drawn hs hstarts).2 ⟨n, hi, hdrawn⟩, j,
      (mem_followed_iff_draws hs).2 ⟨n, m, hi, hj, hdraws⟩⟩

theorem nodup_memberIds_of_placesOf :
    ((s.graphIn catalog).memberIds ((s.graphIn catalog).patchWalk policy starts)).Nodup :=
  nodup_members hs (Graph.members_patchWalk (Graph.lt_of_mem_starts hstarts)).1

theorem nodup_members_of_placesOf :
    (s.members ((s.graphIn catalog).patchWalk policy starts).members).Nodup :=
  List.Nodup.of_map _ (nodup_memberIds_of_placesOf hs hstarts)

/-- **The verdict on cycles** is one on the connections of the walk. -/
theorem unscheduled_memberLinks_eq_nil_iff :
    ((s.graphIn catalog).memberLinks
      ((s.graphIn catalog).patchWalk policy starts)).unscheduled = [] ↔
    ∀ v, ¬ Relation.TransGen (fun u w ↦
      ∃ c ∈ ((s.graphIn catalog).patchWalk policy starts).connections,
        c.source = u ∧ c.target = w) v v := by
  have hnodup : ((s.graphIn catalog).memberIds
      ((s.graphIn catalog).patchWalk policy starts)).Nodup := nodup_memberIds_of_placesOf hs hstarts
  refine (Graph.named_patchLinks hnodup fun c hc ↦ ?_).unscheduled_eq_nil_iff
    (Graph.inRange_patchLinks hnodup)
  obtain ⟨n, m, hdrawn, hdraws⟩ := (mem_connections_iff_drawn hs hstarts).1 hc
  rw [Graph.memberIds, ← hdraws.source, hdraws.target]
  exact ⟨List.mem_map_of_mem ((mem_members_iff_drawn hs hstarts).2 (.source hdrawn hdraws)),
    List.mem_map_of_mem ((mem_members_iff_drawn hs hstarts).2 hdrawn)⟩

end

end GraphState

/-! ### Two exports -/

/-- The patches have the same id, and in any order the same nodes, connections and references to
assets. -/
structure PatchExport.Shuffles (p' p : PatchExport) : Prop where
  id : p'.id = p.id
  graph : p'.graph.Shuffles p.graph
  assetRefs : p'.assetRefs.Perm p.assetRefs

/-- An id goes by which members and which roots there are. -/
theorem patchIdentity_congr {members members' roots roots' : List NodeId}
    (hmembers : members'.Perm members) (hroots : ∀ v, v ∈ roots' ↔ v ∈ roots) :
    patchIdentity members' roots' = patchIdentity members roots := by
  rw [patchIdentity, patchIdentity, sortTexts_congr hmembers, distinctTexts_congr hroots]

/-- So do the references to assets. -/
theorem assetRefsOf_perm {nodes nodes' : List Node} (h : nodes'.Perm nodes) :
    (assetRefsOf nodes').Perm (assetRefsOf nodes) :=
  eraseDups_perm fun _ ↦ (h.flatMap_right _).mem_iff

section

variable {s s' : GraphState} {catalog : Catalog} {policy : PartitionPolicy}
  {roots roots' : List NodeId} {p p' : PatchExport}

/-- Walks that have met the same nodes and followed the same connections make the same patch, up to
order. -/
theorem patchOf_shuffles {walk walk' : PatchWalk} (hshuffle : s'.Shuffles s)
    (hids : (s.connections.map Connection.id).Nodup) (hroots : ∀ v, v ∈ roots' ↔ v ∈ roots)
    (hmembers : (s'.members walk'.members).Perm (s.members walk.members))
    (hwalked : ∀ c, c ∈ walk'.connections ↔ c ∈ walk.connections)
    (hsub : ∀ c ∈ walk.connections, c ∈ s.connections) :
    ((s'.graphIn catalog).patchOf roots' walk').Shuffles
      ((s.graphIn catalog).patchOf roots walk) := by
  have hsub' : ∀ c ∈ walk'.connections, c ∈ s'.connections := fun c hc ↦
    hshuffle.connections.mem_iff.2 (hsub c ((hwalked c).1 hc))
  refine ⟨?_, ⟨hshuffle.version, hmembers.map _, ?_⟩, assetRefsOf_perm hmembers⟩
  · have hidentity := patchIdentity_congr (hmembers.map Node.id) hroots
    exact congrArg (fun parts ↦ "patch:" ++ shortHash parts) hidentity
  · rw [Graph.connections_patchOf (g := s'.graphIn catalog) (hshuffle.nodup_connections hids) hsub',
      Graph.connections_patchOf (g := s.graphIn catalog) hids hsub]
    simp only [hwalked]
    exact hshuffle.connections.filter _

/-- **An export goes through in any order** if it does in one, and comes to the same patch. -/
theorem exists_exportPatch_of_shuffles (hs : s.ids.Nodup)
    (hids : (s.connections.map Connection.id).Nodup) (hshuffle : s'.Shuffles s)
    (hroots : ∀ v, v ∈ roots' ↔ v ∈ roots) (h : exportPatch s catalog roots policy = .ok p) :
    ∃ p', exportPatch s' catalog roots' policy = .ok p' ∧ p'.Shuffles p := by
  have hs' := hshuffle.nodup_ids hs
  obtain ⟨hne, starts, hmap, hconclude⟩ :=
    (Graph.exportPatch_eq_ok_iff (g := s.graphIn catalog)).1 h
  obtain ⟨hdeployable, hacyclic, rfl⟩ := Graph.concludeWalk_eq_ok.1 hconclude
  have hstarts := (Graph.placesOf_of_mapM (g := s.graphIn catalog) hs hmap).1
  -- The roots are where they are, each at the place that it has in the other order.
  obtain ⟨starts', hmap'⟩ : ∃ starts', roots'.mapM (rootIndex s' policy) = .ok starts' := by
    refine exists_mapM_eq_ok fun v hv ↦ ?_
    obtain ⟨i, -, hi⟩ := (mem_of_mapM_eq_ok hmap).1 v ((hroots v).1 hv)
    obtain ⟨n, hn, hid, htype⟩ := (GraphState.rootIndex_eq_ok_iff hs).1 hi
    obtain ⟨j, hj⟩ := List.mem_iff_getElem?.1
      (hshuffle.nodes.mem_iff.2 (List.mem_of_getElem? hn))
    exact ⟨j, (GraphState.rootIndex_eq_ok_iff hs').2 ⟨n, hj, hid, htype⟩⟩
  have hstarts' := (Graph.placesOf_of_mapM (g := s'.graphIn catalog) hs' hmap').1
  have hmembers : (s'.members ((s'.graphIn catalog).patchWalk policy starts').members).Perm
      (s.members ((s.graphIn catalog).patchWalk policy starts).members) := by
    rw [List.perm_ext_iff_of_nodup (GraphState.nodup_members_of_placesOf hs' hstarts')
      (GraphState.nodup_members_of_placesOf hs hstarts)]
    intro n
    rw [GraphState.mem_members_iff_drawn hs' hstarts', GraphState.mem_members_iff_drawn hs hstarts,
      hshuffle.drawn_iff hroots]
  have hwalked : ∀ c, c ∈ ((s'.graphIn catalog).patchWalk policy starts').connections ↔
      c ∈ ((s.graphIn catalog).patchWalk policy starts).connections := by
    intro c
    rw [GraphState.mem_connections_iff_drawn hs' hstarts',
      GraphState.mem_connections_iff_drawn hs hstarts]
    simp only [hshuffle.drawn_iff hroots]
    exact exists₂_congr fun n m ↦ and_congr_right fun _ ↦ ⟨hshuffle.symm.draws, hshuffle.draws⟩
  have hsub : ∀ c ∈ ((s.graphIn catalog).patchWalk policy starts).connections,
      c ∈ s.connections := by
    intro c hc
    obtain ⟨n, m, -, hdraws⟩ := (GraphState.mem_connections_iff_drawn hs hstarts).1 hc
    exact hdraws.connection
  refine ⟨_, (Graph.exportPatch_eq_ok_iff (g := s'.graphIn catalog)).2 ⟨?_, starts', hmap',
    Graph.concludeWalk_eq_ok.2 ⟨?_, ?_, rfl⟩⟩,
    patchOf_shuffles hshuffle hids hroots hmembers hwalked hsub⟩
  · obtain ⟨root, hroot⟩ := List.exists_mem_of_ne_nil roots hne
    exact List.ne_nil_of_mem ((hroots root).2 hroot)
  · rw [List.find?_eq_none] at hdeployable ⊢
    exact fun n hn ↦ hdeployable n (hmembers.mem_iff.1 hn)
  · rw [GraphState.unscheduled_memberLinks_eq_nil_iff hs hstarts] at hacyclic
    rw [GraphState.unscheduled_memberLinks_eq_nil_iff hs' hstarts']
    simpa only [hwalked] using hacyclic

/-- **A patch does not depend on order.** Take a snapshot with distinct ids, another one with the
same nodes and connections in any order, and the same roots in any order and with any repeats. Then
both exports succeed or neither does, and the patches have the same id, the same nodes, the same
connections and the same references to assets. -/
theorem exportPatch_shuffle (hs : s.ids.Nodup) (hids : (s.connections.map Connection.id).Nodup)
    (hshuffle : s'.Shuffles s) (hroots : ∀ v, v ∈ roots' ↔ v ∈ roots) :
    ((∃ p', exportPatch s' catalog roots' policy = .ok p') ↔
      ∃ p, exportPatch s catalog roots policy = .ok p) ∧
    ∀ p p', exportPatch s catalog roots policy = .ok p →
      exportPatch s' catalog roots' policy = .ok p' → p'.Shuffles p := by
  refine ⟨⟨fun ⟨p', hp'⟩ ↦ ?_, fun ⟨p, hp⟩ ↦ ?_⟩, fun p p' hp hp' ↦ ?_⟩
  · obtain ⟨p, hp, -⟩ := exists_exportPatch_of_shuffles (hshuffle.nodup_ids hs)
      (hshuffle.nodup_connections hids) hshuffle.symm (fun v ↦ (hroots v).symm) hp'
    exact ⟨p, hp⟩
  · obtain ⟨p', hp', -⟩ := exists_exportPatch_of_shuffles hs hids hshuffle hroots hp
    exact ⟨p', hp'⟩
  · obtain ⟨p'', hp'', hsame⟩ := exists_exportPatch_of_shuffles hs hids hshuffle hroots hp
    obtain rfl := Except.ok.inj (hp''.symm.trans hp')
    exact hsame

end

/-- Two mixers feed one speaker, and the second of them feeds another speaker as well. -/
def stereoState : GraphState where
  nodes := [{ id := "s", type := "audio-out" }, { id := "t", type := "audio-out" },
    { id := "x", type := "math", config := [("url", .text "asset:kick.wav")] },
    { id := "y", type := "math", config := [("url", .text "asset:drum.wav")] }]
  connections := [⟨"xs", "x", "out", "s", "level"⟩, ⟨"ys", "y", "out", "s", "level"⟩,
    ⟨"yt", "y", "out", "t", "level"⟩]

/-- The same, back to front. -/
def reversedStereoState : GraphState :=
  { stereoState with
    nodes := stereoState.nodes.reverse
    connections := stereoState.connections.reverse }

/-- Back to front, with a root that is named twice, the patch of both speakers is the same. -/
theorem exportPatch_shuffle_stereo : ∃ p p',
    exportPatch stereoState Graph.speakerGraph.catalog ["s", "t"] .standard = .ok p ∧
    exportPatch reversedStereoState Graph.speakerGraph.catalog ["t", "s", "t"] .standard = .ok p' ∧
    p.graph.ids = ["s", "t", "x", "y"] ∧ p'.graph.ids = ["t", "s", "y", "x"] ∧
    p.assetRefs = ["asset:kick.wav", "asset:drum.wav"] ∧ p'.Shuffles p := by
  have hexport : ∃ p,
      exportPatch stereoState Graph.speakerGraph.catalog ["s", "t"] .standard = .ok p ∧
        p.graph.ids = ["s", "t", "x", "y"] ∧
        p.assetRefs = ["asset:kick.wav", "asset:drum.wav"] := ⟨_, rfl, rfl, rfl⟩
  have hexport' : ∃ p', exportPatch reversedStereoState Graph.speakerGraph.catalog
      ["t", "s", "t"] .standard = .ok p' ∧ p'.graph.ids = ["t", "s", "y", "x"] := ⟨_, rfl, rfl⟩
  have hshuffle : reversedStereoState.Shuffles stereoState :=
    ⟨rfl, List.reverse_perm _, List.reverse_perm _⟩
  have hroots : ∀ v, v ∈ ["t", "s", "t"] ↔ v ∈ ["s", "t"] := by simp [or_comm]
  obtain ⟨p, hp, hids, hrefs⟩ := hexport
  obtain ⟨p', hp', hids'⟩ := hexport'
  exact ⟨p, p', hp, hp', hids, hids', hrefs,
    (exportPatch_shuffle (by decide) (by decide) hshuffle hroots).2 p p' hp hp'⟩

end CueFlow
