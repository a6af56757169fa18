import CueFlow.Proofs.Graph.Snapshot
import CueFlow.Proofs.Partition.Patch
import Mathlib.Data.List.Forall2
/-!
# A patch is a patch of itself

The walk over a patch has fewer places than the walk that the patch comes from, in another order,
and fewer connections. It retraces that walk nevertheless. Two walks are *in step* if they have met
related places, in the same order, and have followed the same connections (`PatchWalk.InStep`).
Walks stay in step as long as related places have the same connections to follow, to related sources
(`InStep.run`). Here the places related are those of one node (`GraphState.SameNode`). What is
followed into a node is still there, in its order, when nothing is left but what a walk has met and
followed, and nothing else has ever been followed (`IsTrailOf.forall₂_followed`).

So the second walk meets the same nodes in the same order and follows the same connections, and the
patch that it makes is the same as a whole (`exportPatch_idempotent`). Nothing is asked of the
snapshot but that its ids are distinct.
-/

namespace CueFlow

/-! ### Walks in step -/

namespace PatchWalk

/-- One connection, out of related places. -/
def SameEdge (R : Nat → Nat → Prop) (edge edge' : Connection × Nat) : Prop :=
  edge.1 = edge'.1 ∧ R edge.2 edge'.2

/-- Two walks have met related places, are to visit related places, and have followed the same
connections, all in the same order. -/
structure InStep (R : Nat → Nat → Prop) (w w' : PatchWalk) : Prop where
  members : List.Forall₂ R w.members w'.members
  queue : List.Forall₂ R w.queue w'.queue
  connections : w.connections = w'.connections

variable {R : Nat → Nat → Prop} {w w' : PatchWalk} {k i : Nat} {ks is : List Nat}
  {incoming incoming' : Nat → List (Connection × Nat)}

namespace InStep

section

variable (hR : Relator.BiUnique R)

include hR

theorem meet (h : InStep R w w') (hki : R k i) : InStep R (w.meet k) (w'.meet i) := by
  have hmet : k ∈ w.members ↔ i ∈ w'.members := List.rel_mem hR hki h.members
  by_cases hk : k ∈ w.members
  · rw [PatchWalk.meet, PatchWalk.meet, if_pos (by simpa using hk),
      if_pos (by simpa using hmet.1 hk)]
    exact h
  · rw [PatchWalk.meet, PatchWalk.meet, if_neg (by simpa using hk),
      if_neg (by simpa using mt hmet.2 hk)]
    exact ⟨List.rel_append h.members (.cons hki .nil), List.rel_append h.queue (.cons hki .nil),
      h.connections⟩

theorem foldl_meet (h : InStep R w w') (hplaces : List.Forall₂ R ks is) :
    InStep R (ks.foldl PatchWalk.meet w) (is.foldl PatchWalk.meet w') :=
  List.rel_foldl (fun _ _ h _ _ hki ↦ h.meet hR hki) h hplaces

theorem follow (h : InStep R w w') {edge edge' : Connection × Nat}
    (hedge : SameEdge R edge edge') : InStep R (w.follow edge) (w'.follow edge') := by
  have hnoted : InStep R { w with connections := w.connections ++ [edge.1] }
      { w' with connections := w'.connections ++ [edge'.1] } :=
    ⟨h.members, h.queue, by rw [h.connections, hedge.1]⟩
  exact hnoted.meet hR hedge.2

/-- **Walks stay in step** as long as related places have the same connections to follow. -/
theorem run (hincoming : ∀ k i, R k i → List.Forall₂ (SameEdge R) (incoming k) (incoming' i))
    (h : InStep R w w') (fuel : Nat) :
    InStep R (PatchWalk.run incoming fuel w) (PatchWalk.run incoming' fuel w') := by
  induction fuel generalizing w w' with
  | zero =>
    rw [PatchWalk.run, PatchWalk.run]
    exact h
  | succ fuel ih =>
    obtain ⟨members, queue, connections⟩ := w
    obtain ⟨members', queue', connections'⟩ := w'
    cases h.queue with
    | nil => exact h
    | @cons k i rest rest' hki hrest =>
      have hpopped : InStep R ⟨members, rest, connections⟩ ⟨members', rest', connections'⟩ :=
        ⟨h.members, hrest, h.connections⟩
      exact ih (List.rel_foldl (fun _ _ h _ _ hedge ↦ h.follow hR hedge) hpopped
        (hincoming k i hki))

end

end InStep

/-- A walk that has ended does not go on. -/
theorem run_add {fuel : Nat} (h : (run incoming fuel w).queue = []) (more : Nat) :
    run incoming (fuel + more) w = run incoming fuel w := by
  induction fuel generalizing w with
  | zero =>
    obtain ⟨members, queue, connections⟩ := w
    obtain rfl : queue = [] := by simpa [run] using h
    cases more <;> simp [run]
  | succ fuel ih =>
    obtain ⟨members, queue, connections⟩ := w
    rw [Nat.add_right_comm]
    cases queue with
    | nil => rfl
    | cons v queue => exact ih h

/-- **Walks from related places end in step**, each after as many visits as it has places. -/
theorem inStep_run {n n' : Nat} (hR : Relator.BiUnique R)
    (hincoming : ∀ k i, R k i → List.Forall₂ (SameEdge R) (incoming k) (incoming' i))
    (hplaces : List.Forall₂ R ks is) (hks : ∀ k ∈ ks, k < n)
    (hsources : ∀ k, ∀ edge ∈ incoming k, edge.2 < n) (his : ∀ i ∈ is, i < n')
    (hsources' : ∀ i, ∀ edge ∈ incoming' i, edge.2 < n') :
    InStep R (run incoming n (ks.foldl meet {})) (run incoming' n' (is.foldl meet {})) := by
  obtain ⟨_, _, hend, -⟩ := walked_run hks hsources
  obtain ⟨_, _, hend', -⟩ := walked_run his hsources'
  have hstarts : InStep R (ks.foldl meet {}) (is.foldl meet {}) :=
    InStep.foldl_meet hR ⟨.nil, .nil, rfl⟩ hplaces
  -- Both are given the fuel of both, which neither minds.
  have hfuel : run incoming (n + n') (ks.foldl meet {}) = run incoming n (ks.foldl meet {}) :=
    run_add (by rw [hend]) n'
  have hfuel' : run incoming' (n' + n) (is.foldl meet {}) = run incoming' n' (is.foldl meet {}) :=
    run_add (by rw [hend']) n
  rw [← hfuel, ← hfuel', Nat.add_comm n']
  exact hstarts.run hR hincoming _

end PatchWalk

/-! ### The trail of a walk -/

namespace GraphState

variable {part s : GraphState} {catalog : Catalog} {policy : PartitionPolicy} {starts : List Nat}
  {roots : List NodeId} {walk : PatchWalk} {k i j : Nat} {n : Node} {c : Connection}

/-- The two places have the node of one id. -/
def SameNode (part s : GraphState) (k i : Nat) : Prop :=
  ∃ v, part.idAt? k = some v ∧ s.idAt? i = some v

theorem biUnique_sameNode (hpart : part.ids.Nodup) (hs : s.ids.Nodup) :
    Relator.BiUnique (SameNode part s) := by
  constructor
  · rintro k i k' ⟨v, hk, hi⟩ ⟨v', hk', hi'⟩
    obtain rfl := Option.some.inj (hi.symm.trans hi')
    exact idAt?_inj hpart hk hk'
  · rintro k i i' ⟨v, hk, hi⟩ ⟨v', hk', hi'⟩
    obtain rfl := Option.some.inj (hk.symm.trans hk')
    exact idAt?_inj hs hi hi'

/-- A part has what a walk has met, without outputs, and what it has followed, in the order of the
snapshot. -/
structure IsTrailOf (part s : GraphState) (walk : PatchWalk) : Prop where
  nodup : part.ids.Nodup
  mem_nodes : ∀ n, n ∈ part.nodes ↔ ∃ m ∈ s.members walk.members, n = m.withoutOutputs
  connections : part.connections = s.connections.filter (· ∈ walk.connections)

namespace IsTrailOf

section

variable (h : part.IsTrailOf s walk) (hs : s.ids.Nodup)

include h hs

/-- Places of one node have the same node, up to its outputs, and the walk has met it. -/
theorem exists_of_sameNode (hki : SameNode part s k i) : ∃ n, s.nodes[i]? = some n ∧
    part.nodes[k]? = some n.withoutOutputs ∧ i ∈ walk.members := by
  obtain ⟨v, hk, hi⟩ := hki
  obtain ⟨n', hn', hid⟩ := idAt?_eq_some_iff.1 hk
  obtain ⟨n, hn, rfl⟩ := (h.mem_nodes n').1 (List.mem_of_getElem? hn')
  obtain ⟨i', hi', hat⟩ := List.mem_filterMap.1 hn
  obtain rfl : i' = i := idAt?_inj hs (idAt?_eq_some_iff.2 ⟨n, hat, hid⟩) hi
  exact ⟨n, hat, hn', hi'⟩

omit hs in
theorem exists_sameNode (hi : i ∈ walk.members) (hn : s.nodes[i]? = some n) :
    ∃ k, SameNode part s k i := by
  have hmem : n.withoutOutputs ∈ part.nodes :=
    (h.mem_nodes _).2 ⟨n, List.mem_filterMap.2 ⟨i, hi, hn⟩, rfl⟩
  obtain ⟨k, hk⟩ := List.mem_iff_getElem?.1 hmem
  exact ⟨k, n.id, idAt?_eq_some_iff.2 ⟨_, hk, rfl⟩, idAt?_eq_some_iff.2 ⟨n, hn, rfl⟩⟩

/-- A walk follows a connection into a node here as it does there. -/
theorem followInto?_iff {c' : Connection} (hkj : SameNode part s k j) :
    part.followInto? catalog policy n.withoutOutputs c = some (c', k) ↔
      s.followInto? catalog policy n c = some (c', j) := by
  obtain ⟨m, hj, hk, -⟩ := h.exists_of_sameNode hs hkj
  rw [followInto?_eq_some_iff h.nodup, followInto?_eq_some_iff hs, hj, hk]
  simp only [Option.some.injEq, exists_eq_left']
  rfl

/-- What is not followed into a node there is not followed into it here. -/
theorem followInto?_eq_none (hinto : s.followInto? catalog policy n c = none) :
    part.followInto? catalog policy n.withoutOutputs c = none := by
  by_contra hsome
  obtain ⟨⟨c', k⟩, hsome⟩ := Option.ne_none_iff_exists'.1 hsome
  obtain ⟨-, -, m', hk, -⟩ := (followInto?_eq_some_iff h.nodup).1 hsome
  obtain ⟨m, hm, rfl⟩ := (h.mem_nodes m').1 (List.mem_of_getElem? hk)
  obtain ⟨j, -, hj⟩ := List.mem_filterMap.1 hm
  have hkj : SameNode part s k j :=
    ⟨m.id, idAt?_eq_some_iff.2 ⟨_, hk, rfl⟩, idAt?_eq_some_iff.2 ⟨m, hj, rfl⟩⟩
  rw [(h.followInto?_iff hs hkj).1 hsome] at hinto
  cases hinto

theorem members_eq {ks is : List Nat} (hplaces : List.Forall₂ (SameNode part s) ks is) :
    part.members ks = (s.members is).map Node.withoutOutputs := by
  induction hplaces with
  | nil => rfl
  | @cons k i ks is hki _ ih =>
    obtain ⟨n, hi, hk, -⟩ := h.exists_of_sameNode hs hki
    have hcons : part.members (k :: ks) = n.withoutOutputs :: part.members ks :=
      List.filterMap_cons_some hk
    have hcons' : s.members (i :: is) = n :: s.members is := List.filterMap_cons_some hi
    rw [hcons, hcons', ih, List.map_cons]

end

/-- The roots are where the walk has met them. -/
theorem exists_starts (h : part.IsTrailOf s walk) (hs : s.ids.Nodup)
    (hroots : roots.mapM (rootIndex s policy) = .ok starts)
    (hmet : ∀ i ∈ starts, i ∈ walk.members) :
    ∃ ks, roots.mapM (rootIndex part policy) = .ok ks ∧
      List.Forall₂ (SameNode part s) ks starts := by
  simp only [mapM_eq_ok_iff] at hroots ⊢
  induction hroots with
  | nil => exact ⟨[], .nil, .nil⟩
  | @cons v i roots starts hv _ ih =>
    obtain ⟨ks, hks, hplaces⟩ := ih fun i hi ↦ hmet i (List.mem_cons_of_mem _ hi)
    obtain ⟨n, hn, rfl, htype⟩ := (rootIndex_eq_ok_iff hs).1 hv
    obtain ⟨k, hki⟩ := h.exists_sameNode (hmet i List.mem_cons_self) hn
    obtain ⟨n', hn', hk, -⟩ := h.exists_of_sameNode hs hki
    obtain rfl := Option.some.inj (hn.symm.trans hn')
    exact ⟨k :: ks, .cons ((rootIndex_eq_ok_iff h.nodup).2 ⟨_, hk, rfl, htype⟩) hks,
      .cons hki hplaces⟩

section

variable (h : part.IsTrailOf s ((s.graphIn catalog).patchWalk policy starts)) (hs : s.ids.Nodup)
  (hstarts : ∀ i ∈ starts, i < s.nodes.length)

include h hs hstarts

/-- **What is followed into a node there is followed into it here**, in the same order. -/
theorem forall₂_followed (hki : SameNode part s k i) :
    List.Forall₂ (PatchWalk.SameEdge (SameNode part s)) (followed part catalog policy k)
      (followed s catalog policy i) := by
  obtain ⟨-, hmembers⟩ :=
    Graph.members_patchWalk (g := s.graphIn catalog) hstarts
  obtain ⟨n, hi, hk, hmet⟩ := h.exists_of_sameNode hs hki
  rw [followed_eq hk, followed_eq hi, h.connections, List.filterMap_filter]
  -- The lists of connections are one, so that it is enough to look at its elements.
  have hsame : List.Forall₂ (fun c d ↦ c = d ∧ c ∈ s.connections) s.connections s.connections :=
    List.forall₂_same.2 fun c hc ↦ ⟨rfl, hc⟩
  refine List.rel_filterMap ?_ hsame
  rintro c _ ⟨rfl, hc⟩
  dsimp only
  cases hinto : s.followInto? catalog policy n c with
  | some edge =>
    -- The walk has followed the connection, and so it has met its source.
    obtain ⟨rfl, -, m, hm, -⟩ := (followInto?_eq_some_iff hs).1 hinto
    have hedge := (mem_followed hs).2 ⟨n, hi, hc, hinto⟩
    have hreached := (hmembers i).1 hmet
    have hwalked : edge.1 ∈ ((s.graphIn catalog).patchWalk policy starts).connections :=
      (Graph.connections_patchWalk (g := s.graphIn catalog) hstarts).2 ⟨i, hreached, _, hedge⟩
    obtain ⟨k', hk'⟩ := h.exists_sameNode ((hmembers _).2 (hreached.source hedge)) hm
    rw [if_pos (by simpa using hwalked), (h.followInto?_iff hs hk').2 hinto]
    exact .some ⟨rfl, hk'⟩
  | none =>
    rw [h.followInto?_eq_none hs hinto, ite_self]
    exact .none

/-- **A walk over the trail of a walk retraces it.** -/
theorem inStep {ks : List Nat} (hplaces : List.Forall₂ (SameNode part s) ks starts) :
    PatchWalk.InStep (SameNode part s) ((part.graphIn catalog).patchWalk policy ks)
      ((s.graphIn catalog).patchWalk policy starts) := by
  have hplaced : List.Forall₂ (fun k i ↦ k < part.nodes.length ∧ SameNode part s k i) ks starts :=
    hplaces.imp fun k i hki ↦ ⟨lt_of_idAt? hki.choose_spec.1, hki⟩
  have hks : ∀ k ∈ ks, k < part.nodes.length := ((List.forall₂_and_left ks starts).1 hplaced).1
  exact PatchWalk.inStep_run (biUnique_sameNode h.nodup hs)
    (fun k i ↦ h.forall₂_followed hs hstarts) hplaces hks lt_of_mem_followed hstarts
    lt_of_mem_followed

end

end IsTrailOf

end GraphState

/-! ### The patch of a patch -/

theorem assetRefsOf_map_withoutOutputs (nodes : List Node) :
    assetRefsOf (nodes.map Node.withoutOutputs) = assetRefsOf nodes := by
  rw [assetRefsOf, List.flatMap_map]
  rfl

namespace Graph

variable {g : Graph} {policy : PartitionPolicy} {roots : List NodeId} {starts : List Nat}
  {walk walk' : PatchWalk}

/-- What a walk makes of a graph is its trail. -/
theorem isTrailOf_patchOf (hg : g.UniqueIds) (hids : (g.connections.map Connection.id).Nodup)
    (hstarts : ∀ i ∈ starts, i < g.nodes.length) :
    (g.patchOf roots (g.patchWalk policy starts)).graph.IsTrailOf g.snapshot
      (g.patchWalk policy starts) where
  nodup := by
    rw [ids_patchOf]
    exact GraphState.nodup_members hg.nodup_ids (members_patchWalk hstarts).1
  mem_nodes n := by
    simp only [patchOf, List.mem_map, eq_comm]
  connections := by
    refine connections_patchOf hids fun c hc ↦ ?_
    obtain ⟨i, -, j, hedge⟩ := (connections_patchWalk hstarts).1 hc
    obtain ⟨n, -, hmem, -⟩ := (GraphState.mem_followed hg.nodup_ids).1 hedge
    exact hmem

/-- A walk over a patch makes that patch if it has followed the same connections and has met the
same nodes, up to their outputs, as the walk that the patch comes from. -/
theorem concludeWalk_patchOf {p : PatchExport}
    (hconclude : g.concludeWalk policy roots walk = .ok p)
    (hconnections : walk'.connections = walk.connections)
    (hmembers : p.graph.members walk'.members =
      (g.snapshot.members walk.members).map Node.withoutOutputs) :
    (p.graph.graphIn g.catalog).concludeWalk policy roots walk' = .ok p := by
  obtain ⟨hdeployable, hstuck, rfl⟩ := concludeWalk_eq_ok.1 hconclude
  have hids : ((g.patchOf roots walk).graph.graphIn g.catalog).memberIds walk' =
      g.memberIds walk := by
    rw [memberIds, snapshot_graphIn, hmembers, List.map_map]
    rfl
  refine concludeWalk_eq_ok.2 ⟨?_, ?_, ?_⟩
  · rw [snapshot_graphIn, hmembers, List.find?_map, Option.map_eq_none_iff]
    exact hdeployable
  · rw [memberLinks, hids, hconnections]
    exact hstuck
  · have hkept : ((g.patchOf roots walk).graph.connections.filter fun c ↦
        (walk.connections.map Connection.id).contains c.id) =
          (g.patchOf roots walk).graph.connections := by
      rw [patchOf, List.filter_filter]
      simp only [Bool.and_self]
    rw [patchOf, hids, snapshot_graphIn, hmembers, assetRefsOf_map_withoutOutputs, List.map_map,
      hconnections]
    exact congrArg (fun connections ↦
      { g.patchOf roots walk with
        graph := { (g.patchOf roots walk).graph with connections } }) hkept

end Graph

/-- **A patch is the patch of itself**: exported again for the same roots, it comes out the same as
a whole, with the same id, the same nodes and connections in the same order, and the same version
and references to assets. -/
theorem exportPatch_idempotent {s : GraphState} {catalog : Catalog} {policy : PartitionPolicy}
    {roots : List NodeId} {p : PatchExport} (hs : s.ids.Nodup)
    (hids : (s.connections.map Connection.id).Nodup)
    (h : exportPatch s catalog roots policy = .ok p) :
    exportPatch p.graph catalog roots policy = .ok p := by
  obtain ⟨hroots, starts, hmap, hconclude⟩ :=
    (Graph.exportPatch_eq_ok_iff (g := s.graphIn catalog)).1 h
  have hstarts : ∀ i ∈ starts, i < s.nodes.length :=
    Graph.lt_of_mem_starts (Graph.placesOf_of_mapM (g := s.graphIn catalog) hs hmap).1
  have htrail : p.graph.IsTrailOf s ((s.graphIn catalog).patchWalk policy starts) := by
    obtain ⟨-, -, rfl⟩ := Graph.concludeWalk_eq_ok.1 hconclude
    exact Graph.isTrailOf_patchOf (g := s.graphIn catalog) hs hids hstarts
  -- The roots are met again, each at the place that it has in the patch.
  obtain ⟨-, hmet⟩ := Graph.members_patchWalk (g := s.graphIn catalog) hstarts
  obtain ⟨ks, hks, hplaced⟩ := htrail.exists_starts hs hmap fun i hi ↦ (hmet i).2 (.start hi)
  have hstep := htrail.inStep hs hstarts hplaced
  exact (Graph.exportPatch_eq_ok_iff (g := p.graph.graphIn catalog)).2 ⟨hroots, ks, hks,
    Graph.concludeWalk_patchOf hconclude hstep.connections (htrail.members_eq hs hstep.members)⟩

/-- A mixer is fed by another, by a controller that stays with the manager, and by a node that is
missing. It feeds a speaker, which is routed to a device. -/
def mixerState : GraphState where
  nodes := [{ id := "m", type := "midi-input" }, { id := "y", type := "math" },
    { id := "c", type := "client" },
    { id := "x", type := "math", outputValues := [("out", .number 2.0)] },
    { id := "s", type := "audio-out", config := [("url", .text "asset:drum.wav")] }]
  connections := [⟨"mx", "m", "value", "x", "a"⟩, ⟨"yx", "y", "out", "x", "a"⟩,
    ⟨"gx", "g", "out", "x", "a"⟩, ⟨"cs", "c", "device", "s", "device"⟩,
    ⟨"xs", "x", "out", "s", "level"⟩]

/-- The patch of the speaker has its nodes in another order, and is the patch of itself. -/
theorem exportPatch_idempotent_mixer : ∃ p,
    exportPatch mixerState Graph.speakerGraph.catalog ["s"] .standard = .ok p ∧
    p.graph.ids = ["s", "x", "y"] ∧ p.graph.connections.map Connection.id = ["yx", "xs"] ∧
    exportPatch p.graph Graph.speakerGraph.catalog ["s"] .standard = .ok p := by
  have hexport : ∃ p,
      exportPatch mixerState Graph.speakerGraph.catalog ["s"] .standard = .ok p ∧
        p.graph.ids = ["s", "x", "y"] ∧ p.graph.connections.map Connection.id = ["yx", "xs"] :=
    ⟨_, rfl, rfl, rfl⟩
  obtain ⟨p, hp, hids, hconnections⟩ := hexport
  exact ⟨p, hp, hids, hconnections, exportPatch_idempotent (by decide) (by decide) hp⟩

end CueFlow
