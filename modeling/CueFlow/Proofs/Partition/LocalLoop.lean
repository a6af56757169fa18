import CueFlow.Partition.LocalLoop
import CueFlow.Proofs.Digraph.Component
import CueFlow.Proofs.Partition.Identity
import Mathlib.Tactic.MkIffOfInductiveProp
/-!
# Local loops are classes of mutual reachability

With distinct ids, places and ids are two names of one thing, so that the links of a snapshot join
places exactly as connections join nodes (`links_edge_iff`), and a group of places is a class of
nodes that reach each other (`mem_members_iff`). Connections that dangle join nothing. What a loop
says of its class (`LocalLoop.IsOf`) determines it, and a class that binds a device to a sensor
makes that loop (`isOf_of_ofMembers?`, `exists_ofMembers?`).

The id of a loop ends in a hash of fixed length, so the device can be read off it; hence no two
loops of a snapshot share an id (`LocalLoop.id_ne`). This makes the order strict, and a list in
strict order is determined by what is in it (`detectLocalLoops_congr`).
-/

namespace CueFlow

namespace GraphState

variable (s : GraphState)

/-- The ids of the nodes. -/
def ids : List NodeId := s.nodes.map Node.id

/-- The id of the node at a place. -/
def idAt? (i : Nat) : Option NodeId := (s.nodes[i]?).map Node.id

/-- A connection leads from the one node to the other, and both exist. -/
def Linked (u w : NodeId) : Prop :=
  ∃ c ∈ s.connections, c.source = u ∧ c.target = w ∧ u ∈ s.ids ∧ w ∈ s.ids

/-- Each of two nodes can be reached from the other along connections. -/
def Mutual (u w : NodeId) : Prop :=
  Relation.ReflTransGen s.Linked u w ∧ Relation.ReflTransGen s.Linked w u

variable {s}

theorem Mutual.symm {u w : NodeId} (h : s.Mutual u w) : s.Mutual w u := ⟨h.2, h.1⟩

theorem Mutual.trans {u v w : NodeId} (h : s.Mutual u v) (h' : s.Mutual v w) : s.Mutual u w :=
  ⟨h.1.trans h'.1, h'.2.trans h.2⟩

theorem mutual_iff_of_mutual {u v w : NodeId} (h : s.Mutual u v) :
    s.Mutual u w ↔ s.Mutual v w := ⟨h.symm.trans, h.trans⟩

/-! ### Places and ids -/

theorem idAt?_eq_some_iff {i : Nat} {u : NodeId} :
    s.idAt? i = some u ↔ ∃ n, s.nodes[i]? = some n ∧ n.id = u := Option.map_eq_some_iff

theorem mem_ids_iff {u : NodeId} : u ∈ s.ids ↔ ∃ i, s.idAt? i = some u := by
  simp only [ids, idAt?, ← List.getElem?_map, List.mem_iff_getElem?]

theorem lt_of_idAt? {i : Nat} {u : NodeId} (h : s.idAt? i = some u) : i < s.nodes.length := by
  obtain ⟨n, hn, -⟩ := idAt?_eq_some_iff.1 h
  exact (List.getElem?_eq_some_iff.1 hn).1

theorem exists_idAt? {i : Nat} (h : i < s.nodes.length) : ∃ u, s.idAt? i = some u :=
  ⟨_, idAt?_eq_some_iff.2 ⟨_, List.getElem?_eq_getElem h, rfl⟩⟩

/-- With distinct ids, an id has one place. -/
theorem idAt?_inj (h : s.ids.Nodup) {i j : Nat} {u : NodeId} (hi : s.idAt? i = some u)
    (hj : s.idAt? j = some u) : i = j := by
  have hlt := lt_of_idAt? hi
  rw [idAt?, ← List.getElem?_map] at hi hj
  rw [← List.length_map (f := Node.id)] at hlt
  exact (List.getElem?_inj hlt h).1 (hi.trans hj.symm)

theorem idAt?_of_lastIndexOf? {u : NodeId} {i : Nat} (h : s.lastIndexOf? u = some i) :
    s.idAt? i = some u := by
  obtain ⟨j, hj, rfl⟩ := Option.map_eq_some_iff.1 h
  obtain ⟨hlt, hid, -⟩ := List.findIdx?_eq_some_iff_getElem.1 hj
  rw [List.getElem_reverse] at hid
  exact idAt?_eq_some_iff.2 ⟨_, List.getElem?_eq_getElem _, by simpa using hid⟩

theorem lastIndexOf?_eq_some_iff (hs : s.ids.Nodup) {u : NodeId} {i : Nat} :
    s.lastIndexOf? u = some i ↔ s.idAt? i = some u := by
  refine ⟨idAt?_of_lastIndexOf?, fun h ↦ ?_⟩
  obtain ⟨j, hj⟩ : ∃ j, s.lastIndexOf? u = some j := by
    obtain ⟨n, hn, hid⟩ := idAt?_eq_some_iff.1 h
    rw [← Option.isSome_iff_exists, lastIndexOf?, Option.isSome_map, List.findIdx?_isSome]
    simpa using ⟨n, List.mem_of_getElem? hn, hid⟩
  rw [hj, idAt?_inj hs (idAt?_of_lastIndexOf? hj) h]

theorem endpoints?_eq_some_iff (hs : s.ids.Nodup) {c : Connection} {i j : Nat} :
    s.endpoints? c = some (i, j) ↔ s.idAt? i = some c.source ∧ s.idAt? j = some c.target := by
  rw [← lastIndexOf?_eq_some_iff hs, ← lastIndexOf?_eq_some_iff hs, endpoints?]
  cases s.lastIndexOf? c.source <;> cases s.lastIndexOf? c.target <;> simp

/-! ### Links -/

theorem links_edge_iff (hs : s.ids.Nodup) {i j : Nat} : s.links.Edge i j ↔
    ∃ u w, s.idAt? i = some u ∧ s.idAt? j = some w ∧ s.Linked u w := by
  simp only [Digraph.Edge, links, List.mem_filterMap, endpoints?_eq_some_iff hs]
  constructor
  · rintro ⟨c, hc, hi, hj⟩
    exact ⟨_, _, hi, hj, c, hc, rfl, rfl, mem_ids_iff.2 ⟨i, hi⟩, mem_ids_iff.2 ⟨j, hj⟩⟩
  · rintro ⟨_, _, hi, hj, c, hc, rfl, rfl, -, -⟩
    exact ⟨c, hc, hi, hj⟩

theorem inRange_links (hs : s.ids.Nodup) : s.links.InRange := by
  rintro ⟨i, j⟩ hedge
  obtain ⟨u, w, hi, hj, -⟩ := (links_edge_iff hs).1 hedge
  exact ⟨lt_of_idAt? hi, lt_of_idAt? hj⟩

theorem named_links (hs : s.ids.Nodup) : s.links.Named s.idAt? s.Linked where
  inj := idAt?_inj hs
  edge_iff := links_edge_iff hs
  exists_name := by
    rintro u w ⟨_, -, -, -, hu, hw⟩
    exact ⟨mem_ids_iff.1 hu, mem_ids_iff.1 hw⟩

/-- To reach a place is to reach the node there. -/
theorem reaches_links_iff (hs : s.ids.Nodup) {i j : Nat} {u w : NodeId}
    (hi : s.idAt? i = some u) (hj : s.idAt? j = some w) :
    s.links.Reaches i j ↔ Relation.ReflTransGen s.Linked u w := by
  rw [Digraph.reaches_iff, (named_links hs).reflTransGen_iff hi hj]

/-! ### Groups and classes -/

/-- The nodes at the places of a group. -/
def members (s : GraphState) (group : List Nat) : List Node := group.filterMap fun i ↦ s.nodes[i]?

theorem map_id_members (group : List Nat) :
    (s.members group).map Node.id = group.filterMap s.idAt? := by
  rw [members, List.map_filterMap]
  rfl

theorem nodup_group (hs : s.ids.Nodup) {group : List Nat} (hgroup : group ∈ s.links.components) :
    group.Nodup :=
  (List.nodup_flatten.1 (Digraph.nodup_flatten_components (inRange_links hs))).1 group hgroup

theorem nodup_members (hs : s.ids.Nodup) {group : List Nat} (hgroup : group.Nodup) :
    ((s.members group).map Node.id).Nodup := by
  rw [map_id_members]
  exact hgroup.filterMap fun i j u hi hj ↦ idAt?_inj hs hi hj

/-- Every node is in a group. -/
theorem exists_group (hs : s.ids.Nodup) {u : NodeId} (hu : u ∈ s.ids) :
    ∃ group ∈ s.links.components, ∃ i ∈ group, s.idAt? i = some u := by
  obtain ⟨i, hi⟩ := mem_ids_iff.1 hu
  have hmem : i ∈ s.links.components.flatten :=
    (Digraph.mem_flatten_components (inRange_links hs)).2 (lt_of_idAt? hi)
  obtain ⟨group, hgroup, hi'⟩ := List.mem_flatten.1 hmem
  exact ⟨group, hgroup, i, hi', hi⟩

/-- Every place of a group is that of a node. -/
theorem exists_idAt?_of_mem (hs : s.ids.Nodup) {group : List Nat}
    (hgroup : group ∈ s.links.components) {i : Nat} (hi : i ∈ group) :
    ∃ u, s.idAt? i = some u := by
  have hmem : i ∈ s.links.components.flatten := List.mem_flatten.2 ⟨group, hgroup, hi⟩
  exact exists_idAt? ((Digraph.mem_flatten_components (inRange_links hs)).1 hmem)

section

variable {group : List Nat} {i : Nat} {u : NodeId}

/-- Two places are in one group exactly if their nodes reach each other. -/
theorem mem_group_iff (hs : s.ids.Nodup) (hgroup : group ∈ s.links.components) (hi : i ∈ group)
    (hu : s.idAt? i = some u) {j : Nat} {w : NodeId} (hw : s.idAt? j = some w) :
    j ∈ group ↔ s.Mutual u w := by
  rw [Digraph.mem_component_iff (inRange_links hs) hgroup hi, reaches_links_iff hs hu hw,
    reaches_links_iff hs hw hu]
  rfl

/-- The members of a group are the nodes of a class. -/
theorem mem_members_iff (hs : s.ids.Nodup) (hgroup : group ∈ s.links.components) (hi : i ∈ group)
    (hu : s.idAt? i = some u) {n : Node} :
    n ∈ s.members group ↔ n ∈ s.nodes ∧ s.Mutual u n.id := by
  rw [members, List.mem_filterMap]
  constructor
  · rintro ⟨j, hj, hn⟩
    have hw : s.idAt? j = some n.id := idAt?_eq_some_iff.2 ⟨n, hn, rfl⟩
    exact ⟨List.mem_of_getElem? hn, (mem_group_iff hs hgroup hi hu hw).1 hj⟩
  · rintro ⟨hn, hmutual⟩
    obtain ⟨j, hj⟩ := List.mem_iff_getElem?.1 hn
    have hw : s.idAt? j = some n.id := idAt?_eq_some_iff.2 ⟨n, hj, rfl⟩
    exact ⟨j, (mem_group_iff hs hgroup hi hu hw).2 hmutual, hj⟩

end

end GraphState

/-- A group is a true cycle if it has another node, or some node has an edge to itself. -/
theorem Digraph.isCyclicGroup_iff {g : Digraph} {group : List Nat} (hnodup : group.Nodup) {i : Nat}
    (hi : i ∈ group) :
    g.isCyclicGroup group = true ↔ (∃ j ∈ group, j ≠ i) ∨ ∃ j ∈ group, g.Edge j j := by
  match group, hnodup, hi with
  | [v], _, hi =>
    obtain rfl := List.mem_singleton.1 hi
    simp [isCyclicGroup, Edge]
  | v :: w :: rest, hnodup, hi =>
    have hvw : v ≠ w := fun heq ↦ (List.nodup_cons.1 hnodup).1 (heq ▸ List.mem_cons_self)
    have hother : ∃ j ∈ v :: w :: rest, j ≠ i := by
      by_cases hv : v = i
      · exact ⟨w, by simp, fun hw ↦ hvw (hv.trans hw.symm)⟩
      · exact ⟨v, by simp, hv⟩
    exact iff_of_true (by simp [isCyclicGroup]) (.inl hother)

namespace GraphState

variable {s : GraphState}

/-- A class that has more than one node, or a node with a connection to itself. -/
def Cyclic (s : GraphState) (u : NodeId) : Prop :=
  (∃ v ∈ s.ids, v ≠ u ∧ s.Mutual u v) ∨ ∃ v, s.Mutual u v ∧ s.Linked v v

theorem isCyclicGroup_links_iff (hs : s.ids.Nodup) {group : List Nat}
    (hgroup : group ∈ s.links.components) {i : Nat} (hi : i ∈ group) {u : NodeId}
    (hu : s.idAt? i = some u) : s.links.isCyclicGroup group = true ↔ s.Cyclic u := by
  rw [Digraph.isCyclicGroup_iff (nodup_group hs hgroup) hi, Cyclic]
  refine or_congr ?_ ?_
  · constructor
    · rintro ⟨j, hj, hne⟩
      obtain ⟨w, hw⟩ := exists_idAt?_of_mem hs hgroup hj
      refine ⟨w, mem_ids_iff.2 ⟨j, hw⟩, ?_, (mem_group_iff hs hgroup hi hu hw).1 hj⟩
      rintro rfl
      exact hne (idAt?_inj hs hw hu)
    · rintro ⟨w, hw, hne, hmutual⟩
      obtain ⟨j, hj⟩ := mem_ids_iff.1 hw
      refine ⟨j, (mem_group_iff hs hgroup hi hu hj).2 hmutual, ?_⟩
      rintro rfl
      exact hne (Option.some.inj (hj.symm.trans hu))
  · constructor
    · rintro ⟨j, hj, hedge⟩
      obtain ⟨w, w', hw, hw', hlinked⟩ := (links_edge_iff hs).1 hedge
      obtain rfl := Option.some.inj (hw.symm.trans hw')
      exact ⟨w, (mem_group_iff hs hgroup hi hu hw).1 hj, hlinked⟩
    · rintro ⟨w, hmutual, hlinked⟩
      obtain ⟨_, -, -, -, hw, -⟩ := id hlinked
      obtain ⟨j, hj⟩ := mem_ids_iff.1 hw
      exact ⟨j, (mem_group_iff hs hgroup hi hu hj).2 hmutual,
        (links_edge_iff hs).2 ⟨w, w, hj, hj, hlinked⟩⟩

/-! ### Within a class -/

/-- A connection leads from one node of the class of `u` to another. -/
def LinkedIn (s : GraphState) (u v w : NodeId) : Prop :=
  s.Linked v w ∧ s.Mutual u v ∧ s.Mutual u w

/-- **A walk from one node of a class to another stays in the class.** -/
theorem reaches_linkedIn {u v w : NodeId} (hv : s.Mutual u v) (hw : s.Mutual u w)
    (hreaches : Relation.ReflTransGen s.Linked v w) :
    Relation.ReflTransGen (s.LinkedIn u) v w := by
  induction hreaches using Relation.ReflTransGen.head_induction_on with
  | refl => exact .refl
  | @head v x hlinked hrest ih =>
    -- The next node leads to `w`, hence to `u`, and is reached from `u` through `v`.
    have hx : s.Mutual u x := ⟨hv.1.tail hlinked, hrest.trans hw.2⟩
    exact (ih hx).head ⟨hlinked, hv, hx⟩

/-- A class is cyclic exactly if one can go round in it. -/
theorem cyclic_iff {u : NodeId} :
    s.Cyclic u ↔ ∃ v, Relation.TransGen (s.LinkedIn u) v v := by
  constructor
  · rintro (⟨v, -, hne, hmutual⟩ | ⟨v, hmutual, hlinked⟩)
    · have hu : s.Mutual u u := ⟨.refl, .refl⟩
      rcases Relation.reflTransGen_iff_eq_or_transGen.1 (reaches_linkedIn hu hmutual hmutual.1)
        with heq | hout
      · exact absurd heq hne
      · exact ⟨u, hout.trans_left (reaches_linkedIn hmutual hu hmutual.2)⟩
    · exact ⟨v, .single ⟨hlinked, hmutual, hmutual⟩⟩
  · rintro ⟨v, hcycle⟩
    obtain ⟨x, ⟨hlinked, hv, hx⟩, -⟩ := Relation.TransGen.head'_iff.1 hcycle
    by_cases hvx : x = v
    · subst hvx
      exact .inr ⟨x, hx, hlinked⟩
    · -- One of the two ends is another node than `u`.
      obtain ⟨-, -, -, -, hvs, hxs⟩ := hlinked
      by_cases hxu : x = u
      · exact .inl ⟨v, hvs, fun hvu ↦ hvx (hxu.trans hvu.symm), hv⟩
      · exact .inl ⟨x, hxs, hxu, hx⟩

/-! ### Classes and their loops -/

/-- The class of a node binds one device to at least one sensor. -/
def Binds (s : GraphState) (policy : PartitionPolicy) (u : NodeId) : Prop :=
  (∃! n, n ∈ s.nodes ∧ s.Mutual u n.id ∧ n.type = policy.deviceType) ∧
    ∃ n ∈ s.nodes, s.Mutual u n.id ∧ n.type = policy.sensorType

end GraphState

/-- The loop is that of the class of a node: it has the ids of the class, its device and the
capabilities of its types, both lists in order and without repetition, and is named for them. -/
@[mk_iff]
structure LocalLoop.IsOf (loop : LocalLoop) (s : GraphState) (policy : PartitionPolicy)
    (u : NodeId) : Prop where
  nodes_sorted : loop.nodes.Pairwise (· < ·)
  mem_nodes : ∀ v, v ∈ loop.nodes ↔ v ∈ s.ids ∧ s.Mutual u v
  device : ∃ n ∈ s.nodes, n.id = loop.device ∧ s.Mutual u n.id ∧ n.type = policy.deviceType
  capabilities_sorted : loop.capabilities.Pairwise (· < ·)
  mem_capabilities : ∀ tag, tag ∈ loop.capabilities ↔
    ∃ n ∈ s.nodes, s.Mutual u n.id ∧ policy.capabilities.get? n.type = some tag
  id : loop.id = "loop:" ++ loop.device ++ ":" ++ shortHash loop.nodes

/-- Texts in strict order are determined by which they are. -/
theorem eq_of_pairwise_lt {a b : List String} (ha : a.Pairwise (· < ·)) (hb : b.Pairwise (· < ·))
    (h : ∀ t, t ∈ a ↔ t ∈ b) : a = b :=
  ha.eq_of_mem_iff hb fun t ↦ h t

namespace LocalLoop

variable {loop loop' : LocalLoop} {s : GraphState} {policy : PartitionPolicy} {u v : NodeId}

/-- A class with one device has one loop. -/
theorem IsOf.unique (h : loop.IsOf s policy u) (h' : loop'.IsOf s policy u)
    (hbinds : s.Binds policy u) : loop = loop' := by
  obtain ⟨n, hn, hid, hmutual, htype⟩ := h.device
  obtain ⟨n', hn', hid', hmutual', htype'⟩ := h'.device
  obtain rfl := hbinds.1.unique ⟨hn, hmutual, htype⟩ ⟨hn', hmutual', htype'⟩
  have hdevice : loop.device = loop'.device := hid.symm.trans hid'
  have hnodes : loop.nodes = loop'.nodes := eq_of_pairwise_lt h.nodes_sorted h'.nodes_sorted
    fun w ↦ (h.mem_nodes w).trans (h'.mem_nodes w).symm
  have hcapabilities : loop.capabilities = loop'.capabilities :=
    eq_of_pairwise_lt h.capabilities_sorted h'.capabilities_sorted
      fun tag ↦ (h.mem_capabilities tag).trans (h'.mem_capabilities tag).symm
  have hname : loop.id = loop'.id := by rw [h.id, h'.id, hdevice, hnodes]
  cases loop
  cases loop'
  simp_all

/-- The loop of a class is that of each of its nodes. -/
theorem IsOf.congr (h : loop.IsOf s policy u) (huv : s.Mutual u v) : loop.IsOf s policy v := by
  have hclass : ∀ w, s.Mutual u w ↔ s.Mutual v w := fun w ↦
    GraphState.mutual_iff_of_mutual huv
  simp only [isOf_iff, hclass] at h ⊢
  exact h

section

variable {members : List Node}

theorem mem_map_id_iff (hmem : ∀ n, n ∈ members ↔ n ∈ s.nodes ∧ s.Mutual u n.id) :
    v ∈ members.map Node.id ↔ v ∈ s.ids ∧ s.Mutual u v := by
  rw [GraphState.ids, List.mem_map, List.mem_map]
  constructor
  · rintro ⟨n, hn, rfl⟩
    obtain ⟨hn, hmutual⟩ := (hmem n).1 hn
    exact ⟨⟨n, hn, rfl⟩, hmutual⟩
  · rintro ⟨⟨n, hn, rfl⟩, hmutual⟩
    exact ⟨n, (hmem n).2 ⟨hn, hmutual⟩, rfl⟩

/-- What makes a loop, and which one. -/
theorem ofMembers?_eq_some_iff : ofMembers? policy members = some loop ↔
    ∃ device, (members.filter fun n ↦ n.type == policy.deviceType) = [device] ∧
      (members.any fun n ↦ n.type == policy.sensorType) = true ∧ loop =
        { id := "loop:" ++ device.id ++ ":" ++ shortHash (sortTexts (members.map Node.id))
          device := device.id
          nodes := sortTexts (members.map Node.id)
          capabilities :=
            distinctTexts (members.filterMap fun n ↦ policy.capabilities.get? n.type) } := by
  rw [ofMembers?]
  constructor
  · intro h
    split at h
    next device hdevices =>
      split at h
      next hsensor => exact ⟨device, hdevices, hsensor, (Option.some.inj h).symm⟩
      next => cases h
    next => cases h
  · rintro ⟨device, hdevices, hsensor, rfl⟩
    rw [hdevices]
    exact if_pos hsensor

/-- A loop is named for a device among its members. -/
theorem named_of_ofMembers? (h : ofMembers? policy members = some loop) :
    loop.device ∈ members.map Node.id ∧
      loop.id = "loop:" ++ loop.device ++ ":" ++ shortHash loop.nodes := by
  obtain ⟨device, hdevices, -, rfl⟩ := ofMembers?_eq_some_iff.1 h
  have hdevice : device ∈ members.filter fun n ↦ n.type == policy.deviceType := by
    rw [hdevices]
    exact List.mem_singleton_self device
  exact ⟨List.mem_map_of_mem (List.mem_of_mem_filter hdevice), rfl⟩

/-- The members of a class make its loop. -/
theorem isOf_of_ofMembers? (hnodup : (members.map Node.id).Nodup)
    (hmem : ∀ n, n ∈ members ↔ n ∈ s.nodes ∧ s.Mutual u n.id)
    (h : ofMembers? policy members = some loop) :
    s.Binds policy u ∧ loop.IsOf s policy u := by
  obtain ⟨device, hdevices, hsensor, rfl⟩ := ofMembers?_eq_some_iff.1 h
  have hdevice : ∀ n, n ∈ members ∧ n.type = policy.deviceType ↔ n = device := by
    intro n
    have hn : n ∈ members.filter (fun n ↦ n.type == policy.deviceType) ↔ n ∈ [device] := by
      rw [hdevices]
    simpa using hn
  obtain ⟨hdevice', htype⟩ := (hdevice device).2 rfl
  obtain ⟨hin, hmutual⟩ := (hmem device).1 hdevice'
  obtain ⟨sensor, hsensor, hsensorType⟩ := List.any_eq_true.1 hsensor
  obtain ⟨hin', hmutual'⟩ := (hmem sensor).1 hsensor
  constructor
  · refine ⟨⟨device, ⟨hin, hmutual, htype⟩, fun n hn ↦ ?_⟩,
      sensor, hin', hmutual', by simpa using hsensorType⟩
    exact (hdevice n).1 ⟨(hmem n).2 ⟨hn.1, hn.2.1⟩, hn.2.2⟩
  · refine ⟨pairwise_lt_sortTexts hnodup, fun w ↦ mem_sortTexts.trans (mem_map_id_iff hmem),
      ⟨device, hin, rfl, hmutual, htype⟩, pairwise_lt_distinctTexts _, fun tag ↦ ?_, rfl⟩
    rw [mem_distinctTexts, List.mem_filterMap]
    simp only [hmem, and_assoc]

/-- A class with one device and a sensor makes a loop. -/
theorem exists_ofMembers? (hnodup : (members.map Node.id).Nodup)
    (hmem : ∀ n, n ∈ members ↔ n ∈ s.nodes ∧ s.Mutual u n.id) (h : s.Binds policy u) :
    ∃ loop, ofMembers? policy members = some loop := by
  obtain ⟨⟨device, ⟨hin, hmutual, htype⟩, hunique⟩, sensor, hin', hmutual', htype'⟩ := h
  have hdevices : (members.filter fun n ↦ n.type == policy.deviceType) = [device] := by
    refine List.perm_singleton.1 ((List.perm_ext_iff_of_nodup
      ((List.Nodup.of_map _ hnodup).filter _) (List.nodup_singleton _)).2 fun n ↦ ?_)
    rw [List.mem_filter, beq_iff_eq, List.mem_singleton, hmem]
    constructor
    · rintro ⟨⟨hn, hmutual⟩, htype⟩
      exact hunique n ⟨hn, hmutual, htype⟩
    · rintro rfl
      exact ⟨⟨hin, hmutual⟩, htype⟩
  have hsensor : (members.any fun n ↦ n.type == policy.sensorType) = true :=
    List.any_eq_true.2 ⟨sensor, (hmem sensor).2 ⟨hin', hmutual'⟩, by simpa using htype'⟩
  exact ⟨_, ofMembers?_eq_some_iff.2 ⟨device, hdevices, hsensor, rfl⟩⟩

end

end LocalLoop

/-! ### The list of loops -/

section

variable {s : GraphState} {policy : PartitionPolicy} {loop : LocalLoop}

theorem mem_detectLocalLoops_iff_group : loop ∈ detectLocalLoops s policy ↔
    ∃ group ∈ s.links.components, s.links.isCyclicGroup group = true ∧
      LocalLoop.ofMembers? policy (s.members group) = some loop := by
  rw [detectLocalLoops, List.mem_mergeSort, List.mem_filterMap]
  simp only [List.mem_filter, and_assoc]
  rfl

/-- A cyclic class that binds a device to a sensor has its loop in the list. -/
theorem exists_mem_detectLocalLoops (hs : s.ids.Nodup) {u : NodeId} (hu : u ∈ s.ids)
    (hcyclic : s.Cyclic u) (hbinds : s.Binds policy u) :
    ∃ loop ∈ detectLocalLoops s policy, loop.IsOf s policy u := by
  obtain ⟨group, hgroup, i, hi, hu⟩ := GraphState.exists_group hs hu
  have hnodup := GraphState.nodup_members hs (GraphState.nodup_group hs hgroup)
  have hmem := fun n : Node ↦ GraphState.mem_members_iff hs hgroup hi hu (n := n)
  have hcyclic' := (GraphState.isCyclicGroup_links_iff hs hgroup hi hu).2 hcyclic
  obtain ⟨loop, hloop⟩ := LocalLoop.exists_ofMembers? hnodup hmem hbinds
  exact ⟨loop, mem_detectLocalLoops_iff_group.2 ⟨group, hgroup, hcyclic', hloop⟩,
    (LocalLoop.isOf_of_ofMembers? hnodup hmem hloop).2⟩

/-- **The loops are those of the cyclic classes that bind a device to a sensor.** -/
theorem mem_detectLocalLoops (hs : s.ids.Nodup) : loop ∈ detectLocalLoops s policy ↔
    ∃ u ∈ s.ids, s.Cyclic u ∧ s.Binds policy u ∧ loop.IsOf s policy u := by
  constructor
  · intro h
    obtain ⟨group, hgroup, hcyclic, hloop⟩ := mem_detectLocalLoops_iff_group.1 h
    obtain ⟨i, hi⟩ := List.exists_mem_of_ne_nil group
      (Digraph.ne_nil_of_mem_components (GraphState.inRange_links hs) hgroup)
    obtain ⟨u, hu⟩ := GraphState.exists_idAt?_of_mem hs hgroup hi
    exact ⟨u, GraphState.mem_ids_iff.2 ⟨i, hu⟩,
      (GraphState.isCyclicGroup_links_iff hs hgroup hi hu).1 hcyclic,
      LocalLoop.isOf_of_ofMembers? (GraphState.nodup_members hs (GraphState.nodup_group hs hgroup))
        (fun n ↦ GraphState.mem_members_iff hs hgroup hi hu) hloop⟩
  · rintro ⟨u, hu, hcyclic, hbinds, hloop⟩
    obtain ⟨loop', hmem, hisOf⟩ := exists_mem_detectLocalLoops hs hu hcyclic hbinds
    rw [hloop.unique hisOf hbinds]
    exact hmem

/-- Loops of groups without a common place have different ids. -/
theorem LocalLoop.id_ne (hs : s.ids.Nodup) {group group' : List Nat}
    (hdisjoint : group.Disjoint group') {loop' : LocalLoop}
    (h : LocalLoop.ofMembers? policy (s.members group) = some loop)
    (h' : LocalLoop.ofMembers? policy (s.members group') = some loop') : loop.id ≠ loop'.id := by
  obtain ⟨hdevice, hid⟩ := named_of_ofMembers? h
  obtain ⟨hdevice', hid'⟩ := named_of_ofMembers? h'
  intro heq
  rw [hid, hid'] at heq
  have hprefix := congrArg String.toList (append_shortHash_inj heq)
  have hsame : loop.device = loop'.device :=
    String.toList_inj.1 (by simpa [String.toList_append] using hprefix)
  rw [GraphState.map_id_members, List.mem_filterMap] at hdevice hdevice'
  obtain ⟨i, hi, hu⟩ := hdevice
  obtain ⟨j, hj, hw⟩ := hdevice'
  rw [← hsame] at hw
  obtain rfl := GraphState.idAt?_inj hs hu hw
  exact hdisjoint hi hj

/-- The list of loops is in strict order of ids. -/
theorem pairwise_detectLocalLoops (hs : s.ids.Nodup) :
    (detectLocalLoops s policy).Pairwise fun a b ↦ a.id < b.id := by
  have hsorted : (detectLocalLoops s policy).Pairwise fun a b ↦ a.id ≤ b.id :=
    pairwise_le_mergeSort LocalLoop.id _
  have hdistinct : (detectLocalLoops s policy).Pairwise fun a b ↦ a.id ≠ b.id := by
    have hnodup := Digraph.nodup_flatten_components (GraphState.inRange_links hs)
    refine (List.mergeSort_perm _ _).symm.pairwise ?_ fun h ↦ h.symm
    refine List.pairwise_filterMap.2 (((List.nodup_flatten.1 hnodup).2.filter _).imp ?_)
    exact fun hdisjoint a ha b hb ↦ LocalLoop.id_ne hs hdisjoint ha hb
  exact hsorted.imp₂ (fun a b hle hne ↦ lt_of_le_of_ne hle hne) hdistinct

/-- Loops in strict order of ids are determined by which they are. -/
theorem eq_of_pairwise_id_lt {a b : List LocalLoop} (ha : a.Pairwise fun x y ↦ x.id < y.id)
    (hb : b.Pairwise fun x y ↦ x.id < y.id) (h : ∀ loop, loop ∈ a ↔ loop ∈ b) : a = b := by
  have hirrefl : Std.Irrefl fun x y : LocalLoop ↦ x.id < y.id := ⟨fun x ↦ lt_irrefl x.id⟩
  have hantisymm : Std.Antisymm fun x y : LocalLoop ↦ x.id < y.id :=
    ⟨fun x y hxy hyx ↦ absurd (hxy.trans hyx) (lt_irrefl x.id)⟩
  exact ha.eq_of_mem_iff hb fun loop ↦ h loop

/-! ### The result -/

theorem mem_ids_congr {s' : GraphState} (hnodes : s'.nodes.Perm s.nodes) (u : NodeId) :
    u ∈ s'.ids ↔ u ∈ s.ids := (hnodes.map Node.id).mem_iff

/-- What is linked does not hang on the order of nodes and connections. -/
theorem linked_congr {s' : GraphState} (hnodes : s'.nodes.Perm s.nodes)
    (hconnections : s'.connections.Perm s.connections) : s'.Linked = s.Linked := by
  funext u w
  simp only [GraphState.Linked, hconnections.mem_iff, mem_ids_congr hnodes]

/-- The loops do not hang on the order of nodes and connections. -/
theorem detectLocalLoops_congr {s' : GraphState} (hs : s.ids.Nodup)
    (hnodes : s'.nodes.Perm s.nodes) (hconnections : s'.connections.Perm s.connections) :
    detectLocalLoops s' policy = detectLocalLoops s policy := by
  have hs' : s'.ids.Nodup := (hnodes.map Node.id).nodup_iff.2 hs
  have hlinked : s'.Linked = s.Linked := linked_congr hnodes hconnections
  have hmutual : s'.Mutual = s.Mutual := by
    funext u w
    simp only [GraphState.Mutual, hlinked]
  refine eq_of_pairwise_id_lt (pairwise_detectLocalLoops hs') (pairwise_detectLocalLoops hs)
    fun loop ↦ ?_
  rw [mem_detectLocalLoops hs', mem_detectLocalLoops hs]
  simp only [GraphState.Cyclic, GraphState.Binds, LocalLoop.isOf_iff, hlinked, hmutual,
    mem_ids_congr hnodes, hnodes.mem_iff]

/-- **The detection of local loops is sound and complete.** In a snapshot with distinct ids, the
loops are those of the classes of mutual reachability that have more than one node or a connection
from a node to itself, exactly one device and some sensor. Every such class has exactly one loop.
The loops stand in strictly increasing order of ids, and the list does not hang on the order of
nodes and connections. -/
theorem detectLocalLoops_correct (s : GraphState) (policy : PartitionPolicy) (hs : s.ids.Nodup) :
    (∀ loop, loop ∈ detectLocalLoops s policy ↔
      ∃ u ∈ s.ids, s.Cyclic u ∧ s.Binds policy u ∧ loop.IsOf s policy u) ∧
    (∀ u ∈ s.ids, s.Cyclic u → s.Binds policy u →
      ∃! loop, loop ∈ detectLocalLoops s policy ∧ u ∈ loop.nodes) ∧
    (detectLocalLoops s policy).Pairwise (fun a b ↦ a.id < b.id) ∧
    ∀ s' : GraphState, s'.nodes.Perm s.nodes → s'.connections.Perm s.connections →
      detectLocalLoops s' policy = detectLocalLoops s policy := by
  refine ⟨fun loop ↦ mem_detectLocalLoops hs, fun u hu hcyclic hbinds ↦ ?_,
    pairwise_detectLocalLoops hs, fun s' ↦ detectLocalLoops_congr hs⟩
  obtain ⟨loop, hmem, hisOf⟩ := exists_mem_detectLocalLoops hs hu hcyclic hbinds
  refine ⟨loop, ⟨hmem, (hisOf.mem_nodes u).2 ⟨hu, .refl, .refl⟩⟩, ?_⟩
  rintro loop' ⟨hmem', hu'⟩
  obtain ⟨u', -, -, -, hisOf'⟩ := (mem_detectLocalLoops hs).1 hmem'
  exact (hisOf'.congr ((hisOf'.mem_nodes u).1 hu').2).unique hisOf hbinds

end

/-! ### A device and its sensors -/

/-- A device gets what its sensors report, and they are set from it; one connection dangles. -/
def deviceState : GraphState where
  nodes := [{ id := "d", type := "client" }, { id := "s", type := "client-sensors" }]
  connections := [⟨"sd", "s", "out", "d", "in"⟩, ⟨"ds", "d", "out", "s", "in"⟩,
    ⟨"dx", "d", "out", "x", "in"⟩]

/-- The two make one loop. -/
theorem detectLocalLoops_correct_device : deviceState.ids.Nodup ∧
    ∃! loop, loop ∈ detectLocalLoops deviceState .standard ∧ "d" ∈ loop.nodes := by
  have hids : deviceState.ids.Nodup := by decide
  have hout : deviceState.Linked "d" "s" :=
    ⟨⟨"ds", "d", "out", "s", "in"⟩, by decide, rfl, rfl, by decide, by decide⟩
  have hback : deviceState.Linked "s" "d" :=
    ⟨⟨"sd", "s", "out", "d", "in"⟩, by decide, rfl, rfl, by decide, by decide⟩
  have hmutual : deviceState.Mutual "d" "s" := ⟨.single hout, .single hback⟩
  have hbinds : deviceState.Binds .standard "d" := by
    refine ⟨⟨{ id := "d", type := "client" }, ⟨List.mem_cons_self, ⟨.refl, .refl⟩, rfl⟩, ?_⟩,
      { id := "s", type := "client-sensors" }, by simp [deviceState], hmutual, rfl⟩
    rintro n ⟨hn, -, htype⟩
    simp only [deviceState, List.mem_cons, List.not_mem_nil, or_false] at hn
    rcases hn with rfl | rfl
    · rfl
    · exact absurd htype (by decide)
  exact ⟨hids, (detectLocalLoops_correct deviceState .standard hids).2.1 "d" (by decide)
    (.inl ⟨"s", by decide, by decide, hmutual⟩) hbinds⟩

end CueFlow
