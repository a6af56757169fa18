import CueFlow.Proofs.Partition.LocalLoop
import CueFlow.Proofs.Refusal
/-!
# An exported loop is a loop again

To export a loop is to take the nodes of a class of mutual reachability, without their outputs, and
the connections among them (`GraphState.IsClassOf`, `isClassOf_of_exportLoop`). A walk from one node
of the class to another never leaves the class, so it is there in the export
(`IsClassOf.reaches`). So the class is still one class when nothing else
is left (`IsClassOf.mutual_of_mutual`), and all that a loop says of its class stays true
(`IsClassOf.isOf`). Hence the loop is what is found in its export, and its export exports as itself
(`exportLoop_fixed`).
-/

namespace CueFlow

namespace GraphState

/-- The part is the class of a node by itself: the nodes of the class, without outputs, and the
connections among them. -/
structure IsClassOf (part s : GraphState) (u : NodeId) : Prop where
  mem_nodes : ∀ n, n ∈ part.nodes ↔ ∃ m ∈ s.nodes, s.Mutual u m.id ∧ n = m.withoutOutputs
  mem_connections : ∀ c, c ∈ part.connections ↔
    c ∈ s.connections ∧ c.source ∈ part.ids ∧ c.target ∈ part.ids

variable {part s : GraphState} {policy : PartitionPolicy} {loop : LocalLoop} {u v w : NodeId}

namespace IsClassOf

variable (h : part.IsClassOf s u)

include h

theorem mem_ids_iff : v ∈ part.ids ↔ v ∈ s.ids ∧ s.Mutual u v := by
  simp only [ids, List.mem_map, h.mem_nodes]
  constructor
  · rintro ⟨_, ⟨m, hm, hmutual, rfl⟩, rfl⟩
    exact ⟨⟨m, hm, rfl⟩, hmutual⟩
  · rintro ⟨⟨m, hm, rfl⟩, hmutual⟩
    exact ⟨_, ⟨m, hm, hmutual, rfl⟩, rfl⟩

/-- What is linked in the class is what is linked and in the class. -/
theorem linked_iff : part.Linked v w ↔ s.Linked v w ∧ s.Mutual u v ∧ s.Mutual u w := by
  simp only [Linked, h.mem_connections, h.mem_ids_iff]
  constructor
  · rintro ⟨c, ⟨hc, -⟩, hv, hw, ⟨hvs, hvu⟩, hws, hwu⟩
    exact ⟨⟨c, hc, hv, hw, hvs, hws⟩, hvu, hwu⟩
  · rintro ⟨⟨c, hc, rfl, rfl, hvs, hws⟩, hvu, hwu⟩
    exact ⟨c, ⟨hc, ⟨hvs, hvu⟩, hws, hwu⟩, rfl, rfl, ⟨hvs, hvu⟩, hws, hwu⟩

/-- A walk from one node of the class to another is a walk in the part. -/
theorem reaches (hv : s.Mutual u v) (hw : s.Mutual u w)
    (hreaches : Relation.ReflTransGen s.Linked v w) :
    Relation.ReflTransGen part.Linked v w :=
  (reaches_linkedIn hv hw hreaches).lift id fun _ _ ↦ h.linked_iff.2

/-- The class is one class when nothing else is left. -/
theorem mutual_of_mutual (hv : s.Mutual u v) : part.Mutual u v :=
  ⟨h.reaches ⟨.refl, .refl⟩ hv hv.1, h.reaches hv ⟨.refl, .refl⟩ hv.2⟩

theorem mutual_of_mem (hv : v ∈ part.ids) : part.Mutual u v :=
  h.mutual_of_mutual (h.mem_ids_iff.1 hv).2

/-! ### What is said of the class -/

theorem cyclic (hcyclic : s.Cyclic u) : part.Cyclic u := by
  obtain ⟨v, hv, hne, hmutual⟩ | ⟨v, hmutual, hlinked⟩ := hcyclic
  · exact .inl ⟨v, h.mem_ids_iff.2 ⟨hv, hmutual⟩, hne, h.mutual_of_mutual hmutual⟩
  · exact .inr ⟨v, h.mutual_of_mutual hmutual, h.linked_iff.2 ⟨hlinked, hmutual, hmutual⟩⟩

/-- A node of the class is found by id and type in the part as in the whole. -/
theorem exists_node_iff {P : NodeId → String → Prop} :
    (∃ n ∈ part.nodes, part.Mutual u n.id ∧ P n.id n.type) ↔
      ∃ n ∈ s.nodes, s.Mutual u n.id ∧ P n.id n.type := by
  simp only [h.mem_nodes]
  constructor
  · rintro ⟨_, ⟨m, hm, hmutual, rfl⟩, -, hP⟩
    exact ⟨m, hm, hmutual, hP⟩
  · rintro ⟨m, hm, hmutual, hP⟩
    exact ⟨m.withoutOutputs, ⟨m, hm, hmutual, rfl⟩, h.mutual_of_mutual hmutual, hP⟩

theorem binds (hbinds : s.Binds policy u) : part.Binds policy u := by
  obtain ⟨⟨device, ⟨hin, hmutual, htype⟩, hunique⟩, hsensor⟩ := hbinds
  refine ⟨⟨device.withoutOutputs, ⟨(h.mem_nodes _).2 ⟨device, hin, hmutual, rfl⟩,
    h.mutual_of_mutual hmutual, htype⟩, ?_⟩,
    (h.exists_node_iff (P := fun _ type ↦ type = policy.sensorType)).2 hsensor⟩
  rintro n ⟨hn, -, htype'⟩
  obtain ⟨m, hm, hmutual', rfl⟩ := (h.mem_nodes n).1 hn
  rw [hunique m ⟨hm, hmutual', htype'⟩]

/-- A loop is that of its class by itself. -/
theorem isOf (hloop : loop.IsOf s policy u) : loop.IsOf part policy u where
  nodes_sorted := hloop.nodes_sorted
  mem_nodes v := (hloop.mem_nodes v).trans
    ⟨fun hv ↦ ⟨h.mem_ids_iff.2 hv, h.mutual_of_mutual hv.2⟩, fun hv ↦ h.mem_ids_iff.1 hv.1⟩
  device := by
    obtain ⟨n, hn, hid, hmutual, htype⟩ := hloop.device
    exact ⟨n.withoutOutputs, (h.mem_nodes _).2 ⟨n, hn, hmutual, rfl⟩, hid,
      h.mutual_of_mutual hmutual, htype⟩
  capabilities_sorted := hloop.capabilities_sorted
  mem_capabilities tag := (hloop.mem_capabilities tag).trans
    (h.exists_node_iff (P := fun _ type ↦ policy.capabilities.get? type = some tag)).symm
  id := hloop.id

/-- **A loop is all that is found in its class by itself.** -/
theorem detectLocalLoops_eq (hpart : part.ids.Nodup) (hu : u ∈ s.ids) (hcyclic : s.Cyclic u)
    (hbinds : s.Binds policy u) (hloop : loop.IsOf s policy u) :
    detectLocalLoops part policy = [loop] := by
  refine eq_of_pairwise_id_lt (pairwise_detectLocalLoops hpart) (List.pairwise_singleton _ _)
    fun loop' ↦ ?_
  rw [mem_detectLocalLoops hpart, List.mem_singleton]
  constructor
  · rintro ⟨v, hv, -, -, hloop'⟩
    exact (hloop'.congr (h.mutual_of_mem hv).symm).unique (h.isOf hloop) (h.binds hbinds)
  · rintro rfl
    exact ⟨u, h.mem_ids_iff.2 ⟨hu, .refl, .refl⟩, h.cyclic hcyclic, h.binds hbinds, h.isOf hloop⟩

end IsClassOf

/-! ### Exporting -/

/-- With distinct ids, a node is the first of its id. -/
theorem find?_of_mem (hs : s.ids.Nodup) {n : Node} (hn : n ∈ s.nodes) :
    (s.nodes.find? fun m ↦ m.id == n.id) = some n := by
  cases hfound : s.nodes.find? fun m ↦ m.id == n.id with
  | none => exact absurd (beq_self_eq_true n.id) (List.find?_eq_none.1 hfound n hn)
  | some m =>
    have hid : m.id = n.id := by simpa using List.find?_some hfound
    rw [List.inj_on_of_nodup_map hs (List.mem_of_find?_eq_some hfound) hn hid]

end GraphState

section

variable {part s : GraphState} {policy : PartitionPolicy} {loop : LocalLoop} {u v : NodeId}

/-- A member is exported if the first node of its id may stand in a loop. -/
theorem exportMember_eq_ok_iff {n : Node} : exportMember s policy v = .ok n ↔
    ∃ m, (s.nodes.find? fun m ↦ m.id == v) = some m ∧ m.type ∈ policy.loopTypes ∧
      n = m.withoutOutputs := by
  rw [exportMember]
  cases s.nodes.find? fun m ↦ m.id == v with
  | none => simp
  | some m =>
    by_cases htype : m.type ∈ policy.loopTypes
    · simp [htype, eq_comm]
    · simp [htype]

/-- A loop is exported member by member, with the connections among the members. -/
theorem exportLoop_eq_ok_iff : exportLoop s loop policy = .ok part ↔
    loop.nodes.mapM (exportMember s policy) = .ok part.nodes ∧
      part.connections = (s.connections.filter fun c ↦
        loop.nodes.contains c.source && loop.nodes.contains c.target) ∧
      part.version = s.version := by
  rw [exportLoop, bind_eq_ok_iff]
  constructor
  · rintro ⟨nodes, hnodes, hpart⟩
    obtain rfl := Except.ok.inj hpart
    exact ⟨hnodes, rfl, rfl⟩
  · rintro ⟨hnodes, hconnections, hversion⟩
    refine ⟨part.nodes, hnodes, ?_⟩
    rw [← hconnections, ← hversion]
    rfl

/-- The members stand in the export in their order. -/
theorem ids_of_exportLoop (h : exportLoop s loop policy = .ok part) : part.ids = loop.nodes := by
  have hmembers := mapM_eq_ok_iff.1 (exportLoop_eq_ok_iff.1 h).1
  have hids : List.Forall₂ (fun v n ↦ v = n.id) loop.nodes part.nodes := by
    refine hmembers.imp fun v n hn ↦ ?_
    obtain ⟨m, hm, -, rfl⟩ := exportMember_eq_ok_iff.1 hn
    have hid : m.id = v := by simpa using List.find?_some hm
    exact hid.symm
  rw [← List.forall₂_map_right_iff, List.forall₂_eq_eq_eq] at hids
  exact hids.symm

/-- **To export a loop is to take its class.** -/
theorem isClassOf_of_exportLoop (hs : s.ids.Nodup) (hloop : loop.IsOf s policy u)
    (h : exportLoop s loop policy = .ok part) : part.IsClassOf s u := by
  obtain ⟨hmembers, hconnections, -⟩ := exportLoop_eq_ok_iff.1 h
  obtain ⟨hforth, hback⟩ := mem_of_mapM_eq_ok hmembers
  refine ⟨fun n ↦ ⟨fun hn ↦ ?_, ?_⟩, fun c ↦ ?_⟩
  · obtain ⟨v, hv, hexport⟩ := hback n hn
    obtain ⟨m, hm, -, rfl⟩ := exportMember_eq_ok_iff.1 hexport
    obtain rfl : m.id = v := by simpa using List.find?_some hm
    exact ⟨m, List.mem_of_find?_eq_some hm, ((hloop.mem_nodes _).1 hv).2, rfl⟩
  · rintro ⟨m, hm, hmutual, rfl⟩
    have hmember : m.id ∈ loop.nodes :=
      (hloop.mem_nodes _).2 ⟨List.mem_map_of_mem hm, hmutual⟩
    obtain ⟨n, hn, hexport⟩ := hforth m.id hmember
    obtain ⟨m', hm', -, rfl⟩ := exportMember_eq_ok_iff.1 hexport
    rw [GraphState.find?_of_mem hs hm] at hm'
    exact Option.some.inj hm' ▸ hn
  · rw [hconnections, List.mem_filter, ids_of_exportLoop h]
    simp

/-- **The export of a loop exports as itself.** -/
theorem exportLoop_of_exportLoop (hids : loop.nodes.Nodup)
    (h : exportLoop s loop policy = .ok part) : exportLoop part loop policy = .ok part := by
  obtain ⟨hmembers, hconnections, -⟩ := exportLoop_eq_ok_iff.1 h
  have hpart : part.ids.Nodup := by rwa [ids_of_exportLoop h]
  refine exportLoop_eq_ok_iff.2 ⟨?_, ?_, rfl⟩
  · rw [← ids_of_exportLoop h, mapM_eq_ok_iff, GraphState.ids, List.forall₂_map_left_iff,
      List.forall₂_same]
    intro n hn
    obtain ⟨v, -, hexport⟩ := (mem_of_mapM_eq_ok hmembers).2 n hn
    obtain ⟨m, -, htype, rfl⟩ := exportMember_eq_ok_iff.1 hexport
    exact exportMember_eq_ok_iff.2 ⟨_, GraphState.find?_of_mem hpart hn, htype, rfl⟩
  · rw [hconnections, List.filter_filter]
    simp only [Bool.and_self]

/-- **The export of a loop is a fixed point** of detection and of export. The loop is all that is
found in it, and it exports as itself. It has the members of the loop in their order, each with its
type, config and stored inputs and without outputs, and just the connections among them, in the
order of the snapshot. -/
theorem exportLoop_fixed (hs : s.ids.Nodup) (hloop : loop ∈ detectLocalLoops s policy)
    (h : exportLoop s loop policy = .ok part) :
    detectLocalLoops part policy = [loop] ∧ exportLoop part loop policy = .ok part ∧
    part.connections =
      s.connections.filter (fun c ↦ c.source ∈ loop.nodes ∧ c.target ∈ loop.nodes) ∧
    part.ids = loop.nodes ∧
    ∀ n ∈ part.nodes, ∃ m ∈ s.nodes, n.id = m.id ∧ n.type = m.type ∧ n.config = m.config ∧
      n.inputValues = m.inputValues ∧ n.outputValues = [] := by
  obtain ⟨u, hu, hcyclic, hbinds, hisOf⟩ := (mem_detectLocalLoops hs).1 hloop
  have hclass := isClassOf_of_exportLoop hs hisOf h
  have hids : loop.nodes.Nodup := hisOf.nodes_sorted.imp ne_of_lt
  have hpart : part.ids.Nodup := by rwa [ids_of_exportLoop h]
  refine ⟨hclass.detectLocalLoops_eq hpart hu hcyclic hbinds hisOf, exportLoop_of_exportLoop hids h,
    ?_, ids_of_exportLoop h, fun n hn ↦ ?_⟩
  · rw [(exportLoop_eq_ok_iff.1 h).2.1]
    refine List.filter_congr fun c _ ↦ ?_
    simp
  · obtain ⟨m, hm, -, rfl⟩ := (hclass.mem_nodes n).1 hn
    exact ⟨m, hm, rfl, rfl, rfl, rfl, rfl⟩

end

/-! ### A torch on a phone -/

/-- The sensors of a phone set its torch; so does a number, which is set by hand. -/
def torchState : GraphState where
  nodes := [{ id := "t", type := "flashlight", outputValues := [("cmd", .text "on")] },
    { id := "n", type := "number" }, { id := "p", type := "client" },
    { id := "s", type := "client-sensors", config := [("rate", .number 30.0)] }]
  connections := [⟨"nt", "n", "value", "t", "level"⟩, ⟨"tp", "t", "cmd", "p", "cmd"⟩,
    ⟨"ps", "p", "sensors", "s", "client"⟩, ⟨"st", "s", "value", "t", "level"⟩]

/-- The loop of the phone is exported without the number, and is all that is found in its export. -/
theorem exportLoop_fixed_torch : ∃ loop part, loop ∈ detectLocalLoops torchState .standard ∧
    exportLoop torchState loop .standard = .ok part ∧
    part.connections.map Connection.id = ["tp", "ps", "st"] ∧ part.ids = ["p", "s", "t"] ∧
    detectLocalLoops part .standard = [loop] ∧ exportLoop part loop .standard = .ok part := by
  have hloop : ∃ loop, LocalLoop.ofMembers? .standard (torchState.members [3, 2, 0]) = some loop ∧
      loop.nodes = sortTexts ["s", "p", "t"] := ⟨_, rfl, rfl⟩
  obtain ⟨loop, hloop, hnodes⟩ := hloop
  have hmem : loop ∈ detectLocalLoops torchState .standard :=
    mem_detectLocalLoops_iff_group.2 ⟨[3, 2, 0], by decide, rfl, hloop⟩
  have hsorted : loop.nodes = ["p", "s", "t"] :=
    hnodes.trans (sortTexts_of_perm (by decide) (by decide))
  have hexport : ∃ part, exportLoop torchState loop .standard = .ok part ∧
      part.connections.map Connection.id = ["tp", "ps", "st"] := by
    rw [exportLoop, hsorted]
    exact ⟨_, rfl, rfl⟩
  obtain ⟨part, hpart, hconnections⟩ := hexport
  obtain ⟨hfound, hagain, -, hids, -⟩ := exportLoop_fixed (by decide) hmem hpart
  exact ⟨loop, part, hmem, hpart, hconnections, hids.trans hsorted, hfound, hagain⟩

end CueFlow
