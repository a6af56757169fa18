import Mathlib.Data.List.Permutation
import CueFlow.Proofs.Graph.Snapshot
import CueFlow.Proofs.Partition.Patch
/-!
# What the hash of an export is taken of

An id holds the hash of some bytes: the ids of the members, one to a line, and for several roots a
line that says so and their ids. The bytes are read back line by line as long as no id has a line
break in it (`hashedBytes_inj`). What is read back are lines, not ids: the line before the roots may
be an id itself. But members stand in strict order and roots are members, so that the marker can
stand in one place only (`append_marker_inj`), and there is none if there are no roots to it
(`ne_append_marker`). Hence the bytes determine the members, and the roots where they are part of
the bytes (`hashed_determines`).

Which places a walk meets matters here only in that no two of them share an id. That holds of any
snapshot, for a place is always looked up as the last of its id (`nodup_memberIds_patchWalk`).

An id may have a line break in it, and then the bytes determine none of this
(`hashed_of_line_breaks`).
-/

namespace CueFlow

/-- The bytes that are hashed. -/
def hashedBytes (parts : List String) : ByteArray := (identityText parts).toUTF8

/-- The first twelve hexadecimal digits of the SHA-256 digest of some bytes. -/
def shortDigest (bytes : ByteArray) : String :=
  String.ofList ((Sha256.hexDigest bytes.toList).take 12)

theorem shortHash_eq (parts : List String) : shortHash parts = shortDigest (hashedBytes parts) :=
  rfl

/-! ### Lines -/

/-- None of these ids has a line break in it. -/
def OneLine (ids : List NodeId) : Prop := ∀ v ∈ ids, '\n' ∉ v.toList

instance (ids : List NodeId) : Decidable (OneLine ids) :=
  inferInstanceAs (Decidable (∀ v ∈ ids, '\n' ∉ v.toList))

theorem hashedBytes_eq_iff {parts parts' : List String} :
    hashedBytes parts = hashedBytes parts' ↔
      (parts.flatMap fun t ↦ t.toList ++ ['\n']) = parts'.flatMap fun t ↦ t.toList ++ ['\n'] := by
  have htext : ∀ parts, (identityText parts).toList =
      parts.flatMap fun t ↦ t.toList ++ ['\n'] := by
    intro parts
    rw [identityText, String.toList_join, List.flatMap_map]
    simp only [String.toList_append]
    rfl
  rw [← htext, ← htext, String.toList_inj]
  exact String.toByteArray_inj

/-- The first line ends at the first line break. -/
theorem append_newline_inj {s t rest rest' : List Char} (hs : '\n' ∉ s) (ht : '\n' ∉ t)
    (h : s ++ '\n' :: rest = t ++ '\n' :: rest') : s = t ∧ rest = rest' := by
  induction s generalizing t with
  | nil =>
    cases t with
    | nil => exact ⟨rfl, (List.cons.inj h).2⟩
    | cons c t => exact absurd ((List.cons.inj h).1 ▸ List.mem_cons_self) ht
  | cons c s ih =>
    cases t with
    | nil => exact absurd ((List.cons.inj h).1 ▸ List.mem_cons_self) hs
    | cons d t =>
      obtain ⟨rfl, hrest⟩ := List.cons.inj h
      obtain ⟨rfl, hrest'⟩ :=
        ih (fun hmem ↦ hs (List.mem_cons_of_mem _ hmem))
          (fun hmem ↦ ht (List.mem_cons_of_mem _ hmem)) hrest
      exact ⟨rfl, hrest'⟩

/-- **Lines are read back from their bytes.** -/
theorem hashedBytes_inj {parts parts' : List String} (h : OneLine parts) (h' : OneLine parts')
    (heq : hashedBytes parts = hashedBytes parts') : parts = parts' := by
  rw [hashedBytes_eq_iff] at heq
  induction parts generalizing parts' with
  | nil =>
    cases parts' with
    | nil => rfl
    | cons t rest => simp at heq
  | cons s rest ih =>
    cases parts' with
    | nil => simp at heq
    | cons t rest' =>
      obtain ⟨hs, hrest⟩ := List.forall_mem_cons.1 h
      obtain ⟨ht, hrest'⟩ := List.forall_mem_cons.1 h'
      rw [List.flatMap_cons, List.flatMap_cons, List.append_assoc, List.append_assoc] at heq
      obtain ⟨hst, heq⟩ := append_newline_inj hs ht heq
      rw [String.toList_inj.1 hst, ih hrest hrest' heq]

/-! ### The marker -/

section

variable {members members' roots roots' : List String} {marker : String}

/-- Lines in strict order do not end in the marker and lines that have been there before. -/
theorem ne_append_marker (h : members'.Pairwise (· < ·)) (hroots : roots ⊆ members)
    (hne : roots ≠ []) : members' ≠ members ++ marker :: roots := by
  rintro rfl
  obtain ⟨root, hroot⟩ := List.exists_mem_of_ne_nil roots hne
  have hlt := (List.pairwise_append.1 h).2.2 root (hroots hroot) root
    (List.mem_cons_of_mem _ hroot)
  exact lt_irrefl root hlt

/-- Nothing stands between the members and the marker. -/
theorem eq_nil_of_marker {between : List String}
    (h' : (members ++ between).Pairwise (· < ·)) (hroots : roots ⊆ members)
    (heq : marker :: roots = between ++ marker :: roots') : between = [] := by
  cases between with
  | nil => rfl
  | cons t between =>
    -- The marker is both a line after all members and a root, hence a member.
    obtain ⟨rfl, rfl⟩ := List.cons.inj heq
    have hmarker : marker ∈ members := hroots (by simp)
    exact absurd ((List.pairwise_append.1 h').2.2 marker hmarker marker List.mem_cons_self)
      (lt_irrefl marker)

/-- **The marker can stand in one place only.** -/
theorem append_marker_inj (h : members.Pairwise (· < ·)) (h' : members'.Pairwise (· < ·))
    (hroots : roots ⊆ members) (hroots' : roots' ⊆ members')
    (heq : members ++ marker :: roots = members' ++ marker :: roots') :
    members = members' ∧ roots = roots' := by
  have hsame : members = members' := by
    obtain ⟨between, rfl, hrest⟩ | ⟨between, rfl, hrest⟩ := List.append_eq_append_iff.1 heq
    · rw [eq_nil_of_marker h' hroots hrest, List.append_nil]
    · rw [eq_nil_of_marker h hroots' hrest, List.append_nil]
  subst hsame
  exact ⟨rfl, (List.cons.inj (List.append_cancel_left heq)).2⟩

end

/-! ### What an export is identified by -/

/-- The bytes that the hash of a patch is taken of. -/
def PatchExport.hashed (p : PatchExport) : ByteArray :=
  hashedBytes (patchIdentity p.graph.ids p.roots)

/-- The bytes that the hash of a loop is taken of. -/
def LocalLoop.hashed (loop : LocalLoop) : ByteArray := hashedBytes loop.nodes

theorem PatchExport.hashed_eq {p : PatchExport} {ids roots lines : List String}
    (hids : p.graph.ids = ids) (hroots : p.roots = roots)
    (hlines : patchIdentity ids roots = lines) : p.hashed = hashedBytes lines := by
  rw [hashed, hids, hroots, hlines]

/-- The patch has been exported from some snapshot. -/
def PatchExport.IsExported (p : PatchExport) : Prop :=
  ∃ s catalog roots policy, exportPatch s catalog roots policy = .ok p

/-- The loop has been detected in some snapshot. -/
def LocalLoop.IsDetected (loop : LocalLoop) : Prop :=
  ∃ s policy, loop ∈ detectLocalLoops s policy

/-- Two of these ids differ. -/
def Several (ids : List NodeId) : Prop := ∃ u ∈ ids, ∃ w ∈ ids, u ≠ w

theorem several_iff {ids : List NodeId} : Several ids ↔ 1 < (distinctTexts ids).length := by
  have hnodup : (distinctTexts ids).Nodup := (pairwise_lt_distinctTexts ids).imp ne_of_lt
  have hmem : ∀ v, v ∈ distinctTexts ids ↔ v ∈ ids := fun v ↦ mem_distinctTexts
  simp only [Several, ← hmem]
  generalize distinctTexts ids = distinct at hnodup
  constructor
  · rintro ⟨u, hu, w, hw, hne⟩
    match distinct, hu, hw with
    | [_], hu, hw =>
      exact absurd ((List.mem_singleton.1 hu).trans (List.mem_singleton.1 hw).symm) hne
    | _ :: _ :: _, _, _ => simp
  · intro hlength
    match distinct, hlength with
    | u :: w :: _, _ => exact ⟨u, by simp, w, by simp, by rintro rfl; simp at hnodup⟩

theorem patchIdentity_of_several {members roots : List NodeId} (h : Several roots) :
    patchIdentity members roots = sortTexts members ++ "#roots" :: distinctTexts roots := by
  rw [patchIdentity]
  exact if_pos (several_iff.1 h)

theorem patchIdentity_of_not_several {members roots : List NodeId} (h : ¬ Several roots) :
    patchIdentity members roots = sortTexts members := by
  rw [patchIdentity]
  exact if_neg fun hlength ↦ h (several_iff.2 hlength)

/-- An export is named for the bytes. No member is there twice, and the roots are members. -/
structure PatchExport.Identified (p : PatchExport) : Prop where
  id : p.id = "patch:" ++ shortDigest p.hashed
  nodup : p.graph.ids.Nodup
  roots : p.roots ⊆ p.graph.ids

namespace Graph

variable {g : Graph} {policy : PartitionPolicy} {roots : List NodeId} {starts : List Nat}

section

variable (h : roots.mapM (rootIndex g.snapshot policy) = .ok starts)

include h

theorem lt_of_mapM_rootIndex : ∀ i ∈ starts, i < g.nodes.length := by
  intro i hi
  obtain ⟨v, -, hv⟩ := (mem_of_mapM_eq_ok h).2 i hi
  exact GraphState.lt_of_idAt?
    (GraphState.idAt?_of_lastIndexOf? (GraphState.lastIndexOf?_of_rootIndex hv))

/-- In any snapshot, the places that a walk meets are each the last of some id. -/
theorem exists_lastIndexOf?_of_mem {i : Nat} (hi : i ∈ (g.patchWalk policy starts).members) :
    ∃ v, g.snapshot.lastIndexOf? v = some i := by
  cases ((members_patchWalk (lt_of_mapM_rootIndex h)).2 i).1 hi with
  | start hi =>
    obtain ⟨v, -, hv⟩ := (mem_of_mapM_eq_ok h).2 i hi
    exact ⟨v, GraphState.lastIndexOf?_of_rootIndex hv⟩
  | source _ hedge => exact ⟨_, GraphState.lastIndexOf?_of_mem_followed hedge⟩

/-- **No two places that a walk meets share an id**, whatever the snapshot. -/
theorem nodup_memberIds_patchWalk : (g.memberIds (g.patchWalk policy starts)).Nodup := by
  rw [memberIds, GraphState.map_id_members]
  refine List.pairwise_filterMap.2 ?_
  refine (members_patchWalk (lt_of_mapM_rootIndex h)).1.imp_of_mem ?_
  rintro i j hi hj hne u hu _ hw rfl
  obtain ⟨v, hv⟩ := exists_lastIndexOf?_of_mem h hi
  obtain ⟨w, hw'⟩ := exists_lastIndexOf?_of_mem h hj
  obtain rfl := Option.some.inj ((GraphState.idAt?_of_lastIndexOf? hv).symm.trans hu)
  obtain rfl := Option.some.inj ((GraphState.idAt?_of_lastIndexOf? hw').symm.trans hw)
  exact hne (Option.some.inj (hv.symm.trans hw'))

theorem roots_subset_memberIds : roots ⊆ g.memberIds (g.patchWalk policy starts) := by
  intro v hv
  obtain ⟨i, hi, hindex⟩ := (mem_of_mapM_eq_ok h).1 v hv
  rw [memberIds, GraphState.map_id_members, List.mem_filterMap]
  exact ⟨i, ((members_patchWalk (lt_of_mapM_rootIndex h)).2 i).2 (.start hi),
    GraphState.idAt?_of_lastIndexOf? (GraphState.lastIndexOf?_of_rootIndex hindex)⟩

end

/-- What an export is identified by, whatever snapshot it comes from. -/
theorem identified_of_exportPatch {p : PatchExport}
    (h : exportPatch g.snapshot g.catalog roots policy = .ok p) : p.Identified := by
  obtain ⟨-, starts, hstarts, hconclude⟩ := exportPatch_eq_ok_iff.1 h
  obtain ⟨-, -, rfl⟩ := concludeWalk_eq_ok.1 hconclude
  constructor
  case id =>
    rw [PatchExport.hashed, ids_patchOf, ← shortHash_eq]
    rfl
  case nodup =>
    rw [ids_patchOf]
    exact nodup_memberIds_patchWalk hstarts
  case roots =>
    rw [ids_patchOf]
    exact roots_subset_memberIds hstarts

end Graph

theorem PatchExport.IsExported.identified {p : PatchExport} (h : p.IsExported) :
    p.Identified := by
  obtain ⟨s, catalog, roots, policy, h⟩ := h
  exact Graph.identified_of_exportPatch (g := s.graphIn catalog) h

theorem LocalLoop.IsDetected.id_eq {loop : LocalLoop} (h : loop.IsDetected) :
    loop.id = "loop:" ++ loop.device ++ ":" ++ shortDigest loop.hashed := by
  obtain ⟨s, policy, h⟩ := h
  obtain ⟨group, -, -, hloop⟩ := mem_detectLocalLoops_iff_group.1 h
  exact (LocalLoop.named_of_ofMembers? hloop).2

/-! ### Members and roots -/

/-- Lines that are ids and the marker are lines still. -/
theorem OneLine.patchIdentity {members roots : List NodeId} (h : OneLine members)
    (hroots : roots ⊆ members) : OneLine (patchIdentity members roots) := by
  intro t ht
  by_cases hseveral : Several roots
  · rw [patchIdentity_of_several hseveral, List.mem_append, List.mem_cons, mem_sortTexts,
      mem_distinctTexts] at ht
    obtain ht | rfl | ht := ht
    · exact h t ht
    · decide
    · exact h t (hroots ht)
  · rw [patchIdentity_of_not_several hseveral, mem_sortTexts] at ht
    exact h t ht

theorem distinctTexts_subset_sortTexts {members roots : List NodeId} (h : roots ⊆ members) :
    distinctTexts roots ⊆ sortTexts members :=
  fun _ ht ↦ mem_sortTexts.2 (h (mem_distinctTexts.1 ht))

/-- **The same lines are of the same members**, and of the same roots if there are several. -/
theorem patchIdentity_inj {members members' roots roots' : List NodeId} (h : members.Nodup)
    (h' : members'.Nodup) (hroots : roots ⊆ members) (hroots' : roots' ⊆ members')
    (heq : patchIdentity members roots = patchIdentity members' roots') :
    sortTexts members = sortTexts members' ∧
      (Several roots ∨ Several roots' → distinctTexts roots = distinctTexts roots') := by
  have hsub := distinctTexts_subset_sortTexts hroots
  have hsub' := distinctTexts_subset_sortTexts hroots'
  have hne : ∀ {ids : List NodeId}, Several ids → distinctTexts ids ≠ [] := by
    rintro ids ⟨u, hu, -⟩
    exact List.ne_nil_of_mem (mem_distinctTexts.2 hu)
  by_cases hseveral : Several roots <;> by_cases hseveral' : Several roots'
  · rw [patchIdentity_of_several hseveral, patchIdentity_of_several hseveral'] at heq
    obtain ⟨hmembers, hroots⟩ := append_marker_inj (pairwise_lt_sortTexts h)
      (pairwise_lt_sortTexts h') hsub hsub' heq
    exact ⟨hmembers, fun _ ↦ hroots⟩
  · rw [patchIdentity_of_several hseveral, patchIdentity_of_not_several hseveral'] at heq
    exact absurd heq.symm (ne_append_marker (pairwise_lt_sortTexts h') hsub (hne hseveral))
  · rw [patchIdentity_of_not_several hseveral, patchIdentity_of_several hseveral'] at heq
    exact absurd heq (ne_append_marker (pairwise_lt_sortTexts h) hsub' (hne hseveral'))
  · rw [patchIdentity_of_not_several hseveral, patchIdentity_of_not_several hseveral'] at heq
    exact ⟨heq, fun hor ↦ (hor.elim hseveral hseveral').elim⟩

/-- **The bytes determine what is exported**, as long as no id has a line break in it: two patches
with the same bytes have the same members, and the same roots if one of them has several; two loops
with the same bytes have the same members. An id is made of the digest of these very bytes. -/
theorem hashed_determines :
    (∀ p p' : PatchExport, p.IsExported → p'.IsExported → OneLine p.graph.ids →
      OneLine p'.graph.ids → p.hashed = p'.hashed →
      (∀ v, v ∈ p.graph.ids ↔ v ∈ p'.graph.ids) ∧
        (Several p.roots ∨ Several p'.roots → ∀ v, v ∈ p.roots ↔ v ∈ p'.roots)) ∧
    (∀ loop loop' : LocalLoop, loop.IsDetected → loop'.IsDetected → OneLine loop.nodes →
      OneLine loop'.nodes → loop.hashed = loop'.hashed →
      ∀ v, v ∈ loop.nodes ↔ v ∈ loop'.nodes) ∧
    (∀ p : PatchExport, p.IsExported → p.id = "patch:" ++ shortDigest p.hashed) ∧
    ∀ loop : LocalLoop, loop.IsDetected →
      loop.id = "loop:" ++ loop.device ++ ":" ++ shortDigest loop.hashed := by
  refine ⟨fun p p' h h' hline hline' heq ↦ ?_, fun loop loop' _ _ hline hline' heq v ↦ ?_,
    fun p h ↦ h.identified.id, fun loop h ↦ h.id_eq⟩
  · have hlines := hashedBytes_inj (hline.patchIdentity h.identified.roots)
      (hline'.patchIdentity h'.identified.roots) heq
    obtain ⟨hmembers, hroots⟩ := patchIdentity_inj h.identified.nodup h'.identified.nodup
      h.identified.roots h'.identified.roots hlines
    refine ⟨fun v ↦ ?_, fun hseveral v ↦ ?_⟩
    · rw [← mem_sortTexts, hmembers, mem_sortTexts]
    · rw [← mem_distinctTexts, hroots hseveral, mem_distinctTexts]
  · rw [hashedBytes_inj hline hline' heq]

/-! ### One stage, written down twice -/

/-- An output, which also passes on what it plays. -/
def outputCatalog : Catalog := .ofDefinitions [
  { type := "audio-out"
    inputs := [{ id := "x", type := .number }, { id := "y", type := .number },
      { id := "z", type := .number }]
    outputs := [{ id := "out", type := .number }] }]

/-- Two outputs that a third one feeds, and a phone with its sensors. -/
def stageState : GraphState where
  nodes := [{ id := "l", type := "audio-out" }, { id := "r", type := "audio-out" },
    { id := "m", type := "audio-out" }, { id := "p", type := "client" },
    { id := "t", type := "client-sensors" }]
  connections := [⟨"ml", "m", "out", "l", "x"⟩, ⟨"mr", "m", "out", "r", "x"⟩,
    ⟨"pt", "p", "device", "t", "client"⟩, ⟨"tp", "t", "value", "p", "cmd"⟩]

/-- The same in another order. -/
def reorderedState : GraphState where
  nodes := stageState.nodes.reverse
  connections := stageState.connections.reverse

/-- From both, the outputs are exported, in another order and with one named twice, and the loop of
the phone is detected: the bytes are the same, and tell that members and roots are. -/
theorem hashed_determines_stage :
    (∃ p p', exportPatch stageState outputCatalog ["l", "r"] .standard = .ok p ∧
      exportPatch reorderedState outputCatalog ["r", "l", "r"] .standard = .ok p' ∧
      p.hashed = p'.hashed ∧ (∀ v, v ∈ p.graph.ids ↔ v ∈ p'.graph.ids) ∧
      ∀ v, v ∈ p.roots ↔ v ∈ p'.roots) ∧
    ∃ loop ∈ detectLocalLoops stageState .standard,
      ∃ loop' ∈ detectLocalLoops reorderedState .standard,
        loop.hashed = loop'.hashed ∧ ∀ v, v ∈ loop.nodes ↔ v ∈ loop'.nodes := by
  obtain ⟨hpatch, hloop, -⟩ := hashed_determines
  constructor
  · have hexport : ∃ p, exportPatch stageState outputCatalog ["l", "r"] .standard = .ok p ∧
        p.graph.ids = ["l", "r", "m"] ∧ p.roots = ["l", "r"] := ⟨_, rfl, rfl, rfl⟩
    have hexport' : ∃ p,
        exportPatch reorderedState outputCatalog ["r", "l", "r"] .standard = .ok p ∧
          p.graph.ids = ["r", "l", "m"] ∧ p.roots = ["r", "l", "r"] :=
      ⟨_, rfl, rfl, rfl⟩
    obtain ⟨p, hp, hids, hroots⟩ := hexport
    obtain ⟨p', hp', hids', hroots'⟩ := hexport'
    have hlines : patchIdentity ["l", "r", "m"] ["l", "r"] =
        ["l", "m", "r", "#roots", "l", "r"] := by cbv
    have hlines' : patchIdentity ["r", "l", "m"] ["r", "l", "r"] =
        ["l", "m", "r", "#roots", "l", "r"] := by cbv
    have hsame : p.hashed = p'.hashed :=
      (PatchExport.hashed_eq hids hroots hlines).trans
        (PatchExport.hashed_eq hids' hroots' hlines').symm
    have hline : OneLine p.graph.ids := by
      rw [hids]
      decide
    have hline' : OneLine p'.graph.ids := by
      rw [hids']
      decide
    have hseveral : Several p.roots := ⟨"l", by simp [hroots], "r", by simp [hroots], by decide⟩
    obtain ⟨hmembers, hsources⟩ :=
      hpatch p p' ⟨_, _, _, _, hp⟩ ⟨_, _, _, _, hp'⟩ hline hline' hsame
    exact ⟨p, p', hp, hp', hsame, hmembers, hsources (.inl hseveral)⟩
  · have hfound : ∃ loop, LocalLoop.ofMembers? .standard (stageState.members [4, 3]) = some loop ∧
        loop.nodes = sortTexts ["t", "p"] := ⟨_, rfl, rfl⟩
    have hfound' : ∃ loop,
        LocalLoop.ofMembers? .standard (reorderedState.members [1, 0]) = some loop ∧
          loop.nodes = sortTexts ["p", "t"] := ⟨_, rfl, rfl⟩
    obtain ⟨loop, hloopOf, hnodes⟩ := hfound
    obtain ⟨loop', hloopOf', hnodes'⟩ := hfound'
    have hmem : loop ∈ detectLocalLoops stageState .standard :=
      mem_detectLocalLoops_iff_group.2 ⟨[4, 3], by decide, rfl, hloopOf⟩
    have hmem' : loop' ∈ detectLocalLoops reorderedState .standard :=
      mem_detectLocalLoops_iff_group.2 ⟨[1, 0], by decide, rfl, hloopOf'⟩
    have hsorted : loop.nodes = ["p", "t"] := hnodes.trans (by cbv)
    have hsorted' : loop'.nodes = ["p", "t"] := hnodes'.trans (by cbv)
    have hsame : loop.hashed = loop'.hashed := by
      rw [LocalLoop.hashed, LocalLoop.hashed, hsorted, hsorted']
    have hline : OneLine ["p", "t"] := by decide
    exact ⟨loop, hmem, loop', hmem', hsame, hloop loop loop' ⟨_, _, hmem⟩ ⟨_, _, hmem'⟩
      (hsorted ▸ hline) (hsorted' ▸ hline) hsame⟩

/-! ### Ids with line breaks -/

/-- Outputs one of which is named for two others, line by line. -/
def lineBreakState : GraphState where
  nodes := [{ id := "a", type := "audio-out" }, { id := "a\nb", type := "audio-out" },
    { id := "b", type := "audio-out" }, { id := "c", type := "audio-out" }]
  connections := [⟨"ab", "a", "out", "b", "x"⟩, ⟨"ac", "a", "out", "c", "x"⟩,
    ⟨"lc", "a\nb", "out", "c", "y"⟩, ⟨"bc", "b", "out", "c", "z"⟩]

/-- Two devices with their sensors, whose ids have the same lines. -/
def lineBreakDevices : GraphState where
  nodes := [{ id := "p", type := "client" }, { id := "q\nr", type := "client-sensors" },
    { id := "p\nq", type := "client" }, { id := "r", type := "client-sensors" }]
  connections := [⟨"1", "p", "device", "q\nr", "client"⟩, ⟨"2", "q\nr", "value", "p", "cmd"⟩,
    ⟨"3", "p\nq", "device", "r", "client"⟩, ⟨"4", "r", "value", "p\nq", "cmd"⟩]

/-- With line breaks in ids, the bytes determine neither the members of a patch, nor its roots where
there are several, nor the members of a loop. -/
theorem hashed_of_line_breaks :
    (∃ p p', exportPatch lineBreakState outputCatalog ["a\nb"] .standard = .ok p ∧
      exportPatch lineBreakState outputCatalog ["b"] .standard = .ok p' ∧
      p.hashed = p'.hashed ∧ ¬ ∀ v, v ∈ p.graph.ids ↔ v ∈ p'.graph.ids) ∧
    (∃ p p', exportPatch lineBreakState outputCatalog ["a\nb", "c"] .standard = .ok p ∧
      exportPatch lineBreakState outputCatalog ["a", "b", "c"] .standard = .ok p' ∧
      p.hashed = p'.hashed ∧ Several p.roots ∧ ¬ ∀ v, v ∈ p.roots ↔ v ∈ p'.roots) ∧
    ∃ loop ∈ detectLocalLoops lineBreakDevices .standard,
      ∃ loop' ∈ detectLocalLoops lineBreakDevices .standard,
        loop.hashed = loop'.hashed ∧ ¬ ∀ v, v ∈ loop.nodes ↔ v ∈ loop'.nodes := by
  refine ⟨?members, ?roots, ?loops⟩
  case members =>
    have hexport : ∃ p, exportPatch lineBreakState outputCatalog ["a\nb"] .standard = .ok p ∧
        p.graph.ids = ["a\nb"] ∧ p.roots = ["a\nb"] := ⟨_, rfl, rfl, rfl⟩
    have hexport' : ∃ p, exportPatch lineBreakState outputCatalog ["b"] .standard = .ok p ∧
        p.graph.ids = ["b", "a"] ∧ p.roots = ["b"] := ⟨_, rfl, rfl, rfl⟩
    obtain ⟨p, hp, hids, hroots⟩ := hexport
    obtain ⟨p', hp', hids', hroots'⟩ := hexport'
    refine ⟨p, p', hp, hp', ?_, fun hsame ↦ ?_⟩
    · have hlines : patchIdentity ["a\nb"] ["a\nb"] = ["a\nb"] := by cbv
      have hlines' : patchIdentity ["b", "a"] ["b"] = ["a", "b"] := by cbv
      rw [PatchExport.hashed_eq hids hroots hlines, PatchExport.hashed_eq hids' hroots' hlines',
        hashedBytes_eq_iff]
      decide
    · rw [hids, hids'] at hsame
      exact absurd ((hsame "b").2 (by decide)) (by decide)
  case roots =>
    have hexport : ∃ p, exportPatch lineBreakState outputCatalog ["a\nb", "c"] .standard = .ok p ∧
        p.graph.ids = ["a\nb", "c", "a", "b"] ∧ p.roots = ["a\nb", "c"] := ⟨_, rfl, rfl, rfl⟩
    have hexport' : ∃ p,
        exportPatch lineBreakState outputCatalog ["a", "b", "c"] .standard = .ok p ∧
          p.graph.ids = ["a", "b", "c", "a\nb"] ∧ p.roots = ["a", "b", "c"] := ⟨_, rfl, rfl, rfl⟩
    obtain ⟨p, hp, hids, hroots⟩ := hexport
    obtain ⟨p', hp', hids', hroots'⟩ := hexport'
    refine ⟨p, p', hp, hp', ?_, ⟨"a\nb", by simp [hroots], "c", by simp [hroots], by decide⟩,
      fun hsame ↦ ?_⟩
    · have hlines : patchIdentity ["a\nb", "c", "a", "b"] ["a\nb", "c"] =
          ["a", "a\nb", "b", "c", "#roots", "a\nb", "c"] := by cbv
      have hlines' : patchIdentity ["a", "b", "c", "a\nb"] ["a", "b", "c"] =
          ["a", "a\nb", "b", "c", "#roots", "a", "b", "c"] := by cbv
      rw [PatchExport.hashed_eq hids hroots hlines, PatchExport.hashed_eq hids' hroots' hlines',
        hashedBytes_eq_iff]
      decide
    · rw [hroots, hroots'] at hsame
      exact absurd ((hsame "a").2 (by decide)) (by decide)
  case loops =>
    have hfound : ∃ loop,
        LocalLoop.ofMembers? .standard (lineBreakDevices.members [1, 0]) = some loop ∧
          loop.nodes = sortTexts ["q\nr", "p"] := ⟨_, rfl, rfl⟩
    have hfound' : ∃ loop,
        LocalLoop.ofMembers? .standard (lineBreakDevices.members [3, 2]) = some loop ∧
          loop.nodes = sortTexts ["r", "p\nq"] := ⟨_, rfl, rfl⟩
    obtain ⟨loop, hloop, hnodes⟩ := hfound
    obtain ⟨loop', hloop', hnodes'⟩ := hfound'
    have hsorted : loop.nodes = ["p", "q\nr"] := hnodes.trans (by cbv)
    have hsorted' : loop'.nodes = ["p\nq", "r"] := hnodes'.trans (by cbv)
    refine ⟨loop, mem_detectLocalLoops_iff_group.2 ⟨[1, 0], by decide, rfl, hloop⟩, loop',
      mem_detectLocalLoops_iff_group.2 ⟨[3, 2], by decide, rfl, hloop'⟩, ?_, fun hsame ↦ ?_⟩
    · rw [LocalLoop.hashed, LocalLoop.hashed, hsorted, hsorted', hashedBytes_eq_iff]
      decide
    · rw [hsorted, hsorted'] at hsame
      exact absurd ((hsame "p").1 (by decide)) (by decide)

end CueFlow
