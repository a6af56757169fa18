import CueFlow.Proofs.Override
import CueFlow.Proofs.Override.FlatMap
/-!
# The overrides of a store, listed

A store keeps its overrides at two levels. `OverrideStore.entries` lists them at one, each with the
node, the side and the key it is for. In a valid store no key is listed twice, and what is listed is
what look-up finds (`Valid.mem_entries`). Whatever a store counts is the length of a part of the
list, whether the store is valid or not: its size (`size_eq`) and what an expiry drops
(`expiredCount_eq`).
-/

namespace CueFlow

variable {τ : Type}

namespace NodeOverrides

variable {o : NodeOverrides τ} {v : NodeId} {p : OverrideKey} {override : Override τ}

/-- The overrides of one side of a node. -/
def entriesOf (o : NodeOverrides τ) (v : NodeId) (kind : OverrideKind) :
    List (OverrideKey × Override τ) :=
  (o.side kind).map fun entry ↦ (⟨v, kind, entry.1⟩, entry.2)

/-- The overrides of a node, those of inputs first. -/
def entries (o : NodeOverrides τ) (v : NodeId) : List (OverrideKey × Override τ) :=
  o.entriesOf v .input ++ o.entriesOf v .config

theorem mem_entriesOf {kind : OverrideKind} :
    (p, override) ∈ o.entriesOf v kind ↔
      p.node = v ∧ p.kind = kind ∧ (p.key, override) ∈ o.side kind := by
  obtain ⟨node, kind', key⟩ := p
  rw [entriesOf, List.mem_map]
  refine ⟨?_, ?_⟩
  · rintro ⟨entry, hentry, heq⟩
    obtain ⟨⟨rfl, rfl, rfl⟩, rfl⟩ := heq
    exact ⟨rfl, rfl, hentry⟩
  · rintro ⟨rfl, rfl, hentry⟩
    exact ⟨(key, override), hentry, rfl⟩

theorem mem_entries :
    (p, override) ∈ o.entries v ↔ p.node = v ∧ (p.key, override) ∈ o.side p.kind := by
  rw [entries, List.mem_append, mem_entriesOf, mem_entriesOf]
  obtain ⟨node, kind, key⟩ := p
  cases kind <;> simp

/-- No key is listed twice. -/
theorem nodup_keys_entries (h : ∀ kind, (o.side kind).Sorted) (v : NodeId) :
    ((o.entries v).map Prod.fst).Nodup := by
  have hside : ∀ kind, ((o.entriesOf v kind).map Prod.fst).Nodup := by
    intro kind
    have hkeys : (o.entriesOf v kind).map Prod.fst =
        ((o.side kind).map Prod.fst).map (OverrideKey.mk v kind) := by
      simp [entriesOf, Function.comp_def]
    rw [hkeys]
    exact (h kind).nodup_fst.map fun key key' heq ↦ (OverrideKey.mk.inj heq).2.2
  rw [entries, List.map_append, List.nodup_append]
  refine ⟨hside .input, hside .config, fun p hp q hq heq ↦ ?_⟩
  obtain ⟨⟨p, override⟩, hmem, rfl⟩ := List.mem_map.1 hp
  obtain ⟨⟨q, override'⟩, hmem', rfl⟩ := List.mem_map.1 hq
  have hkind := (mem_entriesOf.1 hmem).2.1
  have hkind' := (mem_entriesOf.1 hmem').2.1
  dsimp only at heq
  rw [← heq, hkind] at hkind'
  cases hkind'

theorem length_entries (o : NodeOverrides τ) (v : NodeId) : (o.entries v).length = o.size := by
  simp [entries, entriesOf, side, size]

/-- What is not kept is what is dropped. -/
theorem dropped_eq (o : NodeOverrides τ) (v : NodeId) (keep : Override τ → Bool) :
    o.dropped keep = (o.entries v).countP fun entry ↦ !keep entry.2 := by
  have hside : ∀ side : KeyMap (Override τ),
      side.length - (side.filter fun entry ↦ keep entry.2).length =
        side.countP fun entry ↦ !keep entry.2 := by
    intro side
    have hparts := List.length_eq_countP_add_countP (fun entry ↦ keep entry.2) (l := side)
    rw [← List.countP_eq_length_filter]
    simp only [Bool.not_eq_true, Bool.decide_eq_false] at hparts
    omega
  rw [dropped, entries, List.countP_append, entriesOf, entriesOf, List.countP_map, List.countP_map]
  exact congrArg₂ (· + ·) (hside o.inputs) (hside o.config)

theorem size_eq_zero_iff : o.size = 0 ↔ o.isEmpty = true := by
  simp [size, isEmpty]

end NodeOverrides

namespace OverrideStore

variable {s : OverrideStore τ} {p : OverrideKey} {override : Override τ}

/-- All overrides with what they are for, node by node. -/
def entries (s : OverrideStore τ) : List (OverrideKey × Override τ) :=
  s.nodes.flatMap fun entry ↦ entry.2.entries entry.1

/-! ### Counting -/

theorem size_eq (s : OverrideStore τ) : s.size = s.entries.length := by
  rw [size, entries, List.length_flatMap, ← List.sum_eq_foldr, KeyMap.values, List.map_map]
  simp [NodeOverrides.length_entries, Function.comp_def]

theorem expiredCount_eq [Sub τ] [LE τ] [DecidableLE τ] (s : OverrideStore τ) (now : τ) :
    s.expiredCount now = s.entries.countP fun entry ↦ entry.2.isExpired now := by
  rw [expiredCount, entries, List.countP_flatMap, ← List.sum_eq_foldr, KeyMap.values, List.map_map]
  congr 1
  refine List.map_congr_left fun entry _ ↦ ?_
  simp [NodeOverrides.dropped_eq entry.2 entry.1]

/-! ### Valid stores -/

/-- **What is listed is what look-up finds.** -/
theorem Valid.mem_entries (h : s.Valid) :
    (p, override) ∈ s.entries ↔ s.get? p.node p.kind p.key = some override := by
  rw [entries, List.mem_flatMap, get?, Option.bind_eq_some_iff]
  refine ⟨?_, ?_⟩
  · rintro ⟨⟨v, o⟩, hnode, hmem⟩
    obtain ⟨rfl, hentry⟩ := NodeOverrides.mem_entries.1 hmem
    have hfound := h.sorted.get?_eq_some_iff.2 hnode
    exact ⟨o, hfound, ((h.node _ o hfound).sorted p.kind).get?_eq_some_iff.2 hentry⟩
  · rintro ⟨o, hfound, hentry⟩
    exact ⟨(p.node, o), KeyMap.mem_of_get? hfound,
      NodeOverrides.mem_entries.2 ⟨rfl, KeyMap.mem_of_get? hentry⟩⟩

/-- **No key is listed twice.** -/
theorem Valid.nodup_keys_entries (h : s.Valid) : (s.entries.map Prod.fst).Nodup := by
  rw [entries, List.map_flatMap, List.nodup_flatMap]
  refine ⟨fun entry hentry ↦ ?_, ?_⟩
  · have hfound := h.sorted.get?_eq_some_iff.2 hentry
    exact NodeOverrides.nodup_keys_entries (h.node _ _ hfound).sorted _
  · refine List.Pairwise.imp (fun {a b} hlt p hp hq ↦ ?_) h.sorted
    obtain ⟨⟨p, override⟩, hmem, rfl⟩ := List.mem_map.1 hp
    obtain ⟨⟨q, override'⟩, hmem', rfl⟩ := List.mem_map.1 hq
    have hnode := (NodeOverrides.mem_entries.1 hmem).1
    have hnode' := (NodeOverrides.mem_entries.1 hmem').1
    exact String.lt_irrefl b.1 (by rwa [← hnode, hnode'] at hlt)

/-- As many keys have an override that satisfies `pick` as such overrides are listed. -/
theorem Valid.ncard_keys (h : s.Valid) (pick : Override τ → Bool) :
    {p : OverrideKey | ∃ o, s.get? p.node p.kind p.key = some o ∧ pick o = true}.ncard =
      s.entries.countP fun entry ↦ pick entry.2 := by
  have hkeys : {p : OverrideKey | ∃ o, s.get? p.node p.kind p.key = some o ∧ pick o = true} =
      ((s.entries.filter fun entry ↦ pick entry.2).map Prod.fst).toFinset := by
    ext p
    simp [h.mem_entries]
  have hnodup : ((s.entries.filter fun entry ↦ pick entry.2).map Prod.fst).Nodup :=
    h.nodup_keys_entries.sublist (List.filter_sublist.map Prod.fst)
  rw [hkeys, Set.ncard_coe_finset, List.toFinset_card_of_nodup hnodup, List.length_map,
    List.countP_eq_length_filter]

/-- The keys in use. -/
theorem Valid.finite_keys (h : s.Valid) :
    {p : OverrideKey | (s.get? p.node p.kind p.key).isSome}.Finite := by
  refine (s.entries.map Prod.fst).toFinset.finite_toSet.subset fun p hp ↦ ?_
  obtain ⟨override, hfound⟩ := Option.isSome_iff_exists.1 hp
  simpa using ⟨override, h.mem_entries.2 hfound⟩

/-- A valid store has no nodes exactly if it has no overrides. -/
theorem Valid.isEmpty_iff (h : s.Valid) : s.isEmpty = true ↔ s.size = 0 := by
  rw [isEmpty, List.isEmpty_iff, size_eq, List.length_eq_zero_iff, entries,
    List.flatMap_eq_nil_iff]
  refine ⟨fun hnone entry hentry ↦ absurd (hnone ▸ hentry) List.not_mem_nil, fun hnone ↦ ?_⟩
  refine List.eq_nil_iff_forall_not_mem.2 fun entry hentry ↦ ?_
  have hsize : entry.2.size = 0 := by
    rw [← NodeOverrides.length_entries entry.2 entry.1, hnone entry hentry, List.length_nil]
  have hfilled := (h.node _ _ (h.sorted.get?_eq_some_iff.2 hentry)).isEmpty
  rw [NodeOverrides.size_eq_zero_iff.1 hsize] at hfilled
  cases hfilled

end OverrideStore

end CueFlow
