import CueFlow.Override
import CueFlow.Proofs.KeyMap
/-!
# The override store, by look-up

Every operation on the store is described by what look-up finds after it: an override that is set
(`get?_set`), cleared (`get?_clear`), cleared with its node (`get?_clearNode`) or expired
(`Valid.get?_expire`). The store has no other content. In a valid store (`OverrideStore.Valid`) all
keys strictly increase and no node is kept without overrides, so it is determined by look-up
(`Valid.ext`). Every operation keeps a store valid.
-/

namespace CueFlow

variable {τ : Type}

namespace NodeOverrides

variable {o o' : NodeOverrides τ} {kind kind' : OverrideKind}

/-- The keys of both sides strictly increase, and there is an override. -/
structure Valid (o : NodeOverrides τ) : Prop where
  sorted : ∀ kind, (o.side kind).Sorted
  isEmpty : o.isEmpty = false

/-- A change of the overrides of one kind leaves those of the other kind alone. -/
theorem side_modifySide (o : NodeOverrides τ) (kind kind' : OverrideKind)
    (f : KeyMap (Override τ) → KeyMap (Override τ)) :
    (o.modifySide kind f).side kind' = if kind = kind' then f (o.side kind') else o.side kind' := by
  cases kind <;> cases kind' <;> rfl

/-- A filter goes over the overrides of both kinds. -/
theorem side_filter (o : NodeOverrides τ) (keep : Override τ → Bool) (kind : OverrideKind) :
    (o.filter keep).side kind = (o.side kind).filter fun entry ↦ keep entry.2 := by
  cases kind <;> rfl

/-- There are no overrides of a node exactly if there are none of either kind. -/
theorem isEmpty_iff : o.isEmpty = true ↔ ∀ kind, o.side kind = [] := by
  rw [isEmpty, Bool.and_eq_true, List.isEmpty_iff, List.isEmpty_iff]
  refine ⟨fun h kind ↦ ?_, fun h ↦ ⟨h .input, h .config⟩⟩
  cases kind with
  | input => exact h.1
  | config => exact h.2

theorem ext_side (h : ∀ kind, o.side kind = o'.side kind) : o = o' := by
  obtain ⟨inputs, config⟩ := o
  obtain ⟨inputs', config'⟩ := o'
  obtain rfl : inputs = inputs' := h .input
  obtain rfl : config = config' := h .config
  rfl

/-- A node with an override more has overrides, so its entry is a proper one. -/
theorem Valid.insert (h : ∀ kind, (o.side kind).Sorted) (kind : OverrideKind) (key : String)
    (override : Override τ) : (o.modifySide kind (·.insert key override)).Valid := by
  have hside := o.side_modifySide kind
  refine ⟨fun kind' ↦ ?_, ?_⟩
  · rw [hside]
    split
    · exact KeyMap.sorted_insert (h kind') key override
    · exact h kind'
  · rw [← Bool.not_eq_true, isEmpty_iff]
    intro hempty
    have hfound : ((o.modifySide kind (·.insert key override)).side kind).get? key =
        some override := by
      rw [hside, if_pos rfl, KeyMap.get?_insert_self]
    rw [hempty] at hfound
    cases hfound

end NodeOverrides

namespace OverrideStore

variable {s s' : OverrideStore τ} {v node : NodeId} {kind kind' : OverrideKind}
  {key key' : String}

/-- The keys strictly increase at both levels, and no node is kept without overrides. -/
structure Valid (s : OverrideStore τ) : Prop where
  sorted : s.nodes.Sorted
  node : ∀ v o, s.nodes.get? v = some o → o.Valid

theorem valid_empty : (OverrideStore.empty : OverrideStore τ).Valid := ⟨List.Pairwise.nil, nofun⟩

/-! ### Look-up after an operation -/

/-- Setting an override is seen under its node, kind and key, and nowhere else. -/
theorem get?_set (s : OverrideStore τ) (node : NodeId) (kind : OverrideKind) (key : String)
    (value : Value) (lifetime : Option τ) (now : τ) (v : NodeId) (kind' : OverrideKind)
    (key' : String) : (s.set node kind key value lifetime now).get? v kind' key' =
      if node = v ∧ kind = kind' ∧ key = key' then some ⟨value, now, lifetime⟩
      else s.get? v kind' key' := by
  rw [get?, set, KeyMap.update, KeyMap.get?_insert]
  by_cases hnode : node = v
  · have hstored : s.get? v kind' key' =
        (((s.nodes.get? v).getD {}).side kind').get? key' := by
      rw [get?]
      cases s.nodes.get? v with
      | none => cases kind' <;> rfl
      | some o => rfl
    subst hnode
    rw [if_pos rfl, Option.bind_some, NodeOverrides.side_modifySide, hstored]
    by_cases hkind : kind = kind'
    · simp [hkind, KeyMap.get?_insert]
    · simp [hkind]
  · rw [if_neg hnode, if_neg fun h ↦ hnode h.1, get?]

/-- Clearing an override is seen under its node, kind and key, and nowhere else. -/
theorem get?_clear (s : OverrideStore τ) (node : NodeId) (kind : OverrideKind) (key : String)
    (v : NodeId) (kind' : OverrideKind) (key' : String) :
    (s.clear node kind key).get? v kind' key' =
      if node = v ∧ kind = kind' ∧ key = key' then none else s.get? v kind' key' := by
  rw [clear]
  cases hfound : s.nodes.get? node with
  | none =>
    dsimp only
    split
    next h =>
      obtain ⟨rfl, -⟩ := h
      rw [get?, hfound]
      rfl
    next => rfl
  | some o =>
    -- What is left of the node is found, whether the node is kept or has become empty.
    have hrest : (o.modifySide kind (·.erase key)).isEmpty = true →
        ((o.modifySide kind (·.erase key)).side kind').get? key' = none := by
      intro hempty
      rw [NodeOverrides.isEmpty_iff.1 hempty]
      rfl
    have hleft : ((if (o.modifySide kind (·.erase key)).isEmpty then
        (⟨s.nodes.erase node⟩ : OverrideStore τ)
        else ⟨s.nodes.insert node (o.modifySide kind (·.erase key))⟩).get? v kind' key') =
          if node = v then ((o.modifySide kind (·.erase key)).side kind').get? key'
          else s.get? v kind' key' := by
      split
      next hempty =>
        rw [get?, KeyMap.get?_erase]
        split
        · exact (hrest hempty).symm
        · rfl
      next =>
        rw [get?, KeyMap.get?_insert]
        split
        · rfl
        · rfl
    refine hleft.trans ?_
    by_cases hnode : node = v
    · subst hnode
      have hstored : s.get? node kind' key' = (o.side kind').get? key' := by rw [get?, hfound]; rfl
      rw [if_pos rfl, NodeOverrides.side_modifySide, hstored]
      by_cases hkind : kind = kind'
      · simp [hkind, KeyMap.get?_erase]
      · simp [hkind]
    · rw [if_neg hnode, if_neg fun h ↦ hnode h.1]

/-- Clearing a node clears its overrides, and those of no other node. -/
theorem get?_clearNode (s : OverrideStore τ) (node v : NodeId) (kind : OverrideKind)
    (key : String) : (s.clearNode node).get? v kind key =
      if node = v then none else s.get? v kind key := by
  rw [get?, clearNode, KeyMap.get?_erase, get?]
  split
  · rfl
  · rfl

/-! ### The overrides of one node -/

/-- Setting an override changes the overrides of its node. -/
theorem get?_nodes_set (s : OverrideStore τ) (node : NodeId) (kind : OverrideKind) (key : String)
    (value : Value) (lifetime : Option τ) (now : τ) (v : NodeId) :
    (s.set node kind key value lifetime now).nodes.get? v =
      if node = v then
        some (((s.nodes.get? v).getD {}).modifySide kind (·.insert key ⟨value, now, lifetime⟩))
      else s.nodes.get? v := by
  rw [set, KeyMap.update, KeyMap.get?_insert]
  split
  next hnode => rw [hnode]
  next => rfl

/-- So does clearing one, and a node without overrides is dropped. -/
theorem get?_nodes_clear (s : OverrideStore τ) (node : NodeId) (kind : OverrideKind) (key : String)
    (v : NodeId) : (s.clear node kind key).nodes.get? v =
      if node = v then
        ((s.nodes.get? v).map (·.modifySide kind (·.erase key))).filter (!·.isEmpty)
      else s.nodes.get? v := by
  rw [clear]
  by_cases hnode : node = v
  · rw [if_pos hnode, hnode]
    cases hfound : s.nodes.get? v with
    | none => exact hfound
    | some o =>
      rw [Option.map_some, Option.filter_some]
      dsimp only
      cases (o.modifySide kind (·.erase key)).isEmpty with
      | true => exact (KeyMap.get?_erase _ _ _).trans (if_pos rfl)
      | false => exact KeyMap.get?_insert_self _ _ _
  · rw [if_neg hnode]
    cases s.nodes.get? node with
    | none => rfl
    | some o =>
      dsimp only
      split
      · exact (KeyMap.get?_erase _ _ _).trans (if_neg hnode)
      · exact (KeyMap.get?_insert _ _ _ _).trans (if_neg hnode)

/-- What an input is overridden with is up to the overrides of its node. -/
theorem input?_congr (h : s'.nodes.get? v = s.nodes.get? v) (port : String) :
    s'.input? v port = s.input? v port := by
  rw [input?, get?, h, input?, get?]

/-- So is the config. -/
theorem effectiveConfig_congr (h : s'.nodes.get? v = s.nodes.get? v) (base : ValueMap) :
    s'.effectiveConfig v base = s.effectiveConfig v base := by
  rw [effectiveConfig, h, effectiveConfig]

/-! ### Valid stores -/

namespace Valid

/-- Setting an override keeps the store valid. -/
theorem set (h : s.Valid) (node : NodeId) (kind : OverrideKind) (key : String) (value : Value)
    (lifetime : Option τ) (now : τ) : (s.set node kind key value lifetime now).Valid := by
  refine ⟨KeyMap.sorted_insert h.sorted _ _, fun v o ho ↦ ?_⟩
  rw [OverrideStore.set, KeyMap.update, KeyMap.get?_insert] at ho
  split at ho
  · obtain rfl := Option.some.inj ho
    refine .insert (fun kind ↦ ?_) kind key _
    cases hfound : s.nodes.get? node with
    | none => cases kind <;> exact List.Pairwise.nil
    | some o => exact (h.node node o hfound).sorted kind
  · exact h.node v o ho

/-- Clearing a node keeps the store valid. -/
theorem clearNode (h : s.Valid) (node : NodeId) : (s.clearNode node).Valid := by
  refine ⟨KeyMap.sorted_erase h.sorted _, fun v o ho ↦ ?_⟩
  rw [OverrideStore.clearNode, KeyMap.get?_erase] at ho
  split at ho
  · cases ho
  · exact h.node v o ho

/-- Clearing an override keeps the store valid: a node that has none left loses its entry. -/
theorem clear (h : s.Valid) (node : NodeId) (kind : OverrideKind) (key : String) :
    (s.clear node kind key).Valid := by
  rw [OverrideStore.clear]
  cases hfound : s.nodes.get? node with
  | none => exact h
  | some o =>
    dsimp only
    split
    next => exact h.clearNode node
    next hkept =>
      refine ⟨KeyMap.sorted_insert h.sorted _ _, fun v o' ho' ↦ ?_⟩
      rw [KeyMap.get?_insert] at ho'
      split at ho'
      · obtain rfl := Option.some.inj ho'
        refine ⟨fun kind' ↦ ?_, by simpa using hkept⟩
        have hside := (h.node node o hfound).sorted kind'
        rw [NodeOverrides.side_modifySide]
        split
        · exact KeyMap.sorted_erase hside key
        · exact hside
      · exact h.node v o' ho'

/-- **A valid store is determined by look-up.** -/
theorem ext (h : s.Valid) (h' : s'.Valid)
    (hget : ∀ v kind key, s.get? v kind key = s'.get? v kind key) : s = s' := by
  -- A node that only one of the stores keeps would have an override in that one only.
  have hkept : ∀ {s s' : OverrideStore τ} {v : NodeId} {o : NodeOverrides τ}, s.Valid →
      (∀ v kind key, s.get? v kind key = s'.get? v kind key) → s.nodes.get? v = some o →
      s'.nodes.get? v ≠ none := by
    intro s s' v o h hget ho hnone
    refine Bool.eq_false_iff.1 (h.node v o ho).isEmpty (NodeOverrides.isEmpty_iff.2 fun kind ↦ ?_)
    refine List.eq_nil_iff_forall_not_mem.2 fun entry hentry ↦ ?_
    obtain ⟨override, hfound⟩ := KeyMap.exists_get?_of_mem hentry
    have hsame := hget v kind entry.1
    rw [OverrideStore.get?, ho, OverrideStore.get?, hnone] at hsame
    cases hfound.symm.trans hsame
  suffices hnodes : s.nodes = s'.nodes by
    obtain ⟨nodes⟩ := s
    obtain ⟨nodes'⟩ := s'
    exact congrArg OverrideStore.mk hnodes
  refine KeyMap.Sorted.ext h.sorted h'.sorted fun v ↦ ?_
  cases ho : s.nodes.get? v with
  | none =>
    cases ho' : s'.nodes.get? v with
    | none => rfl
    | some o' => exact absurd ho (hkept h' (fun v kind key ↦ (hget v kind key).symm) ho')
  | some o =>
    cases ho' : s'.nodes.get? v with
    | none => exact absurd ho' (hkept h hget ho)
    | some o' =>
      refine congrArg some (NodeOverrides.ext_side fun kind ↦ ?_)
      refine KeyMap.Sorted.ext ((h.node v o ho).sorted kind) ((h'.node v o' ho').sorted kind)
        fun key ↦ ?_
      have hsame := hget v kind key
      rwa [get?, ho, get?, ho'] at hsame

end Valid

/-! ### Expiry -/

section Expire

variable [Sub τ] [LE τ] [DecidableLE τ]

/-- The nodes after an expiry. -/
theorem Valid.get?_nodes_expire (h : s.Valid) (now : τ) (v : NodeId) :
    (s.expire now).nodes.get? v = ((s.nodes.get? v).map fun o ↦
      o.filter fun override ↦ !override.isExpired now).filter fun o ↦ !o.isEmpty := by
  have hmapped : KeyMap.Sorted (s.nodes.map fun entry ↦
      (entry.1, entry.2.filter fun override ↦ !override.isExpired now)) :=
    h.sorted.map_snd fun entry ↦ entry.2.filter fun override ↦ !override.isExpired now
  have hfound := KeyMap.get?_map_snd s.nodes
    (fun entry ↦ entry.2.filter fun override ↦ !override.isExpired now) v
  refine Option.ext fun o ↦ ?_
  rw [expire, (hmapped.filter _).get?_eq_some_iff, List.mem_filter, ← hmapped.get?_eq_some_iff,
    hfound, Option.filter_eq_some_iff]

/-- Expiry keeps the store valid: a node that has no override left loses its entry. -/
theorem Valid.expire (h : s.Valid) (now : τ) : (s.expire now).Valid := by
  refine ⟨(h.sorted.map_snd _).filter _, fun v o ho ↦ ?_⟩
  rw [h.get?_nodes_expire, Option.filter_eq_some_iff, Option.map_eq_some_iff] at ho
  obtain ⟨⟨o₀, ho₀, rfl⟩, hkept⟩ := ho
  refine ⟨fun kind ↦ ?_, by simpa using hkept⟩
  rw [NodeOverrides.side_filter]
  exact ((h.node v o₀ ho₀).sorted kind).filter _

/-- **Look-up after an expiry** finds what has not expired. -/
theorem Valid.get?_expire (h : s.Valid) (now : τ) (v : NodeId) (kind : OverrideKind)
    (key : String) : (s.expire now).get? v kind key =
      (s.get? v kind key).filter fun override ↦ !override.isExpired now := by
  rw [get?, h.get?_nodes_expire, get?]
  cases ho : s.nodes.get? v with
  | none => rfl
  | some o =>
    have hside := (h.node v o ho).sorted kind
    have hfiltered : ((o.filter fun override ↦ !override.isExpired now).side kind).get? key =
        ((o.side kind).get? key).filter fun override ↦ !override.isExpired now := by
      refine Option.ext fun override ↦ ?_
      rw [NodeOverrides.side_filter, (hside.filter _).get?_eq_some_iff, List.mem_filter,
        ← hside.get?_eq_some_iff, Option.filter_eq_some_iff]
    rw [Option.map_some, Option.bind_some, ← hfiltered, Option.filter_some]
    split
    next => rfl
    next hempty =>
      have hnone := NodeOverrides.isEmpty_iff.1 (by simpa using hempty)
      rw [hnone kind]
      rfl

/-- A store in which every override has expired is empty afterwards. -/
theorem Valid.expire_eq_empty (h : s.Valid) {now : τ}
    (hover : ∀ v kind key override, s.get? v kind key = some override →
      override.isExpired now = true) : s.expire now = .empty := by
  refine (h.expire now).ext valid_empty fun v kind key ↦ ?_
  rw [h.get?_expire]
  cases hfound : s.get? v kind key with
  | none => rfl
  | some override =>
    rw [Option.filter_some, hover v kind key override hfound]
    rfl

end Expire

end OverrideStore

end CueFlow
