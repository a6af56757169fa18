import CueFlow.Proofs.Override.Entries
/-!
# The override store is one flat map

Any calls made on a store and on a flat map get the same replies, and afterwards whatever is read
off the store is what the map says (`OverrideStore.refines_flatMap`).

The proof needs nothing of the store but that it is valid. `OverrideStore.flatMap` is what look-up
finds in it, and whatever else is read off a valid store follows from that (`Valid.refines`): the
sizes because the map has as many keys as entries are listed, and `isEmpty` because no node is kept
without overrides. One call leaves a store valid and does to its flat map what it does to any map
(`Valid.flatMap_call`).
-/

namespace CueFlow

open OverrideCall (run times)

namespace OverrideStore

variable {τ σ : Type} {s : OverrideStore τ}

/-- The flat map of a store. -/
def flatMap (s : OverrideStore τ) : FlatMap τ := fun p ↦ s.get? p.node p.kind p.key

/-! ### What is read off a store -/

/-- Whatever is read off the store is what the map says. -/
structure Refines (s : OverrideStore τ) (m : FlatMap τ) : Prop where
  get? : ∀ v kind key, s.get? v kind key = m ⟨v, kind, key⟩
  input? : ∀ v port, s.input? v port = (m ⟨v, .input, port⟩).map Override.value
  /-- The entries of the node are laid over the base. -/
  effectiveConfig : ∀ v base key, (s.effectiveConfig v base).get? key =
    ((m ⟨v, .config, key⟩).map Override.value).or (base.get? key)
  sorted_effectiveConfig : ∀ v base, base.Sorted → (s.effectiveConfig v base).Sorted
  finite : m.keys.Finite
  size : s.size = m.keys.ncard
  isEmpty : s.isEmpty = true ↔ s.size = 0

theorem Valid.get?_effectiveConfig (h : s.Valid) (v : NodeId) (base : ValueMap) (key : String) :
    (s.effectiveConfig v base).get? key =
      ((s.get? v .config key).map Override.value).or (base.get? key) := by
  rw [OverrideStore.effectiveConfig, OverrideStore.get?]
  cases ho : s.nodes.get? v with
  | none => rfl
  | some o =>
    have hlaid : KeyMap.Sorted (o.config.map fun entry ↦ (entry.1, entry.2.value)) :=
      ((h.node v o ho).sorted .config).map_snd fun entry ↦ entry.2.value
    dsimp only
    rw [KeyMap.get?_overlay_of_nodup hlaid.nodup_fst,
      KeyMap.get?_map_snd o.config fun entry ↦ entry.2.value]
    rfl

/-- **A valid store is read like its flat map.** -/
theorem Valid.refines (h : s.Valid) : s.Refines s.flatMap where
  get? _ _ _ := rfl
  input? _ _ := rfl
  effectiveConfig := h.get?_effectiveConfig
  sorted_effectiveConfig v base hbase := by
    rw [OverrideStore.effectiveConfig]
    split
    · exact hbase
    · exact KeyMap.sorted_overlay hbase _
  finite := h.finite_keys
  size := by
    have hkeys := h.ncard_keys fun _ ↦ true
    rw [List.countP_true, ← size_eq] at hkeys
    rw [← hkeys]
    congr 1
    ext p
    simp [FlatMap.keys, flatMap, Option.isSome_iff_exists]
  isEmpty := h.isEmpty_iff

/-! ### One call -/

section Calls

variable [Sub τ] [LE τ] [DecidableLE τ]

/-- What a call does to a store, and its reply. -/
def call (s : OverrideStore τ) : OverrideCall τ → OverrideStore τ × OverrideReply
  | .set p value lifetime now => (s.set p.node p.kind p.key value lifetime now, .done)
  | .clear p => (s.clear p.node p.kind p.key, .cleared (s.get? p.node p.kind p.key).isSome)
  | .clearNode v => (s.clearNode v, .done)
  | .clearAll => (.empty, .done)
  | .expire now => (s.expire now, .expired (s.expiredCount now))

theorem Valid.call (h : s.Valid) (c : OverrideCall τ) : (s.call c).1.Valid := by
  cases c with
  | set p value lifetime now => exact h.set p.node p.kind p.key value lifetime now
  | clear p => exact h.clear p.node p.kind p.key
  | clearNode v => exact h.clearNode v
  | clearAll => exact valid_empty
  | expire now => exact h.expire now

/-- A call does to the flat map of a valid store what it does to any map. -/
theorem Valid.flatMap_call (h : s.Valid) (c : OverrideCall τ) :
    (s.call c).1.flatMap = (s.flatMap.call c).1 := by
  have hkey : ∀ p q : OverrideKey,
      (p.node = q.node ∧ p.kind = q.kind ∧ p.key = q.key) = (q = p) := by
    rintro ⟨v, kind, key⟩ ⟨v', kind', key'⟩
    simp [eq_comm]
  funext q
  cases c with
  | set p value lifetime now =>
    refine (get?_set s _ _ _ value lifetime now _ _ _).trans ?_
    simp only [hkey]
    exact (Function.update_apply s.flatMap p _ q).symm
  | clear p =>
    refine (get?_clear s _ _ _ _ _ _).trans ?_
    simp only [hkey]
    exact (Function.update_apply s.flatMap p _ q).symm
  | clearNode v =>
    refine (get?_clearNode s _ _ _ _).trans ?_
    simp only [eq_comm (a := v)]
    rfl
  | clearAll => rfl
  | expire now =>
    refine (h.get?_expire now _ _ _).trans (Option.ext fun o ↦ ?_)
    rw [Option.filter_eq_some_iff, FlatMap.call_expire_eq_some_iff, ← Override.isExpired_iff,
      Bool.not_eq_true', Bool.not_eq_true]
    rfl

/-- And it replies what it replies to any map. -/
theorem Valid.reply_call (h : s.Valid) (c : OverrideCall τ) :
    (s.call c).2 = (s.flatMap.call c).2 := by
  cases c with
  | set | clear | clearNode | clearAll => rfl
  | expire now =>
    refine congrArg OverrideReply.expired ?_
    rw [expiredCount_eq, ← h.ncard_keys fun o ↦ o.isExpired now]
    simp only [Override.isExpired_iff]
    rfl

/-! ### Any calls -/

/-- Any calls leave a store valid, do to its flat map what they do to any map, and get the same
replies. -/
theorem Valid.run_call (h : s.Valid) (calls : List (OverrideCall τ)) :
    (run OverrideStore.call s calls).1.Valid ∧
      (run OverrideStore.call s calls).1.flatMap = (run FlatMap.call s.flatMap calls).1 ∧
      (run OverrideStore.call s calls).2 = (run FlatMap.call s.flatMap calls).2 := by
  induction calls generalizing s with
  | nil => exact ⟨h, rfl, rfl⟩
  | cons c rest ih =>
    obtain ⟨hvalid, hmap, hreplies⟩ := ih (h.call c)
    rw [h.flatMap_call c] at hmap hreplies
    exact ⟨hvalid, hmap, congrArg₂ List.cons (h.reply_call c) hreplies⟩

end Calls

/-- **The override store is one flat map.** Any calls give the same replies as on a flat map, and
whatever is read off the store after them is what the map says. An input and a config entry with the
same key do not interfere. With exact times in order, an override is found after an expiry exactly
if it has been set, not been overwritten or cleared since, and its lifetime has not elapsed. -/
theorem refines_flatMap [Sub τ] [LE τ] [DecidableLE τ] [AddCommGroup σ] [LinearOrder σ]
    [IsOrderedAddMonoid σ] :
    (∀ calls : List (OverrideCall τ),
      (run call empty calls).1.Refines (run FlatMap.call (fun _ ↦ none) calls).1 ∧
      (run call empty calls).2 = (run FlatMap.call (fun _ ↦ none) calls).2) ∧
    (∀ (s : OverrideStore τ) v kind kind' key value lifetime now, kind ≠ kind' →
      (s.set v kind key value lifetime now).get? v kind' key = s.get? v kind' key ∧
      (s.clear v kind key).get? v kind' key = s.get? v kind' key) ∧
    ∀ (calls : List (OverrideCall σ)) (now : σ) (p : OverrideKey) (o : Override σ),
      (times (calls ++ [.expire now])).Pairwise (· ≤ ·) →
      ((run call empty (calls ++ [.expire now])).1.get? p.node p.kind p.key = some o ↔
        ∃ before since, calls = before ++ .set p o.value o.lifetime o.updatedAt :: since ∧
          (∀ c ∈ since, ¬ c.IsAbout p) ∧
          ∀ lifetime, o.lifetime = some lifetime → now - o.updatedAt < lifetime) := by
  refine ⟨fun calls ↦ ?_, fun s v kind kind' key value lifetime now hne ↦ ⟨?_, ?_⟩,
    fun calls now p o h ↦ ?_⟩
  · obtain ⟨hvalid, hmap, hreplies⟩ := valid_empty.run_call calls
    exact ⟨hmap ▸ hvalid.refines, hreplies⟩
  · rw [get?_set, if_neg fun hsame ↦ hne hsame.2.1]
  · rw [get?_clear, if_neg fun hsame ↦ hne hsame.2.1]
  · obtain ⟨-, hmap, -⟩ := valid_empty.run_call (calls ++ [OverrideCall.expire now])
    rw [← FlatMap.lastSet_append_expire_iff h, ← FlatMap.run_eq_some_iff]
    exact iff_of_eq (congrArg (· = some o) (congrFun hmap p))

/-- An override that is refreshed at 80 outlives an expiry at 150, at which the one it replaces
would have been due. -/
theorem refines_flatMap_refreshed :
    let p : OverrideKey := ⟨"dimmer", .input, "level"⟩
    let calls : List (OverrideCall ℤ) :=
      [.set p (.text "low") (some 100) 0, .set p (.text "high") (some 100) 80]
    (times (calls ++ [.expire 150])).Pairwise (· ≤ ·) ∧
      (run call empty (calls ++ [.expire 150])).1.get? "dimmer" .input "level" =
        some ⟨.text "high", 80, some 100⟩ ∧
      OverrideKind.config ≠ .input ∧
      ((run call empty calls).1.clear "dimmer" .config "level").get? "dimmer" .input "level" =
        (run call empty calls).1.get? "dimmer" .input "level" := by
  intro p calls
  obtain ⟨-, happart, hvisible⟩ := refines_flatMap (τ := ℤ) (σ := ℤ)
  have hsorted : (times (calls ++ [.expire 150])).Pairwise (· ≤ ·) := by decide
  refine ⟨hsorted, (hvisible calls 150 p _ hsorted).2 ?_, by decide, ?_⟩
  · exact ⟨[.set p (.text "low") (some 100) 0], [], rfl, nofun, by rintro _ ⟨⟩; decide⟩
  · exact (happart _ "dimmer" .config .input "level" .null none 0 (by decide)).2

end OverrideStore

end CueFlow
