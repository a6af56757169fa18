import CueFlow.Proofs.Value
import Mathlib.Data.List.Nodup
/-!
# The members of a bundle

No two members of a bundle have the same key (`nodup_memberKeys`), so a bundle is a map from keys to
members (`member?_eq_some_iff`), and equal bundles have equal members under equal keys
(`rel_member?`). What changed between two bundles is then told key by key
(`lookup_changedMembers`): under every key of the new bundle there is either a change, or a member
of the old bundle that equals the new one.
-/

namespace CueFlow

variable {items before after : List Value} {key : MemberKey} {v : Value}

/-! ### Keys -/

/-- The occurrences of a discriminant are counted on from those that went before. -/
theorem count_le_of_mem_memberKeysAfter {seen : List String}
    (h : key ∈ memberKeysAfter seen items) : seen.count key.discriminant ≤ key.occurrence := by
  induction items generalizing seen with
  | nil => cases h
  | cons item rest ih =>
    rcases List.mem_cons.1 h with rfl | h
    · exact Nat.le_refl _
    · exact Nat.le_trans List.count_le_count_cons (ih h)

theorem nodup_memberKeysAfter (seen : List String) (items : List Value) :
    (memberKeysAfter seen items).Nodup := by
  induction items generalizing seen with
  | nil => exact List.nodup_nil
  | cons item rest ih =>
    refine List.nodup_cons.2 ⟨fun hmem ↦ ?_, ih _⟩
    -- A later member with this discriminant has counted this one.
    have hlater := count_le_of_mem_memberKeysAfter hmem
    rw [List.count_cons_self] at hlater
    exact Nat.not_succ_le_self _ hlater

/-- **No two members of a bundle have the same key.** -/
theorem nodup_memberKeys (items : List Value) : (memberKeys items).Nodup :=
  nodup_memberKeysAfter [] items

theorem length_memberKeysAfter (seen : List String) (items : List Value) :
    (memberKeysAfter seen items).length = items.length := by
  induction items generalizing seen with
  | nil => rfl
  | cons item rest ih => rw [memberKeysAfter, List.length_cons, List.length_cons, ih]

theorem map_fst_members (items : List Value) : (members items).map Prod.fst = memberKeys items :=
  List.map_fst_zip (Nat.le_of_eq (length_memberKeysAfter [] items))

/-- The members are the items of the bundle, in their order. -/
theorem map_snd_members (items : List Value) : (members items).map Prod.snd = items :=
  List.map_snd_zip (Nat.le_of_eq (length_memberKeysAfter [] items).symm)

/-- The key of a member is its discriminant and the number of members before it that share it. -/
theorem getElem?_memberKeysAfter (seen : List String) {i : Nat} (h : items[i]? = some v) :
    (memberKeysAfter seen items)[i]? = some ⟨discriminant v,
      ((items.take i).map discriminant).count (discriminant v) + seen.count (discriminant v)⟩ := by
  induction items generalizing seen i with
  | nil => cases h
  | cons item rest ih =>
    cases i with
    | zero =>
      obtain rfl := Option.some.inj h
      simp [memberKeysAfter]
    | succ i =>
      rw [memberKeysAfter, List.getElem?_cons_succ, ih _ h, List.take_succ_cons, List.map_cons,
        List.count_cons, List.count_cons]
      simp only [Option.some.injEq, MemberKey.mk.injEq, true_and]
      omega

/-! ### Look-up -/

/-- Look-up in a list without repeated keys finds exactly its entries. -/
theorem lookup_eq_some_iff_mem {l : List (MemberKey × Value)} (h : (l.map Prod.fst).Nodup) :
    l.lookup key = some v ↔ (key, v) ∈ l := by
  induction l with
  | nil => simp
  | cons entry rest ih =>
    obtain ⟨hnew, hrest⟩ := List.nodup_cons.1 h
    rw [List.lookup_cons, List.mem_cons]
    by_cases hkey : key = entry.1
    · subst hkey
      have hnone : (entry.1, v) ∉ rest := fun hmem ↦ hnew (List.mem_map.2 ⟨_, hmem, rfl⟩)
      simp [Prod.ext_iff, hnone, eq_comm]
    · have hne : (key, v) ≠ entry := fun heq ↦ hkey (congrArg Prod.fst heq)
      rw [beq_eq_false_iff_ne.2 hkey]
      simp [hne, ih hrest]

/-- **A bundle is a map from keys to members.** -/
theorem member?_eq_some_iff : member? items key = some v ↔ (key, v) ∈ members items :=
  lookup_eq_some_iff_mem (by rw [map_fst_members]; exact nodup_memberKeys items)

/-- The member at a place of a bundle. -/
theorem member?_of_getElem? {i : Nat} (h : items[i]? = some v) : member? items
    ⟨discriminant v, ((items.take i).map discriminant).count (discriminant v)⟩ = some v := by
  have hkey := getElem?_memberKeysAfter [] h
  rw [List.count_nil, Nat.add_zero] at hkey
  rw [member?_eq_some_iff, List.mem_iff_getElem?]
  exact ⟨i, List.getElem?_zip_eq_some.2 ⟨hkey, h⟩⟩

/-- Every member stands at a place of the bundle. -/
theorem exists_getElem?_of_member? (h : member? items key = some v) :
    ∃ i, items[i]? = some v ∧
      key = ⟨discriminant v, ((items.take i).map discriminant).count (discriminant v)⟩ := by
  obtain ⟨i, hi⟩ := List.mem_iff_getElem?.1 (member?_eq_some_iff.1 h)
  obtain ⟨hkey, hv⟩ := List.getElem?_zip_eq_some.1 hi
  have hat := getElem?_memberKeysAfter [] hv
  rw [List.count_nil, Nat.add_zero] at hat
  exact ⟨i, hv, Option.some.inj (hkey.symm.trans hat)⟩

/-- Equal bundles have equal members under equal keys. -/
theorem rel_member? {xs ys : List Value} (h : Value.beqItems xs ys) (key : MemberKey) :
    Option.Rel (fun v w ↦ v == w) (member? xs key) (member? ys key) := by
  rw [member?, members, member?, members, memberKeys, memberKeys]
  generalize ([] : List String) = seen
  induction xs generalizing ys seen with
  | nil =>
    cases ys with
    | nil => exact .none
    | cons => cases h
  | cons x xs ih =>
    cases ys with
    | nil => cases h
    | cons y ys =>
      rw [Value.beqItems, Bool.and_eq_true] at h
      rw [memberKeysAfter, memberKeysAfter, Value.discriminant_congr h.1, List.zip_cons_cons,
        List.zip_cons_cons, List.lookup_cons, List.lookup_cons]
      split
      · exact .some h.1
      · exact ih h.2 _

/-! ### Changes -/

theorem changedMembers_sublist (before after : List Value) :
    (changedMembers before after).Sublist (members after) :=
  List.filter_sublist

/-- **A member is among the changes unless it equals its match.** -/
theorem lookup_changedMembers (h : member? after key = some v) :
    (changedMembers before after).lookup key =
      if member? before key == some v then none else some v := by
  have hnodup : ((changedMembers before after).map Prod.fst).Nodup := by
    refine ((changedMembers_sublist before after).map Prod.fst).nodup ?_
    rw [map_fst_members]
    exact nodup_memberKeys after
  have hmem := member?_eq_some_iff.1 h
  split
  next hsame =>
    rw [Option.eq_none_iff_forall_ne_some]
    intro w hw
    obtain ⟨hmem', hdiffers⟩ := List.mem_filter.1 ((lookup_eq_some_iff_mem hnodup).1 hw)
    obtain rfl : w = v := Option.some.inj ((member?_eq_some_iff.2 hmem').symm.trans h)
    simp [hsame] at hdiffers
  next hdiffers =>
    rw [lookup_eq_some_iff_mem hnodup]
    exact List.mem_filter.2 ⟨hmem, by simpa using hdiffers⟩

/-- Nothing changed if every member equals its match. -/
theorem changedMembers_eq_nil_iff : changedMembers before after = [] ↔
    ∀ key v, member? after key = some v → ∃ w, member? before key = some w ∧ w == v := by
  rw [changedMembers, List.filter_eq_nil_iff]
  constructor
  · intro hsame key v hv
    have hmatch : member? before key == some v := by
      simpa using hsame (key, v) (member?_eq_some_iff.1 hv)
    cases hw : member? before key with
    | none =>
      rw [hw] at hmatch
      cases hmatch
    | some w =>
      rw [hw] at hmatch
      exact ⟨w, rfl, hmatch⟩
  · rintro hsame ⟨key, v⟩ hv
    obtain ⟨w, hw, heq⟩ := hsame key v (member?_eq_some_iff.2 hv)
    have hmatch : (member? before key == some v) = true := by
      rw [hw]
      exact heq
    simp [hmatch]

/-- Between equal bundles nothing changed. -/
theorem changedMembers_of_beqItems (h : Value.beqItems before after) :
    changedMembers before after = [] := by
  rw [changedMembers_eq_nil_iff]
  intro key v hv
  have hrel := rel_member? h key
  rw [hv] at hrel
  generalize member? before key = found at hrel
  cases hrel with
  | some hwv => exact ⟨_, rfl, hwv⟩

end CueFlow
