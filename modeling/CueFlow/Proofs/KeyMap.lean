import CueFlow.KeyMap
import Mathlib.Data.List.Sort
/-!
# Look-up in maps with text keys

Look-up after the operations on whole maps: laying one map over another (`get?_overlay`), picking
keys (`get?_filter_fst`) and changing all values (`get?_map_snd`). Since keys strictly increase, a
map is determined by look-up (`Sorted.ext`) and made of its own entries (`Sorted.ofEntries_eq`).
-/

namespace CueFlow.KeyMap

variable {α β : Type} {m m' : KeyMap α}

theorem get?_append (m m' : KeyMap α) (k : String) :
    get? (m ++ m') k = (m.get? k).or (m'.get? k) := by
  induction m with
  | nil => rfl
  | cons entry rest ih =>
    rw [List.cons_append, get?_cons, get?_cons, ih]
    split <;> rfl

/-- The last entry laid over a map wins. -/
theorem get?_overlay (m upper : KeyMap α) (k : String) :
    (m.overlay upper).get? k = (get? upper.reverse k).or (m.get? k) := by
  induction upper generalizing m with
  | nil => rfl
  | cons entry rest ih =>
    show ((m.insert entry.1 entry.2).overlay rest).get? k = _
    rw [ih, List.reverse_cons, get?_append, get?_insert, Option.or_assoc]
    by_cases hk : entry.1 = k
    · simp [get?_cons, hk]
    · simp [get?_cons, hk]

theorem mem_of_get? {k : String} {v : α} (h : m.get? k = some v) : (k, v) ∈ m := by
  induction m with
  | nil => cases h
  | cons entry rest ih =>
    rw [get?_cons] at h
    split at h
    next hk =>
      obtain rfl := Option.some.inj h
      rw [← hk]
      exact List.mem_cons_self
    next => exact List.mem_cons_of_mem _ (ih h)

/-- Look-up finds something under the key of every entry. -/
theorem exists_get?_of_mem {k : String} {v : α} (h : (k, v) ∈ m) : ∃ w, m.get? k = some w := by
  induction m with
  | nil => cases h
  | cons entry rest ih =>
    rw [get?_cons]
    split
    next => exact ⟨entry.2, rfl⟩
    next hk =>
      rcases List.mem_cons.1 h with rfl | h
      · exact absurd rfl hk
      · exact ih h

/-- Picking entries by their keys. -/
theorem get?_filter_fst (m : KeyMap α) (keep : String → Bool) (k : String) :
    get? (m.filter fun entry ↦ keep entry.1) k = if keep k then m.get? k else none := by
  induction m with
  | nil => simp
  | cons entry rest ih =>
    rw [List.filter_cons, get?_cons]
    by_cases hk : entry.1 = k
    · subst hk
      cases hkeep : keep entry.1
      · simp [ih, hkeep]
      · simp [get?_cons]
    · cases hkeep : keep entry.1
      · simp [ih, hk]
      · simp [ih, hk, get?_cons]

/-- Changing every value. -/
theorem get?_map_snd (m : KeyMap α) (f : String × α → β) (k : String) :
    get? (m.map fun entry ↦ (entry.1, f entry)) k = (m.get? k).map fun v ↦ f (k, v) := by
  induction m with
  | nil => rfl
  | cons entry rest ih =>
    rw [List.map_cons, get?_cons, get?_cons, ih]
    by_cases hk : entry.1 = k
    · rw [if_pos hk, if_pos hk, ← hk]
      rfl
    · rw [if_neg hk, if_neg hk]

theorem Sorted.filter (h : m.Sorted) (keep : String × α → Bool) :
    Sorted (m.filter keep) :=
  List.Pairwise.filter _ h

theorem Sorted.map_snd (h : m.Sorted) (f : String × α → β) :
    Sorted (m.map fun entry ↦ (entry.1, f entry)) :=
  List.pairwise_map.2 h

/-- Look-up among entries whose keys do not repeat finds exactly these entries. -/
theorem get?_eq_some_iff_of_nodup (h : (m.map Prod.fst).Nodup) {k : String} {v : α} :
    m.get? k = some v ↔ (k, v) ∈ m := by
  refine ⟨mem_of_get?, fun hmem ↦ ?_⟩
  induction m with
  | nil => cases hmem
  | cons entry rest ih =>
    obtain ⟨hnew, hrest⟩ := List.nodup_cons.1 h
    rw [get?_cons]
    rcases List.mem_cons.1 hmem with rfl | hmem
    · rw [if_pos rfl]
    · have hne : entry.1 ≠ k := fun heq ↦ hnew (heq ▸ List.mem_map_of_mem hmem)
      rw [if_neg hne]
      exact ih hrest hmem

/-- Of entries whose keys do not repeat, each is found where it is laid over a map. -/
theorem get?_overlay_of_nodup {upper : KeyMap α} (h : (upper.map Prod.fst).Nodup) (k : String) :
    (m.overlay upper).get? k = (upper.get? k).or (m.get? k) := by
  have hreverse : (upper.reverse.map Prod.fst).Nodup := by
    rw [List.map_reverse]
    exact List.nodup_reverse.2 h
  have hsame : get? upper.reverse k = upper.get? k := by
    refine Option.ext fun v ↦ ?_
    rw [get?_eq_some_iff_of_nodup hreverse, get?_eq_some_iff_of_nodup h, List.mem_reverse]
  rw [get?_overlay, hsame]

/-- The map of entries whose keys do not repeat has these entries. -/
theorem get?_ofEntries_of_nodup {entries : KeyMap α} (h : (entries.map Prod.fst).Nodup)
    (k : String) : (ofEntries entries).get? k = entries.get? k := by
  rw [ofEntries, get?_overlay_of_nodup h, get?_nil, Option.or_none]

theorem Sorted.nodup_fst (h : m.Sorted) : (m.map Prod.fst).Nodup := by
  rw [List.Nodup, List.pairwise_map]
  refine List.Pairwise.imp (fun {a b} hlt heq ↦ ?_) h
  exact String.lt_irrefl b.1 (heq ▸ hlt)

/-- Look-up in a map finds exactly its entries. -/
theorem Sorted.get?_eq_some_iff (h : m.Sorted) {k : String} {v : α} :
    m.get? k = some v ↔ (k, v) ∈ m :=
  get?_eq_some_iff_of_nodup h.nodup_fst

/-- **A map is determined by look-up.** -/
theorem Sorted.ext (h : m.Sorted) (h' : m'.Sorted) (hget : ∀ k, m.get? k = m'.get? k) :
    m = m' := by
  have hirrefl : Std.Irrefl fun a b : String × α ↦ a.1 < b.1 := ⟨fun a ↦ String.lt_irrefl a.1⟩
  have hantisymm : Std.Antisymm fun a b : String × α ↦ a.1 < b.1 :=
    ⟨fun a b hab hba ↦ absurd (String.lt_trans hab hba) (String.lt_irrefl a.1)⟩
  refine List.Pairwise.eq_of_mem_iff h h' fun entry ↦ ?_
  rw [← h.get?_eq_some_iff, ← h'.get?_eq_some_iff, hget]

/-! ### Entries in order -/

theorem insert_eq_append {key : String} (h : ∀ entry ∈ m, entry.1 < key) (value : α) :
    m.insert key value = m ++ [(key, value)] := by
  induction m with
  | nil => rfl
  | cons entry rest ih =>
    have hlt : entry.1 < key := h entry List.mem_cons_self
    have hne : key ≠ entry.1 := fun heq ↦ String.lt_irrefl key (heq ▸ hlt)
    rw [insert, if_neg (fun hgt ↦ String.lt_irrefl key (String.lt_trans hgt hlt)), if_neg hne,
      ih fun later hmem ↦ h later (List.mem_cons_of_mem entry hmem)]
    rfl

theorem overlay_eq_append {upper : KeyMap α} (h : Sorted (m ++ upper)) :
    m.overlay upper = m ++ upper := by
  induction upper generalizing m with
  | nil => exact (List.append_nil m).symm
  | cons entry rest ih =>
    have hlt : ∀ before ∈ m, before.1 < entry.1 :=
      fun before hmem ↦ (List.pairwise_append.1 h).2.2 before hmem entry List.mem_cons_self
    have hinsert : m.insert entry.1 entry.2 = m ++ [entry] := insert_eq_append hlt entry.2
    show (m.insert entry.1 entry.2).overlay rest = _
    rw [hinsert, ih (by simpa using h), List.append_assoc]
    rfl

/-- **Entries in order are the map they make.** -/
theorem Sorted.ofEntries_eq (h : m.Sorted) : ofEntries m = m := overlay_eq_append h

end CueFlow.KeyMap
