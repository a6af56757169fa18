/-!
# Finite maps with text keys

A `KeyMap α` is an association list whose keys strictly increase in the order of code points. Every
operation below keeps that order, so two maps with the same entries are the same list: equality of
maps needs no notion of its own, and walking a map always visits its keys in increasing order.

The type itself is a plain list, because values nest maps inside themselves; `KeyMap.Sorted` is the
invariant, which `sorted_insert`, `sorted_erase`, `sorted_overlay` and `sorted_ofEntries` establish.
-/

namespace CueFlow

/-- A finite map from texts to `α`, kept as a list of entries with strictly increasing keys. -/
abbrev KeyMap (α : Type) := List (String × α)

namespace KeyMap

variable {α : Type}

/-- The keys strictly increase. -/
def Sorted (m : KeyMap α) : Prop := List.Pairwise (fun a b ↦ a.1 < b.1) m

/-- The value stored under `key`. -/
def get? (m : KeyMap α) (key : String) : Option α :=
  match m with
  | [] => none
  | entry :: rest => if entry.1 = key then some entry.2 else get? rest key

/-- Whether anything is stored under `key`. -/
def contains (m : KeyMap α) (key : String) : Bool := (m.get? key).isSome

/-- Store `value` under `key`, in place of whatever was there. -/
def insert (m : KeyMap α) (key : String) (value : α) : KeyMap α :=
  match m with
  | [] => [(key, value)]
  | entry :: rest =>
    if key < entry.1 then (key, value) :: entry :: rest
    else if key = entry.1 then (key, value) :: rest
    else entry :: insert rest key value

/-- Drop whatever is stored under `key`. -/
def erase (m : KeyMap α) (key : String) : KeyMap α := m.filter fun entry ↦ entry.1 ≠ key

/-- Lay the entries of `upper` on top of `m`: on a shared key `upper` wins. -/
def overlay (m upper : KeyMap α) : KeyMap α :=
  upper.foldl (fun acc entry ↦ acc.insert entry.1 entry.2) m

/-- The map holding these entries; of two entries with one key the later wins. -/
def ofEntries (entries : List (String × α)) : KeyMap α := overlay [] entries

/-- The keys, in increasing order. -/
def keys (m : KeyMap α) : List String := m.map Prod.fst

/-- The values, in the order of their keys. -/
def values (m : KeyMap α) : List α := m.map Prod.snd

/-- Change the value under `key`, where a key without a value counts as holding `fallback`. -/
def update (m : KeyMap α) (key : String) (fallback : α) (f : α → α) : KeyMap α :=
  m.insert key (f ((m.get? key).getD fallback))

/-! ### Look-up after an operation -/

@[simp] theorem get?_nil (key : String) : get? ([] : KeyMap α) key = none := rfl

theorem get?_cons (entry : String × α) (rest : KeyMap α) (key : String) :
    get? (entry :: rest) key = if entry.1 = key then some entry.2 else get? rest key := rfl

/-- An insertion is seen under its key and under no other. -/
theorem get?_insert (m : KeyMap α) (key : String) (value : α) (k : String) :
    (m.insert key value).get? k = if key = k then some value else m.get? k := by
  induction m with
  | nil => rfl
  | cons entry rest ih =>
    simp only [insert]
    split
    · simp [get?_cons]
    · split
      · next h => subst h; by_cases hk : entry.1 = k <;> simp [get?_cons, hk]
      · next h =>
        rw [get?_cons, ih, get?_cons]
        by_cases hk : entry.1 = k
        · have hne : key ≠ k := fun he ↦ h (he.trans hk.symm)
          simp [hk, hne]
        · simp [hk]

@[simp] theorem get?_insert_self (m : KeyMap α) (key : String) (value : α) :
    (m.insert key value).get? key = some value := by simp [get?_insert]

/-- An erasure is seen under its key and under no other. -/
theorem get?_erase (m : KeyMap α) (key k : String) :
    (m.erase key).get? k = if key = k then none else m.get? k := by
  induction m with
  | nil => simp [erase]
  | cons entry rest ih =>
    have ih' : get? (List.filter (fun entry ↦ decide (entry.1 ≠ key)) rest) k =
        if key = k then none else get? rest k := ih
    by_cases he : entry.1 = key
    · rw [erase, List.filter_cons_of_neg (by simp [he]), ih', get?_cons]
      by_cases hk : key = k
      · simp [hk]
      · have : entry.1 ≠ k := fun h ↦ hk (he.symm.trans h)
        simp [hk, this]
    · rw [erase, List.filter_cons_of_pos (by simp [he]), get?_cons, ih', get?_cons]
      by_cases hk : entry.1 = k
      · have : key ≠ k := fun h ↦ he (hk.trans h.symm)
        simp [hk, this]
      · simp [hk]

/-! ### The order of the keys -/

/-- An insertion brings in nothing but its entry. -/
theorem mem_insert {m : KeyMap α} {key : String} {value : α} {entry : String × α}
    (h : entry ∈ m.insert key value) : entry = (key, value) ∨ entry ∈ m := by
  induction m with
  | nil => simpa [insert] using h
  | cons first rest ih =>
    simp only [insert] at h
    split at h
    · simpa using h
    · split at h
      · rcases List.mem_cons.1 h with h | h
        · exact .inl h
        · exact .inr (List.mem_cons_of_mem _ h)
      · rcases List.mem_cons.1 h with h | h
        · exact .inr (h ▸ List.mem_cons_self)
        · exact (ih h).imp_right (List.mem_cons_of_mem _)

/-- Insertion keeps the keys in order. -/
theorem sorted_insert {m : KeyMap α} (h : m.Sorted) (key : String) (value : α) :
    (m.insert key value).Sorted := by
  induction m with
  | nil => exact List.pairwise_singleton _ _
  | cons first rest ih =>
    obtain ⟨hfirst, hrest⟩ := List.pairwise_cons.1 h
    simp only [insert]
    split
    · next hlt =>
      refine List.pairwise_cons.2 ⟨fun entry hmem ↦ ?_, h⟩
      rcases List.mem_cons.1 hmem with rfl | hmem
      · exact hlt
      · exact String.lt_trans hlt (hfirst entry hmem)
    · next hnlt =>
      split
      · next heq => exact List.pairwise_cons.2 ⟨fun entry hmem ↦ heq ▸ hfirst entry hmem, hrest⟩
      · next hne =>
        refine List.pairwise_cons.2 ⟨fun entry hmem ↦ ?_, ih hrest⟩
        rcases mem_insert hmem with rfl | hmem
        · have hle : first.1 ≤ key := String.not_lt.1 hnlt
          exact Decidable.byContradiction fun hge ↦
            hne (String.le_antisymm (String.not_lt.1 hge) hle)
        · exact hfirst entry hmem

/-- Erasure keeps the keys in order. -/
theorem sorted_erase {m : KeyMap α} (h : m.Sorted) (key : String) : (m.erase key).Sorted :=
  List.Pairwise.filter _ h

/-- Laying entries over a map keeps its keys in order. -/
theorem sorted_overlay {m : KeyMap α} (h : m.Sorted) (upper : KeyMap α) :
    (m.overlay upper).Sorted := by
  induction upper generalizing m with
  | nil => exact h
  | cons entry rest ih => exact ih (sorted_insert h entry.1 entry.2)

/-- The map of any entries has its keys in order. -/
theorem sorted_ofEntries (entries : List (String × α)) : (ofEntries entries).Sorted :=
  sorted_overlay List.Pairwise.nil entries

end KeyMap

end CueFlow
