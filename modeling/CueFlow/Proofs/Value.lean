import CueFlow.Command.Change
import Mathlib
/-!
# Comparing values

Comparison of values is symmetric and transitive (`Value.beq_symm`, `Value.beq_trans`), and
reflexive on the values that hold no NaN (`Value.beq_self`), but it is not equality: it takes `-0.0`
for `0.0`. What the engine asks about commands does not depend on which of two equal values it looks
at: they have the same discriminant and carry commands together (`Value.discriminant_congr`,
`Value.carriesCommands_congr`).
-/

namespace CueFlow

/-! ### Numbers -/

instance instPartialEquivBEqFloat : PartialEquivBEq Float where
  symm {x y} h := by
    obtain ⟨hx, hy, hsame⟩ := Float.beq_iff_ne_nan_and_eq.1 h
    refine Float.beq_iff_ne_nan_and_eq.2 ⟨hy, hx, ?_⟩
    obtain rfl | ⟨hx, hy⟩ | ⟨hx, hy⟩ := hsame
    · exact .inl rfl
    · exact .inr (.inr ⟨hy, hx⟩)
    · exact .inr (.inl ⟨hy, hx⟩)
  trans {x y z} h h' := by
    obtain ⟨hx, -, hxy⟩ := Float.beq_iff_ne_nan_and_eq.1 h
    obtain ⟨-, hz, hyz⟩ := Float.beq_iff_ne_nan_and_eq.1 h'
    refine Float.beq_iff_ne_nan_and_eq.2 ⟨hx, hz, ?_⟩
    -- At most two of the three can be zeros of different signs.
    obtain rfl | ⟨hx, hy⟩ | ⟨hx, hy⟩ := hxy
    · exact hyz
    · obtain rfl | ⟨-, hz⟩ | ⟨-, hz⟩ := hyz
      · exact .inr (.inl ⟨hx, hy⟩)
      · exact .inr (.inl ⟨hx, hz⟩)
      · exact .inl (hx.trans hz.symm)
    · obtain rfl | ⟨-, hz⟩ | ⟨-, hz⟩ := hyz
      · exact .inr (.inr ⟨hx, hy⟩)
      · exact .inl (hx.trans hz.symm)
      · exact .inr (.inr ⟨hx, hz⟩)

/-- A number that is not NaN equals itself. -/
theorem float_beq_self {x : Float} (h : x.isNaN = false) : x == x := by
  rw [Float.isNaN_eq_decide_eq_nan, decide_eq_false_iff_not] at h
  exact Float.beq_iff_ne_nan_and_eq.2 ⟨h, h, .inl rfl⟩

/-! ### Values -/

namespace Value

mutual

/-- Whether a value holds no NaN. -/
def isNaNFree : Value → Bool
  | number x => !x.isNaN
  | list items => itemsNaNFree items
  | map entries => entriesNaNFree entries
  | _ => true
termination_by structural v => v

/-- Whether the items of a list hold no NaN. -/
def itemsNaNFree : List Value → Bool
  | [] => true
  | item :: rest => isNaNFree item && itemsNaNFree rest
termination_by structural items => items

/-- Whether the values of a map hold no NaN. -/
def entriesNaNFree : List (String × Value) → Bool
  | [] => true
  | entry :: rest => isNaNFree entry.2 && entriesNaNFree rest
termination_by structural entries => entries

end

/-- The items of a list without NaN hold no NaN. -/
theorem isNaNFree_of_mem {items : List Value} (h : itemsNaNFree items) {v : Value}
    (hv : v ∈ items) : v.isNaNFree := by
  induction items with
  | nil => cases hv
  | cons item rest ih =>
    rw [itemsNaNFree, Bool.and_eq_true] at h
    rcases List.mem_cons.1 hv with rfl | hv
    · exact h.1
    · exact ih h.2 hv

mutual

/-- **A value without NaN equals itself**, by recursion along the value. -/
theorem beq_self : ∀ {v : Value}, v.isNaNFree → v.beq v
  | null, _ => rfl
  | bool a, _ => by rw [beq, BEq.rfl]
  | number x, h => by
    rw [beq]
    exact float_beq_self (by simpa [isNaNFree] using h)
  | text s, _ => by rw [beq, BEq.rfl]
  | list items, h => beqItems_self h
  | map entries, h => beqEntries_self h

/-- The same for the items of a list. -/
theorem beqItems_self : ∀ {items : List Value}, itemsNaNFree items → beqItems items items
  | [], _ => rfl
  | item :: rest, h => by
    rw [itemsNaNFree, Bool.and_eq_true] at h
    rw [beqItems, beq_self h.1, beqItems_self h.2]
    rfl

/-- The same for the entries of a map. -/
theorem beqEntries_self :
    ∀ {entries : List (String × Value)}, entriesNaNFree entries → beqEntries entries entries
  | [], _ => rfl
  | entry :: rest, h => by
    rw [entriesNaNFree, Bool.and_eq_true] at h
    rw [beqEntries, BEq.rfl, beq_self h.1, beqEntries_self h.2]
    rfl

end

mutual

/-- **Equality of values is symmetric.** -/
theorem beq_symm : ∀ {v w : Value}, v.beq w → w.beq v
  | null, null, _ => rfl
  | bool a, bool b, h => by
    rw [beq] at h ⊢
    exact BEq.symm h
  | number x, number y, h => by
    rw [beq] at h ⊢
    exact BEq.symm h
  | text s, text t, h => by
    rw [beq] at h ⊢
    exact BEq.symm h
  | list xs, list ys, h => beqItems_symm h
  | map xs, map ys, h => beqEntries_symm h

/-- The same for the items of lists. -/
theorem beqItems_symm : ∀ {xs ys : List Value}, beqItems xs ys → beqItems ys xs
  | [], [], _ => rfl
  | x :: xs, y :: ys, h => by
    rw [beqItems, Bool.and_eq_true] at h
    rw [beqItems, beq_symm h.1, beqItems_symm h.2]
    rfl

/-- The same for the entries of maps. -/
theorem beqEntries_symm : ∀ {xs ys : List (String × Value)}, beqEntries xs ys → beqEntries ys xs
  | [], [], _ => rfl
  | x :: xs, y :: ys, h => by
    rw [beqEntries, Bool.and_eq_true, Bool.and_eq_true] at h
    rw [beqEntries, BEq.symm h.1.1, beq_symm h.1.2, beqEntries_symm h.2]
    rfl

end

mutual

/-- **Equality of values is transitive.** -/
theorem beq_trans : ∀ {u v w : Value}, u.beq v → v.beq w → u.beq w
  | null, null, null, _, _ => rfl
  | bool a, bool b, bool c, h, h' => by
    rw [beq] at h h' ⊢
    exact BEq.trans h h'
  | number x, number y, number z, h, h' => by
    rw [beq] at h h' ⊢
    exact BEq.trans h h'
  | text r, text s, text t, h, h' => by
    rw [beq] at h h' ⊢
    exact BEq.trans h h'
  | list xs, list ys, list zs, h, h' => beqItems_trans h h'
  | map xs, map ys, map zs, h, h' => beqEntries_trans h h'
termination_by structural u => u

/-- The same for the items of lists. -/
theorem beqItems_trans : ∀ {xs ys zs : List Value},
    beqItems xs ys → beqItems ys zs → beqItems xs zs
  | [], [], [], _, _ => rfl
  | x :: xs, y :: ys, z :: zs, h, h' => by
    rw [beqItems, Bool.and_eq_true] at h h'
    rw [beqItems, beq_trans h.1 h'.1, beqItems_trans h.2 h'.2]
    rfl
termination_by structural xs => xs

/-- The same for the entries of maps. -/
theorem beqEntries_trans : ∀ {xs ys zs : List (String × Value)},
    beqEntries xs ys → beqEntries ys zs → beqEntries xs zs
  | [], [], [], _, _ => rfl
  | x :: xs, y :: ys, z :: zs, h, h' => by
    rw [beqEntries, Bool.and_eq_true, Bool.and_eq_true] at h h'
    rw [beqEntries, BEq.trans h.1.1 h'.1.1, beq_trans h.1.2 h'.1.2, beqEntries_trans h.2 h'.2]
    rfl
termination_by structural xs => xs

end

instance instPartialEquivBEqValue : PartialEquivBEq Value := ⟨beq_symm, beq_trans⟩

/-- What equals anything equals itself. -/
theorem beq_left {v w : Value} (h : v == w) : v == v := BEq.trans h (BEq.symm h)

/-- A list equals lists only. -/
theorem exists_list_of_beq {xs : List Value} {v : Value} (h : list xs == v) :
    ∃ ys, v = list ys ∧ beqItems xs ys := by
  cases v with
  | list ys => exact ⟨ys, rfl, h⟩
  | _ => cases h

/-- A map equals maps only. -/
theorem exists_map_of_beq {xs : List (String × Value)} {v : Value} (h : map xs == v) :
    ∃ ys, v = map ys ∧ beqEntries xs ys := by
  cases v with
  | map ys => exact ⟨ys, rfl, h⟩
  | _ => cases h

/-! ### Equal maps -/

/-- Maps are compared entry by entry. -/
theorem beqEntries_eq (xs ys : ValueMap) : beqEntries xs ys = (xs == ys) := by
  induction xs generalizing ys with
  | nil => cases ys <;> rfl
  | cons x xs ih =>
    cases ys with
    | nil => rfl
    | cons y ys =>
      rw [beqEntries, ih]
      rfl

/-- Equal maps hold equal values under every key. -/
theorem rel_get? {xs ys : ValueMap} (h : xs == ys) (key : String) :
    Option.Rel (fun v w ↦ v == w) (xs.get? key) (ys.get? key) := by
  rw [← beqEntries_eq] at h
  induction xs generalizing ys with
  | nil =>
    cases ys with
    | nil => exact .none
    | cons => cases h
  | cons x xs ih =>
    cases ys with
    | nil => cases h
    | cons y ys =>
      rw [beqEntries, Bool.and_eq_true, Bool.and_eq_true, beq_iff_eq] at h
      rw [KeyMap.get?_cons, KeyMap.get?_cons, h.1.1]
      split
      · exact .some h.1.2
      · exact ih h.2

/-! ### What the engine asks about commands -/

/-- The entries of equal values are equal. -/
theorem rel_entry {v w : Value} (h : v == w) (key : String) :
    Option.Rel (fun v w ↦ v == w) (v.get? key) (w.get? key) := by
  cases v with
  | map xs =>
    obtain ⟨ys, rfl, hys⟩ := exists_map_of_beq h
    rw [beqEntries_eq] at hys
    exact rel_get? hys key
  | _ => cases w <;> first | exact .none | cases h

/-- Equal values are the same text, or no texts. -/
theorem asText?_congr {v w : Value} (h : v == w) : v.asText? = w.asText? := by
  cases v <;> cases w <;> first | rfl | cases h | skip
  next s t =>
    obtain rfl : s = t := eq_of_beq h
    rfl

theorem bind_asText?_congr {a b : Option Value} (h : Option.Rel (fun v w ↦ v == w) a b) :
    a.bind asText? = b.bind asText? := by
  cases h with
  | some hvw => exact asText?_congr hvw
  | none => rfl

/-- Equal values have one discriminant. -/
theorem discriminant_congr {v w : Value} (h : v == w) : discriminant v = discriminant w := by
  have haction := rel_entry h "action"
  have htype := rel_entry h "type"
  have hfirst : Option.Rel (fun v w ↦ v == w) ((v.get? "action").or (v.get? "type"))
      ((w.get? "action").or (w.get? "type")) := by
    generalize v.get? "action" = a, w.get? "action" = b at haction
    cases haction with
    | some hab => exact .some hab
    | none => exact htype
  rw [discriminant, discriminant, bind_asText?_congr hfirst]

/-- The commands of a list are those of its items. -/
theorem commandsIn_list (items : List Value) :
    commandsIn (.list items) = items.flatMap commandsIn := by
  show commandsInItems items = _
  induction items with
  | nil => rfl
  | cons item rest ih => rw [commandsInItems, ih, List.flatMap_cons]

/-- A map is a command if it has a text under `action`. -/
theorem isEmpty_commandsIn_map (fields : ValueMap) : (commandsIn (map fields)).isEmpty =
    ((get? (map fields) "action").bind asText?).isNone := by
  have haction : get? (map fields) "action" = KeyMap.get? fields "action" := rfl
  rw [commandsIn, Command.ofValue?, haction]
  cases KeyMap.get? fields "action" with
  | none => rfl
  | some v => cases v <;> rfl

mutual

/-- Equal values carry commands, or neither of them does. -/
theorem isEmpty_commandsIn_congr : ∀ {v w : Value}, v.beq w →
    (commandsIn v).isEmpty = (commandsIn w).isEmpty
  | null, null, _ => rfl
  | bool _, bool _, _ => rfl
  | number _, number _, _ => rfl
  | text _, text _, _ => rfl
  | list xs, list ys, h => isEmpty_commandsInItems_congr h
  | map xs, map ys, h => by
    rw [isEmpty_commandsIn_map, isEmpty_commandsIn_map, bind_asText?_congr (rel_entry h "action")]
termination_by structural v => v

/-- The same for the items of lists. -/
theorem isEmpty_commandsInItems_congr : ∀ {xs ys : List Value}, beqItems xs ys →
    (commandsInItems xs).isEmpty = (commandsInItems ys).isEmpty
  | [], [], _ => rfl
  | x :: xs, y :: ys, h => by
    rw [beqItems, Bool.and_eq_true] at h
    have hfirst := isEmpty_commandsIn_congr h.1
    have hrest := isEmpty_commandsInItems_congr h.2
    rw [commandsInItems, commandsInItems, Bool.eq_iff_iff]
    rw [Bool.eq_iff_iff] at hfirst hrest
    simp only [List.isEmpty_iff, List.append_eq_nil_iff] at hfirst hrest ⊢
    rw [hfirst, hrest]
termination_by structural xs => xs

end

/-- Of two equal values, both carry commands or neither does. -/
theorem carriesCommands_congr {v w : Value} (h : v == w) :
    carriesCommands v = carriesCommands w := by
  rw [carriesCommands, isEmpty_commandsIn_congr h, carriesCommands]

end Value

end CueFlow
