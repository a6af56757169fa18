import CueFlow.Document.Value
import CueFlow.Proofs.Json.Decode
import CueFlow.Proofs.Json.Indented
import CueFlow.Proofs.KeyMap
/-!
# Values read back

What is written of a value is decoded as its finite part (`Value.decode_toJson`): the same value,
with null in place of every number that is not finite (`Value.finitePart`). All that this takes of a
value is that its maps are in order (`Value.Ordered`).

Not every finite number reads back from its numeral, because the digits are scaled in floating
point. So the numbers of a value are listed (`Value.numbers`), and of each finite one it is asked
that its numeral is faithful (`Numeral.IsFaithful`).
-/

namespace CueFlow

/-! ### Numbers -/

/-- A number that is neither infinite nor NaN is finite. -/
theorem isNaN_or_isInf (x : Float) : (x.isNaN || x.isInf) = !x.isFinite := by
  simp only [Float.isNaN, Float.isInf, Float.isFinite, Float.Model.isNaN, Float.Model.isInf,
    Float.Model.isFinite]
  cases x.toModel.unpack <;> rfl

/-- A number is written as a numeral if it is finite, and as null otherwise. -/
theorem Json.float_eq (x : Float) :
    Json.float x = if x.isFinite then .number (Numeral.ofFloat x) else .null := by
  rw [Json.float, isNaN_or_isInf]
  cases x.isFinite <;> rfl

/-- The numeral that is written of a number reads back as that number. -/
def Numeral.IsFaithful (x : Float) : Prop := (Numeral.ofFloat x).toFloat? = some x

instance (x : Float) : Decidable (Numeral.IsFaithful x) :=
  inferInstanceAs (Decidable ((Numeral.ofFloat x).toFloat? = some x))

/-- Not every finite number is: this one is read as its neighbour. -/
theorem exists_not_isFaithful : ∃ x : Float, x.isFinite = true ∧ ¬Numeral.IsFaithful x :=
  ⟨10.889999999999999, by decide +kernel, by decide +kernel⟩

namespace Value

mutual

/-- All maps in a value are in order, at any depth. -/
def Ordered : Value → Prop
  | list items => OrderedItems items
  | map entries => KeyMap.Sorted entries ∧ OrderedEntries entries
  | _ => True
termination_by structural v => v

/-- All maps in the items of a list are in order. -/
def OrderedItems : List Value → Prop
  | [] => True
  | item :: rest => Ordered item ∧ OrderedItems rest
termination_by structural items => items

/-- All maps in the values of a map are in order. -/
def OrderedEntries : List (String × Value) → Prop
  | [] => True
  | entry :: rest => Ordered entry.2 ∧ OrderedEntries rest
termination_by structural entries => entries

end

mutual

/-- The numbers in a value. -/
def numbers : Value → List Float
  | number x => [x]
  | list items => numbersOfItems items
  | map entries => numbersOfEntries entries
  | _ => []
termination_by structural v => v

/-- The numbers in the items of a list. -/
def numbersOfItems : List Value → List Float
  | [] => []
  | item :: rest => numbers item ++ numbersOfItems rest
termination_by structural items => items

/-- The numbers in the values of a map. -/
def numbersOfEntries : List (String × Value) → List Float
  | [] => []
  | entry :: rest => numbers entry.2 ++ numbersOfEntries rest
termination_by structural entries => entries

end

mutual

/-- A value with null in place of every number that is not finite. -/
def finitePart : Value → Value
  | null => null
  | bool flag => bool flag
  | number x => if x.isFinite then number x else null
  | text s => text s
  | list items => list (finiteItems items)
  | map entries => map (finiteEntries entries)
termination_by structural v => v

/-- The finite parts of the items of a list. -/
def finiteItems : List Value → List Value
  | [] => []
  | item :: rest => finitePart item :: finiteItems rest
termination_by structural items => items

/-- The finite parts of the values of a map. -/
def finiteEntries : List (String × Value) → List (String × Value)
  | [] => []
  | entry :: rest => (entry.1, finitePart entry.2) :: finiteEntries rest
termination_by structural entries => entries

end

/-! ### The finite part -/

theorem finiteEntries_eq_map (entries : List (String × Value)) :
    finiteEntries entries = entries.map fun entry ↦ (entry.1, entry.2.finitePart) := by
  induction entries with
  | nil => rfl
  | cons entry rest ih => exact congrArg (_ :: ·) ih

mutual

/-- A value of finite numbers is its own finite part. -/
theorem finitePart_eq_self : ∀ (v : Value), (∀ x ∈ v.numbers, x.isFinite = true) →
    v.finitePart = v
  | null, _ => rfl
  | bool _, _ => rfl
  | number x, h => if_pos (h x List.mem_cons_self)
  | text _, _ => rfl
  | list items, h => congrArg list (finiteItems_eq_self items h)
  | map entries, h => congrArg map (finiteEntries_eq_self entries h)

/-- The same for the items of a list. -/
theorem finiteItems_eq_self : ∀ (items : List Value),
    (∀ x ∈ numbersOfItems items, x.isFinite = true) → finiteItems items = items
  | [], _ => rfl
  | item :: rest, h =>
    congrArg₂ List.cons (finitePart_eq_self item fun x hx ↦ h x (List.mem_append_left _ hx))
      (finiteItems_eq_self rest fun x hx ↦ h x (List.mem_append_right _ hx))

/-- The same for the entries of a map. -/
theorem finiteEntries_eq_self : ∀ (entries : List (String × Value)),
    (∀ x ∈ numbersOfEntries entries, x.isFinite = true) → finiteEntries entries = entries
  | [], _ => rfl
  | entry :: rest, h =>
    congrArg₂ List.cons
      (congrArg (entry.1, ·)
        (finitePart_eq_self entry.2 fun x hx ↦ h x (List.mem_append_left _ hx)))
      (finiteEntries_eq_self rest fun x hx ↦ h x (List.mem_append_right _ hx))

end

/-! ### What is written is well formed -/

/-- The document of a number is well formed, be the number finite or not. -/
theorem wellFormed_float (x : Float) : (Json.float x).WellFormed := by
  rw [Json.float_eq]
  split
  next => exact Numeral.wellFormed_ofFloat x
  next => trivial

mutual

/-- **The document of a value is well formed**, by recursion along the value. -/
theorem wellFormed_toJson : ∀ (v : Value), v.toJson.WellFormed
  | null => trivial
  | bool _ => trivial
  | number x => wellFormed_float x
  | text _ => rfl
  | list items => wellFormed_itemsToJson items
  | map entries => wellFormed_entriesToJson entries

/-- The same for the items of a list. -/
theorem wellFormed_itemsToJson : ∀ (items : List Value), Json.WellFormedItems (itemsToJson items)
  | [] => trivial
  | item :: rest => ⟨wellFormed_toJson item, wellFormed_itemsToJson rest⟩

/-- The same for the entries of a map. -/
theorem wellFormed_entriesToJson : ∀ (entries : List (String × Value)),
    Json.WellFormedMembers (entriesToJson entries)
  | [] => trivial
  | entry :: rest => ⟨rfl, wellFormed_toJson entry.2, wellFormed_entriesToJson rest⟩

end

/-! ### What is written is decoded -/

/-- Every finite number in a list reads back from its numeral. -/
def AllFaithful (xs : List Float) : Prop :=
  ∀ x ∈ xs, x.isFinite = true → Numeral.IsFaithful x

theorem AllFaithful.left {xs ys : List Float} (h : AllFaithful (xs ++ ys)) : AllFaithful xs :=
  fun x hx ↦ h x (List.mem_append_left ys hx)

theorem AllFaithful.right {xs ys : List Float} (h : AllFaithful (xs ++ ys)) : AllFaithful ys :=
  fun x hx ↦ h x (List.mem_append_right xs hx)

/-- A number is decoded to itself, and to null if it is not finite. -/
theorem decode_float {x : Float} (h : x.isFinite = true → Numeral.IsFaithful x) (depth : Nat) :
    decode depth (Json.float x) = some (number x).finitePart := by
  rw [Json.float_eq, finitePart]
  split
  next hx => exact congrArg (Option.map number) (h hx)
  next => rfl

/-- A map in order is made of its finite entries. -/
theorem ofEntries_finiteEntries {entries : List (String × Value)} (h : KeyMap.Sorted entries) :
    KeyMap.ofEntries (finiteEntries entries) = finiteEntries entries := by
  rw [finiteEntries_eq_map]
  exact (h.map_snd fun entry ↦ entry.2.finitePart).ofEntries_eq

mutual

/-- **What is written of a value** is decoded as its finite part, given enough levels. -/
theorem decode_toJson : ∀ (v : Value) {depth : Nat}, v.Ordered → AllFaithful v.numbers →
    v.toJson.depth ≤ depth → decode depth v.toJson = some v.finitePart
  | null, _, _, _, _ => rfl
  | bool _, _, _, _, _ => rfl
  | number x, depth, _, hnumbers, _ => decode_float (hnumbers x List.mem_cons_self) depth
  | text _, _, _, _, _ => rfl
  | list items, depth, hordered, hnumbers, hdepth => by
    obtain ⟨depth, rfl⟩ : ∃ k, depth = k + 1 :=
      Nat.exists_eq_add_of_le' (Nat.le_of_add_left_le hdepth)
    exact congrArg (Option.map list)
      (decodeItems_itemsToJson items hordered hnumbers (Nat.le_of_succ_le_succ hdepth))
  | map entries, depth, hordered, hnumbers, hdepth => by
    obtain ⟨depth, rfl⟩ : ∃ k, depth = k + 1 :=
      Nat.exists_eq_add_of_le' (Nat.le_of_add_left_le hdepth)
    -- A map is put together anew from its entries, which is where their order matters.
    have hentries :=
      decodeMembers_entriesToJson entries hordered.2 hnumbers (Nat.le_of_succ_le_succ hdepth)
    show (decodeMembers depth (entriesToJson entries)).map _ = _
    rw [hentries, Option.map_some, ofEntries_finiteEntries hordered.1]
    rfl

/-- The same for the items of a list. -/
theorem decodeItems_itemsToJson : ∀ (items : List Value) {depth : Nat}, OrderedItems items →
    AllFaithful (numbersOfItems items) → Json.depthOfItems (itemsToJson items) ≤ depth →
    decodeItems depth (itemsToJson items) = some (finiteItems items)
  | [], _, _, _, _ => rfl
  | item :: rest, depth, hordered, hnumbers, hdepth => by
    obtain ⟨hitem, hrest⟩ := Nat.max_le.1 hdepth
    rw [itemsToJson, decodeItems, decode_toJson item hordered.1 hnumbers.left hitem,
      decodeItems_itemsToJson rest hordered.2 hnumbers.right hrest]
    rfl

/-- The same for the entries of a map. They stay in order, since their keys do. -/
theorem decodeMembers_entriesToJson : ∀ (entries : List (String × Value)) {depth : Nat},
    OrderedEntries entries → AllFaithful (numbersOfEntries entries) →
    Json.depthOfMembers (entriesToJson entries) ≤ depth →
    decodeMembers depth (entriesToJson entries) = some (finiteEntries entries)
  | [], _, _, _, _ => rfl
  | entry :: rest, depth, hordered, hnumbers, hdepth => by
    obtain ⟨hentry, hrest⟩ := Nat.max_le.1 hdepth
    rw [entriesToJson, decodeMembers, decode_toJson entry.2 hordered.1 hnumbers.left hentry,
      decodeMembers_entriesToJson rest hordered.2 hnumbers.right hrest]
    rfl

end

end Value

end CueFlow
