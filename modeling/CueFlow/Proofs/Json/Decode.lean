import CueFlow.Json.Decode
import Mathlib.Data.List.Nodup
/-!
# Levels, lists and records

A decoder needs as many levels as the containers of a document nest (`Json.depth`). What is written
as an array is decoded item by item (`asList_array`), and what is written as a record with all of
its fields is decoded by looking the fields up (`asRecord_record`).
-/

namespace CueFlow.Json

/-! ### Levels -/

mutual

/-- How many levels of containers a document nests. -/
def depth : Json → Nat
  | array items => depthOfItems items + 1
  | object members => depthOfMembers members + 1
  | _ => 0
termination_by structural j => j

/-- The most levels that an item of an array nests. -/
def depthOfItems : List Json → Nat
  | [] => 0
  | item :: rest => max (depth item) (depthOfItems rest)
termination_by structural items => items

/-- The most levels that a member of an object nests. -/
def depthOfMembers : List (Option String × Json) → Nat
  | [] => 0
  | m :: rest => max (depth m.2) (depthOfMembers rest)
termination_by structural members => members

end

/-- A list is one level deeper than the deepest of its items. -/
theorem depth_array_le_iff {items : List Json} {limit : Nat} :
    (array items).depth ≤ limit + 1 ↔ ∀ j ∈ items, j.depth ≤ limit := by
  rw [depth, Nat.succ_le_succ_iff]
  induction items with
  | nil => simp [depthOfItems]
  | cons item rest ih => rw [depthOfItems, Nat.max_le, ih, List.forall_mem_cons]

/-- A record is one level deeper than the deepest of its members. -/
theorem depth_record_le_iff {members : List (String × Json)} {limit : Nat} :
    (record members).depth ≤ limit + 1 ↔ ∀ m ∈ members, m.2.depth ≤ limit := by
  rw [record, depth, Nat.succ_le_succ_iff]
  induction members with
  | nil => simp [depthOfMembers]
  | cons m rest ih => rw [List.map_cons, depthOfMembers, Nat.max_le, ih, List.forall_mem_cons]

/-! ### Lists -/

/-- A list is decoded if its items are. -/
theorem asList_array {α β : Type} {item : Decoder β} {depth : Nat} {write : α → Json} {f : α → β}
    {as : List α} (h : ∀ a ∈ as, item depth (write a) = some (f a)) :
    asList item (depth + 1) (array (as.map write)) = some (as.map f) := by
  show (as.map write).mapM (item depth) = _
  induction as with
  | nil => rfl
  | cons a as ih =>
    rw [List.map_cons, List.mapM_cons, h a List.mem_cons_self,
      ih fun a' ha' ↦ h a' (List.mem_cons_of_mem a ha')]
    rfl

/-! ### Records -/

/-- A member of a record is found under its name. -/
theorem lookup_map_some (members : List (String × Json)) (name : String) :
    (members.map fun m ↦ (some m.1, m.2)).lookup (some name) = members.lookup name := by
  induction members with
  | nil => rfl
  | cons m rest ih =>
    rw [List.map_cons, List.lookup_cons, List.lookup_cons, ih]
    rfl

/-- **A record with all of its fields**, each once, is decoded by looking them up. -/
theorem asRecord_record {names : List String} {members : List (String × Json)}
    (hnodup : names.Nodup) (hnames : members.map Prod.fst = names) (depth : Nat) :
    asRecord names (depth + 1) (record members) = some ⟨depth, fun name ↦ members.lookup name⟩ := by
  have hfits : fitsRecord names (members.map fun m ↦ (some m.1, m.2)) = true := by
    have hcount : ∀ name ∈ names, members.countP (fun m ↦ some m.1 == some name) ≤ 1 := by
      intro name _
      have hname := List.nodup_iff_count_le_one.1 (hnames ▸ hnodup) name
      rwa [List.count, List.countP_map] at hname
    simpa [fitsRecord, List.countP_map, Function.comp_def] using hcount
  have hlookup : (fun name ↦ if names.contains name then
      (members.map fun m ↦ (some m.1, m.2)).lookup (some name) else none) =
      fun name ↦ members.lookup name := by
    funext name
    rw [lookup_map_some]
    split
    next => rfl
    next hmem =>
      refine (List.lookup_eq_none_iff.2 fun m hm ↦ bne_iff_ne.2 ?_).symm
      rintro rfl
      exact hmem (by simpa [← hnames] using ⟨m.2, hm⟩)
  show (if fitsRecord names (members.map fun m ↦ (some m.1, m.2)) = true then _ else none) = _
  rw [if_pos hfits, hlookup]

end CueFlow.Json
