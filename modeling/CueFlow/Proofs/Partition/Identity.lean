import CueFlow.Partition.Identity
import Mathlib.Data.List.Nodup
import Mathlib.Data.String.Basic
/-!
# Sorted texts and short hashes

Sorting texts keeps them (`mem_sortTexts`), and distinct texts come to stand in strictly increasing
order (`pairwise_lt_sortTexts`, `pairwise_lt_distinctTexts`), so that they are determined by which
texts they are. A short hash always has twelve digits (`length_shortHash`): of an id that ends in
one, what stands before it can be read off (`append_shortHash_inj`).
-/

namespace CueFlow

/-- Sorting texts neither adds nor drops any. -/
theorem sortTexts_perm (texts : List String) : (sortTexts texts).Perm texts :=
  List.mergeSort_perm texts _

theorem mem_sortTexts {texts : List String} {t : String} : t ∈ sortTexts texts ↔ t ∈ texts :=
  (sortTexts_perm texts).mem_iff

/-- Sorting by a text puts entries in the order of that text. -/
theorem pairwise_le_mergeSort {α : Type} (key : α → String) (entries : List α) :
    (entries.mergeSort fun a b ↦ decide (key a ≤ key b)).Pairwise fun a b ↦ key a ≤ key b := by
  have hsorted : (entries.mergeSort fun a b ↦ decide (key a ≤ key b)).Pairwise fun a b ↦
      decide (key a ≤ key b) = true :=
    List.pairwise_mergeSort
      (fun a b c hab hbc ↦ decide_eq_true ((of_decide_eq_true hab).trans (of_decide_eq_true hbc)))
      (fun a b ↦ by simpa using le_total (key a) (key b)) entries
  exact hsorted.imp of_decide_eq_true

/-- Sorted texts are in order. -/
theorem pairwise_le_sortTexts (texts : List String) : (sortTexts texts).Pairwise (· ≤ ·) :=
  pairwise_le_mergeSort id texts

/-- Texts in order are what they sort to, whatever order they come in. -/
theorem sortTexts_of_perm {texts sorted : List String} (h : texts.Perm sorted)
    (hsorted : sorted.Pairwise (· ≤ ·)) : sortTexts texts = sorted :=
  ((sortTexts_perm texts).trans h).eq_of_pairwise
    (fun _ _ _ _ hab hba ↦ le_antisymm hab hba) (pairwise_le_sortTexts texts) hsorted

/-- Sorting does not depend on the order before. -/
theorem sortTexts_congr {texts texts' : List String} (h : texts'.Perm texts) :
    sortTexts texts' = sortTexts texts :=
  sortTexts_of_perm (h.trans (sortTexts_perm texts).symm) (pairwise_le_sortTexts texts)

/-- Texts that do not repeat are sorted strictly. -/
theorem pairwise_lt_sortTexts {texts : List String} (h : texts.Nodup) :
    (sortTexts texts).Pairwise (· < ·) := by
  have hnodup : (sortTexts texts).Nodup := (sortTexts_perm texts).nodup_iff.2 h
  exact (pairwise_le_sortTexts texts).imp₂ (fun _ _ hle hne ↦ lt_of_le_of_ne hle hne) hnodup

theorem nodup_eraseDups (texts : List String) : texts.eraseDups.Nodup := by
  induction hlength : texts.length using Nat.strong_induction_on generalizing texts with
  | _ n ih =>
    cases texts with
    | nil => simp
    | cons t rest =>
      rw [List.eraseDups_cons, List.nodup_cons]
      have hshorter := List.length_filter_le (fun u ↦ !u == t) rest
      rw [List.length_cons] at hlength
      exact ⟨by simp [List.mem_eraseDups], ih _ (by omega) _ rfl⟩

/-- To drop repeated texts drops no text altogether. -/
theorem mem_distinctTexts {texts : List String} {t : String} :
    t ∈ distinctTexts texts ↔ t ∈ texts := by
  rw [distinctTexts, mem_sortTexts, List.mem_eraseDups]

/-- Distinct texts are in strict order. -/
theorem pairwise_lt_distinctTexts (texts : List String) :
    (distinctTexts texts).Pairwise (· < ·) :=
  pairwise_lt_sortTexts (nodup_eraseDups texts)

/-- The same texts without repeats differ in order only. -/
theorem eraseDups_perm {texts texts' : List String} (h : ∀ t, t ∈ texts' ↔ t ∈ texts) :
    texts'.eraseDups.Perm texts.eraseDups := by
  rw [List.perm_ext_iff_of_nodup (nodup_eraseDups _) (nodup_eraseDups _)]
  intro t
  rw [List.mem_eraseDups, List.mem_eraseDups, h]

/-- Distinct texts are decided by which texts there are, and not by how often or in which order. -/
theorem distinctTexts_congr {texts texts' : List String} (h : ∀ t, t ∈ texts' ↔ t ∈ texts) :
    distinctTexts texts' = distinctTexts texts :=
  sortTexts_congr (eraseDups_perm h)

/-! ### Short hashes -/

/-- A digest of 256 bits has 64 hexadecimal digits. -/
theorem length_hexDigest (message : List UInt8) : (Sha256.hexDigest message).length = 64 := rfl

/-- A short hash always has twelve digits. -/
theorem length_shortHash (parts : List String) : (shortHash parts).toList.length = 12 := by
  rw [shortHash, String.toList_ofList, List.length_take, length_hexDigest]
  rfl

/-- What stands before a short hash. -/
theorem append_shortHash_inj {s t : String} {parts parts' : List String}
    (h : s ++ shortHash parts = t ++ shortHash parts') : s = t := by
  have hlist := congrArg String.toList h
  rw [String.toList_append, String.toList_append] at hlist
  have hlength := (length_shortHash parts).trans (length_shortHash parts').symm
  exact String.toList_inj.1 (List.append_inj_left' hlist hlength)

end CueFlow
