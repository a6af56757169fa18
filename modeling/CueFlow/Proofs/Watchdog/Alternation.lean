import CueFlow.Watchdog
import Mathlib.Data.List.DropRight
/-!
# Strict alternation

A list alternates strictly if neighbours differ and entries two apart are equal (`Alternates`). The
scan that the watchdog makes of a history, latest entry first, finds the longest alternation at its
end: the result is at least `k` exactly if there are `k` latest entries and they alternate
(`le_alternation_iff`).
-/

namespace CueFlow

section

variable {σ : Type}

/-- Neighbours differ, and entries two apart are equal. -/
structure Alternates (xs : List σ) : Prop where
  ne : ∀ i x y, xs[i]? = some x → xs[i + 1]? = some y → x ≠ y
  eq : ∀ i x y, xs[i]? = some x → xs[i + 2]? = some y → x = y

theorem alternates_nil : Alternates ([] : List σ) :=
  ⟨fun _ _ _ h ↦ by simp at h, fun _ _ _ h ↦ by simp at h⟩

theorem alternates_singleton (x : σ) : Alternates [x] :=
  ⟨fun _ _ _ _ h ↦ by simp at h, fun _ _ _ _ h ↦ by simp at h⟩

/-- Two entries alternate if they differ. -/
theorem alternates_pair {x y : σ} : Alternates [x, y] ↔ x ≠ y := by
  constructor
  · intro h
    exact h.ne 0 x y rfl rfl
  · intro h
    refine ⟨fun i a b ha hb ↦ ?_, fun i a b _ hb ↦ by simp at hb⟩
    cases i with
    | zero =>
      obtain rfl := Option.some.inj ha
      obtain rfl := Option.some.inj hb
      exact h
    | succ i => simp at hb

/-- One more entry in front alternates on if it differs from the next one and equals the one after.
-/
theorem alternates_cons_cons_cons {x y z : σ} {xs : List σ} :
    Alternates (x :: y :: z :: xs) ↔ x ≠ y ∧ x = z ∧ Alternates (y :: z :: xs) := by
  constructor
  · intro h
    exact ⟨h.ne 0 x y rfl rfl, h.eq 0 x z rfl rfl,
      fun i a b ha hb ↦ h.ne (i + 1) a b ha hb, fun i a b ha hb ↦ h.eq (i + 1) a b ha hb⟩
  · rintro ⟨hne, heq, h⟩
    refine ⟨fun i a b ha hb ↦ ?_, fun i a b ha hb ↦ ?_⟩
    · cases i with
      | zero =>
        obtain rfl := Option.some.inj ha
        obtain rfl := Option.some.inj hb
        exact hne
      | succ i => exact h.ne i a b ha hb
    · cases i with
      | zero =>
        obtain rfl := Option.some.inj ha
        obtain rfl := Option.some.inj hb
        exact heq
      | succ i => exact h.eq i a b ha hb

/-- Whether a list alternates does not hang on the direction in which it is read. -/
theorem Alternates.reverse {xs : List σ} (h : Alternates xs) : Alternates xs.reverse := by
  refine ⟨fun i x y hx hy ↦ ?_, fun i x y hx hy ↦ ?_⟩
  · have hlt : i + 1 < xs.length := by simpa using (List.getElem?_eq_some_iff.1 hy).1
    rw [List.getElem?_reverse (by omega)] at hx
    rw [List.getElem?_reverse hlt] at hy
    refine (h.ne _ y x hy ?_).symm
    rw [← hx]
    congr 1
    omega
  · have hlt : i + 2 < xs.length := by simpa using (List.getElem?_eq_some_iff.1 hy).1
    rw [List.getElem?_reverse (by omega)] at hx
    rw [List.getElem?_reverse hlt] at hy
    refine (h.eq _ y x hy ?_).symm
    rw [← hx]
    congr 1
    omega

theorem alternates_reverse {xs : List σ} : Alternates xs.reverse ↔ Alternates xs :=
  ⟨fun h ↦ by simpa using h.reverse, Alternates.reverse⟩

end

section

variable {σ : Type} [DecidableEq σ]

/-- Behind two different entries, the alternation goes on as long as the entries there take turns
with them. -/
theorem le_alternationBefore_iff {x y : σ} (hne : x ≠ y) (earlier : List σ) (k : Nat) :
    k ≤ alternationBefore x y earlier ↔
      k ≤ earlier.length ∧ Alternates (x :: y :: earlier.take k) := by
  induction earlier generalizing x y k with
  | nil => simp [alternationBefore, alternates_pair, hne]
  | cons z earlier ih =>
    cases k with
    | zero => simp [alternates_pair, hne]
    | succ k =>
      rw [alternationBefore, List.take_succ_cons, alternates_cons_cons_cons, List.length_cons]
      split
      next hz =>
        obtain ⟨rfl, hzy⟩ := hz
        rw [Nat.add_le_add_iff_right, Nat.add_le_add_iff_right, ih hzy.symm]
        simp [hzy]
      next hz =>
        refine ⟨fun h ↦ by omega, ?_⟩
        rintro ⟨-, -, rfl, -⟩
        exact absurd ⟨rfl, hne⟩ hz

/-- **The scan finds the longest alternation** among the latest entries. -/
theorem le_alternation_iff (latestFirst : List σ) (k : Nat) :
    k ≤ alternation latestFirst ↔
      k ≤ latestFirst.length ∧ Alternates (latestFirst.take k) := by
  match latestFirst, k with
  | xs, 0 => simp [alternates_nil]
  | [], k + 1 => simp [alternation]
  | [x], 1 => simp [alternation, alternates_singleton]
  | [x], k + 2 => simp [alternation]
  | x :: y :: earlier, 1 =>
    have hone : 1 ≤ alternation (x :: y :: earlier) := by
      rw [alternation]
      split <;> omega
    simp [hone, alternates_singleton]
  | x :: y :: earlier, k + 2 =>
    rw [alternation, List.take_succ_cons, List.take_succ_cons, List.length_cons, List.length_cons]
    split
    next heq =>
      refine ⟨fun h ↦ by omega, fun h ↦ ?_⟩
      exact absurd heq (h.2.ne 0 x y rfl rfl)
    next hne =>
      rw [Nat.add_comm 2, Nat.add_le_add_iff_right, le_alternationBefore_iff hne]
      simp

/-- Entries may as well be kept oldest first, since the direction makes no difference to an
alternation. -/
theorem le_alternation_reverse_iff (oldestFirst : List σ) (k : Nat) :
    k ≤ alternation oldestFirst.reverse ↔
      k ≤ oldestFirst.length ∧ Alternates (oldestFirst.rtake k) := by
  rw [le_alternation_iff, List.length_reverse, List.take_reverse, alternates_reverse, List.rtake]

/-- Only without any entries is there no alternation at all. -/
theorem alternation_eq_zero_iff {latestFirst : List σ} :
    alternation latestFirst = 0 ↔ latestFirst = [] := by
  match latestFirst with
  | [] => simp [alternation]
  | [x] => simp [alternation]
  | x :: y :: earlier =>
    rw [alternation]
    split <;> simp

/-- What does not alternate at all is a single entry, or one that repeats the one before it. -/
theorem alternation_eq_one_iff {latestFirst : List σ} :
    alternation latestFirst = 1 ↔
      ∃ x, latestFirst = [x] ∨ ∃ earlier, latestFirst = x :: x :: earlier := by
  match latestFirst with
  | [] => simp [alternation]
  | [x] => simp [alternation]
  | x :: y :: earlier =>
    rw [alternation]
    split
    next heq => simp [heq]
    next hne =>
      have hmore : 2 + alternationBefore x y earlier ≠ 1 := by omega
      simp [hmore, Ne.symm hne]

end

end CueFlow
