import CueFlow.Partition.Patch
import Mathlib.Data.List.Nodup
import Mathlib.Data.List.Perm.Subperm
/-!
# The walk meets what it can reach

The walk of a patch keeps three records: whom it has met, whom it has yet to visit, and what it has
followed. The invariant (`PatchWalk.Walked`) is that the places met are those visited and then those
to be visited, each once, and that the connections followed are those out of the places visited.
Meeting a list of places appends the new ones among them to both lists (`foldl_meet`), so visiting
the next place keeps the invariant (`Walked.visit`). As no place is visited twice, the number of
places is fuel enough, and the walk ends with the places that can be reached and with all
connections into them that it follows (`members_run`, `connections_run`).
-/

namespace CueFlow

namespace PatchWalk

/-- The starts, and the sources of all that is followed out of what is reached. -/
inductive Reached (incoming : Nat → List (Connection × Nat)) (starts : List Nat) : Nat → Prop
  | start {i : Nat} : i ∈ starts → Reached incoming starts i
  | source {i : Nat} {edge : Connection × Nat} :
      Reached incoming starts i → edge ∈ incoming i → Reached incoming starts edge.2

/-- The state of the walk after the places of `visited` have been visited. -/
structure Walked (incoming : Nat → List (Connection × Nat)) (starts visited : List Nat)
    (w : PatchWalk) : Prop where
  members : w.members = visited ++ w.queue
  nodup : w.members.Nodup
  mem_of_mem_starts : ∀ i ∈ starts, i ∈ w.members
  reached : ∀ i ∈ w.members, Reached incoming starts i
  /-- What is followed out of a place visited has been met. -/
  sources : ∀ i ∈ visited, ∀ edge ∈ incoming i, edge.2 ∈ w.members
  connections : w.connections = visited.flatMap fun i ↦ (incoming i).map Prod.fst

variable {incoming : Nat → List (Connection × Nat)} {starts visited : List Nat} {w : PatchWalk}

/-! ### Meeting -/

/-- Meeting places appends the new ones among them, once each. -/
theorem foldl_meet (places : List Nat) (w : PatchWalk) :
    ∃ new, places.foldl meet w =
        { w with members := w.members ++ new, queue := w.queue ++ new } ∧
      new.Nodup ∧ ∀ i, i ∈ new ↔ i ∈ places ∧ i ∉ w.members := by
  induction places generalizing w with
  | nil => exact ⟨[], by simp, List.nodup_nil, by simp⟩
  | cons x rest ih =>
    obtain ⟨new, heq, hnodup, hmem⟩ := ih (w.meet x)
    rw [List.foldl_cons, heq]
    by_cases hx : x ∈ w.members
    · have hmeet : w.meet x = w := by rw [meet, if_pos (by simpa using hx)]
      rw [hmeet] at hmem ⊢
      refine ⟨new, rfl, hnodup, fun i ↦ (hmem i).trans ?_⟩
      rw [List.mem_cons]
      constructor
      · exact fun ⟨hi, hold⟩ ↦ ⟨.inr hi, hold⟩
      · rintro ⟨rfl | hi, hold⟩
        · exact absurd hx hold
        · exact ⟨hi, hold⟩
    · have hmeet : w.meet x = { w with members := w.members ++ [x], queue := w.queue ++ [x] } := by
        rw [meet, if_neg (by simpa using hx)]
      rw [hmeet] at hmem ⊢
      refine ⟨x :: new, by simp, List.nodup_cons.2 ⟨fun hnew ↦ ?_, hnodup⟩, fun i ↦ ?_⟩
      · exact ((hmem x).1 hnew).2 (by simp)
      · rw [List.mem_cons, hmem, List.mem_cons, List.mem_append, List.mem_singleton]
        by_cases hi : i = x
        · simp [hi, hx]
        · simp [hi]

/-- Meeting a place leaves the connections alone. -/
theorem meet_connections (w : PatchWalk) (cs : List Connection) (i : Nat) :
    ({ w with connections := cs } : PatchWalk).meet i = { w.meet i with connections := cs } := by
  simp only [meet]
  split <;> rfl

/-- To follow connections is to take them down and to meet their sources. -/
theorem foldl_follow (edges : List (Connection × Nat)) (w : PatchWalk) :
    edges.foldl follow w = { (edges.map Prod.snd).foldl meet w with
      connections := w.connections ++ edges.map Prod.fst } := by
  have hfold : ∀ (places : List Nat) (w : PatchWalk) (cs : List Connection),
      places.foldl meet { w with connections := cs } =
        { places.foldl meet w with connections := cs } := by
    intro places
    induction places with
    | nil => exact fun _ _ ↦ rfl
    | cons x rest ih =>
      intro w cs
      rw [List.foldl_cons, meet_connections, ih, List.foldl_cons]
  induction edges generalizing w with
  | nil => simp
  | cons edge rest ih =>
    rw [List.foldl_cons, ih, follow, meet_connections, hfold]
    simp

/-! ### Visiting -/

/-- At first the starts are to be visited. -/
theorem walked_starts : Walked incoming starts [] (starts.foldl meet {}) := by
  obtain ⟨new, heq, hnodup, hmem⟩ := foldl_meet starts {}
  rw [heq]
  have hstart : ∀ i, i ∈ new ↔ i ∈ starts := by simpa using hmem
  exact
    { members := rfl
      nodup := hnodup
      mem_of_mem_starts := fun i hi ↦ (hstart i).2 hi
      reached := fun i hi ↦ .start ((hstart i).1 hi)
      sources := by simp
      connections := rfl }

/-- Visiting the next place keeps the invariant. -/
theorem Walked.visit {members queue : List Nat} {connections : List Connection} {v : Nat}
    (h : Walked incoming starts visited ⟨members, v :: queue, connections⟩) :
    Walked incoming starts (visited ++ [v])
      ((incoming v).foldl follow ⟨members, queue, connections⟩) := by
  obtain ⟨new, heq, hnodup, hmem⟩ :=
    foldl_meet ((incoming v).map Prod.snd) ⟨members, queue, connections⟩
  rw [foldl_follow, heq]
  have hv : v ∈ members := by
    rw [show members = visited ++ v :: queue from h.members]
    simp
  exact
    { members := by
        show members ++ new = _
        rw [show members = visited ++ v :: queue from h.members]
        simp
      nodup := h.nodup.append hnodup fun i hold hnew ↦ ((hmem i).1 hnew).2 hold
      mem_of_mem_starts := fun i hi ↦ List.mem_append_left _ (h.mem_of_mem_starts i hi)
      reached := by
        intro i hi
        rcases List.mem_append.1 hi with hi | hi
        · exact h.reached i hi
        · obtain ⟨edge, hedge, rfl⟩ := List.mem_map.1 ((hmem i).1 hi).1
          exact .source (h.reached v hv) hedge
      sources := by
        intro i hi edge hedge
        rcases List.mem_append.1 hi with hi | hi
        · exact List.mem_append_left _ (h.sources i hi edge hedge)
        · obtain rfl := List.mem_singleton.1 hi
          by_cases hold : edge.2 ∈ members
          · exact List.mem_append_left _ hold
          · exact List.mem_append_right _ ((hmem _).2 ⟨List.mem_map_of_mem hedge, hold⟩)
      connections := by
        show connections ++ _ = _
        rw [show connections = _ from h.connections]
        simp }

/-- What is reached from starts in range along connections whose sources are in range is so. -/
theorem Reached.lt {n i : Nat} (h : Reached incoming starts i) (hstarts : ∀ i ∈ starts, i < n)
    (hsources : ∀ i, ∀ edge ∈ incoming i, edge.2 < n) : i < n := by
  cases h with
  | start hi => exact hstarts i hi
  | source _ hedge => exact hsources _ _ hedge

/-- **The number of places is fuel enough**: the walk ends with nothing left to visit. -/
theorem Walked.finish {n : Nat} (h : Walked incoming starts visited w)
    (hstarts : ∀ i ∈ starts, i < n) (hsources : ∀ i, ∀ edge ∈ incoming i, edge.2 < n) (fuel : Nat)
    (hfuel : n ≤ visited.length + fuel) :
    ∃ connections members, run incoming fuel w = ⟨members, [], connections⟩ ∧
      Walked incoming starts members ⟨members, [], connections⟩ := by
  induction fuel generalizing visited w with
  | zero =>
    obtain ⟨members, queue, connections⟩ := w
    -- All places have been visited, so that none can be left to visit.
    have hlength : members.length ≤ n := by
      rw [← List.length_range (n := n)]
      refine (h.nodup.subperm fun i hi ↦ ?_).length_le
      exact List.mem_range.2 ((h.reached i hi).lt hstarts hsources)
    have hsplit : members = visited ++ queue := h.members
    rw [hsplit, List.length_append] at hlength
    obtain rfl : queue = [] := List.length_eq_zero_iff.1 (by omega)
    obtain rfl : members = visited := by simpa using hsplit
    exact ⟨connections, members, by simp [run], h⟩
  | succ fuel ih =>
    obtain ⟨members, queue, connections⟩ := w
    cases queue with
    | nil =>
      obtain rfl : members = visited := by simpa using h.members
      exact ⟨connections, members, by simp [run], h⟩
    | cons v queue =>
      obtain ⟨connections', members', heq, hwalked⟩ := ih h.visit (by simp; omega)
      exact ⟨connections', members', heq, hwalked⟩

/-! ### The end of the walk -/

section

variable {n : Nat} (hstarts : ∀ i ∈ starts, i < n) (hsources : ∀ i, ∀ edge ∈ incoming i, edge.2 < n)

include hstarts hsources

/-- At the end of the walk, what has been met has been visited. -/
theorem walked_run : ∃ connections members,
    run incoming n (starts.foldl meet {}) = ⟨members, [], connections⟩ ∧
      Walked incoming starts members ⟨members, [], connections⟩ :=
  walked_starts.finish hstarts hsources n (by simp)

/-- **The walk meets what it can reach, and each place once.** -/
theorem members_run :
    (run incoming n (starts.foldl meet {})).members.Nodup ∧
      ∀ i, i ∈ (run incoming n (starts.foldl meet {})).members ↔ Reached incoming starts i := by
  obtain ⟨connections, members, heq, h⟩ := walked_run hstarts hsources
  rw [heq]
  refine ⟨h.nodup, fun i ↦ ⟨h.reached i, fun hi ↦ ?_⟩⟩
  induction hi with
  | start hi => exact h.mem_of_mem_starts _ hi
  | source _ hedge ih => exact h.sources _ ih _ hedge

/-- **The walk follows every connection out of what it reaches.** -/
theorem connections_run {c : Connection} :
    c ∈ (run incoming n (starts.foldl meet {})).connections ↔
      ∃ i, Reached incoming starts i ∧ ∃ source, (c, source) ∈ incoming i := by
  have hmem := (members_run hstarts hsources).2
  obtain ⟨connections, members, heq, h⟩ := walked_run hstarts hsources
  rw [heq] at hmem ⊢
  show c ∈ connections ↔ _
  rw [show connections = _ from h.connections, List.mem_flatMap]
  refine exists_congr fun i ↦ and_congr (hmem i) ?_
  simp

end

end PatchWalk

end CueFlow
