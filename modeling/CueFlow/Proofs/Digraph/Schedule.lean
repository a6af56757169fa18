import CueFlow.Digraph.Schedule
import Mathlib.Data.List.Nodup
/-!
# Edges lead forward in a schedule

`Digraph.schedule` settles the edges out of one ready node after the other. The invariant is that
the counters of the search are the numbers of edges that come from outside the nodes taken so far
(`Digraph.openInDegree`), and that exactly the nodes whose counter is zero are ready or taken. The
search keeps it (`Follows.take`), hence

* `schedule_nodup` — no node is scheduled twice;
* `mem_before_of_mem_edges` — when a node is scheduled, the source of every edge into it has been
  scheduled before it.

Nothing is assumed of the graph: edges may repeat, lead from a node to itself or leave the range.
-/

namespace CueFlow.Digraph

variable (g : Digraph)

/-- The number of edges into `w` that come from outside `done`. -/
def openInDegree (done : List Nat) (w : Nat) : Nat :=
  g.edges.countP fun e ↦ e.2 == w && !done.contains e.1

/-- At first all edges into a node are open. -/
theorem openInDegree_nil (w : Nat) : g.openInDegree [] w = g.inDegree w := by
  simp [openInDegree, inDegree]

variable {g}

/-- If no edge into a node is open, all of its predecessors are done. -/
theorem mem_of_openInDegree_eq_zero {done : List Nat} {u w : Nat}
    (hzero : g.openInDegree done w = 0) (hedge : (u, w) ∈ g.edges) : u ∈ done := by
  by_contra hu
  exact List.countP_eq_zero.1 hzero (u, w) hedge (by simp [hu])

/-- Taking `v` closes the edges out of `v`. -/
theorem openInDegree_eq_add_count {done : List Nat} {v : Nat} (hv : v ∉ done) (w : Nat) :
    g.openInDegree done w = g.openInDegree (done ++ [v]) w + (g.successors v).count w := by
  rw [openInDegree, openInDegree, successors, List.count, List.countP_map, List.countP_filter]
  induction g.edges with
  | nil => rfl
  | cons e rest ih =>
    simp only [List.countP_cons, List.contains_eq_mem, List.mem_append, List.mem_singleton,
      Function.comp_apply]
    by_cases hw : e.2 = w <;> by_cases he : e.1 = v <;> by_cases hd : e.1 ∈ done <;>
      simp_all <;> omega

/-! ### Settling the edges out of one node -/

section Settle

variable {n : Nat} {count : Nat → Nat} {p : Pending}

/-- Settling an edge counts it off at its end. -/
theorem settle_unsettled (h : p.unsettled = (List.range n).map count) (x : Nat) :
    (p.settle x).unsettled = (List.range n).map fun w ↦ if w = x then count w - 1 else count w := by
  rw [Pending.settle, h]
  refine List.ext_getElem? fun j ↦ ?_
  simp only [List.getElem?_modify, List.getElem?_map]
  by_cases hj : j < n
  · by_cases hx : x = j
    · simp [hj, hx]
    · simp [hj, hx, Ne.symm hx]
  · simp [Nat.le_of_not_lt hj]

/-- A node becomes ready when the last edge into it is settled. -/
theorem settle_ready (h : p.unsettled = (List.range n).map count) (x : Nat) :
    (p.settle x).ready = if x < n ∧ count x - 1 = 0 then p.ready ++ [x] else p.ready := by
  have hready : (p.settle x).ready =
      if (p.settle x).unsettled[x]? = some 0 then p.ready ++ [x] else p.ready := rfl
  rw [hready, settle_unsettled h]
  by_cases hx : x < n <;> simp [hx]

/-- Settling a list of edges subtracts from every counter how often its node occurs in the list, and
the nodes whose counter reaches zero become ready, once each. -/
theorem foldl_settle (ws : List Nat) (h : p.unsettled = (List.range n).map count)
    (hle : ∀ w, ws.count w ≤ count w) :
    (ws.foldl Pending.settle p).unsettled = (List.range n).map (fun w ↦ count w - ws.count w) ∧
      ∃ new, (ws.foldl Pending.settle p).ready = p.ready ++ new ∧ new.Nodup ∧
        ∀ w, w ∈ new ↔ w < n ∧ w ∈ ws ∧ count w = ws.count w := by
  induction ws generalizing p count with
  | nil => exact ⟨by simpa using h, [], by simp⟩
  | cons x rest ih =>
    -- The rest is settled against counters of which that of `x` is one lower.
    set count' : Nat → Nat := fun w ↦ if w = x then count w - 1 else count w with hcount'
    have hle' : ∀ w, rest.count w ≤ count' w := by
      intro w
      have hw := hle w
      rw [List.count_cons] at hw
      by_cases hx : w = x
      · simp [hcount', hx] at hw ⊢; omega
      · simp [hcount', hx, Ne.symm hx] at hw ⊢; omega
    obtain ⟨hunsettled, new, hready, hnodup, hnew⟩ := ih (settle_unsettled h x) hle'
    have hx : rest.count x + 1 ≤ count x := by simpa using hle x
    have hx' : count' x = count x - 1 := by simp [hcount']
    refine ⟨?_, (if x < n ∧ count x - 1 = 0 then [x] else []) ++ new, ?_, ?_, fun w ↦ ?_⟩
    · rw [List.foldl_cons, hunsettled]
      refine List.map_congr_left fun w _ ↦ ?_
      rw [List.count_cons]
      by_cases hw : w = x
      · simp [hw]; omega
      · simp [hw, Ne.symm hw]
    · rw [List.foldl_cons, hready, settle_ready h]
      split <;> simp
    · split
      next hzero =>
        refine List.nodup_cons.2 ⟨fun hmem ↦ ?_, hnodup⟩
        obtain ⟨-, hrest, -⟩ := (hnew x).1 hmem
        have := List.count_pos_iff.2 hrest
        omega
      next => exact hnodup
    · have hsplit : w ∈ (if x < n ∧ count x - 1 = 0 then [x] else []) ↔
          w = x ∧ x < n ∧ count x - 1 = 0 := by
        split <;> simp_all
      rw [List.mem_append, hsplit, hnew, List.mem_cons, List.count_cons]
      by_cases hw : w = x
      · subst hw
        by_cases hrest : w ∈ rest
        · simp [hrest]; omega
        · have hnone : rest.count w = 0 := List.count_eq_zero.2 hrest
          simp [hrest, hnone]; omega
      · simp [hw, Ne.symm hw]

end Settle

/-! ### The invariant of the search -/

/-- The state of the search after the nodes of `done` have been taken. -/
structure Follows (g : Digraph) (done : List Nat) (p : Pending) : Prop where
  nodup : (done ++ p.ready).Nodup
  /-- The counters count the edges from nodes that have not been taken. -/
  unsettled : p.unsettled = (List.range g.size).map (g.openInDegree done)
  /-- A node is ready or taken exactly if no such edge is left. -/
  mem_iff : ∀ w, w ∈ done ++ p.ready ↔ w < g.size ∧ g.openInDegree done w = 0

/-- Before the first step, those nodes are ready that no edge leads to. -/
theorem follows_pending (g : Digraph) : g.Follows [] g.pending where
  nodup := List.nodup_range.filter _
  unsettled := List.map_congr_left fun w _ ↦ (g.openInDegree_nil w).symm
  mem_iff w := by simp [pending, openInDegree_nil]

/-- Taking the first ready node keeps the invariant. -/
theorem Follows.take {done ready unsettled : List Nat} {v : Nat}
    (h : g.Follows done ⟨v :: ready, unsettled⟩) :
    g.Follows (done ++ [v]) ((g.successors v).foldl Pending.settle ⟨ready, unsettled⟩) := by
  have hnodup : (done ++ [v] ++ ready).Nodup := by simpa using h.nodup
  have hv : v ∉ done := by
    intro hmem
    exact List.disjoint_of_nodup_append h.nodup hmem List.mem_cons_self
  have hadd := openInDegree_eq_add_count (g := g) hv
  obtain ⟨hunsettled, new, hready, hnew, hmem⟩ :=
    foldl_settle (p := ⟨ready, unsettled⟩) (g.successors v) h.unsettled
      fun w ↦ by have := hadd w; omega
  -- What was ready or taken before is so still, and `new` are those that taking `v` makes ready.
  have hold : ∀ w, w ∈ done ++ [v] ++ ready ↔ w < g.size ∧ g.openInDegree done w = 0 := by
    intro w
    rw [← h.mem_iff w]
    simp
  refine ⟨?_, ?_, fun w ↦ ?_⟩
  · rw [hready, ← List.append_assoc]
    refine hnodup.append hnew fun w hw hwnew ↦ ?_
    obtain ⟨-, hzero⟩ := (hold w).1 hw
    obtain ⟨-, hsucc, hcount⟩ := (hmem w).1 hwnew
    have := List.count_pos_iff.2 hsucc
    omega
  · rw [hunsettled]
    refine List.map_congr_left fun w _ ↦ ?_
    have := hadd w
    omega
  · rw [hready, ← List.append_assoc, List.mem_append, hold, hmem]
    have hcount := hadd w
    constructor
    · rintro (⟨hw, hzero⟩ | ⟨hw, -, heq⟩)
      · exact ⟨hw, by omega⟩
      · exact ⟨hw, by omega⟩
    · rintro ⟨hw, hzero⟩
      by_cases hsucc : w ∈ g.successors v
      · exact .inr ⟨hw, hsucc, by omega⟩
      · have := List.count_eq_zero.2 hsucc
        exact .inl ⟨hw, by omega⟩

/-- What is taken from here on is new and in range. -/
theorem Follows.nodup_scheduleFrom {fuel : Nat} {done : List Nat} {p : Pending}
    (h : g.Follows done p) :
    (done ++ g.scheduleFrom fuel p).Nodup ∧ ∀ v ∈ g.scheduleFrom fuel p, v < g.size := by
  induction fuel generalizing done p with
  | zero => simpa [scheduleFrom] using (List.nodup_append.1 h.nodup).1
  | succ fuel ih =>
    obtain ⟨ready, unsettled⟩ := p
    cases ready with
    | nil => simpa [scheduleFrom] using h.nodup
    | cons v ready =>
      obtain ⟨hnodup, hlt⟩ := ih h.take
      refine ⟨by simpa [scheduleFrom] using hnodup, fun w hw ↦ ?_⟩
      rcases List.mem_cons.1 hw with rfl | hw
      · exact ((h.mem_iff w).1 (by simp)).1
      · exact hlt w hw

/-- When a node is taken, the sources of all edges into it have been taken. -/
theorem Follows.mem_of_mem_edges {fuel : Nat} {done : List Nat} {p : Pending}
    (h : g.Follows done p) {before : List Nat} {w : Nat} {after : List Nat}
    (hsplit : g.scheduleFrom fuel p = before ++ w :: after) {u : Nat} (hedge : (u, w) ∈ g.edges) :
    u ∈ done ++ before := by
  induction fuel generalizing done p before with
  | zero => simp [scheduleFrom] at hsplit
  | succ fuel ih =>
    obtain ⟨ready, unsettled⟩ := p
    cases ready with
    | nil => simp [scheduleFrom] at hsplit
    | cons v ready =>
      cases before with
      | nil =>
        obtain ⟨rfl, -⟩ := List.cons.inj hsplit
        have hzero := ((h.mem_iff v).1 (by simp)).2
        exact List.mem_append_left _ (mem_of_openInDegree_eq_zero hzero hedge)
      | cons v' before =>
        obtain ⟨rfl, hrest⟩ := List.cons.inj hsplit
        simpa using ih h.take hrest

/-! ### The schedule -/

/-- No node is scheduled twice. -/
theorem schedule_nodup (g : Digraph) : g.schedule.Nodup := by
  simpa [schedule] using (follows_pending g).nodup_scheduleFrom.1

/-- What is scheduled are nodes of the graph. -/
theorem lt_size_of_mem_schedule {v : Nat} (hv : v ∈ g.schedule) : v < g.size :=
  (follows_pending g).nodup_scheduleFrom.2 v hv

/-- **Edges lead forward.** -/
theorem mem_before_of_mem_edges {before : List Nat} {w : Nat} {after : List Nat}
    (hsplit : g.schedule = before ++ w :: after) {u : Nat} (hedge : (u, w) ∈ g.edges) :
    u ∈ before := by
  simpa using (follows_pending g).mem_of_mem_edges hsplit hedge

theorem mem_schedule_of_unscheduled_eq_nil (hall : g.unscheduled = []) {v : Nat}
    (hv : v < g.size) : v ∈ g.schedule := by
  by_contra hmem
  have hstuck : v ∈ g.unscheduled :=
    List.mem_filter.2 ⟨List.mem_range.2 hv, by simpa using hmem⟩
  simp [hall] at hstuck

end CueFlow.Digraph
