import CueFlow.Proofs.Digraph.Schedule
import Mathlib.Data.Fintype.EquivFin
import Mathlib.Logic.Relation
/-!
# What a schedule leaves out lies behind a cycle

The search behind `Digraph.schedule` has a bound and subtracts with truncation. Neither shows: on a
graph whose edges stay in range, the search without a bound ends after these very steps, and every
subtraction is from a positive counter (`runs_iff`). At the end nothing is ready, so a node is
scheduled exactly if the sources of all edges into it are (`mem_schedule_iff`). From this it follows
in both directions that a node is left out exactly if it lies on a cycle or behind one
(`mem_unscheduled_iff`): a node left out has one left out before it, and the graph is finite; and
along edges the schedule counts upwards. In particular the whole graph is scheduled exactly if it
has no cycle (`unscheduled_eq_nil_iff`). Where nodes go by names, and edges are a relation of names
(`Digraph.Named`), all of this can be said of names.
-/

namespace CueFlow.Digraph

/-- All edges lead from a node to a node. -/
def InRange (g : Digraph) : Prop := ∀ e ∈ g.edges, e.1 < g.size ∧ e.2 < g.size

/-! ### The search without a bound -/

/-- Settle one edge into `w`, provided that there is one that is not settled yet. -/
def Pending.settle? (p : Pending) (w : Nat) : Option Pending :=
  if (p.unsettled[w]?).any (0 < ·) then some (p.settle w) else none

/-- A run of the search to its end: as long as some node is ready, the first one is taken and the
edges out of it are settled, each of which has not been settled before. -/
inductive Runs (g : Digraph) : Pending → List Nat → Prop
  | done (unsettled : List Nat) : Runs g ⟨[], unsettled⟩ []
  | take {v : Nat} {ready unsettled order : List Nat} {p : Pending} :
      (g.successors v).foldlM Pending.settle? ⟨ready, unsettled⟩ = some p → Runs g p order →
        Runs g ⟨v :: ready, unsettled⟩ (v :: order)

variable {g : Digraph}

/-- The search has one run at most. -/
theorem Runs.unique {p : Pending} {order order' : List Nat} (h : g.Runs p order)
    (h' : g.Runs p order') : order = order' := by
  induction h generalizing order' with
  | done =>
    cases h'
    rfl
  | take hsettle _ ih =>
    cases h' with
    | take hsettle' hrest' =>
      obtain rfl := Option.some.inj (hsettle.symm.trans hsettle')
      rw [ih hrest']

/-- Settling no edge twice is settling. -/
theorem foldlM_settle? {n : Nat} {count : Nat → Nat} {p : Pending} (ws : List Nat)
    (h : p.unsettled = (List.range n).map count) (hlt : ∀ w ∈ ws, w < n)
    (hle : ∀ w, ws.count w ≤ count w) :
    ws.foldlM Pending.settle? p = some (ws.foldl Pending.settle p) := by
  induction ws generalizing p count with
  | nil => rfl
  | cons x rest ih =>
    -- The counter of `x` covers this edge and those still to be settled.
    have hx : rest.count x + 1 ≤ count x := by simpa using hle x
    have hfirst : p.settle? x = some (p.settle x) := by
      rw [Pending.settle?, if_pos]
      have hxn : x < n := hlt x List.mem_cons_self
      simp [h, hxn]
      omega
    rw [List.foldlM_cons, hfirst, List.foldl_cons]
    refine ih (settle_unsettled h x) (fun w hw ↦ hlt w (List.mem_cons_of_mem _ hw)) fun w ↦ ?_
    have hw := hle w
    rw [List.count_cons] at hw
    by_cases hwx : w = x
    · subst hwx
      rw [if_pos rfl]
      omega
    · simpa [hwx, Ne.symm hwx] using hw

/-- No more nodes are taken or ready than there are. -/
theorem Follows.length_le {done : List Nat} {p : Pending} (h : g.Follows done p) :
    done.length + p.ready.length ≤ g.size := by
  rw [← List.length_append, ← List.length_range (n := g.size)]
  exact (h.nodup.subperm fun w hw ↦ List.mem_range.2 ((h.mem_iff w).1 hw).1).length_le

/-- **The bound is large enough**: the search ends by itself, having taken as many nodes. -/
theorem Follows.finish {done : List Nat} {p : Pending} (h : g.Follows done p)
    (hrange : g.InRange) (fuel : Nat) (hfuel : g.size ≤ done.length + fuel) :
    g.Runs p (g.scheduleFrom fuel p) ∧
      ∃ unsettled, g.Follows (done ++ g.scheduleFrom fuel p) ⟨[], unsettled⟩ := by
  induction fuel generalizing done p with
  | zero =>
    obtain ⟨ready, unsettled⟩ := p
    have hlength := h.length_le
    obtain rfl : ready = [] := List.length_eq_zero_iff.1 (by dsimp only at hlength; omega)
    exact ⟨.done _, unsettled, by simpa [scheduleFrom] using h⟩
  | succ fuel ih =>
    obtain ⟨ready, unsettled⟩ := p
    cases ready with
    | nil => exact ⟨.done _, unsettled, by simpa [scheduleFrom] using h⟩
    | cons v ready =>
      have hsettle : (g.successors v).foldlM Pending.settle? ⟨ready, unsettled⟩ =
          some ((g.successors v).foldl Pending.settle ⟨ready, unsettled⟩) := by
        refine foldlM_settle? _ h.unsettled (fun w hw ↦ ?_) fun w ↦ ?_
        · exact (hrange _ (g.mem_successors.1 hw)).2
        · have hv : v ∉ done := fun hmem ↦
            List.disjoint_of_nodup_append h.nodup hmem List.mem_cons_self
          rw [openInDegree_eq_add_count hv w]
          exact Nat.le_add_left _ _
      obtain ⟨hruns, unsettled', hfollows⟩ := ih h.take (by rw [List.length_append]; simp; omega)
      refine ⟨.take hsettle hruns, unsettled', ?_⟩
      simpa [scheduleFrom] using hfollows

/-- **The search ends with the schedule**, and settles no edge twice. -/
theorem runs_iff (hrange : g.InRange) {order : List Nat} :
    g.Runs g.pending order ↔ order = g.schedule := by
  have hruns := ((follows_pending g).finish hrange g.size (by simp)).1
  constructor
  · exact fun h ↦ h.unique hruns
  · rintro rfl
    exact hruns

/-- **A node is scheduled exactly if the sources of all edges into it are.** -/
theorem mem_schedule_iff (hrange : g.InRange) {w : Nat} :
    w ∈ g.schedule ↔ w < g.size ∧ ∀ u, (u, w) ∈ g.edges → u ∈ g.schedule := by
  obtain ⟨-, unsettled, hfollows⟩ := (follows_pending g).finish hrange g.size (by simp)
  have hmem := hfollows.mem_iff w
  rw [List.append_nil, List.nil_append] at hmem
  refine hmem.trans (and_congr_right fun _ ↦ ⟨fun hzero u hedge ↦ ?_, fun hall ↦ ?_⟩)
  · exact mem_of_openInDegree_eq_zero hzero hedge
  · rw [openInDegree, List.countP_eq_zero]
    rintro ⟨u, w'⟩ he
    by_cases hw : w' = w
    · subst hw
      have hu : u ∈ g.scheduleFrom g.size g.pending := hall u he
      simp [hu]
    · simp [hw]

/-! ### Cycles -/

/-- The relation of being joined by an edge. -/
def Edge (g : Digraph) (u w : Nat) : Prop := (u, w) ∈ g.edges

theorem reaches_iff {u w : Nat} : g.Reaches u w ↔ Relation.ReflTransGen g.Edge u w := by
  constructor
  · intro h
    induction h with
    | refl => exact .refl
    | step hedge _ ih => exact .head hedge ih
  · intro h
    induction h using Relation.ReflTransGen.head_induction_on with
    | refl => exact .refl w
    | head hedge _ ih => exact .step hedge ih

theorem onCycle_iff {v : Nat} : g.OnCycle v ↔ Relation.TransGen g.Edge v v := by
  rw [Relation.TransGen.head'_iff, OnCycle]
  simp only [reaches_iff]
  rfl

/-! ### Names -/

/-- The nodes of a digraph go by names, and edges are a relation of names. -/
structure Named {α : Type} (g : Digraph) (name : Nat → Option α) (R : α → α → Prop) : Prop where
  inj : ∀ {i j u}, name i = some u → name j = some u → i = j
  edge_iff : ∀ {i j}, g.Edge i j ↔ ∃ u w, name i = some u ∧ name j = some w ∧ R u w
  exists_name : ∀ {u w}, R u w → (∃ i, name i = some u) ∧ ∃ j, name j = some w

section

variable {α : Type} {name : Nat → Option α} {R : α → α → Prop}

/-- Walks along edges are chains of related names. -/
theorem Named.transGen_iff (h : g.Named name R) {i j : Nat} {u w : α} (hi : name i = some u)
    (hj : name j = some w) : Relation.TransGen g.Edge i j ↔ Relation.TransGen R u w := by
  constructor
  · intro hwalk
    induction hwalk generalizing w with
    | single hedge =>
      obtain ⟨_, _, hu, hw, hrel⟩ := h.edge_iff.1 hedge
      obtain rfl := Option.some.inj (hu.symm.trans hi)
      obtain rfl := Option.some.inj (hw.symm.trans hj)
      exact .single hrel
    | tail _ hedge ih =>
      obtain ⟨_, _, hv, hw, hrel⟩ := h.edge_iff.1 hedge
      obtain rfl := Option.some.inj (hw.symm.trans hj)
      exact (ih hv).tail hrel
  · intro hchain
    induction hchain generalizing j with
    | single hrel => exact .single (h.edge_iff.2 ⟨_, _, hi, hj, hrel⟩)
    | tail _ hrel ih =>
      obtain ⟨⟨k, hk⟩, -⟩ := h.exists_name hrel
      exact (ih hk).tail (h.edge_iff.2 ⟨_, _, hk, hj, hrel⟩)

theorem Named.reflTransGen_iff (h : g.Named name R) {i j : Nat} {u w : α} (hi : name i = some u)
    (hj : name j = some w) : Relation.ReflTransGen g.Edge i j ↔ Relation.ReflTransGen R u w := by
  rw [Relation.reflTransGen_iff_eq_or_transGen, Relation.reflTransGen_iff_eq_or_transGen,
    h.transGen_iff hi hj]
  refine or_congr_left ⟨?_, ?_⟩
  · rintro rfl
    exact Option.some.inj (hj.symm.trans hi)
  · rintro rfl
    exact h.inj hj hi

end

/-! ### Cycles and the schedule -/

/-- Along an edge the schedule counts upwards. -/
theorem idxOf_lt_of_edge {u w : Nat} (hw : w ∈ g.schedule) (hedge : g.Edge u w) :
    g.schedule.idxOf u < g.schedule.idxOf w := by
  obtain ⟨before, after, hsplit⟩ := List.append_of_mem hw
  have hu := mem_before_of_mem_edges hsplit hedge
  have hnodup := g.schedule_nodup
  rw [hsplit] at hnodup ⊢
  have hnew : w ∉ before := fun hmem ↦
    List.disjoint_of_nodup_append hnodup hmem List.mem_cons_self
  rw [List.idxOf_append_of_mem hu, List.idxOf_append_of_notMem hnew, List.idxOf_cons_self]
  exact Nat.lt_add_right _ (List.idxOf_lt_length_of_mem hu)

theorem mem_unscheduled {v : Nat} : v ∈ g.unscheduled ↔ v < g.size ∧ v ∉ g.schedule := by
  simp [unscheduled, List.mem_filter]

theorem nodup_unscheduled (g : Digraph) : g.unscheduled.Nodup := List.nodup_range.filter _

/-- What is scheduled is so with everything that leads to it, and counts upwards along the way. -/
theorem schedule_of_transGen (hrange : g.InRange) {u w : Nat}
    (h : Relation.TransGen g.Edge u w) (hw : w ∈ g.schedule) :
    u ∈ g.schedule ∧ g.schedule.idxOf u < g.schedule.idxOf w := by
  induction h with
  | single hedge =>
    exact ⟨((mem_schedule_iff hrange).1 hw).2 u hedge, idxOf_lt_of_edge hw hedge⟩
  | tail _ hedge ih =>
    obtain ⟨hu, hlt⟩ := ih (((mem_schedule_iff hrange).1 hw).2 _ hedge)
    exact ⟨hu, hlt.trans (idxOf_lt_of_edge hw hedge)⟩

/-- A node behind which there is no cycle is scheduled. -/
theorem mem_schedule_of_forall_not_onCycle (hrange : g.InRange) {v : Nat} (hv : v < g.size)
    (hacyclic : ∀ u, Relation.ReflTransGen g.Edge u v → ¬ Relation.TransGen g.Edge u u) :
    v ∈ g.schedule := by
  -- Without a cycle, a walk backwards from `v` comes to an end: induct on where it can go.
  let behind : {u : Fin g.size // Relation.ReflTransGen g.Edge u v} →
      {u : Fin g.size // Relation.ReflTransGen g.Edge u v} → Prop :=
    fun u w ↦ Relation.TransGen g.Edge u.1 w.1
  have htrans : IsTrans _ behind := ⟨fun _ _ _ huv hvw ↦ huv.trans hvw⟩
  have hirrefl : Std.Irrefl behind := ⟨fun u ↦ hacyclic u.1 u.2⟩
  have hall : ∀ w : {u : Fin g.size // Relation.ReflTransGen g.Edge u v}, w.1.val ∈ g.schedule := by
    intro w
    induction w using (Finite.wellFounded_of_trans_of_irrefl behind).induction with
    | _ w ih =>
      refine (mem_schedule_iff hrange).2 ⟨w.1.isLt, fun u hedge ↦ ?_⟩
      exact ih ⟨⟨u, (hrange _ hedge).1⟩, .head hedge w.2⟩ (.single hedge)
  exact hall ⟨⟨v, hv⟩, .refl⟩

/-- **What is left out lies on a cycle or behind one.** -/
theorem mem_unscheduled_iff (hrange : g.InRange) {v : Nat} :
    v ∈ g.unscheduled ↔
      v < g.size ∧ ∃ u, Relation.TransGen g.Edge u u ∧ Relation.ReflTransGen g.Edge u v := by
  rw [mem_unscheduled]
  refine and_congr_right fun hv ↦ ⟨fun hleft ↦ ?_, ?_⟩
  · by_contra hnone
    push Not at hnone
    exact hleft (mem_schedule_of_forall_not_onCycle hrange hv fun u hu hcycle ↦
      hnone u hcycle hu)
  · rintro ⟨u, hcycle, hreach⟩ hscheduled
    have hu : u ∈ g.schedule := by
      rcases Relation.reflTransGen_iff_eq_or_transGen.1 hreach with rfl | hreach
      · exact hscheduled
      · exact (schedule_of_transGen hrange hreach hscheduled).1
    exact Nat.lt_irrefl _ (schedule_of_transGen hrange hcycle hu).2

/-- **The whole graph is scheduled exactly if it has no cycle.** -/
theorem unscheduled_eq_nil_iff (hrange : g.InRange) :
    g.unscheduled = [] ↔ ∀ v, ¬ g.OnCycle v := by
  simp only [onCycle_iff, List.eq_nil_iff_forall_not_mem, mem_unscheduled_iff hrange]
  constructor
  · intro hall v hcycle
    obtain ⟨w, hedge, -⟩ := Relation.TransGen.head'_iff.1 hcycle
    exact hall v ⟨(hrange _ hedge).1, v, hcycle, .refl⟩
  · rintro hacyclic v ⟨-, u, hcycle, -⟩
    exact hacyclic u hcycle

/-! ### What is left out, by name -/

section

variable {α : Type} {name : Nat → Option α} {R : α → α → Prop}

/-- Cycles of edges are cycles of names. -/
theorem Named.forall_not_transGen_iff (h : g.Named name R) :
    (∀ v, ¬ Relation.TransGen g.Edge v v) ↔ ∀ u, ¬ Relation.TransGen R u u := by
  constructor
  · intro hacyclic u hcycle
    obtain ⟨w, hrel, -⟩ := Relation.TransGen.head'_iff.1 hcycle
    obtain ⟨⟨i, hi⟩, -⟩ := h.exists_name hrel
    exact hacyclic i ((h.transGen_iff hi hi).2 hcycle)
  · intro hacyclic i hcycle
    obtain ⟨j, hedge, -⟩ := Relation.TransGen.head'_iff.1 hcycle
    obtain ⟨u, -, hi, -⟩ := h.edge_iff.1 hedge
    exact hacyclic u ((h.transGen_iff hi hi).1 hcycle)

theorem Named.unscheduled_eq_nil_iff (h : g.Named name R) (hrange : g.InRange) :
    g.unscheduled = [] ↔ ∀ u, ¬ Relation.TransGen R u u := by
  rw [Digraph.unscheduled_eq_nil_iff hrange, ← h.forall_not_transGen_iff]
  simp only [onCycle_iff]

/-- The names that are left out are those on a cycle or behind one. -/
theorem Named.mem_filterMap_unscheduled_iff (h : g.Named name R) (hrange : g.InRange) {v : α} :
    v ∈ g.unscheduled.filterMap name ↔ (∃ j < g.size, name j = some v) ∧
      ∃ u, Relation.TransGen R u u ∧ Relation.ReflTransGen R u v := by
  simp only [List.mem_filterMap, mem_unscheduled_iff hrange]
  constructor
  · rintro ⟨j, ⟨hj, i, hcycle, hreach⟩, hv⟩
    -- A node on a cycle has an edge out of it, hence a name.
    obtain ⟨k, hedge, -⟩ := Relation.TransGen.head'_iff.1 hcycle
    obtain ⟨u, -, hi, -⟩ := h.edge_iff.1 hedge
    exact ⟨⟨j, hj, hv⟩, u, (h.transGen_iff hi hi).1 hcycle, (h.reflTransGen_iff hi hv).1 hreach⟩
  · rintro ⟨⟨j, hj, hv⟩, u, hcycle, hreach⟩
    obtain ⟨w, hrel, -⟩ := Relation.TransGen.head'_iff.1 hcycle
    obtain ⟨⟨i, hi⟩, -⟩ := h.exists_name hrel
    exact ⟨j, ⟨hj, i, (h.transGen_iff hi hi).2 hcycle, (h.reflTransGen_iff hi hv).2 hreach⟩, hv⟩

/-- No name is left out twice. -/
theorem Named.nodup_filterMap_unscheduled (h : g.Named name R) :
    (g.unscheduled.filterMap name).Nodup :=
  g.nodup_unscheduled.filterMap fun _ _ _ hi hj ↦ h.inj hi hj

end

end CueFlow.Digraph
