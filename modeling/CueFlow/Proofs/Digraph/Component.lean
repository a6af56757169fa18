import CueFlow.Digraph.Component
import CueFlow.Proofs.Digraph.Acyclic
import Mathlib.Data.List.Nodup
/-!
# The groups are the classes of mutual reachability

A search under way is described by the nodes on the way to where it stands, and an invariant
(`Underway`): the nodes met are those on the stack and those in closed groups; a node on the stack
is reached by all nodes below it and gets back to a node on the way, met no later; nodes that are
done lead to nodes met; and the closed groups are in order (`Settled`), that is, each is a class and
leads to itself and to groups closed before it.

A visit keeps the invariant and reports how far down the stack it gets back (`Visit`). Its steps are
to meet the node (`Underway.enter`), to look at the ends of the edges out of it one after the other
(`Look`, `foldl_look`), and to close the group of the node (`Underway.close`) or to leave it open
(`Underway.leave`). A visit nests no deeper than there are nodes, since it meets a new one each time
(`visit_spec`). In the end nothing is open, so that all that is known of closed groups holds of the
result: `flatten_components_perm`, `mem_component_iff` and `pairwise_components`.
-/

namespace CueFlow.Digraph

/-! ### Nodes met and their numbers -/

namespace Search

variable {s t : Search}

/-- The node has been met. -/
def Met (s : Search) (v : Nat) : Prop := v ∈ s.numbers.map Prod.fst

/-- The number of a node that has been met. -/
def num (s : Search) (v : Nat) : Nat := (s.number? v).getD 0

theorem number?_of_not_met {v : Nat} (h : ¬ s.Met v) : s.number? v = none := by
  rw [number?, List.lookup_eq_none_iff]
  intro entry hentry
  simp only [bne_iff_ne]
  rintro rfl
  exact h (List.mem_map_of_mem hentry)

theorem number?_of_met {v : Nat} (h : s.Met v) : s.number? v = some (s.num v) := by
  cases hnumber : s.number? v with
  | none =>
    obtain ⟨entry, hentry, rfl⟩ := List.mem_map.1 h
    have hne := List.lookup_eq_none_iff.1 hnumber entry hentry
    simp at hne
  | some n => rw [num, hnumber, Option.getD_some]

/-- A later search has met the nodes of an earlier one, and numbers them alike. -/
structure Grows (s t : Search) : Prop where
  met : ∀ v, s.Met v → t.Met v
  num : ∀ v, s.Met v → t.num v = s.num v
  length : s.numbers.length ≤ t.numbers.length

theorem Grows.refl (s : Search) : Grows s s := ⟨fun _ h ↦ h, fun _ _ ↦ rfl, le_rfl⟩

theorem Grows.trans {u : Search} (h : Grows s t) (h' : Grows t u) : Grows s u :=
  ⟨fun v hv ↦ h'.met v (h.met v hv),
    fun v hv ↦ (h'.num v (h.met v hv)).trans (h.num v hv), h.length.trans h'.length⟩

theorem length_enter (v : Nat) : (s.enter v).numbers.length = s.numbers.length + 1 := rfl

theorem met_enter {u v : Nat} : (s.enter v).Met u ↔ u = v ∨ s.Met u := List.mem_cons

theorem num_enter_self (v : Nat) : (s.enter v).num v = s.numbers.length := by
  simp [num, number?, enter]

theorem num_enter_of_ne {u v : Nat} (h : u ≠ v) : (s.enter v).num u = s.num u := by
  simp [num, number?, enter, List.lookup_cons, beq_eq_false_iff_ne.2 h]

theorem grows_enter {v : Nat} (h : ¬ s.Met v) : Grows s (s.enter v) :=
  ⟨fun _ hu ↦ met_enter.2 (.inr hu), fun _ hu ↦ num_enter_of_ne fun heq ↦ h (heq ▸ hu),
    Nat.le_succ _⟩

theorem grows_close (v : Nat) : Grows s (s.close v) := ⟨fun _ h ↦ h, fun _ _ ↦ rfl, le_rfl⟩

/-- To close the group of a node is to cut the stack at it. -/
theorem close_eq {v : Nat} {above below : List Nat} (hstack : s.stack = above ++ v :: below)
    (hv : v ∉ above) :
    s.close v = { s with stack := below, closed := (above ++ [v]) :: s.closed } := by
  have habove : ∀ w ∈ above, (w != v) = true := by
    intro w hw
    simp only [bne_iff_ne]
    rintro rfl
    exact hv hw
  rw [close, hstack, List.takeWhile_append_of_pos habove, List.dropWhile_append_of_pos habove]
  simp

end Search

/-! ### Closed groups -/

variable (g : Digraph)

/-- Groups, latest first: each is not empty, its nodes reach each other, and edges out of it lead
to itself or to a group before it. -/
def Settled : List (List Nat) → Prop
  | [] => True
  | group :: earlier => group ≠ [] ∧ (∀ u ∈ group, ∀ w ∈ group, g.Reaches u w) ∧
      (∀ u ∈ group, ∀ w, g.Edge u w → w ∈ group ∨ w ∈ earlier.flatten) ∧ Settled earlier

variable {g}

theorem Reaches.trans {u v w : Nat} (h : g.Reaches u v) (h' : g.Reaches v w) : g.Reaches u w :=
  reaches_iff.2 ((reaches_iff.1 h).trans (reaches_iff.1 h'))

theorem Edge.reaches {u w : Nat} (h : g.Edge u w) : g.Reaches u w := .step h (.refl w)

theorem Settled.ne_nil {groups : List (List Nat)} (h : g.Settled groups) :
    ∀ group ∈ groups, group ≠ [] := by
  induction groups with
  | nil => simp
  | cons group earlier ih =>
    obtain ⟨hne, -, -, hearlier⟩ := h
    simpa using ⟨hne, ih hearlier⟩

/-- No walk leaves settled groups. -/
theorem Settled.mem_of_reaches {groups : List (List Nat)} (h : g.Settled groups) {u w : Nat}
    (hu : u ∈ groups.flatten) (hreaches : g.Reaches u w) : w ∈ groups.flatten := by
  have hstep : ∀ groups : List (List Nat), g.Settled groups → ∀ u ∈ groups.flatten, ∀ w,
      g.Edge u w → w ∈ groups.flatten := by
    intro groups hgroups
    induction groups with
    | nil => simp
    | cons group earlier ih =>
      obtain ⟨-, -, hedges, hearlier⟩ := hgroups
      intro u hu w hedge
      rw [List.flatten_cons, List.mem_append] at hu ⊢
      rcases hu with hu | hu
      · exact hedges u hu w hedge
      · exact .inr (ih hearlier u hu w hedge)
  induction hreaches with
  | refl => exact hu
  | step hedge _ ih => exact ih (hstep groups h _ hu _ hedge)

/-- **A settled group is a class of mutual reachability.** -/
theorem Settled.mem_iff {groups : List (List Nat)} (h : g.Settled groups)
    (hnodup : groups.flatten.Nodup) {group : List Nat} (hgroup : group ∈ groups) {u w : Nat}
    (hu : u ∈ group) : w ∈ group ↔ g.Reaches u w ∧ g.Reaches w u := by
  induction groups with
  | nil => cases hgroup
  | cons first earlier ih =>
    obtain ⟨-, hmutual, hedges, hearlier⟩ := h
    rw [List.flatten_cons, List.nodup_append] at hnodup
    obtain ⟨-, hnodup, hdisjoint⟩ := hnodup
    rcases List.mem_cons.1 hgroup with rfl | hgroup
    · refine ⟨fun hw ↦ ⟨hmutual u hu w hw, hmutual w hw u hu⟩, fun ⟨hto, hback⟩ ↦ ?_⟩
      have hall : g.Settled (group :: earlier) := ⟨List.ne_nil_of_mem hu, hmutual, hedges, hearlier⟩
      have hw := hall.mem_of_reaches (List.mem_append_left _ hu) hto
      rcases List.mem_append.1 hw with hw | hw
      · exact hw
      · -- From an earlier group there is no way back.
        exact absurd rfl (hdisjoint u hu u (hearlier.mem_of_reaches hw hback))
    · exact ih hearlier hnodup hgroup

/-- **Settled groups lead backwards only.** -/
theorem Settled.pairwise {groups : List (List Nat)} (h : g.Settled groups)
    (hnodup : groups.flatten.Nodup) :
    groups.Pairwise fun later earlier ↦ ∀ u ∈ earlier, ∀ w ∈ later, ¬ g.Edge u w := by
  induction groups with
  | nil => exact .nil
  | cons first earlier ih =>
    obtain ⟨-, -, -, hearlier⟩ := h
    rw [List.flatten_cons, List.nodup_append] at hnodup
    obtain ⟨-, hnodup, hdisjoint⟩ := hnodup
    refine List.pairwise_cons.2 ⟨fun group hgroup u hu w hw hedge ↦ ?_, ih hearlier hnodup⟩
    have hu' : u ∈ earlier.flatten := List.mem_flatten.2 ⟨group, hgroup, hu⟩
    exact absurd rfl (hdisjoint w hw w (hearlier.mem_of_reaches hu' hedge.reaches))

/-! ### The invariant of the search -/

/-- A search under way; the path leads to where it stands, latest node first. -/
structure Underway (g : Digraph) (path : List Nat) (s : Search) : Prop where
  nodup : (s.numbers.map Prod.fst).Nodup
  lt : ∀ v, s.Met v → v < g.size ∧ s.num v < s.numbers.length
  /-- The nodes met are those on the stack and those in closed groups. -/
  perm : (s.stack ++ s.closed.flatten).Perm (s.numbers.map Prod.fst)
  onStack : path.Sublist s.stack
  /-- What is lower on the stack was met before, and reaches what is higher. -/
  falls : s.stack.Pairwise fun x y ↦ s.num y < s.num x ∧ g.Reaches y x
  /-- All of the stack gets back to the path, to a node met no later. -/
  back : ∀ y ∈ s.stack, ∃ x ∈ path, s.num x ≤ s.num y ∧ g.Reaches y x
  /-- Nodes that are done lead to nodes met. -/
  leads : ∀ u, s.Met u → u ∉ path → ∀ w, g.Edge u w → s.Met w
  settled : g.Settled s.closed

section

variable {path : List Nat} {s t : Search} {v : Nat}

theorem underway_start (g : Digraph) : g.Underway [] {} where
  nodup := .nil
  lt := by simp [Search.Met]
  perm := .refl _
  onStack := .refl _
  falls := .nil
  back := by simp
  leads := by simp [Search.Met]
  settled := trivial

theorem Underway.met_iff (h : g.Underway path s) :
    s.Met v ↔ v ∈ s.stack ∨ v ∈ s.closed.flatten := by
  rw [Search.Met, ← h.perm.mem_iff, List.mem_append]

/-- While there is a node to meet, not all have been met. -/
theorem Underway.length_lt (h : g.Underway path s) (hv : ¬ s.Met v) (hlt : v < g.size) :
    s.numbers.length < g.size := by
  have hnodup : (v :: s.numbers.map Prod.fst).Nodup := List.nodup_cons.2 ⟨hv, h.nodup⟩
  have hsub : v :: s.numbers.map Prod.fst ⊆ List.range g.size := by
    intro u hu
    rw [List.mem_range]
    rcases List.mem_cons.1 hu with rfl | hu
    · exact hlt
    · exact (h.lt u hu).1
  have hlength := (hnodup.subperm hsub).length_le
  rw [List.length_cons, List.length_map, List.length_range] at hlength
  exact hlength

/-- All of the stack reaches a node that the path leads to. -/
theorem Underway.reaches (h : g.Underway path s) (hpath : ∀ p ∈ path, g.Reaches p v) {y : Nat}
    (hy : y ∈ s.stack) : g.Reaches y v := by
  obtain ⟨x, hx, -, hreaches⟩ := h.back y hy
  exact hreaches.trans (hpath x hx)

/-! ### The steps of a visit -/

/-- To meet a node that the path leads to keeps the invariant. -/
theorem Underway.enter (h : g.Underway path s) (hv : ¬ s.Met v) (hlt : v < g.size)
    (hpath : ∀ p ∈ path, g.Reaches p v) : g.Underway (v :: path) (s.enter v) := by
  have hnum : ∀ y ∈ s.stack, (s.enter v).num y = s.num y := fun y hy ↦
    (Search.grows_enter hv).num y (h.met_iff.2 (.inl hy))
  have hmem : ∀ x ∈ path, x ∈ s.stack := fun x hx ↦ h.onStack.subset hx
  refine ⟨List.nodup_cons.2 ⟨hv, h.nodup⟩, fun u hu ↦ ?_, h.perm.cons v, h.onStack.cons_cons v,
    List.pairwise_cons.2 ⟨fun y hy ↦ ?_, ?_⟩, fun y hy ↦ ?_, fun u hu hu' w hedge ↦ ?_, h.settled⟩
  · rw [Search.length_enter]
    by_cases huv : u = v
    · subst huv
      rw [Search.num_enter_self]
      exact ⟨hlt, Nat.lt_succ_self _⟩
    · have hmet := (Search.met_enter.1 hu).resolve_left huv
      rw [Search.num_enter_of_ne huv]
      exact ⟨(h.lt u hmet).1, (h.lt u hmet).2.trans (Nat.lt_succ_self _)⟩
  · rw [hnum y hy, Search.num_enter_self]
    exact ⟨(h.lt y (h.met_iff.2 (.inl hy))).2, h.reaches hpath hy⟩
  · refine h.falls.imp_of_mem fun {x y} hx hy hxy ↦ ?_
    rw [hnum x hx, hnum y hy]
    exact hxy
  · rcases List.mem_cons.1 hy with rfl | hy
    · exact ⟨y, List.mem_cons_self, le_rfl, .refl y⟩
    · obtain ⟨x, hx, hle, hreaches⟩ := h.back y hy
      refine ⟨x, List.mem_cons_of_mem _ hx, ?_, hreaches⟩
      rw [hnum x (hmem x hx), hnum y hy]
      exact hle
  · rw [List.mem_cons, not_or] at hu'
    have hmet := (Search.met_enter.1 hu).resolve_left hu'.1
    exact Search.met_enter.2 (.inr (h.leads u hmet hu'.2 w hedge))

/-- When a node whose edges lead to nodes met is left, it is done. -/
theorem Underway.leads_of_leave (h : g.Underway (v :: path) s)
    (hdone : ∀ w, g.Edge v w → s.Met w) :
    ∀ u, s.Met u → u ∉ path → ∀ w, g.Edge u w → s.Met w := by
  intro u hu hu' w hedge
  by_cases huv : u = v
  · exact hdone w (huv ▸ hedge)
  · exact h.leads u hu (by simp [huv, hu']) w hedge

/-- A node that gets back beyond itself stays open when it is left. -/
theorem Underway.leave (h : g.Underway (v :: path) s) (hdone : ∀ w, g.Edge v w → s.Met w)
    {y : Nat} (hy : y ∈ s.stack) (hlt : s.num y < s.num v) (hreaches : g.Reaches v y) :
    g.Underway path s := by
  refine ⟨h.nodup, h.lt, h.perm, (List.sublist_cons_self v path).trans h.onStack, h.falls,
    fun z hz ↦ ?_, h.leads_of_leave hdone, h.settled⟩
  obtain ⟨x, hx, hle, hzx⟩ := h.back z hz
  rcases List.mem_cons.1 hx with rfl | hx
  · -- Instead of `v` itself, there is the node that `y` gets back to.
    obtain ⟨x', hx', hle', hyx'⟩ := h.back y hy
    rcases List.mem_cons.1 hx' with rfl | hx'
    · omega
    · exact ⟨x', hx', by omega, hzx.trans (hreaches.trans hyx')⟩
  · exact ⟨x, hx, hle, hzx⟩

section

variable {above below : List Nat}

/-- The number of a node is larger the higher it stands on the stack. -/
theorem Underway.num_lt (h : g.Underway path s) (hstack : s.stack = above ++ v :: below) :
    ∀ x ∈ above ++ [v], ∀ y ∈ below, s.num y < s.num x := by
  have hfalls := h.falls
  rw [hstack, List.append_cons] at hfalls
  exact fun x hx y hy ↦ ((List.pairwise_append.1 hfalls).2.2 x hx y hy).1

/-- A node stands on the stack once. -/
theorem Underway.not_mem_above (h : g.Underway path s) (hstack : s.stack = above ++ v :: below) :
    v ∉ above := by
  have hfalls := h.falls
  rw [hstack] at hfalls
  exact fun hmem ↦
    Nat.lt_irrefl _ ((List.pairwise_append.1 hfalls).2.2 v hmem v List.mem_cons_self).1

/-- The way to a node lies below it on the stack. -/
theorem Underway.sublist_below (h : g.Underway (v :: path) s)
    (hstack : s.stack = above ++ v :: below) : path.Sublist below := by
  have hsub := h.onStack
  rw [hstack] at hsub
  obtain ⟨front, rest, heq, hfront, hrest⟩ := List.sublist_append_iff.1 hsub
  cases front with
  | nil =>
    rw [List.nil_append] at heq
    exact List.cons_sublist_cons.1 (heq ▸ hrest)
  | cons x front =>
    obtain ⟨rfl, -⟩ := List.cons.inj heq
    exact absurd (hfront.subset List.mem_cons_self) (h.not_mem_above hstack)

/-- The nodes from `v` upwards are reached by `v`, and get back to the path, so to `v`. -/
theorem Underway.mutual (h : g.Underway (v :: path) s) (hpath : ∀ p ∈ path, g.Reaches p v)
    (hstack : s.stack = above ++ v :: below) {x : Nat} (hx : x ∈ above ++ [v]) :
    g.Reaches v x ∧ g.Reaches x v := by
  have hfalls := h.falls
  rw [hstack] at hfalls
  rcases List.mem_append.1 hx with hx | hx
  · have hin : x ∈ s.stack := by
      rw [hstack]
      exact List.mem_append_left _ hx
    refine ⟨((List.pairwise_append.1 hfalls).2.2 x hx v List.mem_cons_self).2,
      h.reaches (fun p hp ↦ ?_) hin⟩
    rcases List.mem_cons.1 hp with rfl | hp
    · exact .refl p
    · exact hpath p hp
  · rw [List.mem_singleton.1 hx]
    exact ⟨.refl v, .refl v⟩

/-- A node closes its group when it is left, if no edge leads from there further down the stack. -/
theorem Underway.close (h : g.Underway (v :: path) s) (hdone : ∀ w, g.Edge v w → s.Met w)
    (hpath : ∀ p ∈ path, g.Reaches p v) (hstack : s.stack = above ++ v :: below)
    (hcut : ∀ x ∈ above ++ [v], ∀ y ∈ below, ¬ g.Edge x y) : g.Underway path (s.close v) := by
  have hbelow := h.sublist_below hstack
  have hlt := h.num_lt hstack
  have hleads := h.leads_of_leave hdone
  have hfalls := h.falls
  rw [hstack, List.append_cons] at hfalls
  rw [Search.close_eq hstack (h.not_mem_above hstack)]
  refine ⟨h.nodup, h.lt, ?_, hbelow, (List.pairwise_append.1 hfalls).2.1, fun y hy ↦ ?_, hleads,
    by simp, ?_, fun u hu w hedge ↦ ?_, h.settled⟩
  · refine List.Perm.trans ?_ h.perm
    rw [hstack, List.append_cons above v below, List.flatten_cons, ← List.append_assoc]
    exact List.perm_append_comm.append_right _
  · obtain ⟨x, hx, hle, hreaches⟩ := h.back y (by simp [hstack, hy])
    rcases List.mem_cons.1 hx with rfl | hx
    · exact absurd (hlt x (by simp) y hy) (Nat.not_lt.2 hle)
    · exact ⟨x, hx, hle, hreaches⟩
  · exact fun u hu w hw ↦
      (h.mutual hpath hstack hu).2.trans (h.mutual hpath hstack hw).1
  · -- The node is done, and nothing below it on the stack is left to lead to.
    have hmet : s.Met u := by
      rw [h.met_iff, hstack, List.append_cons]
      exact .inl (List.mem_append_left _ hu)
    have hnew : u ∉ path := fun hmem ↦ Nat.lt_irrefl _ (hlt u hu u (hbelow.subset hmem))
    have hw := h.met_iff.1 (hleads u hmet hnew w hedge)
    rw [hstack, List.append_cons, List.mem_append] at hw
    rcases hw with (hw | hw) | hw
    · exact .inl hw
    · exact absurd hedge (hcut u hu w hw)
    · exact .inr hw

end

/-! ### A visit -/

/-- Look at the end of one edge: visit it if it has not been met, and note how far back it gets. -/
def look (visit : Search → Nat → Search × Nat) (acc : Search × Nat) (w : Nat) : Search × Nat :=
  match acc.1.number? w with
  | none =>
    let (searched, low) := visit acc.1 w
    (searched, min acc.2 low)
  | some n => if acc.1.stack.contains w then (acc.1, min acc.2 n) else acc

/-- A visit meets the node, looks at the ends of the edges out of it, and closes its group if they
get back no further. -/
theorem visit_succ (fuel : Nat) (s : Search) (v : Nat) : g.visit (fuel + 1) s v =
    let looked := (g.successors v).foldl (look (g.visit fuel)) (s.enter v, s.numbers.length)
    (if looked.2 = s.numbers.length then looked.1.close v else looked.1, looked.2) := rfl

/-- What a visit of `v` has come to that started from `s`: the stack may have grown, no edge leads
from the new part of it to the old one further down than to `low`, and `v` gets as far. -/
structure Visit (g : Digraph) (path : List Nat) (s : Search) (v : Nat) (t : Search) (low : Nat) :
    Prop where
  underway : g.Underway path t
  grows : Search.Grows s t
  met : t.Met v
  above : ∃ above, t.stack = above ++ s.stack ∧
    ∀ x ∈ above, ∀ y ∈ s.stack, g.Edge x y → low ≤ s.num y
  low : low = s.numbers.length ∨ ∃ y ∈ s.stack, s.num y = low ∧ g.Reaches v y

/-- The same once some of the edges out of `v` have been looked at, with `v` still on the way; and
those to the old part of the stack lead no further down than to `low`. -/
structure Look (g : Digraph) (path : List Nat) (s : Search) (v : Nat) (ends : List Nat)
    (t : Search) (low : Nat) : Prop where
  underway : g.Underway (v :: path) t
  grows : Search.Grows (s.enter v) t
  met : ∀ w ∈ ends, t.Met w
  above : ∃ above, t.stack = above ++ v :: s.stack ∧
    ∀ x ∈ above, ∀ y ∈ s.stack, g.Edge x y → low ≤ s.num y
  low_le : ∀ w ∈ ends, w ∈ s.stack → low ≤ s.num w
  low : low = s.numbers.length ∨ ∃ y ∈ s.stack, s.num y = low ∧ g.Reaches v y

variable {ends : List Nat} {low : Nat} {w : Nat}

theorem Look.start (h : g.Underway path s) (hv : ¬ s.Met v) (hlt : v < g.size)
    (hpath : ∀ p ∈ path, g.Reaches p v) : g.Look path s v [] (s.enter v) s.numbers.length where
  underway := h.enter hv hlt hpath
  grows := .refl _
  met := by simp
  above := ⟨[], rfl, by simp⟩
  low_le := by simp
  low := .inl rfl

theorem Look.num_eq (h : g.Look path s v ends t low) : t.num v = s.numbers.length := by
  rw [h.grows.num v (Search.met_enter.2 (.inl rfl)), Search.num_enter_self]

theorem Look.le_length (h : g.Look path s v ends t low) (hs : g.Underway path s) :
    low ≤ s.numbers.length := by
  obtain heq | ⟨x, hx, heq, -⟩ := h.low
  · exact heq.le
  · rw [← heq]
    exact (hs.lt x (hs.met_iff.2 (.inl hx))).2.le

/-- What `v` gets back to in sight of the whole stack, it gets back to in the old part of it. -/
theorem Look.low_min (h : g.Look path s v ends t low) (hs : g.Underway path s) (hv : ¬ s.Met v)
    {y : Nat} (hy : y ∈ t.stack) (hreaches : g.Reaches v y) :
    min low (t.num y) = s.numbers.length ∨
      ∃ y' ∈ s.stack, s.num y' = min low (t.num y) ∧ g.Reaches v y' := by
  obtain ⟨above, hstack, -⟩ := h.above
  have hnum := h.num_eq
  have hle := h.le_length hs
  have hfalls := h.underway.falls
  rw [hstack] at hfalls hy
  obtain ⟨-, -, hcross⟩ := List.pairwise_append.1 hfalls
  -- From `v` upwards numbers are no smaller than `low`; only the old part can lower it.
  rcases List.mem_append.1 hy with hy | hy
  · have hhigh := (hcross y hy v List.mem_cons_self).1
    rw [min_eq_left (by omega)]
    exact h.low
  · rcases List.mem_cons.1 hy with rfl | hy
    · rw [hnum, min_eq_left hle]
      exact h.low
    · have hold : t.num y = s.num y :=
        ((Search.grows_enter hv).trans h.grows).num y (hs.met_iff.2 (.inl hy))
      rcases le_total low (t.num y) with hlow | hlow
      · rw [min_eq_left hlow]
        exact h.low
      · rw [min_eq_right hlow]
        exact .inr ⟨y, hy, hold.symm, hreaches⟩

/-- An edge to a node on the stack. -/
theorem Look.onStack (h : g.Look path s v ends t low) (hs : g.Underway path s) (hv : ¬ s.Met v)
    (hedge : g.Edge v w) (hw : w ∈ t.stack) :
    g.Look path s v (ends ++ [w]) t (min low (t.num w)) := by
  obtain ⟨above, hstack, habove⟩ := h.above
  have hmet : t.Met w := h.underway.met_iff.2 (.inl hw)
  refine ⟨h.underway, h.grows,
    List.forall_mem_append.2 ⟨h.met, List.forall_mem_singleton.2 hmet⟩,
    ⟨above, hstack, fun x hx y hy hxy ↦ (min_le_left _ _).trans (habove x hx y hy hxy)⟩,
    List.forall_mem_append.2 ⟨fun x hx hx' ↦ (min_le_left _ _).trans (h.low_le x hx hx'),
      List.forall_mem_singleton.2 fun hw' ↦ ?_⟩,
    h.low_min hs hv hw hedge.reaches⟩
  rw [((Search.grows_enter hv).trans h.grows).num w (hs.met_iff.2 (.inl hw'))]
  exact min_le_right _ _

/-- An edge to a node in a closed group. -/
theorem Look.offStack (h : g.Look path s v ends t low) (hmet : t.Met w) (hw : w ∉ t.stack) :
    g.Look path s v (ends ++ [w]) t low := by
  obtain ⟨above, hstack, -⟩ := h.above
  refine ⟨h.underway, h.grows,
    List.forall_mem_append.2 ⟨h.met, List.forall_mem_singleton.2 hmet⟩, h.above,
    List.forall_mem_append.2 ⟨h.low_le, List.forall_mem_singleton.2 fun hw' ↦ ?_⟩, h.low⟩
  exact absurd (by simp [hstack, hw']) hw

/-- An edge to a node that is visited. -/
theorem Look.visited (h : g.Look path s v ends t low) (hs : g.Underway path s) (hv : ¬ s.Met v)
    (hedge : g.Edge v w) (hw : ¬ t.Met w) {t' : Search} {low' : Nat}
    (hvisit : g.Visit (v :: path) t w t' low') :
    g.Look path s v (ends ++ [w]) t' (min low low') := by
  obtain ⟨above, hstack, habove⟩ := h.above
  obtain ⟨above', hstack', habove'⟩ := hvisit.above
  have hgrows := (Search.grows_enter hv).trans h.grows
  refine ⟨hvisit.underway, h.grows.trans hvisit.grows,
    List.forall_mem_append.2 ⟨fun x hx ↦ hvisit.grows.met x (h.met x hx),
      List.forall_mem_singleton.2 hvisit.met⟩,
    ⟨above' ++ above, by rw [hstack', hstack, List.append_assoc], fun x hx y hy hxy ↦ ?_⟩,
    List.forall_mem_append.2 ⟨fun x hx hx' ↦ (min_le_left _ _).trans (h.low_le x hx hx'),
      List.forall_mem_singleton.2 fun hw' ↦ ?_⟩, ?_⟩
  · rcases List.mem_append.1 hx with hx | hx
    · rw [← hgrows.num y (hs.met_iff.2 (.inl hy))]
      exact (min_le_right _ _).trans (habove' x hx y (by simp [hstack, hy]) hxy)
    · exact (min_le_left _ _).trans (habove x hx y hy hxy)
  · exact absurd (hgrows.met w (hs.met_iff.2 (.inl hw'))) hw
  · obtain rfl | ⟨y, hy, rfl, hreaches⟩ := hvisit.low
    · -- A new node gets back no further than to itself.
      have hlength := h.grows.length
      have hle := h.le_length hs
      rw [Search.length_enter] at hlength
      rw [min_eq_left (by omega)]
      exact h.low
    · exact h.low_min hs hv hy (hedge.reaches.trans hreaches)

/-- **Looking at edges one after the other**, given what a visit does. -/
theorem foldl_look {visit : Search → Nat → Search × Nat} (hs : g.Underway path s)
    (hv : ¬ s.Met v)
    (hvisit : ∀ t w, Search.Grows (s.enter v) t → g.Underway (v :: path) t → ¬ t.Met w →
      g.Edge v w → g.Visit (v :: path) t w (visit t w).1 (visit t w).2)
    (ws : List Nat) (hws : ∀ w ∈ ws, g.Edge v w) (h : g.Look path s v ends t low) :
    g.Look path s v (ends ++ ws) (ws.foldl (look visit) (t, low)).1
      (ws.foldl (look visit) (t, low)).2 := by
  induction ws generalizing ends t low with
  | nil => simpa using h
  | cons w ws ih =>
    have hedge := hws w List.mem_cons_self
    have hstep : g.Look path s v (ends ++ [w]) (look visit (t, low) w).1
        (look visit (t, low) w).2 := by
      by_cases hmet : t.Met w
      · rw [look, Search.number?_of_met hmet]
        by_cases hw : w ∈ t.stack
        · simpa [hw] using h.onStack hs hv hedge hw
        · simpa [hw] using h.offStack hmet hw
      · rw [look, Search.number?_of_not_met hmet]
        exact h.visited hs hv hedge hmet (hvisit t w h.grows h.underway hmet hedge)
    have hrest := ih (fun w' hw' ↦ hws w' (List.mem_cons_of_mem _ hw')) hstep
    rw [List.append_assoc, List.singleton_append] at hrest
    exact hrest

/-- When all edges have been looked at, the visit comes to its end. -/
theorem Look.finish (h : g.Look path s v (g.successors v) t low) (hs : g.Underway path s)
    (hv : ¬ s.Met v) (hpath : ∀ p ∈ path, g.Reaches p v) :
    g.Visit path s v (if low = s.numbers.length then t.close v else t) low := by
  obtain ⟨above, hstack, habove⟩ := h.above
  have hdone : ∀ w, g.Edge v w → t.Met w := fun w hedge ↦ h.met w (g.mem_successors.2 hedge)
  have hgrows := (Search.grows_enter hv).trans h.grows
  have hmet : t.Met v := h.grows.met v (Search.met_enter.2 (.inl rfl))
  have hedges : ∀ x ∈ above ++ [v], ∀ y ∈ s.stack, g.Edge x y → low ≤ s.num y := by
    intro x hx y hy hxy
    rcases List.mem_append.1 hx with hx | hx
    · exact habove x hx y hy hxy
    · rw [List.mem_singleton.1 hx] at hxy
      exact h.low_le y (g.mem_successors.2 hxy) hy
  have hlt : ∀ y ∈ s.stack, s.num y < s.numbers.length := fun y hy ↦
    (hs.lt y (hs.met_iff.2 (.inl hy))).2
  split
  next hlow =>
    have hcut : ∀ x ∈ above ++ [v], ∀ y ∈ s.stack, ¬ g.Edge x y := fun x hx y hy hxy ↦
      absurd (hlt y hy) (Nat.not_lt.2 (hlow ▸ hedges x hx y hy hxy))
    refine ⟨h.underway.close hdone hpath hstack hcut, hgrows.trans (Search.grows_close v), hmet,
      ⟨[], ?_, by simp⟩, .inl hlow⟩
    rw [Search.close_eq hstack (h.underway.not_mem_above hstack)]
    rfl
  next hlow =>
    obtain ⟨y, hy, heq, hreaches⟩ := h.low.resolve_left hlow
    refine ⟨h.underway.leave hdone (y := y) ?_ ?_ hreaches, hgrows, hmet,
      ⟨above ++ [v], by simp [hstack], hedges⟩, h.low⟩
    · simp [hstack, hy]
    · rw [h.num_eq, hgrows.num y (hs.met_iff.2 (.inl hy))]
      exact hlt y hy

/-- What leads to a node leads to the ends of the edges out of it. -/
theorem reaches_of_edge (hpath : ∀ p ∈ path, g.Reaches p v) (hedge : g.Edge v w) :
    ∀ p ∈ v :: path, g.Reaches p w := by
  intro p hp
  rcases List.mem_cons.1 hp with rfl | hp
  · exact hedge.reaches
  · exact (hpath p hp).trans hedge.reaches

/-- Below a visit there is one step less of fuel, and one node less to meet. -/
theorem Search.Grows.size_le {fuel : Nat} (h : Search.Grows (s.enter v) t)
    (hfuel : g.size ≤ s.numbers.length + (fuel + 1)) : g.size ≤ t.numbers.length + fuel := by
  have hlength := h.length
  rw [Search.length_enter] at hlength
  omega

/-- **A visit does what it should**, if it may nest as deep as there are nodes to meet. -/
theorem visit_spec (hrange : g.InRange) (fuel : Nat) (h : g.Underway path s) (hv : ¬ s.Met v)
    (hlt : v < g.size) (hpath : ∀ p ∈ path, g.Reaches p v)
    (hfuel : g.size ≤ s.numbers.length + fuel) :
    g.Visit path s v (g.visit fuel s v).1 (g.visit fuel s v).2 := by
  induction fuel generalizing path s v with
  | zero => exact absurd (h.length_lt hv hlt) (Nat.not_lt.2 hfuel)
  | succ fuel ih =>
    rw [visit_succ]
    refine Look.finish ?_ h hv hpath
    have hvisit : ∀ t w, Search.Grows (s.enter v) t → g.Underway (v :: path) t → ¬ t.Met w →
        g.Edge v w → g.Visit (v :: path) t w (g.visit fuel t w).1 (g.visit fuel t w).2 := by
      intro t w hgrows ht hw hedge
      exact ih ht hw (hrange _ hedge).2 (reaches_of_edge hpath hedge) (hgrows.size_le hfuel)
    exact foldl_look h hv hvisit (g.successors v) (fun w hw ↦ g.mem_successors.1 hw)
      (.start h hv hlt hpath)

end

/-! ### The whole search -/

section

variable {s : Search} {v : Nat}

/-- Between two visits nothing is open. -/
theorem Underway.stack_eq_nil (h : g.Underway [] s) : s.stack = [] := by
  refine List.eq_nil_iff_forall_not_mem.2 fun y hy ↦ ?_
  obtain ⟨x, hx, -⟩ := h.back y hy
  cases hx

/-- To go on at a node that may have been met keeps the invariant, and meets it. -/
theorem visitNew_spec (hrange : g.InRange) (h : g.Underway [] s) (hlt : v < g.size) :
    g.Underway [] (g.visitNew s v) ∧ Search.Grows s (g.visitNew s v) ∧ (g.visitNew s v).Met v := by
  rw [visitNew]
  by_cases hv : s.Met v
  · rw [Search.number?_of_met hv]
    exact ⟨h, .refl s, hv⟩
  · rw [Search.number?_of_not_met hv]
    have hvisit := visit_spec hrange g.size h hv hlt (by simp) (Nat.le_add_left _ _)
    exact ⟨hvisit.underway, hvisit.grows, hvisit.met⟩

theorem foldl_visitNew (hrange : g.InRange) (h : g.Underway [] s) (vs : List Nat)
    (hlt : ∀ v ∈ vs, v < g.size) : g.Underway [] (vs.foldl g.visitNew s) ∧
      Search.Grows s (vs.foldl g.visitNew s) ∧ ∀ v ∈ vs, (vs.foldl g.visitNew s).Met v := by
  induction vs generalizing s with
  | nil => exact ⟨h, .refl s, by simp⟩
  | cons v vs ih =>
    obtain ⟨hfirst, hgrows, hmet⟩ := visitNew_spec hrange h (hlt v List.mem_cons_self)
    obtain ⟨hrest, hgrows', hmet'⟩ := ih hfirst fun w hw ↦ hlt w (List.mem_cons_of_mem _ hw)
    refine ⟨hrest, hgrows.trans hgrows', fun w hw ↦ ?_⟩
    rcases List.mem_cons.1 hw with rfl | hw
    · exact hgrows'.met w hmet
    · exact hmet' w hw

end

/-- The groups are in order, latest first, and hold every node once. -/
theorem settled_components (hrange : g.InRange) : g.Settled g.components.reverse ∧
    g.components.reverse.flatten.Perm (List.range g.size) := by
  obtain ⟨hunderway, -, hmet⟩ := foldl_visitNew hrange (underway_start g) (List.range g.size)
    fun v hv ↦ List.mem_range.1 hv
  have hperm := hunderway.perm
  rw [hunderway.stack_eq_nil, List.nil_append] at hperm
  rw [components, List.reverse_reverse]
  refine ⟨hunderway.settled, hperm.trans ?_⟩
  refine (List.perm_ext_iff_of_nodup hunderway.nodup List.nodup_range).2 fun v ↦ ?_
  exact ⟨fun hv ↦ List.mem_range.2 (hunderway.lt v hv).1, hmet v⟩

theorem flatten_components_perm (hrange : g.InRange) :
    g.components.flatten.Perm (List.range g.size) :=
  (List.reverse_perm _).flatten.symm.trans (settled_components hrange).2

/-- Every node is in some group. -/
theorem mem_flatten_components (hrange : g.InRange) {v : Nat} :
    v ∈ g.components.flatten ↔ v < g.size :=
  (flatten_components_perm hrange).mem_iff.trans List.mem_range

/-- No node is in a group twice, or in two groups. -/
theorem nodup_flatten_components (hrange : g.InRange) : g.components.flatten.Nodup :=
  (flatten_components_perm hrange).nodup_iff.2 List.nodup_range

theorem ne_nil_of_mem_components (hrange : g.InRange) {group : List Nat}
    (hgroup : group ∈ g.components) : group ≠ [] :=
  (settled_components hrange).1.ne_nil group (List.mem_reverse.2 hgroup)

/-- **The groups are the classes of mutual reachability.** -/
theorem mem_component_iff (hrange : g.InRange) {group : List Nat} (hgroup : group ∈ g.components)
    {u w : Nat} (hu : u ∈ group) : w ∈ group ↔ g.Reaches u w ∧ g.Reaches w u := by
  obtain ⟨hsettled, hperm⟩ := settled_components hrange
  exact hsettled.mem_iff (hperm.nodup_iff.2 List.nodup_range) (List.mem_reverse.2 hgroup) hu

/-- **Edges between groups lead from later ones to earlier ones.** -/
theorem pairwise_components (hrange : g.InRange) :
    g.components.Pairwise fun earlier later ↦ ∀ u ∈ earlier, ∀ w ∈ later, ¬ g.Edge u w := by
  obtain ⟨hsettled, hperm⟩ := settled_components hrange
  exact List.pairwise_reverse.1 (hsettled.pairwise (hperm.nodup_iff.2 List.nodup_range))

end CueFlow.Digraph
