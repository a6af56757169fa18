import CueFlow.Proofs.Digraph.Component
import Mathlib.Logic.Function.Basic
/-!
# Strongly connected components with a work stack

The search behind `Digraph.components` visits a node from within the visit of another, and asks
what it has noted of a node by the node. Here it is spelled out with nothing but loops and tables
(`Desk`): the visits that are under way lie on a work stack, each with the place of the next
neighbour to look at, and for every node there is an entry in three tables, for its number, for how
far back it gets, and for whether its group is open. What a visit has found is noted for the node
before it on the work stack when the visit is over. To read or to write beside a table is a fault,
and a run that comes to a fault, or that does not end, finds nothing (`Finds`).

Both come to the same (`finds_iff`): on the adjacency list of any digraph a run ends without a
fault and finds the components. The proof follows the visits. The desk of a search under way
(`Search.desk`) is led from the beginning of a visit to its end (`leads_visit`), where a visit is to
meet the node, to look at its neighbours one after the other, whether or not they are to be visited
first (`leads_foldl_look`), and to leave it (`leads_leave`). Every adjacency list of nodes is that
of a digraph (`adjacency_ofAdjacency`), so what is known of components is known of what is found on
any (`components_of_adjacency`).
-/

namespace CueFlow.Digraph

/-! ### Tables -/

section

variable {α : Type} {n v : Nat}

/-- Write into a table, unless it has no such entry. -/
def put? (table : List α) (v : Nat) (a : α) : Option (List α) :=
  if v < table.length then some (table.set v a) else none

/-- The table of the values of a function. -/
def tableOf (n : Nat) (f : Nat → α) : List α := (List.range n).map f

/-- A table has its function's value at every place. -/
theorem getElem?_tableOf (hv : v < n) (f : Nat → α) : (tableOf n f)[v]? = some (f v) := by
  simp [tableOf, hv]

/-- To write into a table is to change its function at one place. -/
theorem put?_tableOf (hv : v < n) (f : Nat → α) (a : α) :
    put? (tableOf n f) v a = some (tableOf n (Function.update f v a)) := by
  rw [put?, if_pos (by simpa [tableOf] using hv)]
  refine congrArg some (List.ext_getElem (by simp [tableOf]) fun u hu _ ↦ ?_)
  by_cases huv : v = u
  · subst huv
    simp [tableOf]
  · simp [tableOf, huv, Function.update_of_ne (Ne.symm huv)]

theorem tableOf_const (n : Nat) (a : α) : tableOf n (fun _ ↦ a) = List.replicate n a := by
  simp [tableOf]

end

/-! ### The desk -/

/-- How far a search with a work stack has come. -/
structure Desk where
  /-- The number of each node that has been met. -/
  numbers : List (Option Nat)
  /-- The least number that each node is known to get back to. -/
  lows : List Nat
  /-- Whether the group of each node is open. -/
  marks : List Bool
  /-- The nodes whose group is open, latest first. -/
  stack : List Nat
  /-- The closed groups, latest last. -/
  groups : List (List Nat)
  /-- The number for the next node. -/
  counter : Nat
  /-- The visits under way, latest first: the node, and the place of the next neighbour. -/
  work : List (Nat × Nat)
  /-- The nodes at which the search is still to start. -/
  roots : List Nat

namespace Desk

/-- The desk before the search. -/
def start (adj : List (List Nat)) : Desk where
  numbers := List.replicate adj.length none
  lows := List.replicate adj.length 0
  marks := List.replicate adj.length false
  stack := []
  groups := []
  counter := 0
  work := []
  roots := List.range adj.length

/-- Meet a node, unless it has been met. -/
def meet (d : Desk) (v : Nat) : Option Desk := do
  match ← d.numbers[v]? with
  | some _ => return d
  | none => return { d with
      numbers := ← put? d.numbers v (some d.counter)
      lows := ← put? d.lows v d.counter
      marks := ← put? d.marks v true
      counter := d.counter + 1
      stack := v :: d.stack }

/-- Look at neighbours of `v`, the first of which is at place `i`, up to one that is to be visited
first. Whether there is one is told as well. -/
def scan (d : Desk) (v i : Nat) : List Nat → Option (Desk × Bool)
  | [] => return (d, false)
  | w :: ws => do
    match ← d.numbers[w]? with
    | none => return ({ d with work := (w, 0) :: (v, i + 1) :: d.work }, true)
    | some number =>
      if ← d.marks[w]? then
        scan { d with lows := ← put? d.lows v (min (← d.lows[v]?) number) } v (i + 1) ws
      else scan d v (i + 1) ws

/-- Take nodes from a stack down to `v`, and what they make up after those taken before. -/
def unstack (v : Nat) (marks : List Bool) (group : List Nat) :
    List Nat → Option (List Bool × List Nat × List Nat)
  | [] => return (marks, group, [])
  | w :: stack => do
    let marks ← put? marks w false
    if w = v then return (marks, group ++ [w], stack)
    else unstack v marks (group ++ [w]) stack

/-- Close the group of a node that gets back no further than to itself. -/
def close (d : Desk) (v : Nat) : Option Desk := do
  if some (← d.lows[v]?) = (← d.numbers[v]?) then
    let (marks, group, stack) ← unstack v d.marks [] d.stack
    return { d with marks, stack, groups := d.groups ++ [group] }
  else return d

/-- Note how far back a node gets for the node before it. -/
def report (d : Desk) (v : Nat) : Option Desk :=
  match d.work with
  | [] => return d
  | (parent, _) :: _ => do
    return { d with lows := ← put? d.lows parent (min (← d.lows[parent]?) (← d.lows[v]?)) }

/-- End the visit of `v`. -/
def leave (d : Desk) (v : Nat) : Option Desk := do
  (← d.close v).report v

/-- Go on with the visit of `v` at the neighbour at place `i`. -/
def resume (adj : List (List Nat)) (d : Desk) (v i : Nat) : Option Desk := do
  let d ← d.meet v
  let (d, descended) ← d.scan v i ((← adj[v]?).drop i)
  if descended then return d else d.leave v

/-- Go on with the search at a node, unless it has been met. -/
def enter (d : Desk) (root : Nat) : Option Desk := do
  match ← d.numbers[root]? with
  | some _ => return d
  | none => return { d with work := [(root, 0)] }

/-- What is done next. At the end there is nothing to do, and beside a table it cannot be done. -/
def step (adj : List (List Nat)) (d : Desk) : Option Desk :=
  match d.work, d.roots with
  | (v, i) :: work, _ => resume adj { d with work } v i
  | [], root :: roots => enter { d with roots } root
  | [], [] => none

/-- Nothing is left to do. -/
def Done (d : Desk) : Prop := d.work = [] ∧ d.roots = []

/-- Nothing is left to do at a desk that is done. -/
theorem step_of_done {adj : List (List Nat)} {d : Desk} (h : d.Done) : d.step adj = none := by
  obtain ⟨numbers, lows, marks, stack, groups, counter, work, roots⟩ := d
  obtain ⟨rfl, rfl⟩ := h
  rfl

/-- A run from a desk ends, without a fault, and with these groups. -/
inductive Finds (adj : List (List Nat)) : Desk → List (List Nat) → Prop
  | done {d : Desk} (h : d.Done) : Finds adj d d.groups
  | next {d d' : Desk} {groups : List (List Nat)} (hstep : d.step adj = some d')
      (hrest : Finds adj d' groups) : Finds adj d groups

variable {adj : List (List Nat)} {d d' : Desk}

/-- A run finds one result at most. -/
theorem Finds.unique {groups groups' : List (List Nat)} (h : Finds adj d groups)
    (h' : Finds adj d groups') : groups = groups' := by
  induction h with
  | done hdone =>
    cases h' with
    | done => rfl
    | next hstep => cases (step_of_done hdone).symm.trans hstep
  | next hstep _ ih =>
    cases h' with
    | done hdone => cases (step_of_done hdone).symm.trans hstep
    | next hstep' hrest' =>
      obtain rfl := Option.some.inj (hstep.symm.trans hstep')
      exact ih hrest'

/-- From the first desk a run finds what it finds from the second. -/
def Leads (adj : List (List Nat)) (d d' : Desk) : Prop :=
  ∀ groups, Finds adj d' groups → Finds adj d groups

theorem Leads.refl (d : Desk) : Leads adj d d := fun _ h ↦ h

theorem Leads.trans {d'' : Desk} (h : Leads adj d d') (h' : Leads adj d' d'') : Leads adj d d'' :=
  fun groups hfinds ↦ h groups (h' groups hfinds)

theorem Leads.of_step (h : d.step adj = some d') : Leads adj d d' := fun _ ↦ .next h

/-- Desks that are not done and from which the same is done next are alike to a run. -/
theorem Leads.of_step_eq (h : d.step adj = d'.step adj) (hwork : d'.work ≠ []) :
    Leads adj d d' := by
  intro groups hfinds
  cases hfinds with
  | done hdone => exact absurd hdone.1 hwork
  | next hstep hrest => exact .next (h.trans hstep) hrest

end Desk

/-- The desk of a search under way. What is noted of how far back a node gets is no part of the
search, nor is what remains to be done. -/
def Search.desk (s : Search) (n : Nat) (low : Nat → Nat) (work : List (Nat × Nat))
    (roots : List Nat) : Desk where
  numbers := tableOf n s.number?
  lows := tableOf n low
  marks := tableOf n fun v ↦ s.stack.contains v
  stack := s.stack
  groups := s.closed.reverse
  counter := s.numbers.length
  work
  roots

/-! ### Steps of a desk -/

section

variable {s t : Search} {n v w i : Nat} {low : Nat → Nat} {work : List (Nat × Nat)}
  {roots ws : List Nat}

/-- A node that has not been met is entered, with its own number as its low link. -/
theorem meet_of_not_met (hlt : v < n) (hv : ¬ s.Met v) :
    (s.desk n low work roots).meet v =
      some ((s.enter v).desk n (Function.update low v s.numbers.length) work roots) := by
  have hnumber : (s.enter v).number? = Function.update s.number? v (some s.numbers.length) := by
    funext u
    by_cases huv : u = v
    · subst huv
      simp [Search.number?, Search.enter]
    · simp [Search.number?, Search.enter, List.lookup_cons, huv, beq_eq_false_iff_ne.2 huv]
  have hmarks : (fun u ↦ (s.enter v).stack.contains u) =
      Function.update (fun u ↦ s.stack.contains u) v true := by
    funext u
    by_cases huv : u = v
    · subst huv
      simp [Search.enter]
    · simp [Search.enter, huv]
  simp only [Desk.meet, Search.desk, getElem?_tableOf hlt, put?_tableOf hlt,
    Search.number?_of_not_met hv, hnumber, hmarks]
  rfl

/-- A node that has been met is passed over. -/
theorem meet_of_met (hlt : v < n) (hv : s.Met v) :
    (s.desk n low work roots).meet v = some (s.desk n low work roots) := by
  have hread : (s.desk n low work roots).numbers[v]? = some (some (s.num v)) := by
    rw [← Search.number?_of_met hv]
    exact getElem?_tableOf hlt _
  rw [Desk.meet, hread]
  rfl

/-- A neighbour that has not been met is to be visited first. -/
theorem scan_of_not_met (hlt : w < n) (hw : ¬ t.Met w) :
    (t.desk n low work roots).scan v i (w :: ws) =
      some (t.desk n low ((w, 0) :: (v, i + 1) :: work) roots, true) := by
  have hread : (t.desk n low work roots).numbers[w]? = some none := by
    rw [← Search.number?_of_not_met hw]
    exact getElem?_tableOf hlt _
  rw [Desk.scan, hread]
  rfl

/-- The number of a neighbour on the stack is noted. -/
theorem scan_of_mem (hv : v < n) (hlt : w < n) (hmet : t.Met w) (hw : w ∈ t.stack) :
    (t.desk n low work roots).scan v i (w :: ws) =
      (t.desk n (Function.update low v (min (low v) (t.num w))) work roots).scan v (i + 1) ws := by
  simp only [Desk.scan, Search.desk, getElem?_tableOf hlt, getElem?_tableOf hv, put?_tableOf hv,
    Search.number?_of_met hmet]
  simp [hw]

/-- Of a neighbour in a closed group nothing is noted. -/
theorem scan_of_not_mem (hlt : w < n) (hmet : t.Met w) (hw : w ∉ t.stack) :
    (t.desk n low work roots).scan v i (w :: ws) =
      (t.desk n low work roots).scan v (i + 1) ws := by
  simp only [Desk.scan, Search.desk, getElem?_tableOf hlt, Search.number?_of_met hmet]
  simp [hw]

/-- To take nodes from the stack is to clear their marks. -/
theorem unstack_tableOf {above below : List Nat} (hlt : ∀ u ∈ above ++ v :: below, u < n)
    (hnodup : (above ++ v :: below).Nodup) (group : List Nat) :
    Desk.unstack v (tableOf n fun u ↦ (above ++ v :: below).contains u) group
        (above ++ v :: below) =
      some (tableOf n fun u ↦ below.contains u, group ++ (above ++ [v]), below) := by
  -- A node stands on the stack once.
  have hmark : ∀ {u : Nat} {rest : List Nat}, u ∉ rest →
      Function.update (fun x ↦ (u :: rest).contains x) u false = fun x ↦ rest.contains x := by
    intro u rest hu
    funext x
    by_cases hxu : x = u
    · subst hxu
      simpa using hu
    · simp [hxu]
  induction above generalizing group with
  | nil =>
    rw [List.nil_append] at hlt hnodup
    simp only [List.nil_append, Desk.unstack, put?_tableOf (hlt v List.mem_cons_self),
      hmark (List.nodup_cons.1 hnodup).1]
    simp
  | cons w above ih =>
    rw [List.cons_append] at hlt hnodup
    obtain ⟨hw, hrest⟩ := List.nodup_cons.1 hnodup
    have hwv : w ≠ v := fun heq ↦ hw (by simp [heq])
    have hrest := ih (fun u hu ↦ hlt u (List.mem_cons_of_mem _ hu)) hrest (group ++ [w])
    simp only [List.cons_append, Desk.unstack, put?_tableOf (hlt w List.mem_cons_self), hmark hw]
    simpa [hwv] using hrest

/-- A node whose low link is its own number closes a component, which is taken from the stack. Any
other node is left on it. -/
theorem close_desk {above below : List Nat} (hlt : ∀ u ∈ t.stack, u < n)
    (hnodup : t.stack.Nodup) (hstack : t.stack = above ++ v :: below) (hmet : t.Met v) :
    (t.desk n low work roots).close v =
      some ((if low v = t.num v then t.close v else t).desk n low work roots) := by
  have hv : v < n := hlt v (by simp [hstack])
  have hread : (t.desk n low work roots).numbers[v]? = some (some (t.num v)) := by
    rw [← Search.number?_of_met hmet]
    exact getElem?_tableOf hv _
  have hlow : (t.desk n low work roots).lows[v]? = some (low v) := getElem?_tableOf hv _
  simp only [Desk.close, hread, hlow, Option.bind_eq_bind, Option.bind_some, Option.some_inj]
  split
  next hclosed =>
    have hunstack : Desk.unstack v (t.desk n low work roots).marks []
        (t.desk n low work roots).stack =
          some (tableOf n fun u ↦ below.contains u, above ++ [v], below) := by
      have h := unstack_tableOf (hstack ▸ hlt) (hstack ▸ hnodup) []
      rw [← hstack] at h
      exact h
    have habove : v ∉ above := by
      rw [hstack, List.nodup_middle, List.nodup_cons] at hnodup
      exact fun hmem ↦ hnodup.1 (List.mem_append_left _ hmem)
    rw [hunstack, Search.close_eq hstack habove]
    simp only [Search.desk, List.reverse_cons, Option.bind_some]
    rfl
  next => rfl

/-- What is noted of how far back nodes get when a visit has been reported: it counts for the node
before it. -/
def noted (low : Nat → Nat) (work : List (Nat × Nat)) (found : Nat) (u : Nat) : Nat :=
  if (work.map Prod.fst).head? = some u then min (low u) found else low u

/-- A node reports its low link to the one that it was entered from. -/
theorem report_desk (hv : v < n) (hwork : ∀ p ∈ work.map Prod.fst, p < n) :
    (t.desk n low work roots).report v =
      some (t.desk n (noted low work (low v)) work roots) := by
  rcases work with _ | ⟨⟨parent, i⟩, work⟩
  · rfl
  · have hparent : parent < n := hwork parent List.mem_cons_self
    have hnoted : noted low ((parent, i) :: work) (low v) =
        Function.update low parent (min (low parent) (low v)) := by
      funext u
      by_cases hu : u = parent
      · subst hu
        simp [noted]
      · simp [noted, hu, Ne.symm hu]
    simp only [Desk.report, Search.desk, getElem?_tableOf hv, getElem?_tableOf hparent,
      put?_tableOf hparent, hnoted]
    rfl

end

/-! ### A visit -/

/-- For every node, the ends of the edges out of it. -/
def adjacency (g : Digraph) : List (List Nat) := tableOf g.size g.successors

section

variable {g : Digraph} {s t : Search} {v w i : Nat} (low : Nat → Nat) (work : List (Nat × Nat))
  (roots : List Nat) {ws ends : List Nat}

/-- To go on with the visit of a node that has been met is to look at its neighbours. -/
theorem resume_of_met (hlt : v < g.size) (hmet : t.Met v) :
    Desk.resume g.adjacency (t.desk g.size low work roots) v i =
      ((t.desk g.size low work roots).scan v i ((g.successors v).drop i)).bind fun looked ↦
        if looked.2 then some looked.1 else looked.1.leave v := by
  have hends : g.adjacency[v]? = some (g.successors v) := getElem?_tableOf hlt _
  rw [Desk.resume, meet_of_met hlt hmet, hends]
  rfl

/-- A visit begins by meeting the node. -/
theorem leads_meet (hlt : v < g.size) (hv : ¬ s.Met v) :
    Desk.Leads g.adjacency (s.desk g.size low ((v, 0) :: work) roots)
      ((s.enter v).desk g.size (Function.update low v s.numbers.length)
        ((v, 0) :: work) roots) := by
  refine .of_step_eq ?_ (List.cons_ne_nil _ _)
  show Desk.resume _ (s.desk g.size low work roots) v 0 =
    Desk.resume _ ((s.enter v).desk g.size _ work roots) v 0
  rw [Desk.resume, Desk.resume, meet_of_not_met hlt hv,
    meet_of_met hlt (Search.met_enter.2 (.inl rfl))]

/-- A neighbour that has not been met is visited first. -/
theorem leads_descend (hlt : v < g.size) (hmet : t.Met v) (hw : w < g.size) (hnew : ¬ t.Met w)
    (hdrop : (g.successors v).drop i = w :: ws) :
    Desk.Leads g.adjacency (t.desk g.size low ((v, i) :: work) roots)
      (t.desk g.size low ((w, 0) :: (v, i + 1) :: work) roots) := by
  refine .of_step ?_
  show Desk.resume _ (t.desk g.size low work roots) v i = _
  rw [resume_of_met _ _ _ hlt hmet, hdrop, scan_of_not_met hw hnew]
  rfl

/-- Any other is looked at, and then the next one. -/
theorem leads_next (visit : Search → Nat → Search × Nat) (hlt : v < g.size) (hmet : t.Met v)
    (hw : w < g.size) (hmetw : t.Met w) (hdrop : (g.successors v).drop i = w :: ws) :
    ∃ low', Desk.Leads g.adjacency (t.desk g.size low ((v, i) :: work) roots)
        (t.desk g.size low' ((v, i + 1) :: work) roots) ∧
      look visit (t, low v) w = (t, low' v) ∧ ∀ u, u ≠ v → low' u = low u := by
  have hnext : (g.successors v).drop (i + 1) = ws := by
    rw [← List.drop_drop, hdrop]
    rfl
  have hleads : ∀ low', (t.desk g.size low work roots).scan v i (w :: ws) =
        (t.desk g.size low' work roots).scan v (i + 1) ws →
      Desk.Leads g.adjacency (t.desk g.size low ((v, i) :: work) roots)
        (t.desk g.size low' ((v, i + 1) :: work) roots) := by
    intro low' hscan
    refine .of_step_eq ?_ (List.cons_ne_nil _ _)
    show Desk.resume _ (t.desk g.size low work roots) v i =
      Desk.resume _ (t.desk g.size low' work roots) v (i + 1)
    rw [resume_of_met _ _ _ hlt hmet, resume_of_met _ _ _ hlt hmet, hdrop, hnext, hscan]
  rw [look, Search.number?_of_met hmetw]
  by_cases hstack : w ∈ t.stack
  · exact ⟨_, hleads _ (scan_of_mem hlt hw hmetw hstack), by simp [hstack],
      fun u hu ↦ Function.update_of_ne hu _ _⟩
  · exact ⟨_, hleads _ (scan_of_not_mem hw hmetw hstack), by simp [hstack], fun _ _ ↦ rfl⟩

/-- When all neighbours have been looked at, the visit ends. -/
theorem leads_leave (h : g.Underway (v :: work.map Prod.fst) t)
    (hdrop : (g.successors v).drop i = []) :
    Desk.Leads g.adjacency (t.desk g.size low ((v, i) :: work) roots)
      ((if low v = t.num v then t.close v else t).desk g.size (noted low work (low v))
        work roots) := by
  have hmem : ∀ u ∈ v :: work.map Prod.fst, t.Met u := fun u hu ↦
    h.met_iff.2 (.inl (h.onStack.subset hu))
  have hmet := hmem v List.mem_cons_self
  have hlt := (h.lt v hmet).1
  obtain ⟨above, below, hstack⟩ := List.append_of_mem (h.onStack.subset List.mem_cons_self)
  have hnodup : t.stack.Nodup :=
    (List.nodup_append.1 (h.perm.nodup_iff.2 h.nodup)).1
  have hclose : (t.desk g.size low work roots).close v = _ :=
    close_desk (fun u hu ↦ (h.lt u (h.met_iff.2 (.inl hu))).1) hnodup hstack hmet
  refine .of_step ?_
  show Desk.resume _ (t.desk g.size low work roots) v i = _
  rw [resume_of_met _ _ _ hlt hmet, hdrop]
  show (t.desk g.size low work roots).leave v = _
  rw [Desk.leave, hclose]
  exact report_desk hlt fun p hp ↦ (h.lt p (hmem p (List.mem_cons_of_mem _ hp))).1

/-- What a visit of `v` that starts from `s` comes to on the desk. Of how far back the nodes get
that had been met before, only what has been reported is new. -/
def Visits (g : Digraph) (roots : List Nat) (s : Search) (low : Nat → Nat) (v : Nat)
    (work : List (Nat × Nat)) (visited : Search × Nat) : Prop :=
  ∃ low', Desk.Leads g.adjacency (s.desk g.size low ((v, 0) :: work) roots)
      (visited.1.desk g.size low' work roots) ∧
    ∀ u, s.Met u → low' u = noted low work visited.2 u

section

variable {visit : Search → Nat → Search × Nat} {path : List Nat} (hrange : g.InRange)
  (hv : ¬ s.Met v)
  (hvisits : ∀ t w low i, Search.Grows (s.enter v) t → g.Underway (v :: path) t → ¬ t.Met w →
    g.Edge v w → g.Visits roots t low w ((v, i) :: work) (visit t w))

include hrange hv hvisits

/-- **Looking at a neighbour**, given what visits come to. -/
theorem leads_look (h : g.Look path s v ends t (low v))
    (hdrop : (g.successors v).drop i = w :: ws) :
    ∃ low', Desk.Leads g.adjacency (t.desk g.size low ((v, i) :: work) roots)
        ((look visit (t, low v) w).1.desk g.size low' ((v, i + 1) :: work) roots) ∧
      low' v = (look visit (t, low v) w).2 ∧ ∀ u, s.Met u → low' u = low u := by
  have hedge : g.Edge v w :=
    g.mem_successors.1 (List.mem_of_mem_drop (hdrop ▸ List.mem_cons_self))
  have hmet : t.Met v := h.grows.met v (Search.met_enter.2 (.inl rfl))
  have hlt := (h.underway.lt v hmet).1
  have hw := (hrange _ hedge).2
  have hne : ∀ {u}, s.Met u → u ≠ v := fun hu heq ↦ hv (heq ▸ hu)
  by_cases hmetw : t.Met w
  · obtain ⟨low', hleads, heq, hkept⟩ := leads_next low work roots visit hlt hmet hw hmetw hdrop
    rw [heq]
    exact ⟨low', hleads, rfl, fun u hu ↦ hkept u (hne hu)⟩
  · have hdescend := leads_descend low work roots hlt hmet hw hmetw hdrop
    obtain ⟨low', hleads, hnoted⟩ := hvisits t w low (i + 1) h.grows h.underway hmetw hedge
    rw [look, Search.number?_of_not_met hmetw]
    refine ⟨low', hdescend.trans hleads, ?_, fun u hu ↦ ?_⟩
    · rw [hnoted v hmet]
      simp [noted]
    · rw [hnoted u (h.grows.met u (Search.met_enter.2 (.inr hu)))]
      simp [noted, Ne.symm (hne hu)]

/-- **Looking at neighbours one after the other.** -/
theorem leads_foldl_look (hs : g.Underway path s)
    (hvisit : ∀ t w, Search.Grows (s.enter v) t → g.Underway (v :: path) t → ¬ t.Met w →
      g.Edge v w → g.Visit (v :: path) t w (visit t w).1 (visit t w).2)
    (hends : ends ++ ws = g.successors v) (h : g.Look path s v ends t (low v)) :
    ∃ low', Desk.Leads g.adjacency (t.desk g.size low ((v, ends.length) :: work) roots)
        ((ws.foldl (look visit) (t, low v)).1.desk g.size low'
          ((v, (g.successors v).length) :: work) roots) ∧
      low' v = (ws.foldl (look visit) (t, low v)).2 ∧ ∀ u, s.Met u → low' u = low u := by
  induction ws generalizing ends t low with
  | nil =>
    rw [List.append_nil] at hends
    rw [hends]
    exact ⟨low, .refl _, rfl, fun _ _ ↦ rfl⟩
  | cons w ws ih =>
    have hdrop : (g.successors v).drop ends.length = w :: ws := by
      rw [← hends]
      exact List.drop_left
    have hedge : g.Edge v w := g.mem_successors.1 (by simp [← hends])
    have hlook : g.Look path s v (ends ++ [w]) (look visit (t, low v) w).1
        (look visit (t, low v) w).2 :=
      foldl_look hs hv hvisit [w] (List.forall_mem_singleton.2 hedge) h
    have hrest : (ends ++ [w]) ++ ws = g.successors v := by
      rw [← hends, List.append_assoc, List.singleton_append]
    obtain ⟨low', hfirst, hlow, hkept⟩ := leads_look low work roots hrange hv hvisits h hdrop
    obtain ⟨low'', hleads, hlow', hkept'⟩ := ih low' hrest (hlow.symm ▸ hlook)
    rw [hlow] at hleads hlow'
    rw [List.length_append, List.length_singleton] at hleads
    exact ⟨low'', hfirst.trans hleads, hlow', fun u hu ↦ (hkept' u hu).trans (hkept u hu)⟩

end

/-- **A visit on the desk**, if it may nest as deep as there are nodes to meet. -/
theorem leads_visit (hrange : g.InRange) (fuel : Nat) (h : g.Underway (work.map Prod.fst) s)
    (hv : ¬ s.Met v) (hlt : v < g.size) (hpath : ∀ p ∈ work.map Prod.fst, g.Reaches p v)
    (hfuel : g.size ≤ s.numbers.length + fuel) :
    g.Visits roots s low v work (g.visit fuel s v) := by
  induction fuel generalizing s v low work with
  | zero => exact absurd (h.length_lt hv hlt) (Nat.not_lt.2 hfuel)
  | succ fuel ih =>
    have hvisit : ∀ t w, Search.Grows (s.enter v) t → g.Underway (v :: work.map Prod.fst) t →
        ¬ t.Met w → g.Edge v w →
          g.Visit (v :: work.map Prod.fst) t w (g.visit fuel t w).1 (g.visit fuel t w).2 :=
      fun t w hgrows ht hw hedge ↦ visit_spec hrange fuel ht hw (hrange _ hedge).2
        (reaches_of_edge hpath hedge) (hgrows.size_le hfuel)
    have hstart : g.Look (work.map Prod.fst) s v [] (s.enter v)
        (Function.update low v s.numbers.length v) := by
      rw [Function.update_self]
      exact .start h hv hlt hpath
    obtain ⟨low', hlook, hlow, hkept⟩ := leads_foldl_look _ work roots hrange hv
      (fun t w low i hgrows ht hw hedge ↦
        ih low _ ht hw (hrange _ hedge).2 (reaches_of_edge hpath hedge) (hgrows.size_le hfuel))
      h hvisit (List.nil_append _) hstart
    have hlooked := foldl_look h hv hvisit (g.successors v)
      (fun w hw ↦ g.mem_successors.1 hw) (.start h hv hlt hpath)
    have hleave := leads_leave low' work roots hlooked.underway
      (List.drop_eq_nil_of_le le_rfl)
    rw [Function.update_self] at hlook hlow
    rw [hlow, hlooked.num_eq] at hleave
    refine ⟨_, (leads_meet low work roots hlt hv).trans (hlook.trans hleave), fun u hu ↦ ?_⟩
    have hne : u ≠ v := fun heq ↦ hv (heq ▸ hu)
    rw [visit_succ, noted, noted, hkept u hu, Function.update_of_ne hne]

/-! ### The whole search -/

/-- The work stack gets from a root to the end of the visit that the recursion makes of it. -/
theorem leads_visitNew (hrange : g.InRange) (h : g.Underway [] s) (hlt : v < g.size) :
    ∃ low', Desk.Leads g.adjacency (s.desk g.size low [] (v :: roots))
      ((g.visitNew s v).desk g.size low' [] roots) := by
  have hread : (s.desk g.size low [] roots).numbers[v]? = some (s.number? v) :=
    getElem?_tableOf hlt _
  have hstep : (s.desk g.size low [] (v :: roots)).step g.adjacency =
    Desk.enter (s.desk g.size low [] roots) v := rfl
  rw [Desk.enter, hread] at hstep
  rw [visitNew]
  by_cases hv : s.Met v
  · rw [Search.number?_of_met hv] at hstep ⊢
    exact ⟨low, .of_step hstep⟩
  · rw [Search.number?_of_not_met hv] at hstep ⊢
    obtain ⟨low', hleads, -⟩ := leads_visit low [] roots hrange g.size h hv hlt (by simp)
      (Nat.le_add_left _ _)
    exact ⟨low', .trans (.of_step hstep) hleads⟩

/-- So it does for several roots, one after the other. -/
theorem leads_foldl_visitNew (hrange : g.InRange) (h : g.Underway [] s) (vs : List Nat)
    (hlt : ∀ v ∈ vs, v < g.size) :
    ∃ low', Desk.Leads g.adjacency (s.desk g.size low [] vs)
      ((vs.foldl g.visitNew s).desk g.size low' [] []) := by
  induction vs generalizing s low with
  | nil => exact ⟨low, .refl _⟩
  | cons v vs ih =>
    have hv := hlt v List.mem_cons_self
    obtain ⟨low', hfirst⟩ := leads_visitNew low vs hrange h hv
    obtain ⟨low'', hrest⟩ := ih low' (visitNew_spec hrange h hv).1
      fun w hw ↦ hlt w (List.mem_cons_of_mem _ hw)
    exact ⟨low'', hfirst.trans hrest⟩

/-- The work stack starts where the recursion starts. -/
theorem start_adjacency (g : Digraph) :
    Desk.start g.adjacency = ({} : Search).desk g.size (fun _ ↦ 0) [] (List.range g.size) := by
  have hlength : g.adjacency.length = g.size := by simp [adjacency, tableOf]
  rw [Desk.start, hlength, ← tableOf_const, ← tableOf_const, ← tableOf_const]
  rfl

/-- **With a work stack the search finds the components**, without a fault, and nothing else. -/
theorem finds_iff (hrange : g.InRange) {groups : List (List Nat)} :
    Desk.Finds g.adjacency (.start g.adjacency) groups ↔ groups = g.components := by
  obtain ⟨low', hleads⟩ := leads_foldl_visitNew (fun _ ↦ 0) hrange (underway_start g)
    (List.range g.size) fun v hv ↦ List.mem_range.1 hv
  have hfinds : Desk.Finds g.adjacency (.start g.adjacency) g.components := by
    rw [start_adjacency]
    exact hleads _ (.done ⟨rfl, rfl⟩)
  exact ⟨fun h ↦ h.unique hfinds, fun heq ↦ heq ▸ hfinds⟩

end

/-! ### Adjacency lists -/

/-- The digraph in which the edges out of each node lead to these ends. -/
def ofAdjacency (adj : List (List Nat)) : Digraph where
  size := adj.length
  edges := (List.range adj.length).flatMap fun v ↦ (adj[v]?.getD []).map fun w ↦ (v, w)

theorem flatMap_range_ite {α : Type} (v : Nat) (f : Nat → List α) (n : Nat) :
    ((List.range n).flatMap fun u ↦ if u = v then f u else []) = if v < n then f v else [] := by
  induction n with
  | zero => rfl
  | succ n ih =>
    rw [List.range_succ, List.flatMap_append, ih, List.flatMap_singleton]
    rcases Nat.lt_trichotomy v n with h | rfl | h
    · simp [h, h.ne', Nat.lt_succ_of_lt h]
    · simp
    · simp [h.ne, Nat.not_lt.2 h.le, Nat.not_lt.2 h]

/-- The successors of a node are those that its list names. -/
theorem successors_ofAdjacency {adj : List (List Nat)} {v : Nat} (hv : v < adj.length) :
    (ofAdjacency adj).successors v = adj[v] := by
  have hends : ∀ u, (((adj[u]?.getD []).map fun w ↦ (u, w)).filter fun e ↦ e.1 == v).map Prod.snd =
      if u = v then adj[u]?.getD [] else [] := by
    intro u
    by_cases huv : u = v
    · simp [List.filter_map, Function.comp_def, huv]
    · simp [List.filter_map, Function.comp_def, huv]
  rw [successors, ofAdjacency, List.filter_flatMap, List.map_flatMap]
  simp only [hends]
  rw [flatMap_range_ite, if_pos hv]
  simp [hv]

/-- The lists of a digraph made from lists are these lists. -/
theorem adjacency_ofAdjacency (adj : List (List Nat)) : (ofAdjacency adj).adjacency = adj := by
  refine List.ext_getElem (by simp [adjacency, tableOf, ofAdjacency]) fun v _ hv ↦ ?_
  rw [← successors_ofAdjacency hv]
  simp [adjacency, tableOf]

/-- A digraph made from lists stays in range if the lists do. -/
theorem inRange_ofAdjacency {adj : List (List Nat)}
    (hadj : ∀ ends ∈ adj, ∀ w ∈ ends, w < adj.length) : (ofAdjacency adj).InRange := by
  intro e he
  obtain ⟨v, hv, hmem⟩ := List.mem_flatMap.1 he
  obtain ⟨w, hw, rfl⟩ := List.mem_map.1 hmem
  have hlt : v < adj.length := List.mem_range.1 hv
  rw [List.getElem?_eq_getElem hlt, Option.getD_some] at hw
  exact ⟨hlt, hadj _ (List.getElem_mem hlt) w hw⟩

/-- **The search with a work stack is right, and ends.** On an adjacency list of nodes, in which an
end may repeat and a node may lead to itself, the run ends, without a fault, and finds the
components of the digraph. These hold every node once, and none is empty. Two nodes are in one
component exactly if each reaches the other, and no edge leads from a component to a later one. -/
theorem components_of_adjacency (adj : List (List Nat))
    (hadj : ∀ ends ∈ adj, ∀ w ∈ ends, w < adj.length) :
    (∃ g : Digraph, g.InRange ∧ g.adjacency = adj) ∧
    ∀ g : Digraph, g.InRange → g.adjacency = adj →
      (∀ groups, Desk.Finds adj (.start adj) groups ↔ groups = g.components) ∧
      g.components.flatten.Perm (List.range adj.length) ∧
      (∀ group ∈ g.components, group ≠ []) ∧
      (∀ group ∈ g.components, ∀ u ∈ group, ∀ w,
        w ∈ group ↔ g.Reaches u w ∧ g.Reaches w u) ∧
      g.components.Pairwise fun earlier later ↦
        ∀ u ∈ earlier, ∀ w ∈ later, ¬ g.Edge u w := by
  refine ⟨⟨_, inRange_ofAdjacency hadj, adjacency_ofAdjacency adj⟩, ?_⟩
  rintro g hrange rfl
  have hlength : g.adjacency.length = g.size := by simp [adjacency, tableOf]
  rw [hlength]
  exact ⟨fun groups ↦ finds_iff hrange, flatten_components_perm hrange,
    fun group ↦ ne_nil_of_mem_components hrange,
    fun group hgroup u hu w ↦ mem_component_iff hrange hgroup hu, pairwise_components hrange⟩

/-- Two cycles, of which the first leads to the second, and a node by itself. One edge repeats, and
one leads from a node to itself. -/
theorem components_of_adjacency_twoCycles :
    (∀ ends ∈ ([[1, 0], [0, 2, 2], [3], [2], []] : List (List Nat)), ∀ w ∈ ends, w < 5) ∧
    Desk.Finds [[1, 0], [0, 2, 2], [3], [2], []] (.start [[1, 0], [0, 2, 2], [3], [2], []])
      [[3, 2], [1, 0], [4]] := by
  have hadj : ∀ ends ∈ ([[1, 0], [0, 2, 2], [3], [2], []] : List (List Nat)),
    ∀ w ∈ ends, w < 5 := by decide
  refine ⟨hadj, ?_⟩
  obtain ⟨-, hall⟩ := components_of_adjacency _ hadj
  obtain ⟨hfinds, -⟩ := hall (ofAdjacency [[1, 0], [0, 2, 2], [3], [2], []])
    (inRange_ofAdjacency hadj) (adjacency_ofAdjacency _)
  exact (hfinds _).2 rfl

end CueFlow.Digraph
