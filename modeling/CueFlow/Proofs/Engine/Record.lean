import CueFlow.Proofs.Engine.Turn
/-!
# Records of the past of a node

An engine remembers of every node what the next tick needs, and a host wants to know what that has
to do with the past of the node. A `Recorder` writes the past down, beside the engine and without
any influence on it: what a record begins with, and how a stop, a halt and a completed tick carry it
on. The record of a node begins anew with the node, when that is created, removed, or replaced by a
load.

What a record has to do with the memory of the engine is said node by node, as an invariant. It is
enough that it holds for a new node, and that the three kinds of entries keep it
(`Recorder.Maintains`); then it holds of all nodes along every run (`Recorder.Kept.holds`).
-/

namespace CueFlow

/-- How the past of a node is written down. -/
structure Recorder (α : Type) where
  /-- The record of a node to which nothing has happened yet. -/
  fresh : α
  /-- The record after this engine is stopped by the host. -/
  stopped : Engine → Node → α → α
  /-- The record after a tick of this engine that halts it. -/
  halted : Engine → Float → Node → α → α
  /-- The record after a completed tick of this engine. -/
  completed : Engine → Float → Node → α → α

namespace Recorder

variable {α : Type} (R : Recorder α)

/-- An entry for each node of the graph; there is nothing to write down under other ids. -/
def enter (e : Engine) (entry : Node → α → α) (r : NodeId → α) : NodeId → α := fun v ↦
  match e.graph.node? v with
  | some n => entry n (r v)
  | none => r v

/-- The record of a node that an edit removes begins anew. -/
def forgetRemoved (edit : GraphEdit) (r : NodeId → α) : NodeId → α :=
  fun v ↦ if edit.removedNode? = some v then R.fresh else r v

/-- The records after a call of the host. -/
def record (e : Engine) (c : HostCall) (r : NodeId → α) : NodeId → α :=
  match c with
  | .load state =>
    match e.load state with
    | .ok _ => fun _ ↦ R.fresh
    | .error _ => r
  | .applyEdit edit =>
    match e.applyEdit edit with
    | .ok _ => R.forgetRemoved edit r
    | .error _ => r
  | .tryEdit edit =>
    match e.tryEdit edit with
    | .ok _ => R.forgetRemoved edit r
    | .error _ => r
  | .stop => if e.running then enter e (R.stopped e) r else r
  | .tick now =>
    match (e.tickAt now).2.1 with
    | .idle => r
    | .halted _ => enter e (R.halted e now) r
    | .completed _ => enter e (R.completed e now) r
  | _ => r

/-- The engines that a host can bring about, with the records that are kept on the way. -/
inductive Kept : Engine → (NodeId → α) → Prop
  | new {g : Graph} {config : EngineConfig} {e : Engine} :
      g.Buildable → Engine.new g config = .ok e → Kept e fun _ ↦ R.fresh
  | call {e : Engine} {r : NodeId → α} (c : HostCall) :
      Kept e r → Kept (e.call c).1 (R.record e c r)

variable {R} {e e' : Engine} {r : NodeId → α} {v : NodeId}

theorem Kept.reachable (h : R.Kept e r) : e.Reachable := by
  induction h with
  | new hg hnew => exact .new hg hnew
  | call c _ ih => exact ih.call c

/-- Keeping records keeps no host from anything. -/
theorem exists_kept (R : Recorder α) (h : e.Reachable) : ∃ r, R.Kept e r := by
  induction h with
  | new hg hnew => exact ⟨_, .new hg hnew⟩
  | call c _ ih =>
    obtain ⟨r, hr⟩ := ih
    exact ⟨_, hr.call c⟩

end Recorder

/-! ### Invariants -/

namespace Recorder

variable {α : Type}

/-- What has to be shown of the nodes of an engine and their records, so that it holds along every
run. -/
structure Maintains (R : Recorder α) (I : Engine → NodeId → α → Prop) : Prop where
  /-- It holds of a node to which nothing has happened yet. -/
  created : ∀ {e : Engine} {v : NodeId}, e.memoryOf v = {} → I e v R.fresh
  /-- It hangs on nothing but the memory and the definition of the node, and gets no stronger when
  an engine starts to run. -/
  kept : ∀ {e e' : Engine} {v : NodeId} {a : α}, I e v a → e'.memoryOf v = e.memoryOf v →
    e'.graph.definitionOf? v = e.graph.definitionOf? v →
      (e'.running = false → e.running = false) → I e' v a
  stopped : ∀ {e : Engine} {n : Node} {a : α}, e.Reachable → e.running = true →
    n ∈ e.graph.nodes → I e n.id a → I e.stop.1 n.id (R.stopped e n a)
  halted : ∀ {e e' : Engine} {n : Node} {a : α} {now : Float} {report : HaltReport}
    {events : List Event}, e.Reachable → e.tickAt now = (e', .halted report, events) →
      n ∈ e.graph.nodes → I e n.id a → I e' n.id (R.halted e now n a)
  completed : ∀ {e e' : Engine} {n : Node} {a : α} {now : Float} {info : TickInfo}
    {events : List Event}, e.Reachable → e.tickAt now = (e', .completed info, events) →
      n ∈ e.graph.nodes → I e n.id a → I e' n.id (R.completed e now n a)

/-- An invariant at one id: it holds if there is a node, and otherwise nothing is remembered under
the id, and nothing written down. -/
def HoldsAt (R : Recorder α) (I : Engine → NodeId → α → Prop) (e : Engine) (v : NodeId) (a : α) :
    Prop :=
  ((e.graph.node? v).isSome → I e v a) ∧
    (e.graph.node? v = none → e.memoryOf v = {} ∧ a = R.fresh)

variable {R : Recorder α} {I : Engine → NodeId → α → Prop} {e e' : Engine} {r : NodeId → α}
  {v : NodeId}

/-- With an empty memory, a new record is right whether or not there is a node. -/
theorem Maintains.holdsAt_fresh (h : R.Maintains I) (hmemory : e.memoryOf v = {}) :
    R.HoldsAt I e v R.fresh :=
  ⟨fun _ ↦ h.created hmemory, fun _ ↦ ⟨hmemory, rfl⟩⟩

/-- What leaves alone the graph and what is remembered leaves alone what holds. -/
theorem Maintains.holdsAt_kept (h : R.Maintains I) {a : α} (hbefore : R.HoldsAt I e v a)
    (hgraph : e'.graph = e.graph) (hmemory : e'.memoryOf v = e.memoryOf v)
    (hrunning : e'.running = false → e.running = false) : R.HoldsAt I e' v a := by
  rw [HoldsAt, hgraph]
  refine ⟨fun hv ↦ h.kept (hbefore.1 hv) hmemory ?_ hrunning, fun hv ↦ ?_⟩
  · rw [hgraph]
  · rw [hmemory]
    exact hbefore.2 hv

/-- An edit forgets what is remembered of the node that it removes, and leaves the others alone. -/
theorem Maintains.holdsAt_edit (h : R.Maintains I) (he : e.Reachable)
    (hbefore : R.HoldsAt I e v (r v)) {edit : GraphEdit} {g : Graph} (plan : Option Plan)
    (happly : e.graph.apply edit = .ok g) :
    R.HoldsAt I (Engine.forgetRemoved { e with graph := g, plan := plan } edit) v
      (R.forgetRemoved edit r v) := by
  have hgraph := (Engine.forgetRemoved_eq { e with graph := g, plan := plan } edit).1
  have hmemory := Engine.memoryOf_forgetRemoved { e with graph := g, plan := plan } edit v
  rw [forgetRemoved]
  by_cases hremoved : edit.removedNode? = some v
  · rw [if_pos hremoved] at hmemory ⊢
    exact h.holdsAt_fresh hmemory
  · rw [if_neg hremoved] at hmemory ⊢
    -- A node that is neither removed nor created keeps its definition.
    cases hv : e.graph.node? v with
    | none =>
      obtain ⟨hnothing, hfresh⟩ := hbefore.2 hv
      rw [hfresh]
      exact h.holdsAt_fresh (hmemory.trans hnothing)
    | some n =>
      have hsome : (e.graph.node? v).isSome := by rw [hv]; rfl
      obtain ⟨hstays, hdefinition⟩ := he.sound.definitionOf?_edit happly hremoved hsome
      refine ⟨fun _ ↦ h.kept (hbefore.1 hsome) hmemory ?_ ?_, fun hnone ↦ ?_⟩
      · rw [hgraph]
        exact hdefinition
      · rw [Engine.running_forgetRemoved]
        exact id
      · rw [hgraph] at hnone
        rw [hnone] at hstays
        cases hstays

/-- An entry for every node. -/
theorem holdsAt_enter {entry : Node → α → α} (hbefore : R.HoldsAt I e v (r v))
    (hskel : e'.graph.skeleton = e.graph.skeleton)
    (hentry : ∀ n ∈ e.graph.nodes, n.id = v → I e v (r v) → I e' v (entry n (r v)))
    (hmemory : e.graph.node? v = none → e.memoryOf v = {} → e'.memoryOf v = {}) :
    R.HoldsAt I e' v (enter e entry r v) := by
  have hsame := Graph.isSome_node?_congr hskel v
  rw [enter]
  cases hv : e.graph.node? v with
  | none =>
    obtain ⟨hnothing, hfresh⟩ := hbefore.2 hv
    rw [hv] at hsame
    refine ⟨fun hsome ↦ ?_, fun _ ↦ ⟨hmemory hv hnothing, hfresh⟩⟩
    rw [hsame] at hsome
    cases hsome
  | some n =>
    rw [hv] at hsame
    refine ⟨fun _ ↦ ?_, fun hnone ↦ ?_⟩
    · have hsome : (e.graph.node? v).isSome := by rw [hv]; rfl
      exact hentry n (List.mem_of_find?_eq_some hv) (Graph.id_of_node? hv) (hbefore.1 hsome)
    · rw [hnone] at hsame
      cases hsame

/-- A stop makes an entry for every node, if the engine runs. -/
theorem Maintains.holdsAt_stop (h : R.Maintains I) (he : e.Reachable)
    (hbefore : R.HoldsAt I e v (r v)) : R.HoldsAt I (e.call .stop).1 v (R.record e .stop r v) := by
  rw [Engine.call, record]
  cases hrunning : e.running with
  | false =>
    rw [Engine.stop, hrunning]
    exact hbefore
  | true =>
    refine holdsAt_enter hbefore e.stop_fst.1 (fun n hn hid hI ↦ ?_) fun _ _ ↦ ?_
    · subst hid
      exact h.stopped he hrunning hn hI
    · rw [Engine.memoryOf, Engine.memory_stop_of_running hrunning]
      rfl

/-- A tick makes an entry for every node, be it halted or completed. -/
theorem Maintains.holdsAt_tick (h : R.Maintains I) (he : e.Reachable)
    (hbefore : R.HoldsAt I e v (r v)) (now : Float) :
    R.HoldsAt I (e.call (.tick now)).1 v (R.record e (.tick now) r v) := by
  have hskel := e.skeleton_tickAt now
  rw [Engine.call, record]
  cases htick : e.tickAt now with
  | mk e' rest =>
    rw [htick] at hskel
    obtain ⟨outcome, events⟩ := rest
    cases outcome with
    | idle =>
      have hstays := Engine.eq_of_idle htick
      subst hstays
      exact hbefore
    | halted report =>
      refine holdsAt_enter hbefore hskel (fun n hn hid hI ↦ ?_) fun _ _ ↦ ?_
      · subst hid
        exact h.halted he htick hn hI
      · rw [Engine.memoryOf, Engine.memory_of_halted (Engine.running_of_halted htick) htick]
        rfl
    | completed info =>
      refine holdsAt_enter hbefore hskel (fun n hn hid hI ↦ ?_) fun hnone hnothing ↦ ?_
      · subst hid
        exact h.completed he htick hn hI
      · rw [← hnothing]
        refine Engine.memoryOf_of_completed he htick ?_
        rw [← Graph.node?_isSome_iff, hnone]
        exact Bool.false_ne_true

/-- **A call of the host keeps an invariant** at every id. -/
theorem Maintains.call (h : R.Maintains I) (he : e.Reachable)
    (hbefore : R.HoldsAt I e v (r v)) (c : HostCall) :
    R.HoldsAt I (e.call c).1 v (R.record e c r v) := by
  have hrefused : ∀ {result : Except EngineError Engine},
      (∀ e', result = .ok e' → R.HoldsAt I e' v (r v)) → R.HoldsAt I (e.orStay result) v (r v) :=
    fun {_} hok ↦ Engine.orStay_of (P := fun e' ↦ R.HoldsAt I e' v (r v)) hbefore hok
  cases c with
  | load state =>
    rw [Engine.call, record]
    cases hload : e.load state with
    | error error => exact hbefore
    | ok loaded =>
      have hloaded : (e.load state).map Prod.fst = .ok loaded.1 := by
        rw [hload]
        rfl
      obtain ⟨g, report, -, heq⟩ := Engine.of_load hloaded
      show R.HoldsAt I loaded.1 v R.fresh
      rw [heq]
      exact h.holdsAt_fresh rfl
  | compile =>
    refine hrefused fun e' hok ↦ ?_
    obtain ⟨plan, -, rfl⟩ := Engine.of_compileNow hok
    exact h.holdsAt_kept hbefore rfl rfl id
  | applyEdit edit =>
    rw [Engine.call, record]
    cases hedit : e.applyEdit edit with
    | error error => exact hbefore
    | ok edited =>
      obtain ⟨g, happly, rfl⟩ := Engine.of_applyEdit hedit
      exact h.holdsAt_edit he hbefore e.plan happly
  | tryEdit edit =>
    rw [Engine.call, record]
    cases hedit : e.tryEdit edit with
    | error error => exact hbefore
    | ok edited =>
      obtain ⟨g, happly, ⟨-, plan, -, rfl⟩ | ⟨-, rfl⟩⟩ := Engine.of_tryEdit hedit
      · exact h.holdsAt_edit he hbefore (some plan) happly
      · exact h.holdsAt_edit he hbefore e.plan happly
  | setOverride =>
    refine hrefused fun e' hok ↦ ?_
    obtain rfl := Engine.of_setOverride hok
    exact h.holdsAt_kept hbefore rfl rfl id
  | clearOverride => exact h.holdsAt_kept hbefore rfl rfl id
  | setPolicy => exact h.holdsAt_kept hbefore rfl rfl id
  | start =>
    refine hrefused fun e' hok ↦ ?_
    obtain ⟨plan, -, rfl⟩ := Engine.of_start hok
    exact h.holdsAt_kept hbefore rfl rfl fun hstopped ↦ absurd hstopped.symm Bool.false_ne_true
  | stop => exact h.holdsAt_stop he hbefore
  | tick now => exact h.holdsAt_tick he hbefore now

/-- All along a run, an invariant holds at every id. -/
theorem Kept.holdsAt (hkept : R.Kept e r) (h : R.Maintains I) (v : NodeId) :
    R.HoldsAt I e v (r v) := by
  induction hkept with
  | new _ hnew =>
    rw [Engine.new_eq hnew]
    exact h.holdsAt_fresh rfl
  | call c hkept ih => exact h.call hkept.reachable ih c

/-- **An invariant holds of all nodes and their records**, all along a run. -/
theorem Kept.holds (hkept : R.Kept e r) (h : R.Maintains I) {n : Node} (hn : n ∈ e.graph.nodes) :
    I e n.id (r n.id) := by
  refine (hkept.holdsAt h n.id).1 ?_
  rw [Graph.node?_isSome_iff]
  exact List.mem_map_of_mem hn

end Recorder

end CueFlow
