import CueFlow.Proofs.Engine.Tick
import CueFlow.Proofs.Graph.Wired
/-!
# The calls of a host

A host drives an engine by calls, one after the other, and a call that is refused changes nothing
(`Engine.call`). The engines that a host can bring about this way are the *reachable* ones. What a
call may do to the graph and to the plan is said once (`Engine.Moves`, `moves_call`), and the
invariants of reachable engines are read off it (`Reachable.graph_induction`): ids stay unique
(`Reachable.uniqueIds`), the graph stays sound and wired (`Reachable.sound`, `Reachable.wired`), and
the watchdog works with the configured thresholds (`Reachable.thresholds`).

A tick of a running engine either halts because its graph does not compile or runs both passes over
a plan; there is no third way (`tickAt_cases`).
-/

namespace CueFlow

/-- One call of a host. -/
inductive HostCall where
  | load (state : GraphState)
  | compile
  | applyEdit (edit : GraphEdit)
  | tryEdit (edit : GraphEdit)
  | setOverride (node : NodeId) (kind : OverrideKind) (key : String) (value : Value)
      (lifetime : Option Float) (now : Float)
  | clearOverride (node : NodeId) (kind : OverrideKind) (key : String)
  | setPolicy (policy : HostPolicy)
  | start
  | stop
  | tick (now : Float)

namespace Engine

variable (e : Engine)

/-- The engine that an operation leaves behind: a refused operation leaves it as it was. -/
def orStay (result : Except EngineError Engine) : Engine :=
  match result with
  | .ok e' => e'
  | .error _ => e

/-- The outcome of a call: the engine after it, and the events it brought about. -/
def call : HostCall → Engine × List Event
  | .load state => (e.orStay ((e.load state).map Prod.fst), [])
  | .compile => (e.orStay (e.compileNow.map Prod.fst), [])
  | .applyEdit edit => (e.orStay (e.applyEdit edit), [])
  | .tryEdit edit => (e.orStay (e.tryEdit edit), [])
  | .setOverride node kind key value lifetime now =>
    (e.orStay (e.setOverride node kind key value lifetime now), [])
  | .clearOverride node kind key => ((e.clearOverride node kind key).1, [])
  | .setPolicy policy => (e.setPolicy policy, [])
  | .start => (e.orStay e.start, [])
  | .stop => e.stop
  | .tick now => ((e.tickAt now).1, (e.tickAt now).2.2)

/-- The outcome of several calls, one after the other. -/
def run (e : Engine) : List HostCall → Engine × List Event
  | [] => (e, [])
  | c :: rest =>
    let (e', events) := e.call c
    let (e'', later) := e'.run rest
    (e'', events ++ later)

/-- None of these calls is such a call of the engine that it finds. -/
def Never (e : Engine) (P : Engine → HostCall → Prop) (calls : List HostCall) : Prop :=
  ∀ before c after, calls = before ++ c :: after → ¬ P (e.run before).1 c

/-- The engines that a host can bring about: new around a graph that it built, and then whatever
its calls make of it. -/
inductive Reachable : Engine → Prop
  | new {g : Graph} {config : EngineConfig} {e : Engine} :
      g.Buildable → Engine.new g config = .ok e → Reachable e
  | call {e : Engine} (c : HostCall) : Reachable e → Reachable (e.call c).1

theorem Reachable.run {e : Engine} (h : e.Reachable) (calls : List HostCall) :
    (e.run calls).1.Reachable := by
  induction calls generalizing e with
  | nil => exact h
  | cons c rest ih => exact ih (h.call c)

/-- Runs are put together. -/
theorem run_append (e : Engine) (calls later : List HostCall) : e.run (calls ++ later) =
    (((e.run calls).1.run later).1, (e.run calls).2 ++ ((e.run calls).1.run later).2) := by
  induction calls generalizing e with
  | nil => rfl
  | cons c rest ih =>
    show (((e.call c).1.run (rest ++ later)).1,
      (e.call c).2 ++ ((e.call c).1.run (rest ++ later)).2) = _
    rw [ih, ← List.append_assoc]
    rfl

theorem run_concat (e : Engine) (calls : List HostCall) (c : HostCall) :
    (e.run (calls ++ [c])).1 = ((e.run calls).1.call c).1 := by
  rw [run_append]
  rfl

theorem Never.nil {e : Engine} {P : Engine → HostCall → Prop} : e.Never P [] := by
  intro before c after hsplit
  cases before <;> cases hsplit

/-- What is never called in a run is not called first, nor in the rest of it. -/
theorem Never.of_cons {e : Engine} {P : Engine → HostCall → Prop} {c : HostCall}
    {rest : List HostCall} (h : e.Never P (c :: rest)) : ¬ P e c ∧ (e.call c).1.Never P rest :=
  ⟨h [] c rest rfl, fun before c' after hsplit ↦
    h (c :: before) c' after (congrArg (c :: ·) hsplit)⟩

theorem Never.concat {e : Engine} {P : Engine → HostCall → Prop} {calls : List HostCall}
    {c : HostCall} (h : e.Never P calls) (hc : ¬ P (e.run calls).1 c) :
    e.Never P (calls ++ [c]) := by
  intro before c' after hsplit
  obtain rfl | ⟨after, last, rfl⟩ := List.eq_nil_or_concat after
  · obtain ⟨rfl, rfl⟩ := List.concat_inj.1 (by simpa using hsplit)
    exact hc
  · refine h before c' after ?_
    rw [List.concat_eq_append, ← List.cons_append, ← List.append_assoc] at hsplit
    exact (List.append_inj' hsplit rfl).1

/-! ### Ticks -/

variable {e}

theorem exists_of_refreshPlan {ready : Engine} (h : e.refreshPlan = .ok ready) :
    ∃ plan, ready = e.keepPlan plan ∧
      (e.isPlanStale = false ∧ e.plan = some plan ∨ e.graph.compile = .ok plan) := by
  rw [refreshPlan] at h
  split at h
  next hstale =>
    obtain ⟨⟨ready', plan'⟩, hcompile, rfl⟩ := map_eq_ok_iff.1 h
    obtain ⟨plan, hplan, hkeep⟩ := bind_eq_ok_iff.1 hcompile
    obtain ⟨rfl, rfl⟩ := Prod.mk.inj (Except.ok.inj hkeep)
    exact ⟨plan, rfl, .inr hplan⟩
  next hfresh =>
    obtain rfl := Except.ok.inj h
    have hfresh : e.isPlanStale = false := by simpa using hfresh
    cases hplan : e.plan with
    | none => simp [isPlanStale, hplan] at hfresh
    | some plan => exact ⟨plan, by rw [keepPlan, ← hplan], .inl ⟨hfresh, rfl⟩⟩

theorem compile_of_refreshPlan {error : EngineError} (h : e.refreshPlan = .error error) :
    e.graph.compile = .error error := by
  rw [refreshPlan] at h
  split at h
  · rw [compileNow] at h
    cases hcompile : e.graph.compile with
    | ok plan =>
      rw [hcompile] at h
      cases h
    | error error' =>
      rw [hcompile] at h
      cases h
      rfl
  · cases h

/-- **A tick of a running engine** halts on a graph that does not compile, or runs both passes over
a plan that is either up to date or fresh. -/
theorem tickAt_cases (hrunning : e.running = true) (now : Float) :
    (∃ error, e.graph.compile = .error error ∧
      e.tickAt now = (e.atTime now).halt (compileReport error)) ∨
    ∃ plan, (e.isPlanStale = false ∧ e.plan = some plan ∨ e.graph.compile = .ok plan) ∧
      e.tickAt now = ((e.atTime now).keepPlan plan).runPlan plan now (e.sinceLast now) := by
  rw [tickAt, if_pos hrunning]
  cases hready : (e.atTime now).refreshPlan with
  | error error =>
    have hcompile : (e.atTime now).graph.compile = .error error := compile_of_refreshPlan hready
    exact .inl ⟨error, hcompile, rfl⟩
  | ok ready =>
    obtain ⟨plan, rfl, hplan⟩ := exists_of_refreshPlan hready
    exact .inr ⟨plan, hplan, rfl⟩

theorem tickAt_of_not_running (h : e.running = false) (now : Float) :
    e.tickAt now = (e, .idle, []) := by
  rw [tickAt, h]
  rfl

/-- Both passes of a tick keep what no part of a tick changes. -/
theorem keeps_passes (e : Engine) (plan : Plan) (now delta : Float) :
    e.Keeps ((e.computed plan now delta).sinkPass plan.steps).1.engine := by
  have hbegin : e.Keeps (e.beginTick now delta).engine :=
    ⟨rfl, rfl, rfl, rfl, rfl, rfl, rfl, rfl, rfl, rfl⟩
  have hcompute := (Tick.Touches.computePass (e.beginTick now delta) plan.steps).keeps
  exact hbegin.trans (hcompute.trans (Tick.Touches.sinkPass _ plan.steps).keeps)

theorem halt_eq (e : Engine) (report : HaltReport) : e.halt report =
    ({ e.stop.1 with halted := some report }, .halted report, e.stop.2 ++ [.halted report]) :=
  rfl

/-- A tick over a plan ends with a report, and then the engine stops, or it is completed. -/
theorem runPlan_cases (e : Engine) (plan : Plan) (now delta : Float) :
    (∃ t report, (e.computed plan now delta).sinkPass plan.steps = (t, some report) ∧
      e.runPlan plan now delta = ({ t.engine.stop.1 with halted := some report }, .halted report,
        t.events ++ (t.engine.stop.2 ++ [.halted report]))) ∨
    ∃ t, (e.computed plan now delta).sinkPass plan.steps = (t, none) ∧
      e.runPlan plan now delta = ({ t.engine with tick := t.engine.tick + 1 }, .completed t.info,
        t.events ++ [.ticked t.info]) := by
  rw [runPlan]
  cases (e.computed plan now delta).sinkPass plan.steps with
  | mk t report =>
    cases report with
    | some report => exact .inl ⟨t, report, rfl, rfl⟩
    | none => exact .inr ⟨t, rfl, rfl⟩

/-! ### What a call that is not refused makes of the engine -/

theorem of_load_eq {state : GraphState} {report : LoadReport} {e' : Engine}
    (h : e.load state = .ok (e', report)) :
    ∃ g, Graph.load e.graph.catalog state e.config.loadPolicy = .ok (g, report) ∧
      e' = { e with
        graph := g
        plan := none
        overrides := {}
        watchdog := e.watchdog.reset
        memory := [] } := by
  obtain ⟨⟨g, report'⟩, hgraph, hok⟩ := bind_eq_ok_iff.1 h
  obtain ⟨rfl, rfl⟩ := Prod.mk.inj (Except.ok.inj hok)
  exact ⟨g, hgraph, rfl⟩

theorem of_load {state : GraphState} {e' : Engine} (h : (e.load state).map Prod.fst = .ok e') :
    ∃ g report, Graph.load e.graph.catalog state e.config.loadPolicy = .ok (g, report) ∧
      e' = { e with
        graph := g
        plan := none
        overrides := {}
        watchdog := e.watchdog.reset
        memory := [] } := by
  obtain ⟨⟨loaded, report⟩, hload, rfl⟩ := map_eq_ok_iff.1 h
  obtain ⟨g, hgraph, heq⟩ := of_load_eq hload
  exact ⟨g, report, hgraph, heq⟩

theorem of_compileNow {e' : Engine} (h : e.compileNow.map Prod.fst = .ok e') :
    ∃ plan, e.graph.compile = .ok plan ∧ e' = e.keepPlan plan := by
  obtain ⟨⟨compiled, plan'⟩, hcompile, rfl⟩ := map_eq_ok_iff.1 h
  obtain ⟨plan, hplan, hok⟩ := bind_eq_ok_iff.1 hcompile
  obtain ⟨rfl, rfl⟩ := Prod.mk.inj (Except.ok.inj hok)
  exact ⟨plan, hplan, rfl⟩

theorem of_applyEdit {edit : GraphEdit} {e' : Engine} (h : e.applyEdit edit = .ok e') :
    ∃ g, e.graph.apply edit = .ok g ∧ e' = forgetRemoved { e with graph := g } edit := by
  obtain ⟨g, happly, hok⟩ := bind_eq_ok_iff.1 h
  exact ⟨g, happly, (Except.ok.inj hok).symm⟩

theorem of_tryEdit {edit : GraphEdit} {e' : Engine} (h : e.tryEdit edit = .ok e') :
    ∃ g, e.graph.apply edit = .ok g ∧
      (edit.isTopology = true ∧ (∃ plan, g.compile = .ok plan ∧
        e' = forgetRemoved { e with graph := g, plan := some plan } edit) ∨
      edit.isTopology = false ∧ e' = forgetRemoved { e with graph := g } edit) := by
  obtain ⟨g, happly, hok⟩ := bind_eq_ok_iff.1 h
  refine ⟨g, happly, ?_⟩
  split at hok
  next htopology =>
    obtain ⟨plan, hcompile, hok⟩ := bind_eq_ok_iff.1 hok
    exact .inl ⟨htopology, plan, hcompile, (Except.ok.inj hok).symm⟩
  next htopology => exact .inr ⟨by simpa using htopology, (Except.ok.inj hok).symm⟩

theorem of_setOverride {node : NodeId} {kind : OverrideKind} {key : String} {value : Value}
    {lifetime : Option Float} {now : Float} {e' : Engine}
    (h : e.setOverride node kind key value lifetime now = .ok e') :
    e' = { e with overrides := e.overrides.set node kind key value lifetime now } := by
  rw [setOverride] at h
  split at h
  · cases h
  · exact (Except.ok.inj h).symm

/-- An override is refused if there is no such node. -/
theorem node_of_setOverride {node : NodeId} {kind : OverrideKind} {key : String} {value : Value}
    {lifetime : Option Float} {now : Float} {e' : Engine}
    (h : e.setOverride node kind key value lifetime now = .ok e') :
    (e.graph.node? node).isSome := by
  rw [setOverride] at h
  split at h
  · cases h
  next n hn => exact hn ▸ rfl

theorem of_start {e' : Engine} (h : e.start = .ok e') :
    ∃ plan, e.graph.compile = .ok plan ∧ e' = { e.keepPlan plan with
      running := true
      halted := none
      tick := 0
      lastTickMs := none
      watchdog := e.watchdog.reset } := by
  obtain ⟨⟨compiled, plan'⟩, hcompile, hok⟩ := bind_eq_ok_iff.1 h
  obtain ⟨plan, hplan, hkeep⟩ := bind_eq_ok_iff.1 hcompile
  obtain ⟨rfl, rfl⟩ := Prod.mk.inj (Except.ok.inj hkeep)
  exact ⟨plan, hplan, (Except.ok.inj hok).symm⟩

/-- An engine starts if its graph compiles. -/
theorem start_of_compile {plan : Plan} (hcompile : e.graph.compile = .ok plan) :
    e.start = .ok { e.keepPlan plan with
      running := true
      halted := none
      tick := 0
      lastTickMs := none
      watchdog := e.watchdog.reset } :=
  bind_eq_ok_iff.2 ⟨_, bind_eq_ok_iff.2 ⟨plan, hcompile, rfl⟩, rfl⟩

/-- What holds whether a call is carried out or refused holds after it. -/
theorem orStay_of {P : Engine → Prop} {result : Except EngineError Engine} (hstay : P e)
    (h : ∀ e', result = .ok e' → P e') : P (e.orStay result) := by
  cases result with
  | ok e' => exact h e' rfl
  | error error => exact hstay

/-! ### What is remembered after a call -/

theorem memoryOf_forgetRemoved (e : Engine) (edit : GraphEdit) (v : NodeId) :
    (e.forgetRemoved edit).memoryOf v =
      if edit.removedNode? = some v then {} else e.memoryOf v := by
  rw [forgetRemoved]
  cases edit.removedNode? with
  | none => rfl
  | some node =>
    show ((e.memory.erase node).get? v).getD {} = _
    rw [KeyMap.get?_erase]
    by_cases hnode : node = v
    · simp [hnode]
    · simp [hnode]
      rfl

/-- A running engine that stops remembers nothing. -/
theorem memory_stop_of_running (hrunning : e.running = true) : e.stop.1.memory = [] := by
  rw [stop, if_pos hrunning]

/-- So does an engine that halts. -/
theorem memory_of_halted (hrunning : e.running = true) {now : Float} {report : HaltReport}
    {events : List Event} (htick : e.tickAt now = (e', .halted report, events)) :
    e'.memory = [] := by
  -- It halts for want of a plan, or because of a report from the sink pass.
  obtain ⟨error, -, heq⟩ | ⟨plan, -, heq⟩ := tickAt_cases hrunning now
  · rw [heq, halt_eq] at htick
    obtain ⟨rfl, -⟩ := Prod.mk.inj htick
    exact memory_stop_of_running (e := e.atTime now) hrunning
  · have hkeeps := ((e.atTime now).keepPlan plan).keeps_passes plan now (e.sinceLast now)
    obtain ⟨t, report, hpass, hrun⟩ | ⟨t, -, hrun⟩ :=
      ((e.atTime now).keepPlan plan).runPlan_cases plan now (e.sinceLast now)
    · rw [hpass] at hkeeps
      rw [heq, hrun] at htick
      obtain ⟨rfl, -⟩ := Prod.mk.inj htick
      exact memory_stop_of_running (hkeeps.running.trans hrunning)
    · rw [heq, hrun] at htick
      cases htick

/-! ### What a call does to the graph -/

/-- What a call may do to the graph and to the plan: keep the skeleton, edit the topology, or load
another graph, with a plan that is kept, made from the graph after the call, or dropped. -/
inductive GraphMove (e e' : Engine) : Prop
  | kept (hskel : e'.graph.skeleton = e.graph.skeleton)
      (hplan : e'.plan = e.plan ∨ ∃ plan, e'.plan = some plan ∧ e'.graph.compile = .ok plan)
  | edited {edit : GraphEdit} (htopology : edit.isTopology = true)
      (happly : e.graph.apply edit = .ok e'.graph)
      (hplan : e'.plan = e.plan ∨ ∃ plan, e'.plan = some plan ∧ e'.graph.compile = .ok plan)
  | loaded {state : GraphState} {policy : LoadPolicy} {report : LoadReport}
      (hload : Graph.load e.graph.catalog state policy = .ok (e'.graph, report))
      (hplan : e'.plan = none)

/-- What a call may do to what no tick changes. -/
structure Moves (e e' : Engine) : Prop where
  config : e'.config = e.config
  thresholds : e'.watchdog.config = e.watchdog.config
  graph : e.GraphMove e'

theorem Keeps.moves {e' : Engine} (h : e.Keeps e') : e.Moves e' :=
  ⟨h.config, h.thresholds, .kept h.skeleton (.inl h.plan)⟩

theorem Moves.refl (e : Engine) : e.Moves e := (Keeps.refl e).moves

/-- Forgetting a removed node leaves the graph and the plan alone. -/
theorem forgetRemoved_eq (e : Engine) (edit : GraphEdit) :
    (e.forgetRemoved edit).graph = e.graph ∧ (e.forgetRemoved edit).plan = e.plan ∧
      (e.forgetRemoved edit).config = e.config ∧
      (e.forgetRemoved edit).watchdog.config = e.watchdog.config := by
  rw [forgetRemoved]
  split
  · exact ⟨rfl, rfl, rfl, rfl⟩
  · exact ⟨rfl, rfl, rfl, rfl⟩

theorem running_forgetRemoved (e : Engine) (edit : GraphEdit) :
    (e.forgetRemoved edit).running = e.running := by
  rw [forgetRemoved]
  split <;> rfl

/-- An edit without a new plan. -/
theorem moves_edit {g : Graph} {edit : GraphEdit} (happly : e.graph.apply edit = .ok g) :
    e.Moves (forgetRemoved { e with graph := g } edit) := by
  obtain ⟨hgraph, hplan, hconfig, hthresholds⟩ := forgetRemoved_eq { e with graph := g } edit
  refine ⟨hconfig, hthresholds, ?_⟩
  cases htopology : edit.isTopology with
  | true => exact .edited htopology (hgraph ▸ happly) (.inl hplan)
  | false =>
    refine .kept ?_ (.inl hplan)
    rw [hgraph]
    exact Graph.skeleton_of_apply htopology happly

theorem moves_tryEdit {edit : GraphEdit} {e' : Engine} (h : e.tryEdit edit = .ok e') :
    e.Moves e' := by
  obtain ⟨g, happly, ⟨htopology, plan, hcompile, rfl⟩ | ⟨-, rfl⟩⟩ := of_tryEdit h
  · obtain ⟨hgraph, hplan, hconfig, hthresholds⟩ :=
      forgetRemoved_eq { e with graph := g, plan := some plan } edit
    exact ⟨hconfig, hthresholds,
      .edited htopology (hgraph ▸ happly) (.inr ⟨plan, hplan, hgraph ▸ hcompile⟩)⟩
  · exact moves_edit happly

/-- Stopping keeps the skeleton and the plan. -/
theorem stop_fst (e : Engine) : e.stop.1.graph.skeleton = e.graph.skeleton ∧
    e.stop.1.plan = e.plan ∧ e.stop.1.config = e.config ∧
      e.stop.1.watchdog.config = e.watchdog.config := by
  rw [stop]
  split
  · exact ⟨Graph.skeleton_clearOutputs, rfl, rfl, rfl⟩
  · exact ⟨rfl, rfl, rfl, rfl⟩

theorem moves_stop (e : Engine) : e.Moves e.stop.1 := by
  obtain ⟨hskel, hplan, hconfig, hthresholds⟩ := e.stop_fst
  exact ⟨hconfig, hthresholds, .kept hskel (.inl hplan)⟩

/-- A tick over a plan keeps the skeleton and the plan, however it ends. -/
theorem runPlan_fst (e : Engine) (plan : Plan) (now delta : Float) :
    (e.runPlan plan now delta).1.graph.skeleton = e.graph.skeleton ∧
    (e.runPlan plan now delta).1.plan = e.plan ∧
    (e.runPlan plan now delta).1.config = e.config ∧
    (e.runPlan plan now delta).1.watchdog.config = e.watchdog.config := by
  have hkeeps := e.keeps_passes plan now delta
  obtain ⟨t, report, hpass, heq⟩ | ⟨t, hpass, heq⟩ := e.runPlan_cases plan now delta
  · rw [hpass] at hkeeps
    obtain ⟨hskel, hplan, hconfig, hthresholds⟩ := t.engine.stop_fst
    rw [heq]
    exact ⟨hskel.trans hkeeps.skeleton, hplan.trans hkeeps.plan, hconfig.trans hkeeps.config,
      hthresholds.trans hkeeps.thresholds⟩
  · rw [hpass] at hkeeps
    rw [heq]
    exact ⟨hkeeps.skeleton, hkeeps.plan, hkeeps.config, hkeeps.thresholds⟩

/-- A tick keeps the skeleton. -/
theorem skeleton_tickAt (e : Engine) (now : Float) :
    (e.tickAt now).1.graph.skeleton = e.graph.skeleton := by
  cases hrunning : e.running with
  | false => rw [tickAt_of_not_running hrunning]
  | true =>
    obtain ⟨error, -, heq⟩ | ⟨plan, -, heq⟩ := tickAt_cases hrunning now
    · rw [heq, halt_eq]
      exact (e.atTime now).stop_fst.1
    · rw [heq]
      exact (((e.atTime now).keepPlan plan).runPlan_fst plan now (e.sinceLast now)).1

theorem moves_tick (e : Engine) (now : Float) : e.Moves (e.tickAt now).1 := by
  cases hrunning : e.running with
  | false =>
    rw [tickAt_of_not_running hrunning]
    exact Moves.refl e
  | true =>
    obtain ⟨error, -, heq⟩ | ⟨plan, hplan, heq⟩ := tickAt_cases hrunning now
    · obtain ⟨hskel, hsame, hconfig, hthresholds⟩ := (e.atTime now).stop_fst
      rw [heq, halt_eq]
      exact ⟨hconfig, hthresholds, .kept hskel (.inl hsame)⟩
    · obtain ⟨hskel, hkept, hconfig, hthresholds⟩ :=
        ((e.atTime now).keepPlan plan).runPlan_fst plan now (e.sinceLast now)
      rw [heq]
      refine ⟨hconfig, hthresholds, .kept hskel ?_⟩
      obtain ⟨-, hplan⟩ | hplan := hplan
      · exact .inl (hkept.trans hplan.symm)
      · exact .inr ⟨plan, hkept, (Graph.compile_congr hskel).trans hplan⟩

/-- **What a call of a host may do to the graph and the plan.** -/
theorem moves_call (e : Engine) (c : HostCall) : e.Moves (e.call c).1 := by
  cases c with
  | load state =>
    refine orStay_of (Moves.refl e) fun e' h ↦ ?_
    obtain ⟨g, report, hload, rfl⟩ := of_load h
    exact ⟨rfl, rfl, .loaded hload rfl⟩
  | compile =>
    refine orStay_of (Moves.refl e) fun e' h ↦ ?_
    obtain ⟨plan, hcompile, rfl⟩ := of_compileNow h
    exact ⟨rfl, rfl, .kept rfl (.inr ⟨plan, rfl, hcompile⟩)⟩
  | applyEdit edit =>
    refine orStay_of (Moves.refl e) fun e' h ↦ ?_
    obtain ⟨g, happly, rfl⟩ := of_applyEdit h
    exact moves_edit happly
  | tryEdit edit => exact orStay_of (Moves.refl e) fun e' h ↦ moves_tryEdit h
  | setOverride node kind key value lifetime now =>
    refine orStay_of (Moves.refl e) fun e' h ↦ ?_
    obtain rfl := of_setOverride h
    exact ⟨rfl, rfl, .kept rfl (.inl rfl)⟩
  | clearOverride => exact ⟨rfl, rfl, .kept rfl (.inl rfl)⟩
  | setPolicy policy => exact ⟨rfl, rfl, .kept rfl (.inl rfl)⟩
  | start =>
    refine orStay_of (Moves.refl e) fun e' h ↦ ?_
    obtain ⟨plan, hcompile, rfl⟩ := of_start h
    exact ⟨rfl, rfl, .kept rfl (.inr ⟨plan, rfl, hcompile⟩)⟩
  | stop => exact moves_stop e
  | tick now => exact moves_tick e now

/-! ### Invariants of reachable engines -/

/-- A new engine is at rest around the graph it was given. -/
theorem new_eq {g : Graph} {config : EngineConfig} {e : Engine} (h : Engine.new g config = .ok e) :
    e = { graph := g, config, watchdog := { config := config.watchdog } } := by
  rw [Engine.new] at h
  split at h
  · exact (Except.ok.inj h).symm
  · cases h

/-- Whether an engine is made is up to the config. -/
theorem new_of_new {g : Graph} {config : EngineConfig} {e : Engine}
    (h : Engine.new g config = .ok e) (g' : Graph) :
    Engine.new g' config = .ok { e with graph := g' } := by
  have he := new_eq h
  rw [Engine.new] at h ⊢
  split at h
  · rw [he]
  · cases h

/-- **What holds of the graph of a reachable engine**: all that holds of the graphs that a host can
build, is kept by edits and depends on the skeleton only. -/
theorem Reachable.graph_induction {P : Graph → Prop} (h : e.Reachable)
    (hbuildable : ∀ g : Graph, g.Buildable → P g)
    (hedit : ∀ (g : Graph) edit g', P g → g.apply edit = .ok g' → P g')
    (hcongr : ∀ g g' : Graph, P g → g'.skeleton = g.skeleton → P g') : P e.graph := by
  induction h with
  | new hg hnew =>
    rw [new_eq hnew]
    exact hbuildable _ hg
  | @call e c _ ih =>
    cases (e.moves_call c).graph with
    | kept hskel => exact hcongr _ _ ih hskel
    | edited _ happly => exact hedit _ _ _ ih happly
    | loaded hload => exact hbuildable _ (.load hload)

/-- No node id occurs twice in the graph of a reachable engine. -/
theorem Reachable.uniqueIds (h : e.Reachable) : e.graph.UniqueIds :=
  h.graph_induction (fun _ hg ↦ hg.uniqueIds) (fun _ _ _ hg happly ↦ hg.edit happly)
    fun _ _ hg hskel ↦ hg.congr hskel

/-- The graph of a reachable engine is sound. -/
theorem Reachable.sound (h : e.Reachable) : e.graph.Sound :=
  h.graph_induction (fun _ hg ↦ hg.sound) (fun _ _ _ hg happly ↦ hg.edit happly)
    fun _ _ hg hskel ↦ hg.congr hskel

/-- The graph of a reachable engine is wired. -/
theorem Reachable.wired (h : e.Reachable) : e.graph.Wired :=
  h.graph_induction (fun _ hg ↦ hg.wired) (fun _ _ _ hg happly ↦ hg.edit happly)
    fun _ _ hg hskel ↦ hg.congr hskel

/-- The watchdog of a reachable engine works with the configured thresholds. -/
theorem Reachable.thresholds (h : e.Reachable) : e.watchdog.config = e.config.watchdog := by
  induction h with
  | new _ hnew => rw [new_eq hnew]
  | @call e c _ ih =>
    have hmoves := e.moves_call c
    rw [hmoves.thresholds, hmoves.config, ih]

/-- An engine around a snapshot is new around the graph that is loaded. -/
theorem of_ofState {catalog : Catalog} {state : GraphState} {config : EngineConfig}
    {report : LoadReport} (h : Engine.ofState catalog state config = .ok (e, report)) :
    ∃ g, Graph.load catalog state config.loadPolicy = .ok (g, report) ∧
      Engine.new g config = .ok e := by
  obtain ⟨⟨g, report'⟩, hload, h⟩ := bind_eq_ok_iff.1 h
  obtain ⟨e', hnew, h⟩ := bind_eq_ok_iff.1 h
  obtain ⟨rfl, rfl⟩ := Prod.mk.inj (Except.ok.inj h)
  exact ⟨g, hload, hnew⟩

/-- An engine around a snapshot is reachable, whatever the snapshot holds. -/
theorem Reachable.ofState {catalog : Catalog} {state : GraphState} {config : EngineConfig}
    {report : LoadReport} (h : Engine.ofState catalog state config = .ok (e, report)) :
    e.Reachable := by
  obtain ⟨g, hload, hnew⟩ := of_ofState h
  exact .new (.load hload) hnew

theorem Reachable.start {e' : Engine} (h : e.Reachable) (hstart : e.start = .ok e') :
    e'.Reachable := by
  have hcall := h.call .start
  rw [Engine.call, hstart] at hcall
  exact hcall

end Engine

/-! ### A small engine -/

/-- A dimmer that stands at a level, a wire and a lamp. -/
def sampleCatalog : Catalog := .ofDefinitions [
  { type := "level"
    outputs := [{ id := "out", type := .number }]
    process := fun _ _ _ ↦ .ok [("out", .number 1.0)] },
  { type := "wire"
    inputs := [{ id := "in", type := .number }]
    outputs := [{ id := "out", type := .number }]
    process := fun inputs _ _ ↦ .ok ((inputs.get? "in").toList.map fun v ↦ ("out", v)) },
  { type := "lamp"
    inputs := [{ id := "in", type := .number, kind := .sink }]
    sink := some fun _ _ _ ↦ .ok () }]

/-- The dimmer feeds the lamp through the wire. -/
def sampleGraph : Graph where
  catalog := sampleCatalog
  nodes := [{ id := "a", type := "level" }, { id := "b", type := "wire" },
    { id := "c", type := "lamp" }]
  connections := [⟨"ab", "a", "out", "b", "in"⟩, ⟨"bc", "b", "out", "c", "in"⟩]

/-- The engine around these three, at rest. -/
def sampleEngine : Engine where
  graph := sampleGraph
  config := {}
  watchdog := { config := .default }

theorem reachable_sampleEngine : sampleEngine.Reachable := by
  have hload : Graph.load sampleCatalog sampleGraph.snapshot .strict = .ok (sampleGraph, {}) := rfl
  have hnew : Engine.new sampleGraph {} = .ok sampleEngine := rfl
  exact .new (.load hload) hnew

end CueFlow
