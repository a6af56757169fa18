import CueFlow.Proofs.Engine.CallResult
import CueFlow.Proofs.Engine.Veil
/-!
# Engines that a host cannot tell apart

`Engine.views` is all that a host sees of a sequence of calls: their results, the events that they
bring about, and after each of them the snapshot of the graph and whether the engine runs or has
halted. Engines that are the same under the veil look the same in every call and are the same under
the veil after it (`call_congr`), and so they look the same for ever (`views_congr`).
-/

namespace CueFlow

/-- What a host sees of a call. -/
structure HostView where
  result : CallResult
  events : List Event
  /-- The snapshot after the call. -/
  snapshot : GraphState
  running : Bool
  halted : Option HaltReport

/-- Results that agree in what is shown of them are shown alike, refusals included. -/
theorem CallResult.ofExcept_congr {α γ : Type} {x y : Except EngineError α} {g : α → γ}
    {shown : α → CallResult} (hxy : x.map g = y.map g)
    (hshown : ∀ a b, g a = g b → shown a = shown b) : ofExcept shown x = ofExcept shown y := by
  cases x with
  | ok a =>
    cases y with
    | ok b => exact hshown a b (Except.ok.inj hxy)
    | error error => cases hxy
  | error error =>
    cases y with
    | ok b => cases hxy
    | error error' => exact congrArg refused (Except.error.inj hxy)

namespace Engine

variable (e : Engine)

/-- What a host sees of a call. -/
def view (c : HostCall) : HostView where
  result := e.result c
  events := (e.call c).2
  snapshot := (e.call c).1.graph.snapshot
  running := (e.call c).1.running
  halted := (e.call c).1.halted

/-- What a host sees of several calls, one after the other. -/
def views (e : Engine) : List HostCall → List HostView
  | [] => []
  | c :: rest => e.view c :: (e.call c).1.views rest

variable {e} {f : Engine}

/-! ### Stops and ticks -/

/-- A stop is the same under the veil, with the same calls of hooks. -/
theorem veiled_stop (e : Engine) : (e.stop.1.veiled, e.stop.2) = e.veiled.stop := by
  have hrunning : e.veiled.running = e.running := rfl
  rw [stop, stop, hrunning]
  cases e.running with
  | true => rfl
  | false => rfl

/-- Two engines that are the same under the veil stop alike. -/
theorem stop_congr (h : f.veiled = e.veiled) :
    f.stop.1.veiled = e.stop.1.veiled ∧ f.stop.2 = e.stop.2 := by
  have hstop := f.veiled_stop
  rw [h, ← veiled_stop] at hstop
  exact Prod.mk.inj hstop

/-- Two engines that are the same under the veil halt alike. -/
theorem halt_congr (h : f.veiled = e.veiled) (report : HaltReport) :
    (f.halt report).1.veiled = (e.halt report).1.veiled ∧
      (f.halt report).2 = (e.halt report).2 := by
  obtain ⟨hstopped, hevents⟩ := stop_congr h
  rw [halt_eq, halt_eq, hevents]
  exact ⟨(congrArg (fun v : Engine ↦ { v with halted := some report }) hstopped :), rfl⟩

/-- Plans with the same steps run alike. -/
theorem runPlan_congr (h : f.veiled = e.veiled) {plan plan' : Plan}
    (hsteps : plan'.steps = plan.steps) (now delta : Float) :
    (f.runPlan plan' now delta).1.veiled = (e.runPlan plan now delta).1.veiled ∧
      (f.runPlan plan' now delta).2 = (e.runPlan plan now delta).2 := by
  have hbegin : (f.beginTick now delta).veiled = (e.beginTick now delta).veiled :=
    (congrArg (fun v : Engine ↦ v.beginTick now delta) h :)
  have hpass := Tick.sinkPass_congr (Tick.computePass_congr hbegin plan.steps) plan.steps
  rw [runPlan, runPlan, computed, computed, hsteps]
  generalize ((f.beginTick now delta).computePass plan.steps).sinkPass plan.steps = pass' at hpass
  generalize ((e.beginTick now delta).computePass plan.steps).sinkPass plan.steps = pass at hpass
  obtain ⟨u, report'⟩ := pass'
  obtain ⟨t, report⟩ := pass
  obtain ⟨hsame, rfl⟩ : u.veiled = t.veiled ∧ report' = report := hpass
  have hengine : u.engine.veiled = t.engine.veiled := congrArg Tick.engine hsame
  have hevents : u.events = t.events := (congrArg Tick.events hsame :)
  have hinfo : u.info = t.info := (congrArg Tick.info hsame :)
  cases report' with
  | some report =>
    obtain ⟨hhalted, hlast⟩ := halt_congr hengine report
    refine ⟨hhalted, ?_⟩
    show ((u.engine.halt report).2.1, u.events ++ (u.engine.halt report).2.2) = _
    rw [hevents, hlast]
  | none =>
    refine ⟨(congrArg (fun v : Engine ↦ { v with tick := v.tick + 1 }) hengine :), ?_⟩
    show (TickOutcome.completed u.info, u.events ++ _) =
      (TickOutcome.completed t.info, t.events ++ _)
    rw [hevents, hinfo]

/-- Graphs that differ in their generation only compile to plans with the same steps, or not at all.
-/
theorem content_compile_congr {g h : Graph} (hsame : h.reloaded = g.reloaded) :
    h.compile.map Plan.content = g.compile.map Plan.content := by
  rw [← Graph.content_compile_reloaded, hsame, Graph.content_compile_reloaded]

/-- **A tick looks the same**, whatever plans the engines have kept. -/
theorem tickAt_congr (h : f.veiled = e.veiled) (hf : f.PlanSound) (he : e.PlanSound) (now : Float) :
    (f.tickAt now).1.veiled = (e.tickAt now).1.veiled ∧ (f.tickAt now).2 = (e.tickAt now).2 := by
  have hrunning : f.running = e.running := (congrArg Engine.running h :)
  have hlast : f.sinceLast now = e.sinceLast now :=
    (congrArg (fun v : Engine ↦ v.sinceLast now) h :)
  have hgraph : f.graph.reloaded = e.graph.reloaded := congrArg Engine.graph h
  have hcompile := content_compile_congr hgraph
  have hready : (f.atTime now).veiled = (e.atTime now).veiled :=
    (congrArg (fun v : Engine ↦ v.atTime now) h :)
  cases hruns : e.running with
  | false =>
    rw [tickAt_of_not_running hruns, tickAt_of_not_running (hrunning.trans hruns)]
    exact ⟨h, rfl⟩
  | true =>
    obtain ⟨error', hplan', heq'⟩ | ⟨plan', hplan', heq'⟩ :=
      tickAt_eq_runPlan hf (hrunning.trans hruns) now
    · obtain ⟨error, hplan, heq⟩ | ⟨plan, hplan, heq⟩ := tickAt_eq_runPlan he hruns now
      · rw [hplan, hplan'] at hcompile
        obtain rfl := Except.error.inj hcompile
        rw [heq, heq']
        exact halt_congr hready _
      · rw [hplan, hplan'] at hcompile
        cases hcompile
    · obtain ⟨error, hplan, heq⟩ | ⟨plan, hplan, heq⟩ := tickAt_eq_runPlan he hruns now
      · rw [hplan, hplan'] at hcompile
        cases hcompile
      · rw [hplan, hplan'] at hcompile
        obtain ⟨hsteps, -⟩ := Prod.mk.inj (Except.ok.inj hcompile)
        rw [heq, heq', hlast]
        exact runPlan_congr (e := e.readied plan now) (f := f.readied plan' now) hready hsteps now _

/-! ### Operations that may be refused -/

/-- What a host sees of a load. -/
def veiledLoad (loaded : Engine × LoadReport) : Engine × LoadReport := (loaded.1.veiled, loaded.2)

/-- What a host sees of a compilation. -/
def veiledMade (made : Engine × Plan) : Engine × List PlanStep × PlanStats :=
  (made.1.veiled, made.2.content)

/-- An operation that comes to the same in both, or is refused in both, leaves both the same. -/
theorem orStay_congr (h : f.veiled = e.veiled) {x y : Except EngineError Engine}
    (hxy : x.map veiled = y.map veiled) : (f.orStay x).veiled = (e.orStay y).veiled := by
  cases x with
  | ok f' =>
    cases y with
    | ok e' => exact Except.ok.inj hxy
    | error error => cases hxy
  | error error =>
    cases y with
    | ok e' => cases hxy
    | error error' => exact h

theorem veiled_forgetRemoved (e : Engine) (edit : GraphEdit) :
    (e.forgetRemoved edit).veiled = e.veiled.forgetRemoved edit := by
  rw [forgetRemoved, forgetRemoved]
  cases edit.removedNode? with
  | some node => rfl
  | none => rfl

section Calls

variable (h : f.veiled = e.veiled)

include h

/-- A load comes to the same under the veil, with the same report or error. -/
theorem load_congr (state : GraphState) :
    (f.load state).map veiledLoad = (e.load state).map veiledLoad := by
  have hcatalog : f.graph.catalog = e.graph.catalog :=
    (congrArg (fun v : Engine ↦ v.graph.catalog) h :)
  have hpolicy : f.config.loadPolicy = e.config.loadPolicy :=
    (congrArg (fun v : Engine ↦ v.config.loadPolicy) h :)
  rw [load, load, hcatalog, hpolicy]
  refine map_bind_congr (g := id) rfl fun loaded loaded' hloaded ↦ ?_
  obtain rfl : loaded = loaded' := hloaded
  obtain ⟨g, report⟩ := loaded
  exact congrArg (fun v : Engine ↦ Except.ok (({ v with
    graph := g.reloaded
    overrides := {}
    watchdog := v.watchdog.reset
    memory := [] } : Engine), report)) h

/-- Compiling comes to the same under the veil, with the same steps or the same error. -/
theorem compileNow_congr : f.compileNow.map veiledMade = e.compileNow.map veiledMade := by
  have hgraph : f.graph.reloaded = e.graph.reloaded := congrArg Engine.graph h
  refine map_bind_congr (content_compile_congr hgraph) fun plan plan' hplan ↦ ?_
  show Except.ok (f.veiled, plan.content) = Except.ok (e.veiled, plan'.content)
  rw [h, hplan]

/-- A start succeeds in both or is refused with the same error in both. -/
theorem start_congr : f.start.map veiled = e.start.map veiled := by
  refine map_bind_congr (compileNow_congr h) fun made made' hmade ↦ ?_
  obtain ⟨hengine, -⟩ := Prod.mk.inj hmade
  exact congrArg (fun v : Engine ↦ Except.ok { v with
    running := true
    halted := none
    tick := 0
    lastTickMs := none
    watchdog := v.watchdog.reset }) hengine

/-- Graphs that only differ in the generation take their places. -/
theorem withGraph_congr {g g' : Graph} (hgraph : g'.reloaded = g.reloaded)
    (plan plan' : Option Plan) (edit : GraphEdit) :
    (Engine.forgetRemoved { f with graph := g', plan := plan' } edit).veiled =
      (Engine.forgetRemoved { e with graph := g, plan } edit).veiled := by
  have hengine : ({ f with graph := g', plan := plan' } : Engine).veiled =
      ({ e with graph := g, plan } : Engine).veiled := by
    show ({ f.veiled with graph := g'.reloaded } : Engine) = { e.veiled with graph := g.reloaded }
    rw [h, hgraph]
  rw [veiled_forgetRemoved, hengine, veiled_forgetRemoved]

/-- An edit of the graph does not look at its generation. -/
theorem apply_congr (edit : GraphEdit) :
    (f.graph.apply edit).map Graph.reloaded = (e.graph.apply edit).map Graph.reloaded := by
  have hgraph : f.graph.reloaded = e.graph.reloaded := congrArg Engine.graph h
  rw [← Graph.apply_reloaded, hgraph, Graph.apply_reloaded]

/-- An edit comes to the same under the veil, or is refused with the same error. -/
theorem applyEdit_congr (edit : GraphEdit) :
    (f.applyEdit edit).map veiled = (e.applyEdit edit).map veiled :=
  map_bind_congr (apply_congr h edit) fun _ _ hgraph ↦
    congrArg Except.ok (withGraph_congr h hgraph e.plan f.plan edit)

/-- So does an edit that must keep the graph free of cycles. -/
theorem tryEdit_congr (edit : GraphEdit) :
    (f.tryEdit edit).map veiled = (e.tryEdit edit).map veiled := by
  refine map_bind_congr (apply_congr h edit) fun g' g hgraph ↦ ?_
  split
  · exact map_bind_congr (content_compile_congr hgraph) fun plan' plan _ ↦
      congrArg Except.ok (withGraph_congr h hgraph (some plan) (some plan') edit)
  · exact congrArg Except.ok (withGraph_congr h hgraph e.plan f.plan edit)

/-- So does an override. -/
theorem setOverride_congr (node : NodeId) (kind : OverrideKind) (key : String) (value : Value)
    (lifetime : Option Float) (now : Float) :
    (f.setOverride node kind key value lifetime now).map veiled =
      (e.setOverride node kind key value lifetime now).map veiled := by
  have hnode : f.graph.node? node = e.graph.node? node :=
    (congrArg (fun v : Engine ↦ v.graph.node? node) h :)
  rw [setOverride, setOverride, hnode]
  cases e.graph.node? node with
  | none => rfl
  | some n =>
    exact congrArg (fun v : Engine ↦ Except.ok { v with
      overrides := v.overrides.set node kind key value lifetime now }) h

/-- **A call looks the same**, and leaves the engines the same under the veil. -/
theorem call_congr (hf : f.PlanSound) (he : e.PlanSound) (c : HostCall) :
    (f.call c).1.veiled = (e.call c).1.veiled ∧ (f.call c).2 = (e.call c).2 ∧
      f.result c = e.result c := by
  have hdone : ∀ {x y : Except EngineError Engine}, x.map veiled = y.map veiled →
      (f.orStay x).veiled = (e.orStay y).veiled ∧ ([] : List Event) = [] ∧
        CallResult.ofExcept (fun _ ↦ .done) x = CallResult.ofExcept (fun _ ↦ .done) y :=
    fun hxy ↦ ⟨orStay_congr h hxy, rfl, CallResult.ofExcept_congr hxy fun _ _ _ ↦ rfl⟩
  have hfst : ∀ {α : Type} {x y : Except EngineError (Engine × α)} {γ : Type} {g : α → γ},
      x.map (fun made ↦ (made.1.veiled, g made.2)) = y.map (fun made ↦ (made.1.veiled, g made.2)) →
        (x.map Prod.fst).map veiled = (y.map Prod.fst).map veiled := by
    intro α x y γ g hxy
    cases x with
    | ok a =>
      cases y with
      | ok b => exact congrArg Except.ok (Prod.mk.inj (Except.ok.inj hxy)).1
      | error error => cases hxy
    | error error =>
      cases y with
      | ok b => cases hxy
      | error error' => exact congrArg Except.error (Except.error.inj hxy)
  cases c with
  | load state =>
    have hload := load_congr h state
    have hresult := CallResult.ofExcept_congr hload fun _ _ hsame ↦
      congrArg CallResult.loaded (Prod.mk.inj hsame).2
    exact ⟨orStay_congr h (hfst (g := id) hload), rfl, hresult⟩
  | compile =>
    have hcompile := compileNow_congr h
    exact ⟨orStay_congr h (hfst hcompile), rfl, CallResult.ofExcept_congr hcompile fun _ _ hsame ↦
      congrArg (fun content : List PlanStep × PlanStats ↦ CallResult.compiled content.1 content.2)
        (Prod.mk.inj hsame).2⟩
  | applyEdit edit => exact hdone (applyEdit_congr h edit)
  | tryEdit edit => exact hdone (tryEdit_congr h edit)
  | setOverride node kind key value lifetime now =>
    exact hdone (setOverride_congr h node kind key value lifetime now)
  | clearOverride node kind key =>
    have hcleared : (f.clearOverride node kind key).2 = (e.clearOverride node kind key).2 :=
      (congrArg (fun v : Engine ↦ (v.clearOverride node kind key).2) h :)
    exact ⟨(congrArg (fun v : Engine ↦ (v.clearOverride node kind key).1) h :), rfl,
      congrArg CallResult.cleared hcleared⟩
  | setPolicy policy =>
    exact ⟨(congrArg (fun v : Engine ↦ { v with policy := policy.resumed [] }) h :), rfl, rfl⟩
  | start => exact hdone (start_congr h)
  | stop => exact ⟨(stop_congr h).1, (stop_congr h).2, rfl⟩
  | tick now =>
    obtain ⟨hengine, htick⟩ := tickAt_congr h hf he now
    obtain ⟨houtcome, hevents⟩ := Prod.mk.inj htick
    exact ⟨hengine, hevents, congrArg CallResult.ticked houtcome⟩

/-- **Engines that are the same under the veil look the same for ever.** -/
theorem views_congr (hf : f.PlanSound) (he : e.PlanSound) (calls : List HostCall) :
    f.views calls = e.views calls := by
  induction calls generalizing e f with
  | nil => rfl
  | cons c rest ih =>
    obtain ⟨hnext, hevents, hresult⟩ := call_congr h hf he c
    have hview : f.view c = e.view c := by
      rw [view, view, hevents, hresult]
      exact (congrArg (fun v : Engine ↦ HostView.mk (e.result c) (e.call c).2 v.graph.snapshot
        v.running v.halted) hnext :)
    rw [views, views, hview,
      ih hnext ((f.moves_call c).graph.planSound hf) ((e.moves_call c).graph.planSound he)]

end Calls

end Engine

end CueFlow
