import CueFlow.Proofs.Engine.HostView
import CueFlow.Proofs.Graph.Recast
/-!
# What a failing delivery leaves behind

What a delivery or a cleanup comes to is up to the hook. `HookOutcomes.recasting` replaces the hooks
by ones that come to something else, and `Engine.muted` by ones that never fail. A muted engine has
the same graph, the same plan, the same memory and so on, and it comes to the same in every tick
(`Engine.tickAt_muted`) and in every call (`Engine.call_muted`): what a delivery or a cleanup comes
to shows in the count of failures and nowhere else. For a computation this is not so, as its outputs
go into the graph.

Operations that call no hook commute with any recasting (`Engine.tryEdit_recast`,
`Engine.start_recast` and so on), and so does stopping, which does not look at what its cleanups
come to (`Engine.stop_recast`).
-/

namespace CueFlow

/-! ### Outcomes of deliveries and cleanups -/

/-- What deliveries and cleanups come to: an outcome for every call of a hook of a type. -/
abbrev HookOutcomes := String → HookCall → Except HookFailure Unit

namespace HookOutcomes

/-- The hooks that come to this. Computations are left alone. -/
def recasting (o : HookOutcomes) : Recasting where
  toFun d := { d with
    sink := d.sink.map fun _ inputs config context ↦ o d.type ⟨.sink, inputs, config, context⟩
    disable := d.disable.map fun _ inputs config context ↦
      o d.type ⟨.disable, inputs, config, context⟩ }
  type_eq _ := rfl
  inputs_eq _ := rfl
  outputs_eq _ := rfl
  sink_isSome _ := Option.isSome_map
  disable_isSome _ := Option.isSome_map

/-- Nothing fails. -/
def unfailing : HookOutcomes := fun _ _ ↦ .ok ()

end HookOutcomes

/-- Deliveries and cleanups that never fail. -/
def Recasting.mute : Recasting := HookOutcomes.unfailing.recasting

/-- Whatever the hooks came to before. -/
theorem Recasting.mute_recasting (o : HookOutcomes) (d : NodeDefinition) :
    mute (o.recasting d) = mute d := by
  show ({ d with
    sink := (d.sink.map _).map _
    disable := (d.disable.map _).map _ } : NodeDefinition) = _
  rw [Option.map_map, Option.map_map]
  rfl

/-- The engine with other hooks. -/
def Engine.recast (F : Recasting) (e : Engine) : Engine :=
  { e with graph := e.graph.recast F, plan := e.plan.map (Plan.recast F) }

/-- The engine whose deliveries and cleanups never fail. -/
def Engine.muted (e : Engine) : Engine := e.recast .mute

/-- A muted engine does not depend on what deliveries and cleanups came to. -/
theorem Engine.muted_recast (o : HookOutcomes) (e : Engine) :
    (e.recast o.recasting).muted = e.muted := by
  have hcatalog : ∀ c : Catalog, (c.recast o.recasting).recast .mute = c.recast .mute := by
    intro c
    simp only [Catalog.recast, List.map_map, Function.comp_def, Recasting.mute_recasting]
  have hplan : ∀ p : Plan, (p.recast o.recasting).recast .mute = p.recast .mute := by
    intro p
    simp only [Plan.recast, PlanStep.recast, List.map_map, Function.comp_def,
      Recasting.mute_recasting]
  simp only [muted, recast, Graph.recast, hcatalog, Option.map_map, Function.comp_def, hplan]

/-- Once an engine is muted there is nothing left to mute. -/
@[simp]
theorem Engine.muted_muted (e : Engine) : e.muted.muted = e.muted := e.muted_recast .unfailing

/-- The summary without the count of failures. -/
def TickInfo.muted (i : TickInfo) : TickInfo := { i with failures := 0 }

/-- The event without the count of failures. -/
def Event.muted : Event → Event
  | .ticked info => .ticked info.muted
  | event => event

/-- The outcome without the count of failures. -/
def TickOutcome.muted : TickOutcome → TickOutcome
  | .completed info => .completed info.muted
  | outcome => outcome

/-- The result without the count of failures, and with steps whose deliveries never fail. -/
def CallResult.muted : CallResult → CallResult
  | .compiled steps stats => .compiled (steps.map (·.recast .mute)) stats
  | .ticked outcome => .ticked outcome.muted
  | result => result

/-- What a host sees, without the count of failures. -/
def HostView.muted (view : HostView) : HostView :=
  { view with result := view.result.muted, events := view.events.map Event.muted }

/-! ### Operations that call no hook -/

namespace Engine

variable (F : Recasting) (e : Engine)

/-- A load into the recast engine gives the recast engine, and the same report or error. -/
theorem load_recast (state : GraphState) : (e.recast F).load state =
    (e.load state).map fun loaded ↦ (loaded.1.recast F, loaded.2) := by
  have hgraph := Graph.load_recast F e.graph.catalog state e.config.loadPolicy
  rw [load, load]
  show (Graph.load (e.graph.catalog.recast F) state e.config.loadPolicy >>= _) = _
  rw [hgraph]
  cases Graph.load e.graph.catalog state e.config.loadPolicy <;> rfl

/-- Compiling gives the same plan with other hooks in it, or the same error. -/
theorem compileNow_recast : (e.recast F).compileNow =
    e.compileNow.map fun made ↦ (made.1.recast F, made.2.recast F) := by
  have hgraph := e.graph.compile_recast F
  rw [compileNow, compileNow]
  show ((e.graph.recast F).compile >>= _) = _
  rw [hgraph]
  cases e.graph.compile <;> rfl

theorem forgetRemoved_recast (edit : GraphEdit) :
    (e.recast F).forgetRemoved edit = (e.forgetRemoved edit).recast F := by
  rw [forgetRemoved, forgetRemoved]
  cases edit.removedNode? <;> rfl

/-- An edit commutes with recasting. -/
theorem applyEdit_recast (edit : GraphEdit) :
    (e.recast F).applyEdit edit = (e.applyEdit edit).map (recast F) := by
  have hgraph := e.graph.apply_recast F edit
  rw [applyEdit, applyEdit]
  show ((e.graph.recast F).apply edit >>= _) = _
  rw [hgraph]
  cases e.graph.apply edit with
  | ok g => exact congrArg Except.ok (forgetRemoved_recast F { e with graph := g } edit)
  | error error => rfl

/-- An edit that must keep the graph free of cycles commutes with recasting. -/
theorem tryEdit_recast (edit : GraphEdit) :
    (e.recast F).tryEdit edit = (e.tryEdit edit).map (recast F) := by
  have hgraph := e.graph.apply_recast F edit
  rw [tryEdit, tryEdit]
  show ((e.graph.recast F).apply edit >>= _) = _
  rw [hgraph]
  cases e.graph.apply edit with
  | error error => rfl
  | ok g =>
    cases htopology : edit.isTopology with
    | false => exact congrArg Except.ok (forgetRemoved_recast F { e with graph := g } edit)
    | true =>
      show ((g.recast F).compile >>= _) = Except.map _ (g.compile >>= _)
      rw [Graph.compile_recast]
      cases g.compile with
      | ok plan =>
        exact congrArg Except.ok
          (forgetRemoved_recast F { e with graph := g, plan := some plan } edit)
      | error error => rfl

/-- An override is accepted or refused as it was. -/
theorem setOverride_recast (node : NodeId) (kind : OverrideKind) (key : String) (value : Value)
    (lifetime : Option Float) (now : Float) :
    (e.recast F).setOverride node kind key value lifetime now =
      (e.setOverride node kind key value lifetime now).map (recast F) := by
  have hnode : (e.recast F).graph.node? node = e.graph.node? node := rfl
  rw [setOverride, setOverride, hnode]
  cases e.graph.node? node <;> rfl

/-- A start commutes with recasting. -/
theorem start_recast : (e.recast F).start = e.start.map (recast F) := by
  rw [start, start, compileNow_recast]
  cases e.compileNow <;> rfl

theorem isPlanStale_recast : (e.recast F).isPlanStale = e.isPlanStale := by
  rw [isPlanStale, isPlanStale, recast]
  cases e.plan <;> rfl

/-- A plan that is stale is made anew in both, or in neither. -/
theorem refreshPlan_recast : (e.recast F).refreshPlan = e.refreshPlan.map (recast F) := by
  rw [refreshPlan, refreshPlan, isPlanStale_recast, compileNow_recast]
  cases e.isPlanStale with
  | true => cases e.compileNow <;> rfl
  | false => rfl

/-- A stop calls the cleanup of the same nodes, with the same inputs. -/
theorem stopCall?_recast (n : Node) : (e.recast F).stopCall? n = e.stopCall? n := by
  have hcatalog : (e.recast F).graph.catalog.get? n.type = (e.graph.catalog.get? n.type).map F :=
    e.graph.recast_catalog_get? F n.type
  rw [stopCall?, stopCall?, hcatalog]
  cases e.graph.catalog.get? n.type with
  | none => rfl
  | some d =>
    have hhook := F.disable_isSome d
    simp only [Option.map_some, Option.bind_eq_bind, Option.bind_some, cleanupInputs, F.inputs_eq]
    cases hd : d.disable <;> cases hF : (F d).disable <;> simp [hd, hF] at hhook ⊢
    rfl

/-- A stop calls the same hooks, which it does not ask for what they come to. -/
theorem stop_recast : (e.recast F).stop = (e.stop.1.recast F, e.stop.2) := by
  have hrunning : (e.recast F).running = e.running := rfl
  have hcalls : (e.recast F).stopCall? = e.stopCall? := funext (stopCall?_recast F e)
  rw [stop, stop, hrunning, hcalls]
  cases e.running <;> rfl

/-- A halt calls the same hooks as well, and gives the same report. -/
theorem halt_recast (report : HaltReport) : (e.recast F).halt report =
    ((e.halt report).1.recast F, (e.halt report).2) := by
  rw [halt_eq, halt_eq, stop_recast]
  rfl

end Engine

/-! ### Steps of a tick -/

/-- The step whose deliveries and cleanups never fail. -/
def PlanStep.muted (s : PlanStep) : PlanStep := s.recast .mute

@[simp]
theorem PlanStep.muted_muted (s : PlanStep) : s.muted.muted = s.muted :=
  congrArg (fun d ↦ { s with definition := d }) (Recasting.mute_recasting .unfailing s.definition)

namespace Tick

/-- The tick whose deliveries and cleanups never fail, without the count of failures. -/
def muted (t : Tick) : Tick := { t with engine := t.engine.muted, info := t.info.muted }

/-- A cleanup may fail, and that is counted among the failures only. -/
theorem muted_fireDisable (t : Tick) (d : NodeDefinition) (inputs config : ValueMap) (v : NodeId) :
    (t.fireDisable d inputs config v).muted =
      t.muted.fireDisable (Recasting.mute d) inputs config v := by
  have hcontext : t.muted.context v = t.context v := rfl
  have hmute : (Recasting.mute d).disable = d.disable.map fun _ _ _ _ ↦ .ok () := rfl
  rw [fireDisable, fireDisable, hmute, hcontext]
  cases d.disable with
  | none => rfl
  | some hook =>
    dsimp only [Option.map_some]
    cases succeeded (hook inputs config (t.context v)) with
    | true => rfl
    | false => rfl

/-- Disabling a node commutes with muting. -/
theorem muted_enterDisabled (t : Tick) (s : PlanStep) :
    (t.enterDisabled s).muted = t.muted.enterDisabled s.muted := by
  have hmemory : t.muted.engine.memoryOf s.muted.node = t.engine.memoryOf s.node := rfl
  have hnodes : t.muted.engine.graph.nodes[s.muted.index]? = t.engine.graph.nodes[s.index]? := rfl
  rw [enterDisabled, enterDisabled, hmemory, hnodes]
  cases (t.engine.memoryOf s.node).disabled with
  | true => rfl
  | false =>
    cases t.engine.graph.nodes[s.index]? with
    | none => rfl
    | some n =>
      have hfired := t.muted_fireDisable s.definition
        (cleanupInputs s.definition n (t.engine.memoryOf s.node)) (t.engine.effectiveConfig n)
        s.node
      exact congrArg (fun u : Tick ↦ u.mapEngine fun e ↦
        e.remember s.node fun m ↦ { m with disabled := true, sinkSnapshot := none }) hfired

/-- Bypassing a node commutes with muting. -/
theorem muted_bypass (t : Tick) (s : PlanStep) : (t.bypass s).muted = t.muted.bypass s.muted := by
  rw [bypass, bypass, ← muted_enterDisabled]
  rfl

@[simp]
theorem muted_muted (t : Tick) : t.muted.muted = t.muted :=
  congrArg (fun e ↦ { t with engine := e, info := t.info.muted }) t.engine.muted_muted

/-- A computation that fails is counted by the muted tick as well. -/
theorem muted_process (t : Tick) (s : PlanStep) (n : Node) :
    (t.process s n).muted = (t.muted.process s.muted n).muted := by
  have hinputs : t.muted.engine.resolveInputs s.muted n = t.engine.resolveInputs s n := rfl
  have hconfig : t.muted.engine.effectiveConfig n = t.engine.effectiveConfig n := rfl
  have hcontext : t.muted.context s.muted.node = t.context s.node := rfl
  have hprocess : s.muted.definition.process = s.definition.process := rfl
  rw [process, process, hinputs, hconfig, hcontext, hprocess]
  cases s.definition.process (t.engine.resolveInputs s n) (t.engine.effectiveConfig n)
      (t.context s.node) with
  | ok outputs =>
    exact (muted_muted (((t.callProcess s n).setOutputs s.index outputs).mapInfo _)).symm
  | error failure => exact (muted_muted (t.callProcess s n)).symm

/-- A visit of a node with nothing connected commutes with muting. -/
theorem muted_visitUnplugged (t : Tick) (s : PlanStep) (n : Node) :
    (t.visitUnplugged s n).muted = t.muted.visitUnplugged s.muted n := by
  have hmemory : t.muted.engine.memoryOf s.muted.node = t.engine.memoryOf s.node := rfl
  rw [visitUnplugged, visitUnplugged, hmemory]
  cases (t.engine.memoryOf s.node).sinkConnected with
  | false => rfl
  | true =>
    have hfired := t.muted_fireDisable s.definition
      (cleanupInputs s.definition n (t.engine.memoryOf s.node)) (t.engine.effectiveConfig n) s.node
    exact congrArg (fun u : Tick ↦ u.mapEngine fun e ↦
      e.remember s.node fun m ↦ { m with sinkConnected := false, sinkSnapshot := none }) hfired

/-- A delivery may fail, and that is counted among the failures only. -/
theorem muted_deliver (t : Tick) (s : PlanStep) (current : SinkSnapshot) (delivered : ValueMap) :
    (t.deliver s current delivered).muted = t.muted.deliver s.muted current delivered := by
  have hcontext : t.muted.context s.muted.node = t.context s.node := rfl
  have hmute : s.muted.definition.sink = s.definition.sink.map fun _ _ _ _ ↦ .ok () := rfl
  rw [deliver, deliver, hmute, hcontext]
  cases s.definition.sink with
  | none => rfl
  | some hook =>
    dsimp only [Option.map_some]
    cases succeeded (hook (sinkInputsFor s.definition current.computeInputs delivered)
      current.config (t.context s.node)) with
    | true => rfl
    | false => rfl

/-- A visit commutes with muting, and ends with the same report or with none. -/
theorem muted_visit (t : Tick) (s : PlanStep) (n : Node) :
    t.muted.visit s.muted n = ((t.visit s n).1.muted, (t.visit s n).2) := by
  have hconnect : (t.connect s).muted = t.muted.connect s.muted := rfl
  rw [visit, visit, ← hconnect]
  generalize t.connect s = t
  have hsight : t.muted.sight s.muted n = t.sight s n := rfl
  have hmemory : t.muted.engine.memoryOf s.muted.node = t.engine.memoryOf s.node := rfl
  rw [hsight, hmemory]
  cases delivery? (t.engine.memoryOf s.node).sinkSnapshot (t.sight s n) with
  | none => rfl
  | some delivered =>
    have hguard : t.muted.guardDelivery s.muted (t.sight s n) delivered =
        ((t.guardDelivery s (t.sight s n) delivered).1.muted,
          (t.guardDelivery s (t.sight s n) delivered).2) := rfl
    dsimp only
    rw [hguard]
    generalize t.guardDelivery s (t.sight s n) delivered = guarded
    obtain ⟨guarded, report | report⟩ := guarded
    · dsimp only
      rw [← muted_deliver]
      rfl
    · rfl

/-- **A step of the compute pass** commutes with muting, up to the failures of computations. -/
theorem muted_computeStep (t : Tick) (s : PlanStep) :
    (t.computeStep s).muted = (t.muted.computeStep s.muted).muted := by
  have hnode : t.muted.engine.policy.node s.muted.node = t.engine.policy.node s.node := rfl
  rw [computeStep, computeStep, hnode]
  cases t.engine.policy.node s.node with
  | false =>
    show (t.bypass s).muted = (t.muted.bypass s.muted).muted
    rw [← muted_bypass, muted_muted]
  | true =>
    have hasked : ((t.muted.enable s.muted).noteAsked s.muted.node) =
        ((t.enable s).noteAsked s.node).muted := rfl
    have hallowed : (t.muted.enable s.muted).computeAllowed s.muted.node =
        (t.enable s).computeAllowed s.node := rfl
    show ((t.enable s).computeEnabled s).muted =
      ((t.muted.enable s.muted).computeEnabled s.muted).muted
    rw [computeEnabled, computeEnabled, hasked, hallowed]
    generalize (t.enable s).noteAsked s.node = asked
    have hnodes :
        asked.muted.engine.graph.nodes[s.muted.index]? = asked.engine.graph.nodes[s.index]? := rfl
    rw [hnodes]
    cases (t.enable s).computeAllowed s.node with
    | false => exact (muted_muted (asked.setOutputs s.index [])).symm
    | true =>
      rw [if_pos rfl, if_pos rfl]
      cases asked.engine.graph.nodes[s.index]? with
      | some n => exact muted_process asked s n
      | none => exact (muted_muted asked).symm

/-- **A step of the sink pass** commutes with muting, and ends with the same report or with none. -/
theorem muted_sinkStep (t : Tick) (s : PlanStep) :
    t.muted.sinkStep s.muted = ((t.sinkStep s).1.muted, (t.sinkStep s).2) := by
  have hinputs : s.muted.definition.hasSinkInputs = s.definition.hasSinkInputs := rfl
  have hgates : t.muted.sinkAllowed s.muted = ((t.sinkAllowed s).1, (t.sinkAllowed s).2.muted) := by
    have hnode : t.muted.engine.policy.node s.muted.node = t.engine.policy.node s.node := rfl
    rw [sinkAllowed, sinkAllowed, hnode]
    cases t.engine.policy.node s.node <;> rfl
  rw [sinkStep, sinkStep, hinputs, hgates]
  cases s.definition.hasSinkInputs with
  | false => rfl
  | true =>
    rw [if_pos rfl, if_pos rfl]
    generalize t.sinkAllowed s = gates
    obtain ⟨allowed, asked⟩ := gates
    have hnodes :
        asked.muted.engine.graph.nodes[s.muted.index]? = asked.engine.graph.nodes[s.index]? := rfl
    have hcount : s.muted.sinkConnectionCount = s.sinkConnectionCount := rfl
    dsimp only
    rw [hnodes, hcount]
    cases allowed with
    | false => rfl
    | true =>
      rw [if_pos rfl, if_pos rfl]
      cases asked.engine.graph.nodes[s.index]? with
      | none => rfl
      | some n =>
        dsimp only
        split
        · rw [muted_visitUnplugged]
        · rw [muted_visit]

variable {t u : Tick}

/-- **The compute pass** of a muted tick. -/
theorem computePass_muted (h : u.muted = t.muted) (steps : List PlanStep) :
    (u.computePass (steps.map PlanStep.muted)).muted = (t.computePass steps).muted := by
  induction steps generalizing t u with
  | nil => exact h
  | cons s rest ih =>
    refine ih (u := u.computeStep s.muted) (t := t.computeStep s) ?_
    rw [muted_computeStep, h, PlanStep.muted_muted, ← muted_computeStep]

/-- **The sink pass** of a muted tick, which ends with the same report. -/
theorem sinkPass_muted (h : u.muted = t.muted) (steps : List PlanStep) :
    (u.sinkPass (steps.map PlanStep.muted)).1.muted = (t.sinkPass steps).1.muted ∧
      (u.sinkPass (steps.map PlanStep.muted)).2 = (t.sinkPass steps).2 := by
  induction steps generalizing t u with
  | nil => exact ⟨h, rfl⟩
  | cons s rest ih =>
    have hstep := (muted_sinkStep u s.muted).symm
    rw [PlanStep.muted_muted, h, muted_sinkStep] at hstep
    rw [List.map_cons, sinkPass, sinkPass]
    generalize u.sinkStep s.muted = step' at hstep
    generalize t.sinkStep s = step at hstep
    obtain ⟨u', report'⟩ := step'
    obtain ⟨t', report⟩ := step
    obtain ⟨h', rfl⟩ : u'.muted = t'.muted ∧ report' = report := Prod.mk.inj hstep
    cases report' with
    | some report => exact ⟨h', rfl⟩
    | none => exact ih h'

end Tick

/-! ### Calls -/

namespace Engine

variable {e f : Engine} (now : Float)

/-- Engines that are the same when muted halt alike. -/
theorem halt_muted (h : f.muted = e.muted) (report : HaltReport) :
    (f.halt report).1.muted = (e.halt report).1.muted ∧
      (f.halt report).2 = (e.halt report).2 := by
  have hhalt := f.halt_recast .mute report
  have hhalt' := e.halt_recast .mute report
  rw [← Engine.muted, h] at hhalt
  rw [← Engine.muted, hhalt] at hhalt'
  exact Prod.mk.inj hhalt'

variable (e)

/-- The passes of a tick come to the same but for the count of failures. -/
theorem runPlan_muted (plan : Plan) (delta : Float) :
    (e.muted.runPlan (plan.recast .mute) now delta).1.muted = (e.runPlan plan now delta).1.muted ∧
      (e.muted.runPlan (plan.recast .mute) now delta).2.1.muted =
        (e.runPlan plan now delta).2.1.muted ∧
      (e.muted.runPlan (plan.recast .mute) now delta).2.2.map Event.muted =
        (e.runPlan plan now delta).2.2.map Event.muted := by
  have hbegin : (e.muted.beginTick now delta).muted = (e.beginTick now delta).muted :=
    Tick.muted_muted (e.beginTick now delta)
  have hpass := Tick.sinkPass_muted (Tick.computePass_muted hbegin plan.steps) plan.steps
  have hsteps : (plan.recast .mute).steps = plan.steps.map PlanStep.muted := rfl
  rw [runPlan, runPlan, computed, computed, hsteps]
  generalize ((e.muted.beginTick now delta).computePass (plan.steps.map PlanStep.muted)).sinkPass
    (plan.steps.map PlanStep.muted) = pass' at hpass
  generalize ((e.beginTick now delta).computePass plan.steps).sinkPass plan.steps = pass at hpass
  obtain ⟨u, report'⟩ := pass'
  obtain ⟨t, report⟩ := pass
  obtain ⟨hsame, rfl⟩ : u.muted = t.muted ∧ report' = report := hpass
  have hengine : u.engine.muted = t.engine.muted := congrArg Tick.engine hsame
  have hevents : u.events = t.events := (congrArg Tick.events hsame :)
  have hinfo : u.info.muted = t.info.muted := (congrArg Tick.info hsame :)
  cases report' with
  | some report =>
    have hhalt := halt_muted hengine report
    refine ⟨hhalt.1, rfl, ?_⟩
    show (u.events ++ (u.engine.halt report).2.2).map Event.muted =
      (t.events ++ (t.engine.halt report).2.2).map Event.muted
    rw [hevents, hhalt.2]
  | none =>
    refine ⟨(congrArg (fun v : Engine ↦ { v with tick := v.tick + 1 }) hengine :),
      congrArg TickOutcome.completed hinfo, ?_⟩
    show (u.events ++ [Event.ticked u.info]).map Event.muted =
      (t.events ++ [Event.ticked t.info]).map Event.muted
    rw [hevents, List.map_append, List.map_append]
    exact congrArg (fun i ↦ t.events.map Event.muted ++ [Event.ticked i]) hinfo

/-- **A tick of a muted engine** comes to the same, but for the count of failures. -/
theorem tickAt_muted : (e.muted.tickAt now).1.muted = (e.tickAt now).1.muted ∧
    (e.muted.tickAt now).2.1.muted = (e.tickAt now).2.1.muted ∧
    (e.muted.tickAt now).2.2.map Event.muted = (e.tickAt now).2.2.map Event.muted := by
  have hrunning : e.muted.running = e.running := rfl
  have hready : (e.muted.atTime now).refreshPlan = (e.atTime now).refreshPlan.map muted :=
    (e.atTime now).refreshPlan_recast .mute
  rw [tickAt, tickAt, hrunning, hready]
  cases e.running with
  | false => exact ⟨e.muted_muted, rfl, rfl⟩
  | true =>
    rw [if_pos rfl, if_pos rfl]
    cases (e.atTime now).refreshPlan with
    | error error =>
      have hhalt := halt_muted (e.atTime now).muted_muted (compileReport error)
      exact ⟨hhalt.1, rfl, congrArg (fun told ↦ told.2.map Event.muted) hhalt.2⟩
    | ok ready =>
      have hplan : ready.muted.plan = ready.plan.map (Plan.recast .mute) := rfl
      dsimp only [Except.map]
      rw [hplan]
      cases ready.plan with
      | none => exact ⟨ready.muted_muted, rfl, rfl⟩
      | some plan => exact ready.runPlan_muted now plan (e.sinceLast now)

/-- An operation that a muted engine carries out in the same way leaves it muted. -/
theorem orStay_muted {x y : Except EngineError Engine} (h : y = x.map muted) :
    (e.muted.orStay y).muted = (e.orStay x).muted := by
  subst h
  cases x with
  | ok e' => exact e'.muted_muted
  | error error => exact e.muted_muted

/-- What a host is told of an operation that may be refused does not change by muting. -/
theorem muted_ofExcept_done {x y : Except EngineError Engine} (h : y = x.map muted) :
    (CallResult.ofExcept (fun _ ↦ .done) y).muted =
      (CallResult.ofExcept (fun _ ↦ .done) x).muted := by
  subst h
  cases x <;> rfl

/-- **A call of a muted engine** comes to the same, but for the count of failures. -/
theorem call_muted (c : HostCall) : (e.muted.call c).1.muted = (e.call c).1.muted ∧
    (e.muted.call c).2.map Event.muted = (e.call c).2.map Event.muted ∧
    (e.muted.result c).muted = (e.result c).muted := by
  cases c with
  | load state =>
    have hload := e.load_recast .mute state
    rw [← muted] at hload
    rw [call, call, result, result, hload]
    cases e.load state with
    | ok loaded => exact ⟨loaded.1.muted_muted, rfl, rfl⟩
    | error error => exact ⟨e.muted_muted, rfl, rfl⟩
  | compile =>
    have hcompile := e.compileNow_recast .mute
    rw [← muted] at hcompile
    rw [call, call, result, result, hcompile]
    cases e.compileNow with
    | ok made =>
      refine ⟨made.1.muted_muted, rfl, ?_⟩
      show CallResult.compiled ((made.2.steps.map PlanStep.muted).map PlanStep.muted) _ = _
      simp only [List.map_map, Function.comp_def, PlanStep.muted_muted]
      rfl
    | error error => exact ⟨e.muted_muted, rfl, rfl⟩
  | applyEdit edit =>
    have hedit : e.muted.applyEdit edit = _ := e.applyEdit_recast .mute edit
    exact ⟨e.orStay_muted hedit, rfl, muted_ofExcept_done hedit⟩
  | tryEdit edit =>
    have hedit : e.muted.tryEdit edit = _ := e.tryEdit_recast .mute edit
    exact ⟨e.orStay_muted hedit, rfl, muted_ofExcept_done hedit⟩
  | setOverride node kind key value lifetime now =>
    have hset : e.muted.setOverride node kind key value lifetime now = _ :=
      e.setOverride_recast .mute node kind key value lifetime now
    exact ⟨e.orStay_muted hset, rfl, muted_ofExcept_done hset⟩
  | clearOverride node kind key => exact ⟨(e.clearOverride node kind key).1.muted_muted, rfl, rfl⟩
  | setPolicy policy => exact ⟨(e.setPolicy policy).muted_muted, rfl, rfl⟩
  | start =>
    have hstart : e.muted.start = _ := e.start_recast .mute
    exact ⟨e.orStay_muted hstart, rfl, muted_ofExcept_done hstart⟩
  | stop =>
    have hstop : e.muted.stop = _ := e.stop_recast .mute
    rw [call, call, hstop]
    exact ⟨e.stop.1.muted_muted, rfl, rfl⟩
  | tick now =>
    obtain ⟨hengine, houtcome, hevents⟩ := e.tickAt_muted now
    exact ⟨hengine, hevents, congrArg CallResult.ticked houtcome⟩

/-- What a host sees of a call of a muted engine, but for the count of failures. -/
theorem view_muted (c : HostCall) : (e.muted.view c).muted = (e.view c).muted := by
  obtain ⟨hengine, hevents, hresult⟩ := e.call_muted c
  rw [view, view, HostView.muted, HostView.muted, hevents, hresult]
  exact (congrArg (fun f : Engine ↦ HostView.mk (e.result c).muted ((e.call c).2.map Event.muted)
    f.graph.snapshot f.running f.halted) hengine :)

end Engine

end CueFlow
