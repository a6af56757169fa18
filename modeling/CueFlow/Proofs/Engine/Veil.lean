import CueFlow.Proofs.Engine.PlanFidelity
import CueFlow.Proofs.Graph.Generation
/-!
# What a host cannot see of an engine

A host sees the results of its calls, the calls of its hooks and the snapshots of the graph. It does
not see the generation of the graph, nor the plan that is kept, nor how often the compute gate has
been asked, except through the answers of the gate. `Engine.veiled` is the engine without these: its
gate begins where the gate of the engine has got to.

Two engines that are the same under the veil stay so in every step of a tick, with the same events
(`computePass_congr`, `sinkPass_congr`). Most parts of a step do not look under the veil at all, and
so it can be drawn before them or after; only a question to the compute gate has to be told to the
gate that begins anew (`noteAsked_congr`).
-/

namespace CueFlow

/-- The policy as it goes on after these questions. -/
def HostPolicy.resumed (p : HostPolicy) (asked : KeyMap Nat) : HostPolicy :=
  { p with compute := fun v n ↦ p.compute v ((asked.get? v).getD 0 + n) }

/-- The engine as far as a host can tell. -/
def Engine.veiled (e : Engine) : Engine :=
  { e with
    graph := e.graph.reloaded
    plan := none
    policy := e.policy.resumed e.asked
    asked := [] }

namespace Tick

/-- The tick as far as a host can tell. -/
def veiled (t : Tick) : Tick := { t with engine := t.engine.veiled }

variable {s : PlanStep} {n : Node}

/-! ### What does not look under the veil -/

/-- A cleanup is the same under the veil: it reads inputs and config, and calls a hook. -/
theorem veiled_fireDisable (t : Tick) (d : NodeDefinition) (inputs config : ValueMap)
    (v : NodeId) : (t.fireDisable d inputs config v).veiled =
      t.veiled.fireDisable d inputs config v := by
  have hcontext : t.veiled.context v = t.context v := rfl
  rw [fireDisable, fireDisable, hcontext]
  cases d.disable with
  | none => rfl
  | some hook =>
    dsimp only
    cases succeeded (hook inputs config (t.context v)) with
    | true => rfl
    | false => rfl

/-- Disabling a node neither asks the compute gate nor looks at the plan. -/
theorem veiled_enterDisabled (t : Tick) (s : PlanStep) :
    (t.enterDisabled s).veiled = t.veiled.enterDisabled s := by
  have hmemory : t.veiled.engine.memoryOf s.node = t.engine.memoryOf s.node := rfl
  have hnodes : t.veiled.engine.graph.nodes[s.index]? = t.engine.graph.nodes[s.index]? := rfl
  rw [enterDisabled, enterDisabled, hmemory, hnodes]
  cases (t.engine.memoryOf s.node).disabled with
  | true => rfl
  | false =>
    cases t.engine.graph.nodes[s.index]? with
    | none => rfl
    | some n =>
      have hfired := t.veiled_fireDisable s.definition
        (cleanupInputs s.definition n (t.engine.memoryOf s.node)) (t.engine.effectiveConfig n)
        s.node
      exact congrArg (fun u : Tick ↦ u.mapEngine fun e ↦
        e.remember s.node fun m ↦ { m with disabled := true, sinkSnapshot := none }) hfired

/-- A computation reads the content of the graph, the overrides and the time, all of which can be
seen. -/
theorem veiled_process (t : Tick) (s : PlanStep) (n : Node) :
    (t.process s n).veiled = t.veiled.process s n := by
  have hinputs : t.veiled.engine.resolveInputs s n = t.engine.resolveInputs s n := rfl
  have hconfig : t.veiled.engine.effectiveConfig n = t.engine.effectiveConfig n := rfl
  have hcontext : t.veiled.context s.node = t.context s.node := rfl
  rw [process, process, hinputs, hconfig, hcontext]
  cases s.definition.process (t.engine.resolveInputs s n) (t.engine.effectiveConfig n)
      (t.context s.node) with
  | ok outputs => rfl
  | error failure => rfl

theorem veiled_bypass (t : Tick) (s : PlanStep) : (t.bypass s).veiled = t.veiled.bypass s := by
  rw [bypass, bypass, ← veiled_enterDisabled]
  rfl

/-- A visit of a node with nothing connected commutes with the veil. -/
theorem veiled_visitUnplugged (t : Tick) (s : PlanStep) (n : Node) :
    (t.visitUnplugged s n).veiled = t.veiled.visitUnplugged s n := by
  have hmemory : t.veiled.engine.memoryOf s.node = t.engine.memoryOf s.node := rfl
  rw [visitUnplugged, visitUnplugged, hmemory]
  cases (t.engine.memoryOf s.node).sinkConnected with
  | false => rfl
  | true =>
    have hfired := t.veiled_fireDisable s.definition
      (cleanupInputs s.definition n (t.engine.memoryOf s.node)) (t.engine.effectiveConfig n) s.node
    exact congrArg (fun u : Tick ↦ u.mapEngine fun e ↦
      e.remember s.node fun m ↦ { m with sinkConnected := false, sinkSnapshot := none }) hfired

/-- A delivery commutes with the veil. -/
theorem veiled_deliver (t : Tick) (s : PlanStep) (current : SinkSnapshot) (delivered : ValueMap) :
    (t.deliver s current delivered).veiled = t.veiled.deliver s current delivered := by
  have hcontext : t.veiled.context s.node = t.context s.node := rfl
  rw [deliver, deliver, hcontext]
  cases s.definition.sink with
  | none => rfl
  | some hook =>
    dsimp only
    cases succeeded (hook (sinkInputsFor s.definition current.computeInputs delivered)
      current.config (t.context s.node)) with
    | true => rfl
    | false => rfl

/-- A visit commutes with the veil, and ends with the same report or with none. -/
theorem veiled_visit (t : Tick) (s : PlanStep) (n : Node) :
    ((t.visit s n).1.veiled, (t.visit s n).2) = t.veiled.visit s n := by
  have hconnect : (t.connect s).veiled = t.veiled.connect s := rfl
  rw [visit, visit, ← hconnect]
  generalize t.connect s = t
  have hsight : t.veiled.sight s n = t.sight s n := rfl
  have hmemory : t.veiled.engine.memoryOf s.node = t.engine.memoryOf s.node := rfl
  rw [hsight, hmemory]
  cases delivery? (t.engine.memoryOf s.node).sinkSnapshot (t.sight s n) with
  | none => rfl
  | some delivered =>
    have hguard : t.veiled.guardDelivery s (t.sight s n) delivered =
        ((t.guardDelivery s (t.sight s n) delivered).1.veiled,
          (t.guardDelivery s (t.sight s n) delivered).2) := rfl
    dsimp only
    rw [hguard]
    generalize t.guardDelivery s (t.sight s n) delivered = guarded
    obtain ⟨guarded, report | report⟩ := guarded
    · dsimp only
      rw [← veiled_deliver]
      rfl
    · rfl

/-! ### Questions to the compute gate -/

variable {t u : Tick}

/-- A gate that begins anew goes on from the same question. -/
theorem noteAsked_congr (h : t.veiled = u.veiled) (v : NodeId) :
    (t.noteAsked v).veiled = (u.noteAsked v).veiled := by
  -- The gate that begins anew has answered one question about the node already.
  have hresumed : ∀ t : Tick, (t.noteAsked v).veiled = t.veiled.mapEngine fun e ↦ { e with
      policy := { e.policy with
        compute := fun w n ↦ e.policy.compute w ((if v = w then 1 else 0) + n) } } := by
    intro t
    refine congrArg (fun compute : NodeId → Nat → Bool ↦ t.veiled.mapEngine fun e ↦ { e with
      policy := { e.policy with compute } }) (funext fun w ↦ funext fun n ↦ ?_)
    show t.engine.policy.compute w (((t.engine.asked.insert v _).get? w).getD 0 + n) =
      t.engine.policy.compute w (t.engine.askedOf w + _)
    rw [KeyMap.get?_insert]
    split
    next hw =>
      subst hw
      rw [Option.getD_some, Nat.add_assoc]
      rfl
    next =>
      rw [Nat.zero_add]
      rfl
  rw [hresumed, h, hresumed]

/-! ### The compute pass -/

/-- An enabled node computes under the veil as it would without it: the gate is asked first, and
what follows depends on its answer alone. -/
theorem computeEnabled_congr (h : t.veiled = u.veiled) (s : PlanStep) :
    (t.computeEnabled s).veiled = (u.computeEnabled s).veiled := by
  have hasked := noteAsked_congr h s.node
  have hallowed : t.computeAllowed s.node = u.computeAllowed s.node :=
    (congrArg (fun w : Tick ↦ w.computeAllowed s.node) h :)
  have hnodes : (t.noteAsked s.node).engine.graph.nodes[s.index]? =
      (u.noteAsked s.node).engine.graph.nodes[s.index]? :=
    (congrArg (fun w : Tick ↦ w.engine.graph.nodes[s.index]?) hasked :)
  rw [computeEnabled, computeEnabled, hallowed]
  cases u.computeAllowed s.node with
  | true =>
    rw [if_pos rfl, if_pos rfl, hnodes]
    cases (u.noteAsked s.node).engine.graph.nodes[s.index]? with
    | some n =>
      show ((t.noteAsked s.node).process s n).veiled = ((u.noteAsked s.node).process s n).veiled
      rw [veiled_process, hasked, veiled_process]
    | none => exact hasked
  | false => exact (congrArg (fun w : Tick ↦ w.setOutputs s.index []) hasked :)

/-- **A step of the compute pass** keeps two ticks the same under the veil. -/
theorem computeStep_congr (h : t.veiled = u.veiled) (s : PlanStep) :
    (t.computeStep s).veiled = (u.computeStep s).veiled := by
  have hnode : t.engine.policy.node s.node = u.engine.policy.node s.node :=
    (congrArg (fun w : Tick ↦ w.engine.policy.node s.node) h :)
  rw [computeStep, computeStep, hnode]
  cases u.engine.policy.node s.node with
  | true =>
    have henabled : (t.enable s).veiled = (u.enable s).veiled :=
      (congrArg (fun w : Tick ↦ w.enable s) h :)
    exact computeEnabled_congr henabled s
  | false =>
    show (t.bypass s).veiled = (u.bypass s).veiled
    rw [veiled_bypass, h, veiled_bypass]

/-- **The compute pass** keeps ticks the same under the veil. -/
theorem computePass_congr (h : t.veiled = u.veiled) (steps : List PlanStep) :
    (t.computePass steps).veiled = (u.computePass steps).veiled := by
  induction steps generalizing t u with
  | nil => exact h
  | cons s rest ih => exact ih (computeStep_congr h s)

/-! ### The sink pass -/

/-- Visits of two ticks that are the same under the veil are so again, and report the same. -/
theorem visit_congr (h : t.veiled = u.veiled) (s : PlanStep) (n : Node) :
    (t.visit s n).1.veiled = (u.visit s n).1.veiled ∧ (t.visit s n).2 = (u.visit s n).2 := by
  have hvisit := t.veiled_visit s n
  rw [h, ← veiled_visit] at hvisit
  exact Prod.mk.inj hvisit

/-- The gates of the sink pass give the same answer in both. -/
theorem sinkAllowed_congr (h : t.veiled = u.veiled) (s : PlanStep) :
    (t.sinkAllowed s).1 = (u.sinkAllowed s).1 ∧
      (t.sinkAllowed s).2.veiled = (u.sinkAllowed s).2.veiled := by
  have hnode : t.engine.policy.node s.node = u.engine.policy.node s.node :=
    (congrArg (fun w : Tick ↦ w.engine.policy.node s.node) h :)
  have hallowed : (t.computeAllowed s.node && t.engine.policy.sink s.node) =
      (u.computeAllowed s.node && u.engine.policy.sink s.node) :=
    (congrArg (fun w : Tick ↦ w.computeAllowed s.node && w.engine.policy.sink s.node) h :)
  rw [sinkAllowed, sinkAllowed, hnode]
  cases u.engine.policy.node s.node with
  | true => exact ⟨hallowed, noteAsked_congr h s.node⟩
  | false => exact ⟨rfl, h⟩

/-- **A step of the sink pass** keeps two ticks the same under the veil, and reports the same. -/
theorem sinkStep_congr (h : t.veiled = u.veiled) (s : PlanStep) :
    (t.sinkStep s).1.veiled = (u.sinkStep s).1.veiled ∧ (t.sinkStep s).2 = (u.sinkStep s).2 := by
  have hgates := sinkAllowed_congr h s
  rw [sinkStep, sinkStep]
  cases s.definition.hasSinkInputs with
  | false => exact ⟨h, rfl⟩
  | true =>
    rw [if_pos rfl, if_pos rfl]
    generalize t.sinkAllowed s = gates at hgates
    generalize u.sinkAllowed s = gates' at hgates
    obtain ⟨allowed, t⟩ := gates
    obtain ⟨allowed', u⟩ := gates'
    obtain ⟨rfl, h⟩ : allowed = allowed' ∧ t.veiled = u.veiled := hgates
    have hnodes : t.engine.graph.nodes[s.index]? = u.engine.graph.nodes[s.index]? :=
      (congrArg (fun w : Tick ↦ w.engine.graph.nodes[s.index]?) h :)
    dsimp only
    rw [hnodes]
    cases allowed with
    | false => exact ⟨h, rfl⟩
    | true =>
      rw [if_pos rfl, if_pos rfl]
      cases u.engine.graph.nodes[s.index]? with
      | none => exact ⟨h, rfl⟩
      | some n =>
        dsimp only
        split
        · refine ⟨?_, rfl⟩
          rw [veiled_visitUnplugged, h, veiled_visitUnplugged]
        · exact visit_congr h s n

/-- **The sink pass** keeps ticks the same under the veil, and ends with the same report. -/
theorem sinkPass_congr (h : t.veiled = u.veiled) (steps : List PlanStep) :
    (t.sinkPass steps).1.veiled = (u.sinkPass steps).1.veiled ∧
      (t.sinkPass steps).2 = (u.sinkPass steps).2 := by
  induction steps generalizing t u with
  | nil => exact ⟨h, rfl⟩
  | cons s rest ih =>
    have hstep := sinkStep_congr h s
    rw [sinkPass, sinkPass]
    generalize t.sinkStep s = step at hstep
    generalize u.sinkStep s = step' at hstep
    obtain ⟨t, report⟩ := step
    obtain ⟨u, report'⟩ := step'
    obtain ⟨h, rfl⟩ : t.veiled = u.veiled ∧ report = report' := hstep
    cases report with
    | some report => exact ⟨h, rfl⟩
    | none => exact ih h

end Tick

end CueFlow
