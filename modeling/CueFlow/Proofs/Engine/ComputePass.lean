import CueFlow.Proofs.Engine.Tick
import Mathlib.Data.List.Nodup
/-!
# What the compute pass computes

A step of the compute pass gives its node new outputs and may store inputs (`Tick.stepOutputs`,
`Tick.stepInputs`, `nodes_computeStep`). A pass in which no place occurs twice is then described
node by node: what a step finds at its own place is what the tick began with, and what it leaves
there is what the tick ends with (`nodes_computePass`). What a step reads at a place of an earlier
step is final by then (`incoming?_computePass`).
-/

namespace CueFlow

namespace Tick

variable {t : Tick} {s : PlanStep} {n : Node}

/-- Whether a step of the compute pass runs the computation of its node: the node is enabled, and
the compute gate allows it. -/
def computes (t : Tick) (s : PlanStep) : Bool :=
  t.engine.policy.node s.node && t.computeAllowed s.node

/-- The outputs that a step of the compute pass gives its node. -/
def stepOutputs (t : Tick) (s : PlanStep) (n : Node) : ValueMap :=
  if t.engine.policy.node s.node then
    if t.computeAllowed s.node then
      match s.definition.process (t.engine.resolveInputs s n) (t.engine.effectiveConfig n)
          (t.context s.node) with
      | .ok outputs => outputs
      | .error _ => n.outputValues
    else []
  else s.bypassOutputs t.engine.graph

/-- The stored inputs with which a step of the compute pass leaves its node: a computation stores
the defaults that it has to fall back on. -/
def stepInputs (t : Tick) (s : PlanStep) (n : Node) : ValueMap :=
  if t.computes s then n.inputValues.overlay (t.engine.newDefaults s n) else n.inputValues

/-! ### One step -/

/-- Setting outputs changes the outputs of the node at the place, and nothing else about it. -/
theorem nodes_setOutputs (hn : t.engine.graph.nodes[s.index]? = some n) (outputs : ValueMap) :
    (t.setOutputs s.index outputs).engine.graph.nodes[s.index]? =
      some { n with outputValues := outputs } := by
  show (t.engine.graph.nodes.modify s.index _)[s.index]? = _
  rw [List.getElem?_modify_eq, hn]
  rfl

/-- Calling a computation stores the defaults that it fell back on. -/
theorem nodes_callProcess (hn : t.engine.graph.nodes[s.index]? = some n) :
    (t.callProcess s n).engine.graph.nodes[s.index]? =
      some { n with inputValues := n.inputValues.overlay (t.engine.newDefaults s n) } := by
  show (t.engine.graph.nodes.modify s.index _)[s.index]? = _
  rw [List.getElem?_modify_eq, hn]
  rfl

/-- A computation that succeeds sets the outputs of its node; one that fails leaves them as they
were. -/
theorem nodes_process (hn : t.engine.graph.nodes[s.index]? = some n) :
    (t.process s n).engine.graph.nodes[s.index]? = some { n with
      inputValues := n.inputValues.overlay (t.engine.newDefaults s n)
      outputValues := match s.definition.process (t.engine.resolveInputs s n)
          (t.engine.effectiveConfig n) (t.context s.node) with
        | .ok outputs => outputs
        | .error _ => n.outputValues } := by
  have hran := nodes_callProcess hn
  rw [process]
  cases s.definition.process (t.engine.resolveInputs s n) (t.engine.effectiveConfig n)
      (t.context s.node) with
  | ok outputs => exact nodes_setOutputs hran outputs
  | error failure => exact hran

/-- Disabling a node leaves the graph alone. -/
theorem graph_enterDisabled (t : Tick) (s : PlanStep) :
    (t.enterDisabled s).engine.graph = t.engine.graph := by
  rw [enterDisabled, engine_mapEngine, Engine.graph_remember]
  split
  · rfl
  · split
    · rw [engine_fireDisable]
    · rfl

/-- **A step of the compute pass** gives its node new outputs, may store inputs, and keeps the
rest. -/
theorem nodes_computeStep (hn : t.engine.graph.nodes[s.index]? = some n) :
    (t.computeStep s).engine.graph.nodes[s.index]? =
      some { n with inputValues := t.stepInputs s n, outputValues := t.stepOutputs s n } := by
  have hasked : ((t.enable s).noteAsked s.node).engine.graph.nodes[s.index]? = some n := hn
  have hdisabled : (t.enterDisabled s).engine.graph.nodes[s.index]? = some n := by
    rw [graph_enterDisabled]
    exact hn
  have hallowed : (t.enable s).computeAllowed s.node = t.computeAllowed s.node := rfl
  rw [computeStep, stepInputs, stepOutputs, computes]
  cases t.engine.policy.node s.node with
  | true =>
    rw [if_pos rfl, if_pos rfl, computeEnabled, hallowed]
    cases t.computeAllowed s.node with
    | true =>
      rw [if_pos rfl, if_pos rfl, hasked]
      exact nodes_process hasked
    | false => exact nodes_setOutputs hasked []
  | false =>
    rw [if_neg Bool.false_ne_true, if_neg Bool.false_ne_true, bypass, graph_enterDisabled]
    exact nodes_setOutputs hdisabled _

/-! ### The watchdog in the compute pass -/

/-- A computation is not seen by the watchdog. -/
theorem watchdog_process (t : Tick) (s : PlanStep) (n : Node) :
    (t.process s n).engine.watchdog = t.engine.watchdog := by
  rw [process]
  split
  · rfl
  · rfl

/-- Disabling a node is not seen by the watchdog. -/
theorem watchdog_enterDisabled (t : Tick) (s : PlanStep) :
    (t.enterDisabled s).engine.watchdog = t.engine.watchdog := by
  have hremember : ∀ (e : Engine) (f : NodeMemory → NodeMemory),
      (e.remember s.node f).watchdog = e.watchdog := fun _ _ ↦ rfl
  rw [enterDisabled, engine_mapEngine, hremember]
  split
  · rfl
  · split
    · rw [engine_fireDisable]
    · rfl

/-- Nothing of the compute pass is the watchdog's business. -/
theorem watchdog_computePass (t : Tick) (steps : List PlanStep) :
    (t.computePass steps).engine.watchdog = t.engine.watchdog := by
  have hstep : ∀ (t : Tick) (s : PlanStep),
      (t.computeStep s).engine.watchdog = t.engine.watchdog := by
    intro t s
    rw [computeStep]
    split
    · show ((t.enable s).computeEnabled s).engine.watchdog = (t.enable s).engine.watchdog
      rw [computeEnabled]
      split
      · split
        · exact watchdog_process _ s _
        · rfl
      · rfl
    · exact watchdog_enterDisabled t s
  induction steps generalizing t with
  | nil => rfl
  | cons s rest ih => exact (ih _).trans (hstep t s)

/-- The compute pass changes no version. -/
theorem version_computePass (t : Tick) (steps : List PlanStep) :
    (t.computePass steps).engine.graph.version = t.engine.graph.version := by
  have hprocess : ∀ (t : Tick) (s : PlanStep) (n : Node),
      (t.process s n).engine.graph.version = t.engine.graph.version := by
    intro t s n
    rw [process]
    split
    · rfl
    · rfl
  have hstep : ∀ (t : Tick) (s : PlanStep),
      (t.computeStep s).engine.graph.version = t.engine.graph.version := by
    intro t s
    rw [computeStep]
    split
    · show ((t.enable s).computeEnabled s).engine.graph.version = (t.enable s).engine.graph.version
      rw [computeEnabled]
      split
      · split
        · exact hprocess _ s _
        · rfl
      · rfl
    · show (t.enterDisabled s).engine.graph.version = t.engine.graph.version
      rw [graph_enterDisabled]
  induction steps generalizing t with
  | nil => rfl
  | cons s rest ih => exact (ih _).trans (hstep t s)

/-! ### The pass -/

variable {before after : List PlanStep}

/-- A compute pass can be cut anywhere. -/
theorem computePass_append (t : Tick) (before after : List PlanStep) :
    t.computePass (before ++ after) = (t.computePass before).computePass after :=
  List.foldl_append

/-- **The compute pass, node by node.** With no place twice among the steps, a step finds its node
as the pass does, and the pass leaves the node as the step does. -/
theorem nodes_computePass (hnodup : ((before ++ s :: after).map PlanStep.index).Nodup)
    (hn : t.engine.graph.nodes[s.index]? = some n) :
    (t.computePass before).engine.graph.nodes[s.index]? = some n ∧
      (t.computePass (before ++ s :: after)).engine.graph.nodes[s.index]? =
        some { n with
          inputValues := (t.computePass before).stepInputs s n
          outputValues := (t.computePass before).stepOutputs s n } := by
  rw [List.map_append, List.map_cons] at hnodup
  have hbefore : s.index ∉ before.map PlanStep.index := by
    intro hmem
    exact List.disjoint_of_nodup_append hnodup hmem List.mem_cons_self
  have hafter : s.index ∉ after.map PlanStep.index :=
    (List.nodup_cons.1 (List.nodup_append.1 hnodup).2.1).1
  have hfound : (t.computePass before).engine.graph.nodes[s.index]? = some n := by
    rw [(Touches.computePass t before).nodes _ hbefore]
    exact hn
  have hstep := nodes_computeStep hfound
  refine ⟨hfound, ?_⟩
  rw [computePass_append]
  show (((t.computePass before).computeStep s).computePass after).engine.graph.nodes[s.index]? = _
  rw [(Touches.computePass _ after).nodes _ hafter]
  exact hstep

/-- What lies at the place of an earlier step is final. -/
theorem nodes_computePass_of_mem (hnodup : ((before ++ after).map PlanStep.index).Nodup)
    {i : Nat} (hi : i ∈ before.map PlanStep.index) :
    (t.computePass (before ++ after)).engine.graph.nodes[i]? =
      (t.computePass before).engine.graph.nodes[i]? := by
  rw [List.map_append] at hnodup
  rw [computePass_append]
  exact (Touches.computePass _ after).nodes i fun hmem ↦
    List.disjoint_of_nodup_append hnodup hi hmem

/-- What a step reads at the places of earlier steps is final. -/
theorem incoming?_computePass (hnodup : ((before ++ s :: after).map PlanStep.index).Nodup)
    (hroutes : ∀ r ∈ s.computeRoutes, r.source ∈ before.map PlanStep.index) (port : String) :
    s.incoming? (t.computePass before).engine.graph port =
      s.incoming? (t.computePass (before ++ s :: after)).engine.graph port := by
  rw [PlanStep.incoming?, PlanStep.incoming?]
  cases hroute : s.computeRoute? port with
  | none => rfl
  | some r =>
    have hmem := hroutes r (List.mem_of_find?_eq_some hroute)
    rw [Option.bind_some, Option.bind_some, Graph.outputAt?, Graph.outputAt?,
      nodes_computePass_of_mem hnodup hmem]

end Tick

end CueFlow
