import CueFlow.Proofs.Engine.NodeTick
import Mathlib.Algebra.GroupWithZero.Nat
/-!
# Steps that find the same do the same

What a step of the sink pass does to its node hangs on little: the node and its definition, what is
remembered and observed of it, and what a visit would find (`Tick.Alike`). Two steps to which all
this looks alike make the same offer, and if the watchdog lets both pass, they hand over the same
and leave the same behind, be they steps of one tick or of two ticks of different engines.

The steps of other nodes touch none of it, so a step finds in its turn what it would have found at
the beginning of the pass (`alike_of_sinkPass`). Hence the order of the steps does not matter: a
pass is let through exactly if its offers, as they stand at the beginning, stay within the ceiling
together and none of them flickers (`sinkPass_snd_eq_none_iff`), and what it leaves of a node is
what the step of that node makes of the beginning (`Alike.sinkPass`).
-/

namespace CueFlow

namespace Tick

variable {t t' t'' : Tick} {s s' s'' : PlanStep} {n : Node} {steps before after : List PlanStep}

/-- To the step `s'` of the tick `t'`, everything looks as it does to the step `s` of the tick `t`.
-/
structure Alike (t : Tick) (s : PlanStep) (t' : Tick) (s' : PlanStep) : Prop where
  node : s'.node = s.node
  definition : s'.definition = s.definition
  count : s'.sinkConnectionCount = 0 ↔ s.sinkConnectionCount = 0
  attended : t'.attended? s' = t.attended? s
  sight : ∀ n, t.attended? s = some n → t'.sight s' n = t.sight s n
  memory : t'.engine.sinkMemoryOf s.node = t.engine.sinkMemoryOf s.node
  context : t'.context s.node = t.context s.node
  thresholds : t'.engine.watchdog.config = t.engine.watchdog.config
  observed : ∀ port, t'.engine.watchdog.observed s.node port =
    t.engine.watchdog.observed s.node port

/-- What the oscillation check makes of the offer of a step. -/
def flicker? (t : Tick) (s : PlanStep) : Option HaltReport :=
  (t.offer? s).bind fun offer ↦
    (t.engine.watchdog.checkOscillation s.node offer.1.sinkValues t.nowMs).2

/-- The watchdog lets a step pass exactly if its offer stays within the ceiling and does not
flicker. -/
theorem verdict?_eq_none_iff
    (hle : t.engine.watchdog.burstCount ≤ t.engine.watchdog.config.burstCeiling) :
    t.verdict? s = none ↔
      t.engine.watchdog.burstCount + t.offered s ≤ t.engine.watchdog.config.burstCeiling ∧
        t.flicker? s = none := by
  rw [verdict?, offered, flicker?]
  cases t.offer? s with
  | none => exact iff_of_true rfl ⟨hle, rfl⟩
  | some offer =>
    have hflicker := (t.engine.watchdog.checkOscillation_checkBurst s.node offer.2
      offer.1.sinkValues t.nowMs).1
    rw [Option.bind_some, Option.bind_some, Watchdog.review_snd, Option.or_eq_none_iff,
      Watchdog.checkBurst_snd_eq_none_iff, hflicker]
    rfl

/-! ### What looks alike -/

namespace Alike

theorem symm (h : Alike t s t' s') : Alike t' s' t s where
  node := h.node.symm
  definition := h.definition.symm
  count := h.count.symm
  attended := h.attended.symm
  sight n hn := (h.sight n (h.attended ▸ hn)).symm
  memory := by rw [h.node, h.memory]
  context := by rw [h.node, h.context]
  thresholds := h.thresholds.symm
  observed port := by rw [h.node, h.observed]

theorem trans (h : Alike t s t' s') (h' : Alike t' s' t'' s'') : Alike t s t'' s'' where
  node := h'.node.trans h.node
  definition := h'.definition.trans h.definition
  count := h'.count.trans h.count
  attended := h'.attended.trans h.attended
  sight n hn := (h'.sight n (h.attended ▸ hn)).trans (h.sight n hn)
  memory := by rw [← h.node, h'.memory, h.node, h.memory]
  context := by rw [← h.node, h'.context, h.node, h.context]
  thresholds := h'.thresholds.trans h.thresholds
  observed port := by rw [← h.node, h'.observed, h.node, h.observed]

section

variable (h : Alike t s t' s')

include h

theorem visited?_eq : t'.visited? s' = t.visited? s := by
  rw [visited?, visited?, h.attended]
  simp only [h.count]

theorem nowMs_eq : t'.nowMs = t.nowMs := congrArg HookContext.timeMs h.context

/-- **The offer is the same.** -/
theorem offer?_eq : t'.offer? s' = t.offer? s := by
  have hsnapshot : (t'.engine.memoryOf s.node).sinkSnapshot =
      (t.engine.memoryOf s.node).sinkSnapshot :=
    congrArg Prod.fst h.memory
  rw [offer?, offer?, h.visited?_eq, h.node, hsnapshot]
  cases hvisited : t.visited? s with
  | none => rfl
  | some n => rw [Option.bind_some, Option.bind_some, h.sight n (attended?_of_visited? hvisited)]

theorem offered_eq : t'.offered s' = t.offered s := by
  rw [offered, h.offer?_eq, offered]

theorem flicker?_eq : t'.flicker? s' = t.flicker? s := by
  rw [flicker?, flicker?, h.offer?_eq, h.node, h.nowMs_eq]
  refine congrArg _ (funext fun offer ↦ ?_)
  exact (Watchdog.checkOscillation_congr h.thresholds h.observed _ _).1

/-! ### What is done alike -/

variable (hverdict : t.verdict? s = none) (hverdict' : t'.verdict? s' = none)

include hverdict hverdict'

/-- What is handed over is the same. -/
theorem handOver?_eq : t'.handOver? s' = t.handOver? s := by
  rw [handOver?, handOver?, hverdict, hverdict', h.offer?_eq, h.definition, h.node, h.context]

/-- What is remembered of the node for the sink pass is the same. -/
theorem sinkMemoryOf_sinkStep : (t'.sinkStep s').1.engine.sinkMemoryOf s.node =
    (t.sinkStep s).1.engine.sinkMemoryOf s.node := by
  conv_lhs => rw [← h.node]
  cases hattended : t.attended? s with
  | none =>
    have hattended' : t'.attended? s' = none := h.attended.trans hattended
    rw [sinkStep_of_not_attended hattended', sinkStep_of_not_attended hattended, h.node, h.memory]
  | some n =>
    have hattended' : t'.attended? s' = some n := h.attended.trans hattended
    by_cases hcount : s.sinkConnectionCount = 0
    · have hconnected : (t'.engine.memoryOf s'.node).sinkConnected =
          (t.engine.memoryOf s.node).sinkConnected := by
        rw [h.node]
        exact congrArg Prod.snd h.memory
      rw [sinkStep_of_unplugged hattended' (h.count.2 hcount),
        sinkStep_of_unplugged hattended hcount, hconnected, h.node, h.memory]
    · have hvisited : t.visited? s = some n := by rw [visited?, if_neg hcount, hattended]
      have hvisited' : t'.visited? s' = some n := h.visited?_eq.trans hvisited
      rw [sinkStep_of_visited hvisited' hverdict', sinkStep_of_visited hvisited hverdict,
        h.sight n hattended]

/-- What is observed of the node is the same. -/
theorem observed_sinkStep (port : String) :
    (t'.sinkStep s').1.engine.watchdog.observed s.node port =
      (t.sinkStep s).1.engine.watchdog.observed s.node port := by
  rw [verdict?] at hverdict hverdict'
  rw [watchdog_sinkStep, watchdog_sinkStep]
  rw [h.offer?_eq] at hverdict' ⊢
  cases hoffer : t.offer? s with
  | none => exact h.observed port
  | some offer =>
    rw [hoffer, Option.bind_some] at hverdict hverdict'
    rw [h.node, h.nowMs_eq] at hverdict' ⊢
    exact Watchdog.observed_review_congr h.thresholds h.observed hverdict hverdict' port

end

end Alike

/-! ### The order of the steps does not matter -/

/-- What leaves a node alone looks alike to its step. -/
theorem alike_of_touches {hooks : List HookKind} (h : Touches steps hooks t t')
    (hgraph : t'.engine.graph = t.engine.graph) (hs : s.node ∉ steps.map PlanStep.node)
    (hobserved : ∀ port, t'.engine.watchdog.observed s.node port =
      t.engine.watchdog.observed s.node port) : Alike t s t' s := by
  have hmemory := h.memory _ hs
  have hallowed : (t'.sinkAllowed s).1 = (t.sinkAllowed s).1 := by
    rw [sinkAllowed, sinkAllowed, h.keeps.policy]
    cases t.engine.policy.node s.node with
    | false => rfl
    | true =>
      rw [if_pos rfl, if_pos rfl, computeAllowed_eq, computeAllowed_eq, h.keeps.policy,
        h.asked _ hs]
  refine ⟨rfl, rfl, Iff.rfl, ?_, fun n _ ↦ ?_, ?_, ?_, h.keeps.thresholds, hobserved⟩
  · rw [attended?, attended?, hallowed, hgraph]
  · rw [Tick.sight, Tick.sight, hmemory, hgraph, Engine.effectiveConfig, Engine.effectiveConfig,
      h.keeps.overrides]
  · rw [Engine.sinkMemoryOf, hmemory, Engine.sinkMemoryOf]
  · rw [Tick.context, Tick.context, h.keeps.tick, h.nowMs, h.deltaMs]

/-- **A step finds in its turn what it would have found at the beginning of the pass.** -/
theorem alike_of_sinkPass (hs : s.node ∉ before.map PlanStep.node) (t : Tick) :
    Alike t s (t.sinkPass before).1 s :=
  alike_of_touches (Touches.sinkPass t before) (graph_sinkPass t before) hs
    (observed_sinkPass hs t)

theorem alike_of_sinkStep (hs : s'.node ≠ s.node) (t : Tick) : Alike t s' (t.sinkStep s).1 s' :=
  alike_of_touches (Touches.sinkStep t s) (t.graph_sinkStep s) (by simpa using hs)
    (observed_sinkStep_of_ne hs t)

/-- **When a pass is let through.** Its offers, as they stand at the beginning, stay within the
ceiling together, and none of them flickers; the order does not matter. -/
theorem sinkPass_snd_eq_none_iff (hnodup : (steps.map PlanStep.node).Nodup)
    (hle : t.engine.watchdog.burstCount ≤ t.engine.watchdog.config.burstCeiling) :
    (t.sinkPass steps).2 = none ↔
      t.engine.watchdog.burstCount + (steps.map t.offered).sum ≤
          t.engine.watchdog.config.burstCeiling ∧
        ∀ s ∈ steps, t.flicker? s = none := by
  induction steps generalizing t with
  | nil => simp [sinkPass, hle]
  | cons s rest ih =>
    rw [List.map_cons, List.nodup_cons] at hnodup
    have hverdict := verdict?_eq_none_iff (s := s) hle
    have hburst := t.burstCount_sinkStep s
    have hthresholds := (Touches.sinkStep t s).keeps.thresholds
    have halike : ∀ s' ∈ rest, Alike t s' (t.sinkStep s).1 s' := by
      intro s' hs'
      refine alike_of_sinkStep (fun heq ↦ hnodup.1 ?_) t
      rw [← heq]
      exact List.mem_map_of_mem hs'
    have hoffered : rest.map (t.sinkStep s).1.offered = rest.map t.offered :=
      List.map_congr_left fun s' hs' ↦ (halike s' hs').offered_eq
    rw [sinkPass, List.map_cons, List.sum_cons, List.forall_mem_cons]
    rw [← t.sinkStep_snd s] at hverdict
    cases hstep : t.sinkStep s with
    | mk t' report =>
      rw [hstep] at hverdict hburst hthresholds halike hoffered
      dsimp only at hverdict hburst hthresholds halike hoffered ⊢
      cases report with
      | some report =>
        refine iff_of_false (Option.some_ne_none report) ?_
        rintro ⟨hsum, hflicker, -⟩
        exact Option.some_ne_none report (hverdict.2 ⟨by omega, hflicker⟩)
      | none =>
        obtain ⟨hwithin, hflicker⟩ := hverdict.1 rfl
        have hrest := ih hnodup.2 (t := t') (by rw [hburst, hthresholds]; exact hwithin)
        rw [hoffered, hburst, hthresholds, Nat.add_assoc] at hrest
        refine hrest.trans (and_congr_right fun _ ↦ ?_)
        rw [and_iff_right hflicker]
        exact forall₂_congr fun s' hs' ↦ by rw [(halike s' hs').flicker?_eq]

/-- What a pass that is let through leaves of a node is what the step of the node leaves. -/
theorem exists_step_of_sinkPass (hnodup : (steps.map PlanStep.node).Nodup) (hs : s ∈ steps)
    (hpass : t.sinkPass steps = (t', none)) : ∃ u, Alike t s u s ∧ u.verdict? s = none ∧
      t'.engine.sinkMemoryOf s.node = (u.sinkStep s).1.engine.sinkMemoryOf s.node ∧
      (∀ port, t'.engine.watchdog.observed s.node port =
        (u.sinkStep s).1.engine.watchdog.observed s.node port) ∧
      sinkCallsFor t'.events s.node =
        sinkCallsFor t.events s.node ++ (u.handOver? s).toList := by
  obtain ⟨before, after, rfl⟩ := List.append_of_mem hs
  obtain ⟨hnew, hlast⟩ := not_mem_of_nodup hnodup
  obtain ⟨u, u', hbefore, hstep, hafter⟩ := exists_of_sinkPass hpass
  obtain ⟨htouches, -⟩ := Touches.of_sinkPass hbefore
  obtain ⟨hrest, -⟩ := Touches.of_sinkPass hafter
  have halike := alike_of_sinkPass hnew t
  have hobserved := observed_sinkPass hlast u'
  have hverdict := u.sinkStep_snd s
  have hcalls := u.sinkCallsFor_sinkStep s
  rw [hbefore] at halike
  rw [hafter] at hobserved
  rw [hstep] at hverdict hcalls
  refine ⟨u, halike, hverdict.symm, ?_, fun port ↦ ?_, ?_⟩
  · rw [hstep]
    exact hrest.sinkMemoryOf hlast
  · rw [hstep]
    exact hobserved port
  · rw [hrest.sinkCallsFor_eq hlast, hcalls, htouches.sinkCallsFor_eq hnew]

/-- **Passes that are let through do the same to nodes whose steps find the same**: what is
remembered and observed of such a node is the same, and so are the calls of its sink hook. -/
theorem Alike.sinkPass (h : Alike t s t' s') {u u' : Tick} {steps' : List PlanStep}
    (hnodup : (steps.map PlanStep.node).Nodup) (hs : s ∈ steps)
    (hpass : t.sinkPass steps = (u, none)) (hnodup' : (steps'.map PlanStep.node).Nodup)
    (hs' : s' ∈ steps') (hpass' : t'.sinkPass steps' = (u', none))
    (hcalls : sinkCallsFor t'.events s.node = sinkCallsFor t.events s.node) :
    u'.engine.sinkMemoryOf s.node = u.engine.sinkMemoryOf s.node ∧
      (∀ port, u'.engine.watchdog.observed s.node port =
        u.engine.watchdog.observed s.node port) ∧
      sinkCallsFor u'.events s.node = sinkCallsFor u.events s.node := by
  obtain ⟨v, hv, hverdict, hmemory, hobserved, hgone⟩ := exists_step_of_sinkPass hnodup hs hpass
  obtain ⟨v', hv', hverdict', hmemory', hobserved', hgone'⟩ :=
    exists_step_of_sinkPass hnodup' hs' hpass'
  have halike : Alike v s v' s' := hv.symm.trans (h.trans hv')
  rw [h.node] at hmemory' hobserved' hgone'
  refine ⟨?_, fun port ↦ ?_, ?_⟩
  · rw [hmemory', hmemory, halike.sinkMemoryOf_sinkStep hverdict hverdict']
  · rw [hobserved', hobserved, halike.observed_sinkStep hverdict hverdict']
  · rw [hgone', hgone, hcalls, halike.handOver?_eq hverdict hverdict']

end Tick

end CueFlow
