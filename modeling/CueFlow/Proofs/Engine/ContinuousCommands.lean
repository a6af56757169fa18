import CueFlow.Proofs.Engine.Padding
import CueFlow.Proofs.Engine.Watched
/-!
# Continuous commands and the oscillation check

Commands of continuous actions have no signature, so they never flicker. They still have a part in
what the watchdog hears: it hears of a visit only if that is about to deliver, and then of all that
the visit has gathered. A modulated command makes every visit deliver, and with it a discrete
command that has not changed is heard once more, which breaks an alternation (`tint_hides_flicker`).

Apart from that, continuous commands make no difference. Compare a run with one whose bundles are
padded (`Padding`), and let them deliver alike wherever discrete commands are gathered
(`Engine.DeliversAlike`). Then the engines stay alike up to the padding (`Engine.Padded.run`), and
they halt in the same ticks with the same reports (`Engine.halted_iff_of_padding`).
-/

namespace CueFlow

namespace Engine

variable {continuous : List String} {pad : Padding continuous} {e f : Engine} {now : Float}
  {plan : Plan}

/-- The sink pass of the tick at this time gets to the step, and finds the tick in this state. -/
def GetsTo (e : Engine) (now : Float) (s : PlanStep) (t : Tick) : Prop :=
  e.running = true ∧ ∃ plan before after, e.graph.compile = .ok plan ∧
    plan.steps = before ++ s :: after ∧
      (e.underway plan now plan.steps).sinkPass before = (t, none)

/-- Wherever the sink passes of both ticks get to, and discrete commands are gathered, both are
about to deliver or neither is. -/
def DeliversAlike (continuous : List String) (f e : Engine) (now : Float) : Prop :=
  ∀ s t s' t', e.GetsTo now s t → f.GetsTo now s' t' → s'.node = s.node →
    HasDiscrete continuous (s.gather t.engine.graph) →
      ((t'.offer? s').isSome ↔ (t.offer? s).isSome)

/-! ### What a tick comes to -/

/-- Both passes of a tick over a plan, and the report that ends them. -/
def passesOver (e : Engine) (plan : Plan) (now : Float) : Tick × Option HaltReport :=
  (e.underway plan now plan.steps).sinkPass plan.steps

theorem keeps_passesOver (e : Engine) (plan : Plan) (now : Float) :
    (e.readied plan now).Keeps (e.passesOver plan now).1.engine ∧
      (e.passesOver plan now).1.engine.graph = (e.underway plan now plan.steps).engine.graph :=
  keeps_sinkPass rfl

/-- If the graph compiles, the tick comes to what the report that ends the passes makes of it. -/
theorem tickAt_eq_of_passesOver (he : e.PlanSound) (hrunning : e.running = true)
    (hcompile : e.graph.compile = .ok plan) (now : Float) :
    ((e.tickAt now).1, (e.tickAt now).2.1) =
      match e.passesOver plan now with
      | (t, some report) => ({ t.engine.stop.1 with halted := some report }, .halted report)
      | (t, none) => ({ t.engine with tick := t.engine.tick + 1 }, .completed t.info) := by
  have heq := tickAt_eq_runPlan_of_compile he hrunning hcompile now
  obtain ⟨t, report, hpass, hrun⟩ | ⟨t, hpass, hrun⟩ :=
    (e.readied plan now).runPlan_cases plan now (e.sinceLast now)
  · have hover : e.passesOver plan now = (t, some report) := hpass
    rw [heq, hrun, hover]
  · have hover : e.passesOver plan now = (t, none) := hpass
    rw [heq, hrun, hover]

theorem halted_of_passesOver (he : e.PlanSound) (hrunning : e.running = true)
    (hcompile : e.graph.compile = .ok plan) {report : HaltReport}
    (hpass : (e.passesOver plan now).2 = some report) : (e.tickAt now).2.1 = .halted report := by
  have htick := congrArg Prod.snd (tickAt_eq_of_passesOver he hrunning hcompile now)
  generalize e.passesOver plan now = passed at hpass htick
  obtain ⟨t, ended⟩ := passed
  obtain rfl : ended = some report := hpass
  exact htick

namespace Padded

/-! ### Ticks -/

section Tick

variable (h : f.Padded pad e) (he : e.Reachable) (hf : f.Reachable)
  (hcompile : e.graph.compile = .ok plan)

include h hcompile

theorem compile_recast : f.graph.compile = .ok (plan.recast pad.recasting) := by
  rw [h.graph.compile_eq, hcompile]
  rfl

include he hf

/-- **Between the passes** the watchdog finds the ticks alike. -/
theorem watchedAlike_underway (now : Float) :
    (f.underway (plan.recast pad.recasting) now (plan.recast pad.recasting).steps).WatchedAlike
      (e.underway plan now plan.steps) := by
  have hkeeps := e.keeps_underway plan now plan.steps
  have hkeeps' := f.keeps_underway (plan.recast pad.recasting) now (plan.recast pad.recasting).steps
  have htouches := Tick.Touches.computePass
    ((e.readied plan now).beginTick now (e.sinceLast now)) plan.steps
  have htouches' := Tick.Touches.computePass
    ((f.readied (plan.recast pad.recasting) now).beginTick now (f.sinceLast now))
    (plan.recast pad.recasting).steps
  refine ⟨hkeeps'.policy.trans (h.policy.trans hkeeps.policy.symm), fun v ↦ ?_,
    hkeeps'.thresholds.trans (h.thresholds.trans hkeeps.thresholds.symm), fun v port ↦ ?_,
    htouches'.nowMs.trans htouches.nowMs.symm⟩
  · rw [askedOf_underway_of_compile hf.uniqueIds (h.compile_recast hcompile),
      askedOf_underway_of_compile he.uniqueIds hcompile, h.asked, h.policy, h.graph.isSome_node?]
  · rw [watchdog_underway, watchdog_underway]
    exact h.observed v port

variable (hcontinuous : e.watchdog.config.continuousActions = continuous)
  (hspares : ∀ c ∈ e.graph.connectionsInto .compute, pad.Spares c.source c.sourcePort)

include hspares

/-- What is gathered in the sink pass has the same discrete commands. -/
theorem sameDiscreteMap_underway (now : Float) (s : PlanStep) : SameDiscreteMap continuous
    (s.gather (f.underway (plan.recast pad.recasting) now
      (plan.recast pad.recasting).steps).engine.graph)
    (s.gather (e.underway plan now plan.steps).engine.graph) := by
  have hpadded := h.graphBetween he hf hspares now
  have hids := he.uniqueIds.congr (e.skeleton_graphBetween now)
  have hids' := hf.uniqueIds.congr (f.skeleton_graphBetween now)
  have hgather := hpadded.sameDiscreteMap_gather hids' hids s
  rwa [graphBetween_of_compile hcompile, graphBetween_of_compile (h.compile_recast hcompile)]
    at hgather

variable (hrunning : e.running = true) (hdelivers : DeliversAlike continuous f e now)
  (hburst : ∀ report, (e.passesOver plan now).2 = some report → report.reason ≠ .sinkBurst)
  (hburst' : ∀ report, (f.passesOver (plan.recast pad.recasting) now).2 = some report →
    report.reason ≠ .sinkBurst)

include hcontinuous hrunning hdelivers hburst hburst'

/-- **The passes** end with the same report or both with none, and the watchdog goes on to find the
ticks alike. -/
theorem watchedAlike_passesOver :
    (f.passesOver (plan.recast pad.recasting) now).2 = (e.passesOver plan now).2 ∧
      (f.passesOver (plan.recast pad.recasting) now).1.WatchedAlike
        (e.passesOver plan now).1 := by
  have hthresholds := (e.keeps_underway plan now plan.steps).thresholds
  refine (h.watchedAlike_underway he hf hcompile now).sinkPass
    ((congrArg WatchdogConfig.continuousActions hthresholds).trans hcontinuous)
    (fun s _ ↦ h.sameDiscreteMap_underway he hf hcompile hspares now s)
    (fun before s after u u' hsplit hbefore hbefore' ↦ ?_) hburst hburst'
  have hsplit' : (plan.recast pad.recasting).steps = before.map (·.recast pad.recasting) ++
      s.recast pad.recasting :: after.map (·.recast pad.recasting) := by
    rw [Plan.recast, hsplit, List.map_append, List.map_cons]
  exact hdelivers s u (s.recast pad.recasting) u'
    ⟨hrunning, plan, before, after, hcompile, hsplit, hbefore⟩
    ⟨h.running.trans hrunning, _, _, _, h.compile_recast hcompile, hsplit', hbefore'⟩ rfl

/-- The engines remain padded alike. -/
theorem padded_passesOver : (f.passesOver (plan.recast pad.recasting) now).1.engine.Padded pad
    (e.passesOver plan now).1.engine := by
  -- The watchdog finds the same in both, the sink pass keeps the graph, and all else is kept by
  -- both passes.
  obtain ⟨-, halike⟩ := h.watchedAlike_passesOver he hf hcompile hcontinuous hspares hrunning
    hdelivers hburst hburst'
  have hcompile' := h.compile_recast hcompile
  obtain ⟨hkeeps, hgraph⟩ := e.keeps_passesOver plan now
  obtain ⟨hkeeps', hgraph'⟩ := f.keeps_passesOver (plan.recast pad.recasting) now
  have hbetween := h.graphBetween he hf hspares now
  rw [graphBetween_of_compile hcompile, graphBetween_of_compile hcompile', ← hgraph, ← hgraph']
    at hbetween
  exact {
    graph := hbetween
    config := hkeeps'.config.trans (h.config.trans hkeeps.config.symm)
    overrides := hkeeps'.overrides.trans ((h.atTime now).overrides.trans hkeeps.overrides.symm)
    policy := halike.policy
    asked := halike.asked
    running := hkeeps'.running.trans (h.running.trans hkeeps.running.symm)
    tick_eq := hkeeps'.tick.trans (h.tick_eq.trans hkeeps.tick.symm)
    lastTickMs := hkeeps'.lastTickMs.trans hkeeps.lastTickMs.symm
    thresholds := halike.thresholds
    observed := halike.observed }

end Tick

/-- **A tick halts with the same report or in neither engine**, and leaves them padded alike. -/
theorem tick (h : f.Padded pad e) (he : e.Reachable) (hf : f.Reachable)
    (hcontinuous : e.watchdog.config.continuousActions = continuous)
    (hspares : ∀ c ∈ e.graph.connectionsInto .compute, pad.Spares c.source c.sourcePort)
    (hdelivers : DeliversAlike continuous f e now)
    (hburst : ∀ report, (e.tickAt now).2.1 = .halted report → report.reason ≠ .sinkBurst)
    (hburst' : ∀ report, (f.tickAt now).2.1 = .halted report → report.reason ≠ .sinkBurst) :
    (∀ report, (f.tickAt now).2.1 = .halted report ↔ (e.tickAt now).2.1 = .halted report) ∧
      (f.tickAt now).1.Padded pad (e.tickAt now).1 := by
  cases hrunning : e.running with
  | false =>
    rw [tickAt_of_not_running hrunning, tickAt_of_not_running (h.running.trans hrunning)]
    exact ⟨fun _ ↦ .rfl, h⟩
  | true =>
    have hrunning' : f.running = true := h.running.trans hrunning
    cases hcompile : e.graph.compile with
    | error error =>
      have hcompile' : f.graph.compile = .error error := by
        rw [h.graph.compile_eq, hcompile]
        rfl
      rw [tickAt_eq_halt_of_error he.planSound hrunning hcompile,
        tickAt_eq_halt_of_error hf.planSound hrunning' hcompile', halt_eq, halt_eq]
      exact ⟨fun _ ↦ .rfl, (h.atTime now).halt _⟩
    | ok plan =>
      have hcompile' := h.compile_recast hcompile
      have hends : ∀ report, (e.passesOver plan now).2 = some report →
          report.reason ≠ .sinkBurst :=
        fun report hpass ↦ hburst report (halted_of_passesOver he.planSound hrunning hcompile hpass)
      have hends' : ∀ report, (f.passesOver (plan.recast pad.recasting) now).2 = some report →
          report.reason ≠ .sinkBurst :=
        fun report hpass ↦ hburst' report
          (halted_of_passesOver hf.planSound hrunning' hcompile' hpass)
      obtain ⟨hreport, -⟩ := h.watchedAlike_passesOver he hf hcompile hcontinuous hspares hrunning
        hdelivers hends hends'
      have hpadded := h.padded_passesOver he hf hcompile hcontinuous hspares hrunning hdelivers
        hends hends'
      have htick := tickAt_eq_of_passesOver he.planSound hrunning hcompile now
      have htick' := tickAt_eq_of_passesOver hf.planSound hrunning' hcompile' now
      generalize e.passesOver plan now = passed at hreport hpadded htick
      generalize f.passesOver (plan.recast pad.recasting) now = passed' at hreport hpadded htick'
      obtain ⟨t, report⟩ := passed
      obtain ⟨t', report'⟩ := passed'
      obtain rfl : report' = report := hreport
      cases report' with
      | some report =>
        obtain ⟨hengine, houtcome⟩ := Prod.mk.inj htick
        obtain ⟨hengine', houtcome'⟩ := Prod.mk.inj htick'
        rw [hengine, hengine', houtcome, houtcome']
        exact ⟨fun _ ↦ .rfl, hpadded.halt report⟩
      | none =>
        obtain ⟨hengine, houtcome⟩ := Prod.mk.inj htick
        obtain ⟨hengine', houtcome'⟩ := Prod.mk.inj htick'
        rw [hengine, hengine', houtcome, houtcome']
        -- The summaries may differ in how many sink hooks were called.
        exact ⟨fun _ ↦ ⟨nofun, nofun⟩, { hpadded with tick_eq := congrArg (· + 1) hpadded.tick_eq }⟩

/-! ### Runs -/

/-- Calls that are not ticks cannot tell the engines apart. -/
theorem call (h : f.Padded pad e) {c : HostCall} (hc : ∀ now, c ≠ .tick now) :
    (f.call c).1.Padded pad (e.call c).1 := by
  cases c with
  | load state => exact h.orStay ((h.load state).map fun _ _ hloaded ↦ hloaded)
  | compile => exact h.orStay (h.compileNow.map fun _ _ hmade ↦ hmade)
  | applyEdit edit => exact h.orStay (h.applyEdit edit)
  | tryEdit edit => exact h.orStay (h.tryEdit edit)
  | setOverride node kind key value lifetime now =>
    exact h.orStay (h.setOverride node kind key value lifetime now)
  | clearOverride node kind key => exact h.clearOverride node kind key
  | setPolicy policy => exact { h with policy := rfl, asked := fun _ ↦ rfl }
  | start => exact h.orStay h.start
  | stop => exact h.stop
  | tick now => exact absurd rfl (hc now)

/-- **The same over a run**, by induction along the calls before the tick: whether they halt or not,
the engines remain padded alike. -/
theorem run (h : f.Padded pad e) (he : e.Reachable) (hf : f.Reachable)
    (hcontinuous : e.watchdog.config.continuousActions = continuous)
    {calls before after : List HostCall}
    (hsplit : calls = before ++ .tick now :: after)
    (hspares : ∀ before now after, calls = before ++ .tick now :: after →
      ∀ c ∈ (e.run before).1.graph.connectionsInto .compute, pad.Spares c.source c.sourcePort)
    (hdelivers : ∀ before now after, calls = before ++ .tick now :: after →
      DeliversAlike continuous (f.run before).1 (e.run before).1 now)
    (hburst : ∀ report, .halted report ∈ (e.run calls).2 → report.reason ≠ .sinkBurst)
    (hburst' : ∀ report, .halted report ∈ (f.run calls).2 → report.reason ≠ .sinkBurst) :
    (∀ report, ((f.run before).1.tickAt now).2.1 = .halted report ↔
        ((e.run before).1.tickAt now).2.1 = .halted report) ∧
      ((f.run before).1.tickAt now).1.Padded pad ((e.run before).1.tickAt now).1 := by
  have hevents : ∀ (e : Engine) c rest,
      (e.run (c :: rest)).2 = (e.call c).2 ++ ((e.call c).1.run rest).2 := fun _ _ _ ↦ rfl
  have hfirst : ∀ {e : Engine} {now rest}, e.Reachable →
      (∀ report, .halted report ∈ (e.run (.tick now :: rest)).2 → report.reason ≠ .sinkBurst) →
        ∀ report, (e.tickAt now).2.1 = .halted report → report.reason ≠ .sinkBurst :=
    fun he hnone report houtcome ↦
      hnone report (hevents _ _ _ ▸ List.mem_append_left _ (mem_of_halted he houtcome))
  -- The induction takes the first call off; what is assumed of all ticks is assumed of those left.
  induction before generalizing e f calls with
  | nil =>
    subst hsplit
    exact h.tick he hf hcontinuous (hspares [] now after rfl) (hdelivers [] now after rfl)
      (hfirst he hburst) (hfirst hf hburst')
  | cons c before ih =>
    rw [List.cons_append] at hsplit
    subst hsplit
    have hnext : (f.call c).1.Padded pad (e.call c).1 := by
      by_cases hc : ∀ now, c ≠ .tick now
      · exact h.call hc
      · obtain ⟨now, rfl⟩ : ∃ now, c = .tick now := by simpa using hc
        exact (h.tick he hf hcontinuous (hspares [] now _ rfl) (hdelivers [] now _ rfl)
          (hfirst he hburst) (hfirst hf hburst')).2
    have hkept := congrArg WatchdogConfig.continuousActions (e.moves_call c).thresholds
    exact ih hnext (he.call c) (hf.call c) (hkept.trans hcontinuous) rfl
      (fun before now after hsplit ↦ hspares (c :: before) now after (congrArg (c :: ·) hsplit))
      (fun before now after hsplit ↦ hdelivers (c :: before) now after (congrArg (c :: ·) hsplit))
      (fun report hmem ↦ hburst report (hevents e _ _ ▸ List.mem_append_right _ hmem))
      (fun report hmem ↦ hburst' report (hevents f _ _ ▸ List.mem_append_right _ hmem))

end Padded

/-- **Continuous commands do not sway the watchdog** as long as they do not sway what is delivered.
Let the outputs of computations be padded with commands of continuous actions, in any ticks and with
any payloads, where they lead into no compute input, and let neither run exceed the ceiling. If
wherever discrete commands are gathered both runs deliver or neither does, then a tick halts in one
run exactly if it halts in the other, and with the same report. -/
theorem halted_iff_of_padding {g : Graph} {config : EngineConfig} (hg : g.Buildable)
    (hnew : Engine.new g config = .ok e) (pad : Padding config.watchdog.continuousActions)
    {calls : List HostCall}
    (hspares : ∀ before now after, calls = before ++ .tick now :: after →
      ∀ c ∈ (e.run before).1.graph.connectionsInto .compute, pad.Spares c.source c.sourcePort)
    (hdelivers : ∀ before now after, calls = before ++ .tick now :: after →
      DeliversAlike config.watchdog.continuousActions ((e.recast pad.recasting).run before).1
        (e.run before).1 now)
    (hburst : ∀ report, .halted report ∈ (e.run calls).2 → report.reason ≠ .sinkBurst)
    (hburst' : ∀ report, .halted report ∈ ((e.recast pad.recasting).run calls).2 →
      report.reason ≠ .sinkBurst)
    {before after : List HostCall} (hsplit : calls = before ++ .tick now :: after)
    (report : HaltReport) :
    (((e.recast pad.recasting).run before).1.tickAt now).2.1 = .halted report ↔
      ((e.run before).1.tickAt now).2.1 = .halted report := by
  have he : e.Reachable := .new hg hnew
  have hf : (e.recast pad.recasting).Reachable := by
    refine .new (hg.recast pad.recasting) ((new_of_new hnew _).trans ?_)
    rw [new_eq hnew]
    rfl
  have hpadded : (e.recast pad.recasting).Padded pad e :=
    ⟨.recast pad e.graph, rfl, rfl, rfl, fun _ ↦ rfl, rfl, rfl, rfl, rfl, fun _ _ ↦ rfl⟩
  exact (hpadded.run he hf (by rw [new_eq hnew]) hsplit hspares hdelivers hburst hburst').1 report

/-! ### A lamp that flickers -/

/-- Whether the sink pass over some steps is about to deliver just to the nodes singled out, as far
as it gets. -/
def offersJust (p : NodeId → Bool) (t : Tick) : List PlanStep → Bool
  | [] => true
  | s :: rest =>
    (t.offer? s).isSome == p s.node &&
      match t.sinkStep s with
      | (t', none) => offersJust p t' rest
      | (_, some _) => true

/-- Whether the tick at this time is about to deliver just to the nodes singled out. -/
def deliversJust (p : NodeId → Bool) (e : Engine) (now : Float) : Bool :=
  match e.graph.compile with
  | .ok plan => offersJust p (e.underway plan now plan.steps) plan.steps
  | .error _ => true

theorem isSome_offer?_of_offersJust {p : NodeId → Bool} {before after : List PlanStep}
    {s : PlanStep} {t u : Tick} (h : offersJust p t (before ++ s :: after) = true)
    (hpass : t.sinkPass before = (u, none)) : (u.offer? s).isSome = p s.node := by
  induction before generalizing t with
  | nil =>
    obtain ⟨rfl, -⟩ := Prod.mk.inj hpass
    rw [List.nil_append, offersJust, Bool.and_eq_true] at h
    exact beq_iff_eq.1 h.1
  | cons s' before ih =>
    rw [List.cons_append, offersJust, Bool.and_eq_true] at h
    rw [Tick.sinkPass] at hpass
    split at hpass
    next heq => cases hpass
    next heq =>
      rw [heq] at h
      exact ih h.2 hpass

/-- Ticks that are about to deliver to the same nodes deliver alike. -/
theorem deliversAlike_of_deliversJust {p : NodeId → Bool} (h : deliversJust p e now = true)
    (h' : deliversJust p f now = true) : DeliversAlike continuous f e now := by
  have hjust : ∀ {e : Engine} {s t}, deliversJust p e now = true → e.GetsTo now s t →
      (t.offer? s).isSome = p s.node := by
    rintro e s t h ⟨-, plan, before, after, hcompile, hsplit, hpass⟩
    rw [deliversJust, hcompile] at h
    dsimp only at h
    rw [hsplit] at h hpass
    exact isSome_offer?_of_offersJust h hpass
  intro s t s' t' hgets hgets' hnode _
  rw [hjust h hgets, hjust h' hgets', hnode]

/-- Three signatures in turn are too many. -/
def flickerConfig : EngineConfig where
  watchdog := { WatchdogConfig.default with oscillationMinAlternations := 3 }

/-- A cue that flashes a lamp in two modes in turn, each of them for some ticks, and gives it a
bundle besides. -/
def flickerGraph (pace : Nat) : Graph where
  catalog := .ofDefinitions [
    { type := "cue"
      outputs := [{ id := "flash", type := .command }, { id := "show", type := .command }]
      process := fun _ _ context ↦ .ok
        [("flash", .map [("action", .text "flash"),
          ("mode", .text (if context.tick / pace % 2 = 0 then "bright" else "dim"))]),
        ("show", .list [.map [("action", .text "hold")]])] },
    { type := "lamp"
      inputs := [{ id := "flash", type := .command, kind := .sink },
        { id := "show", type := .command, kind := .sink }]
      sink := some fun _ _ _ ↦ .ok () }]
  nodes := [{ id := "a", type := "cue" }, { id := "b", type := "lamp" }]
  connections := [⟨"f", "a", "flash", "b", "flash"⟩, ⟨"s", "a", "show", "b", "show"⟩]

/-- The engine around the cue and the lamp. -/
def flicker (pace : Nat) : Engine where
  graph := flickerGraph pace
  config := flickerConfig
  watchdog := { config := flickerConfig.watchdog }

/-- Every bundle comes with a color, and with another one from tick to tick. -/
def tinted : Padding flickerConfig.watchdog.continuousActions :=
  .appending
    (fun call _ ↦ [[("action", .text "setColor"), ("payload", .bool (call.context.tick % 2 = 0))]])
    fun _ _ fields hfields ↦ ⟨"setColor", by decide, by rw [List.mem_singleton.1 hfields]; rfl⟩

theorem buildable_flickerGraph (pace : Nat) : (flickerGraph pace).Buildable := by
  have hload : Graph.load (flickerGraph pace).catalog (flickerGraph pace).snapshot .strict =
      .ok (flickerGraph pace, {}) := rfl
  exact .load hload

/-- Three ticks from a start on. -/
def threeTicks : List HostCall := [.start, .tick 0.0, .tick 1.0, .tick 2.0]

theorem threeTicks_cases {before after : List HostCall}
    (h : threeTicks = before ++ .tick now :: after) :
    before = [.start] ∧ now = 0.0 ∨ before = [.start, .tick 0.0] ∧ now = 1.0 ∨
      before = [.start, .tick 0.0, .tick 1.0] ∧ now = 2.0 := by
  rw [threeTicks] at h
  simp only [List.cons_eq_append_iff, List.cons.injEq, reduceCtorEq, HostCall.tick.injEq] at h
  obtain ⟨-, h, -⟩ | ⟨_, rfl, ⟨rfl, rfl, -⟩ | ⟨_, rfl, ⟨rfl, rfl, -⟩ | ⟨_, rfl, ⟨rfl, rfl, -⟩ |
    ⟨rest, -, h⟩⟩⟩⟩ := h
  · cases h
  · exact .inl ⟨rfl, rfl⟩
  · exact .inr (.inl ⟨rfl, rfl⟩)
  · exact .inr (.inr ⟨rfl, rfl⟩)
  · simp at h

/-- A lamp that flickers from tick to tick is found out, with colors and without. -/
theorem halted_iff_of_padding_flicker :
    ((((flicker 1).recast tinted.recasting).run [.start, .tick 0.0, .tick 1.0]).1.tickAt 2.0).2.1 =
      .halted (Watchdog.oscillationReport "b" "flash" "flash|mode=dim" "flash|mode=bright" 3) := by
  have hnew : Engine.new (flickerGraph 1) flickerConfig = .ok (flicker 1) := rfl
  have hspares : ∀ before now after, threeTicks = before ++ .tick now :: after →
      ∀ c ∈ ((flicker 1).run before).1.graph.connectionsInto .compute,
        tinted.Spares c.source c.sourcePort := by
    intro before now after hsplit c hc
    obtain ⟨rfl, rfl⟩ | ⟨rfl, rfl⟩ | ⟨rfl, rfl⟩ := threeTicks_cases hsplit
    · cases hc
    · cases hc
    · cases hc
  have hdelivers : ∀ before now after, threeTicks = before ++ .tick now :: after →
      DeliversAlike flickerConfig.watchdog.continuousActions
        (((flicker 1).recast tinted.recasting).run before).1 ((flicker 1).run before).1 now := by
    intro before now after hsplit
    obtain ⟨rfl, rfl⟩ | ⟨rfl, rfl⟩ | ⟨rfl, rfl⟩ := threeTicks_cases hsplit
    · exact deliversAlike_of_deliversJust (p := (· == "b")) rfl rfl
    · exact deliversAlike_of_deliversJust (p := (· == "b")) rfl rfl
    · exact deliversAlike_of_deliversJust (p := (· == "b")) rfl rfl
  have hreports : ∀ {events : List Event},
      reportsPass (fun r ↦ decide (r.reason ≠ .sinkBurst)) events = true →
        ∀ report, .halted report ∈ events → report.reason ≠ .sinkBurst :=
    fun h report hmem ↦ of_decide_eq_true (of_reportsPass h hmem)
  have hsplit : threeTicks = [.start, .tick 0.0, .tick 1.0] ++ .tick 2.0 :: [] := rfl
  exact (halted_iff_of_padding (buildable_flickerGraph 1) hnew tinted hspares hdelivers
    (hreports rfl) (hreports rfl) hsplit _).2 rfl

/-- **A modulated color hides a slow flicker.** Without colors, every second tick finds all as it
was and delivers nothing, so that the modes are seen in turn. With another color in every tick,
every tick delivers, the lamp is given each mode twice in a row, and that is no alternation. -/
theorem tint_hides_flicker :
    (flickerGraph 2).Buildable ∧ Engine.new (flickerGraph 2) flickerConfig = .ok (flicker 2) ∧
      (flickerGraph 2).connectionsInto .compute = [] ∧
      (((flicker 2).run [.start, .tick 0.0, .tick 1.0, .tick 2.0, .tick 3.0]).1.tickAt 4.0).2.1 =
        .halted (Watchdog.oscillationReport "b" "flash" "flash|mode=dim" "flash|mode=bright" 3) ∧
      ((((flicker 2).recast tinted.recasting).run
        [.start, .tick 0.0, .tick 1.0, .tick 2.0, .tick 3.0]).1.tickAt 4.0).2.1 =
        .completed { tick := 4, timeMs := 4.0, computed := 2, sinkCalls := 1 } ∧
      reportsPass (·.reason == .oscillation)
        ((flicker 2).run [.start, .tick 0.0, .tick 1.0, .tick 2.0, .tick 3.0, .tick 4.0]).2 = true ∧
      reportsPass (fun _ ↦ false) (((flicker 2).recast tinted.recasting).run
        [.start, .tick 0.0, .tick 1.0, .tick 2.0, .tick 3.0, .tick 4.0]).2 = true :=
  ⟨buildable_flickerGraph 2, rfl, rfl, rfl, rfl, by decide +kernel, by decide +kernel⟩

end Engine

end CueFlow
