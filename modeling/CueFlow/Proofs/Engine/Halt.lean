import CueFlow.Proofs.Engine.Questions
/-!
# What a stop and a halt leave behind

An engine that stops, or that is stopped by a halt, is *cold* (`Engine.Cold`): it remembers nothing
of its nodes, and its watchdog has observed nothing. What is left of a tick that halts is the graph
between its passes, without outputs, and the overrides that have not expired (`Engine.HaltedBy`);
how far the sink pass has come makes no difference.
-/

namespace CueFlow

namespace Engine

variable {e e' : Engine} {events : List Event} {now : Float} {report : HaltReport}

/-- The engine does not run, and nothing is remembered or observed. -/
structure Cold (e : Engine) : Prop where
  running : e.running = false
  memory : e.memory = []
  watchdog : e.watchdog = { config := e.config.watchdog }

/-- An engine that has stopped is cold. -/
theorem cold_stop (he : e.Reachable) (hrunning : e.running = true) : e.stop.1.Cold := by
  rw [stop, if_pos hrunning]
  exact ⟨rfl, rfl, congrArg (Watchdog.mk · 0 []) he.thresholds⟩

/-- The engine `e'` is what a tick of `e` that halts has left behind. -/
structure HaltedBy (e' e : Engine) (now : Float) : Prop where
  cold : e'.Cold
  graph : e'.graph = (e.graphBetween now).clearOutputs
  config : e'.config = e.config
  overrides : e'.overrides = (e.atTime now).overrides
  policy : e'.policy = e.policy
  tick_eq : e'.tick = e.tick
  lastTickMs : e'.lastTickMs = some now

/-- When its passes are over, a tick has left the graph as it was between them. -/
theorem graph_passes (e : Engine) (now : Float) : (e.passes now).1.graph = e.graphBetween now := by
  rw [passes, graphBetween]
  cases e.graph.compile with
  | error error => rfl
  | ok plan => exact Tick.graph_sinkPass (e.underway plan now plan.steps) plan.steps

/-- When its passes are over, a tick has kept what no part of it changes. -/
theorem exists_keeps_passes (e : Engine) (now : Float) :
    ∃ plan, ({ e.atTime now with plan } : Engine).Keeps (e.passes now).1 := by
  rw [passes]
  cases e.graph.compile with
  | error error => exact ⟨e.plan, .refl _⟩
  | ok plan =>
    have hsink := (Tick.Touches.sinkPass (e.underway plan now plan.steps) plan.steps).keeps
    exact ⟨some plan, (e.keeps_underway plan now plan.steps).trans hsink⟩

/-- **What a halt leaves behind.** -/
theorem haltedBy (he : e.Reachable) (htick : e.tickAt now = (e', .halted report, events)) :
    e'.HaltedBy e now := by
  have hreach : e'.Reachable := by
    have hcall := he.call (.tick now)
    rw [call, htick] at hcall
    exact hcall
  have hrunning := running_of_halted htick
  obtain ⟨report', heq⟩ | ⟨plan, info, -, heq⟩ := tickAt_eq_passes he.planSound hrunning now
  · obtain ⟨plan, hkeeps⟩ := e.exists_keeps_passes now
    rw [stop, if_pos (hkeeps.running.trans hrunning)] at heq
    rw [heq] at htick
    obtain ⟨rfl, -⟩ := Prod.mk.inj htick
    refine ⟨⟨rfl, rfl, ?_⟩, congrArg Graph.clearOutputs (e.graph_passes now), hkeeps.config,
      hkeeps.overrides, hkeeps.policy, hkeeps.tick, hkeeps.lastTickMs⟩
    exact congrArg (Watchdog.mk · 0 []) hreach.thresholds
  · rw [heq] at htick
    cases htick

end Engine

end CueFlow
