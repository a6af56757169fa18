import CueFlow.Proofs.Engine.Computation
import CueFlow.Proofs.Engine.Muted
import CueFlow.Proofs.Engine.Tally
/-!
# Failures of hooks stay local

A hook may fail, and then the engine goes on. What a delivery or a cleanup comes to can be replaced
call by call (`Engine.replay`), and all that a host sees of the run stays the same but the count of
failures, from the first call to the last (`Engine.replay_muted`). What a computation comes to does
matter, as its outputs are read by others; but one that fails leaves the outputs of its node as they
were, and all other computations of the tick are called as ever (`Engine.outputs_of_failed`). So no
failure ends a tick (`Engine.completed_or_trips`). `Engine.hook_failures_stay_local` puts these
together with the summary of a tick, which counts the failures.
-/

namespace CueFlow

namespace Engine

variable {e f : Engine} {now : Float} {n : Node} {d : NodeDefinition} {plan : Plan}

/-! ### Other outcomes of deliveries and cleanups -/

/-- Several calls, one after the other, with what the host sees of each. What deliveries and
cleanups come to is laid down anew for every call of the host, as a hook need not come to the same
twice. Within one call no outcome of a hook of one node is looked at twice. -/
def replay (e : Engine) : List (HookOutcomes × HostCall) → Engine × List HostView
  | [] => (e, [])
  | (outcomes, c) :: rest =>
    let e := e.recast outcomes.recasting
    let (last, views) := (e.call c).1.replay rest
    (last, e.view c :: views)

/-- Engines that are the same when muted do the same in every call. -/
theorem call_muted_congr (h : f.muted = e.muted) (c : HostCall) :
    (f.call c).1.muted = (e.call c).1.muted ∧ (f.view c).muted = (e.view c).muted := by
  refine ⟨?_, ?_⟩
  · rw [← (f.call_muted c).1, h, (e.call_muted c).1]
  · rw [← f.view_muted c, h, e.view_muted c]

/-- **Outcomes of deliveries and cleanups show in the count of failures only.** -/
theorem replay_muted (h : f.muted = e.muted) (script : List (HookOutcomes × HostCall)) :
    (f.replay script).1.muted = (e.run (script.map Prod.snd)).1.muted ∧
      (f.replay script).2.map HostView.muted =
        (e.views (script.map Prod.snd)).map HostView.muted := by
  induction script generalizing e f with
  | nil => exact ⟨h, rfl⟩
  | cons entry rest ih =>
    obtain ⟨outcomes, c⟩ := entry
    have hrecast : (f.recast outcomes.recasting).muted = e.muted :=
      (f.muted_recast outcomes).trans h
    obtain ⟨hnext, hview⟩ := call_muted_congr hrecast c
    obtain ⟨hlast, hviews⟩ := ih hnext
    refine ⟨hlast, ?_⟩
    show ((f.recast outcomes.recasting).view c).muted :: _ = (e.view c).muted :: _
    rw [hview]
    exact congrArg _ hviews

/-! ### Computations that fail -/

/-- **A tick over a graph that compiles is completed unless the watchdog trips**, whatever fails. -/
theorem completed_or_trips (h : e.Reachable) (hrunning : e.running = true)
    (hcompile : e.graph.compile = .ok plan) (now : Float) :
    (∃ info, (e.tickAt now).2.1 = .completed info) ∨
      ∃ s after report, e.TripsAt now s after report ∧ (e.tickAt now).2.1 = .halted report := by
  cases hpass : (e.underway plan now plan.steps).sinkPass plan.steps with
  | mk t report =>
    cases report with
    | none =>
      rw [tickAt_eq_of_sinkPass h.planSound hrunning hcompile hpass]
      exact .inl ⟨t.info, rfl⟩
    | some report =>
      obtain ⟨before, s, after, t', hsplit, hbefore, htrips⟩ := exists_trips_of_sinkPass hpass
      refine .inr ⟨s, after, report, ⟨plan, before, t', hcompile, hsplit, hbefore, htrips⟩, ?_⟩
      rw [tickAt_eq_of_trips h hrunning hcompile hsplit hbefore htrips]

/-- **A computation that fails leaves the outputs of its node as they were**: between the passes of
any tick, and after a tick that is completed. -/
theorem outputs_of_failed (h : e.Reachable) (hcompile : e.graph.compile = .ok plan) (now : Float)
    (hn : n ∈ e.graph.nodes) (hd : e.graph.catalog.get? n.type = some d)
    (hcomputes : e.computes n.id = true)
    (hfailed : d.succeeds (e.processCall now (e.graphBetween now) n d) = false) :
    ((e.graphBetween now).node? n.id).map Node.outputValues = some n.outputValues := by
  obtain ⟨d', hd', hfound⟩ := node?_underway h.uniqueIds hcompile now hn
  obtain rfl : d' = d := Option.some.inj (hd'.symm.trans hd)
  rw [← graphBetween_of_compile hcompile] at hfound
  obtain ⟨hnode, hcompute⟩ := Bool.and_eq_true_iff.1 hcomputes
  rw [hfound, Option.map_some]
  refine congrArg some ?_
  show e.dataflow now (e.graphBetween now) n d' = n.outputValues
  rw [dataflow, if_pos hnode, if_pos hcompute]
  have hresult : succeeded (d'.process ((e.atTime now).inputsOf (e.graphBetween now) n d')
      ((e.atTime now).effectiveConfig n) ⟨n.id, e.tick, now, e.sinceLast now⟩) = false := hfailed
  split
  next outputs hok =>
    rw [hok] at hresult
    cases hresult
  next => rfl

/-! ### All together -/

/-- **Failures of hooks stay local.** If deliveries and cleanups come to something else in a run,
all stays the same but the count of failures. A computation that fails leaves the outputs of its
node as they were and ends nothing: every other computation of the tick is called as ever, and only
the watchdog can keep the tick from being completed. The summary of a completed tick counts the
computations that succeeded, the deliveries, and all that failed. -/
theorem hook_failures_stay_local (h : e.Reachable) :
    (∀ script : List (HookOutcomes × HostCall),
      (e.replay script).1.muted = (e.run (script.map Prod.snd)).1.muted ∧
      (e.replay script).2.map HostView.muted =
        (e.views (script.map Prod.snd)).map HostView.muted) ∧
    (∀ now plan, e.running = true → e.graph.compile = .ok plan →
      ((∃ info, (e.tickAt now).2.1 = .completed info) ∨
        ∃ s after report, e.TripsAt now s after report ∧ (e.tickAt now).2.1 = .halted report) ∧
      ∀ n ∈ e.graph.nodes, ∃ d, e.graph.catalog.get? n.type = some d ∧
        processCallsFor (e.tickAt now).2.2 n.id =
          (if e.computes n.id then [e.processCall now (e.graphBetween now) n d] else []) ∧
        (e.computes n.id = true →
          d.succeeds (e.processCall now (e.graphBetween now) n d) = false →
            ((e.graphBetween now).node? n.id).map Node.outputValues = some n.outputValues ∧
            ∀ info, (e.tickAt now).2.1 = .completed info →
              (e.tickAt now).1.outputs? n.id = some n.outputValues)) ∧
    ∀ now e' info events, e.tickAt now = (e', .completed info, events) →
      info.Tallies e.graph (hookCalls events) := by
  refine ⟨fun script ↦ replay_muted rfl script, fun now plan hrunning hcompile ↦
    ⟨completed_or_trips h hrunning hcompile now, fun n hn ↦ ?_⟩,
    fun now e' info events htick ↦ tallies_of_completed h htick⟩
  obtain ⟨d, hd, -⟩ := node?_underway h.uniqueIds hcompile now hn
  refine ⟨d, hd, processCallsFor_tickAt h hrunning hcompile now hn hd, fun hcomputes hfailed ↦ ?_⟩
  have houtputs := outputs_of_failed h hcompile now hn hd hcomputes hfailed
  refine ⟨houtputs, fun info hcompleted ↦ ?_⟩
  obtain ⟨plan', hcompile', hgraph⟩ :=
    graph_of_completed h.planSound (tickAt_eq_of_outcome hcompleted)
  rw [outputs?, hgraph, ← graphBetween_of_compile hcompile']
  exact houtputs

/-- The dimmer, the wire and the lamp, but the wire is broken. -/
def brokenEngine : Engine :=
  { sampleEngine with
    graph := { sampleGraph with
      catalog := sampleCatalog.register
        { type := "wire"
          inputs := [{ id := "in", type := .number }]
          outputs := [{ id := "out", type := .number }]
          process := fun _ _ _ ↦ .error .crashed } } }

theorem reachable_brokenEngine : brokenEngine.Reachable := by
  have hload : Graph.load brokenEngine.graph.catalog brokenEngine.graph.snapshot .strict =
      .ok (brokenEngine.graph, {}) := rfl
  have hnew : Engine.new brokenEngine.graph {} = .ok brokenEngine := rfl
  exact .new (.load hload) hnew

/-- A lamp that refuses whatever it is given. -/
def refusing : HookOutcomes := fun _ _ ↦ .error .crashed

/-- The first tick, with a lamp that takes what it is given and with one that does not. -/
theorem outcome_brokenEngine :
    ((brokenEngine.call .start).1.tickAt 0.0).2.1 =
      .completed { tick := 0, timeMs := 0.0, computed := 2, sinkCalls := 1, failures := 1 } ∧
    (((brokenEngine.call .start).1.recast refusing.recasting).tickAt 0.0).2.1 =
      .completed { tick := 0, timeMs := 0.0, computed := 2, sinkCalls := 1, failures := 2 } :=
  ⟨rfl, rfl⟩

/-- The wire fails, and so does the lamp if it refuses: that is one failure more, and nothing
else. -/
theorem hook_failures_stay_local_brokenEngine :
    ((brokenEngine.call .start).1.replay [(refusing, .tick 0.0)]).1.muted =
      ((brokenEngine.call .start).1.run [.tick 0.0]).1.muted ∧
    ((brokenEngine.call .start).1.tickAt 0.0).1.outputs? "b" = some [] ∧
    (hookCalls ((brokenEngine.call .start).1.tickAt 0.0).2.2).countP
      (!(brokenEngine.call .start).1.graph.succeeds ·) = 1 := by
  obtain ⟨hreplay, hfailed, htallies⟩ :=
    hook_failures_stay_local (reachable_brokenEngine.call .start)
  obtain ⟨houtcome, -⟩ := outcome_brokenEngine
  obtain ⟨-, hnodes⟩ := hfailed 0.0 _ rfl rfl
  obtain ⟨d, hd, -, hbroken⟩ := hnodes { id := "b", type := "wire" } (.tail _ (.head _))
  obtain rfl := Option.some.inj hd
  exact ⟨(hreplay [(refusing, .tick 0.0)]).1, (hbroken rfl rfl).2 _ houtcome,
    (htallies _ _ _ _ (tickAt_eq_of_outcome houtcome)).failures.symm⟩

end Engine

end CueFlow
