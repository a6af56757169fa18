import CueFlow.Proofs.Engine.Calls
import CueFlow.Proofs.Plan
/-!
# The plan in use is the plan of the graph

An engine knows that its plan is out of date by a number only: the generation of the graph that the
plan was made from. `Engine.PlanSound` is what this rests on: no plan is newer than the graph, and a
plan of the graph's own generation is what compiling the graph gives. Every call keeps it
(`GraphMove.planSound`), because what keeps the skeleton keeps the result of compiling, an edit of
the topology makes every plan at hand older than the graph, and a load drops the plan. Hence it
holds of every reachable engine (`Reachable.planSound`).

For ticks this means that the passes run over the plan of the graph at hand (`tickAt_eq_runPlan`),
and since no step changes the skeleton, every index in it denotes what it stands for, from the
first step to the last (`denotes_computePass`, `denotes_sinkPass`).
-/

namespace CueFlow.Engine

variable {e e' : Engine}

/-- No plan is newer than the graph, and a plan of its generation is the plan of the graph. -/
def PlanSound (e : Engine) : Prop :=
  ∀ plan, e.plan = some plan → plan.generation ≤ e.graph.generation ∧
    (plan.generation = e.graph.generation → e.graph.compile = .ok plan)

/-! ### Staleness -/

theorem isPlanStale_eq_false_iff :
    e.isPlanStale = false ↔ ∃ plan, e.plan = some plan ∧ plan.generation = e.graph.generation := by
  rw [isPlanStale]
  cases e.plan with
  | none => simp
  | some plan => simp

/-- A plan that has just been made is sound. -/
theorem PlanSound.of_compile {plan : Plan} (hplan : e.plan = some plan)
    (hcompile : e.graph.compile = .ok plan) : e.PlanSound := by
  intro plan' hplan'
  obtain rfl : plan = plan' := Option.some.inj (hplan.symm.trans hplan')
  exact ⟨Nat.le_of_eq (Graph.generation_of_compile hcompile), fun _ ↦ hcompile⟩

/-- What a call does to the graph keeps the plan sound. -/
theorem GraphMove.planSound (h : e.GraphMove e') (he : e.PlanSound) : e'.PlanSound := by
  cases h with
  | kept hskel hplan =>
    obtain hsame | ⟨plan, hplan, hcompile⟩ := hplan
    · intro plan hplan
      obtain ⟨hle, hcompile⟩ := he plan (hsame.symm.trans hplan)
      rw [Graph.generation_congr hskel, Graph.compile_congr hskel]
      exact ⟨hle, hcompile⟩
    · exact .of_compile hplan hcompile
  | edited htopology happly hplan =>
    obtain hsame | ⟨plan, hplan, hcompile⟩ := hplan
    · intro plan hplan
      obtain ⟨hle, -⟩ := he plan (hsame.symm.trans hplan)
      -- The edit has moved the generation on, so the plan at hand is strictly older.
      have hnext := Graph.generation_of_apply htopology happly
      exact ⟨by omega, fun heq ↦ by omega⟩
    · exact .of_compile hplan hcompile
  | loaded _ hplan =>
    intro plan hplan'
    rw [hplan] at hplan'
    cases hplan'

/-- **The plan of a reachable engine is sound.** -/
theorem Reachable.planSound (h : e.Reachable) : e.PlanSound := by
  induction h with
  | new _ hnew =>
    rw [new_eq hnew]
    intro plan hplan
    cases hplan
  | call c _ ih => exact (moves_call _ c).graph.planSound ih

theorem PlanSound.compile_of_not_stale (he : e.PlanSound) (hfresh : e.isPlanStale = false) :
    ∃ plan, e.plan = some plan ∧ e.graph.compile = .ok plan := by
  obtain ⟨plan, hplan, hgeneration⟩ := isPlanStale_eq_false_iff.1 hfresh
  exact ⟨plan, hplan, (he plan hplan).2 hgeneration⟩

/-! ### The plan of a tick -/

/-- The engine with which both passes of a tick begin, given the plan they run over. -/
def readied (e : Engine) (plan : Plan) (now : Float) : Engine := (e.atTime now).keepPlan plan

/-- **Both passes of a tick run over the plan of the graph at hand**, unless the graph does not
compile. -/
theorem tickAt_eq_runPlan (he : e.PlanSound) (hrunning : e.running = true) (now : Float) :
    (∃ error, e.graph.compile = .error error ∧
      e.tickAt now = (e.atTime now).halt (compileReport error)) ∨
    ∃ plan, e.graph.compile = .ok plan ∧
      e.tickAt now = (e.readied plan now).runPlan plan now (e.sinceLast now) := by
  obtain hfailed | ⟨plan, hplan, heq⟩ := tickAt_cases hrunning now
  · exact .inl hfailed
  · refine .inr ⟨plan, ?_, heq⟩
    obtain ⟨hfresh, hplan⟩ | hcompile := hplan
    · obtain ⟨plan', hplan', hcompile⟩ := he.compile_of_not_stale hfresh
      rw [hcompile, Option.some.inj (hplan'.symm.trans hplan)]
    · exact hcompile

theorem tickAt_eq_runPlan_of_compile {plan : Plan} (he : e.PlanSound) (hrunning : e.running = true)
    (hcompile : e.graph.compile = .ok plan) (now : Float) :
    e.tickAt now = (e.readied plan now).runPlan plan now (e.sinceLast now) := by
  obtain ⟨error, herror, -⟩ | ⟨plan', hcompile', heq⟩ := tickAt_eq_runPlan he hrunning now
  · rw [hcompile] at herror
    cases herror
  · obtain rfl : plan = plan' := Except.ok.inj (hcompile.symm.trans hcompile')
    exact heq

theorem tickAt_eq_halt_of_error {error : EngineError} (he : e.PlanSound)
    (hrunning : e.running = true) (hcompile : e.graph.compile = .error error) (now : Float) :
    e.tickAt now = (e.atTime now).halt (compileReport error) := by
  obtain ⟨error', herror, heq⟩ | ⟨plan, hplan, -⟩ := tickAt_eq_runPlan he hrunning now
  · obtain rfl : error = error' := Except.error.inj (hcompile.symm.trans herror)
    exact heq
  · rw [hcompile] at hplan
    cases hplan

theorem outcome_runPlan_ne_idle (plan : Plan) (now delta : Float) :
    (e.runPlan plan now delta).2.1 ≠ .idle := by
  obtain ⟨t, report, -, heq⟩ | ⟨t, -, heq⟩ := e.runPlan_cases plan now delta
  · rw [heq]
    exact nofun
  · rw [heq]
    exact nofun

/-- A running engine does not idle. -/
theorem outcome_tickAt_ne_idle (hrunning : e.running = true) (now : Float) :
    (e.tickAt now).2.1 ≠ .idle := by
  obtain ⟨error, -, heq⟩ | ⟨plan, -, heq⟩ := tickAt_cases hrunning now
  · rw [heq, halt_eq]
    exact nofun
  · rw [heq]
    exact outcome_runPlan_ne_idle plan now _

/-! ### What the indices denote while a tick is under way -/

variable {plan : Plan} {s : PlanStep}

theorem denotes_computePass (hcompile : e.graph.compile = .ok plan) (hs : s ∈ plan.steps)
    (now delta : Float) (done : List PlanStep) :
    s.Denotes ((e.beginTick now delta).computePass done).engine.graph := by
  have hkeeps := (Tick.Touches.computePass (e.beginTick now delta) done).keeps
  exact (Graph.denotes_of_mem_steps hcompile hs).congr hkeeps.skeleton

theorem denotes_sinkPass (hcompile : e.graph.compile = .ok plan) (hs : s ∈ plan.steps)
    (now delta : Float) (done : List PlanStep) :
    s.Denotes ((e.computed plan now delta).sinkPass done).1.engine.graph := by
  have hkeeps := (Tick.Touches.sinkPass (e.computed plan now delta) done).keeps
  exact (denotes_computePass hcompile hs now delta plan.steps).congr hkeeps.skeleton

/-- **Plan fidelity.** A plan that is not stale is the plan of the graph, and so is the plan of
every tick: at every point of both passes, every index in it denotes what it stands for. A tick of
a running engine is never idle. -/
theorem plan_fidelity (h : e.Reachable) :
    (e.isPlanStale = false → ∃ plan, e.plan = some plan ∧ e.graph.compile = .ok plan) ∧
    ∀ now, e.running = true → (e.tickAt now).2.1 ≠ .idle ∧
      ((∃ error, e.graph.compile = .error error ∧
        e.tickAt now = (e.atTime now).halt (compileReport error)) ∨
      ∃ plan, e.graph.compile = .ok plan ∧
        e.tickAt now = (e.readied plan now).runPlan plan now (e.sinceLast now) ∧
        ∀ done rest, plan.steps = done ++ rest → ∀ s ∈ plan.steps,
          s.Denotes (((e.readied plan now).beginTick now (e.sinceLast now)).computePass
            done).engine.graph ∧
          s.Denotes (((e.readied plan now).computed plan now (e.sinceLast now)).sinkPass
            done).1.engine.graph) := by
  refine ⟨h.planSound.compile_of_not_stale, fun now hrunning ↦
    ⟨outcome_tickAt_ne_idle hrunning now, ?_⟩⟩
  obtain hfailed | ⟨plan, hcompile, heq⟩ := tickAt_eq_runPlan h.planSound hrunning now
  · exact .inl hfailed
  · have hready : (e.readied plan now).graph.compile = .ok plan := hcompile
    exact .inr ⟨plan, hcompile, heq, fun done _ _ s hs ↦
      ⟨denotes_computePass hready hs now _ done, denotes_sinkPass hready hs now _ done⟩⟩

/-- The dimmer, the wire and the lamp run over the plan of their graph. -/
theorem plan_fidelity_sample : ∃ plan, (sampleEngine.call .start).1.plan = some plan ∧
    (sampleEngine.call .start).1.graph.compile = .ok plan :=
  (plan_fidelity (reachable_sampleEngine.call .start)).1 rfl

end CueFlow.Engine
