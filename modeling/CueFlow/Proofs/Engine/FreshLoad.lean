import CueFlow.Proofs.Engine.ColdStart
import CueFlow.Proofs.Engine.FailClosed
/-!
# A load forgets the past

A load puts another graph into an engine and throws away all that hung on the nodes of the old one:
overrides, histories, memory and plan. It does not stop the engine. So of the past of an engine that
is loaded, what is left is whether it runs, and what a start does away with.

A fresh engine around the same snapshot is that engine at rest (`veiled_loaded`), and they start
alike, or are refused alike. Once both have started they look the same for ever. If they are
refused, it matters whether the engine was running: at rest it looks the same as the fresh one all
the same, apart from the report of an earlier halt (`views_rested`); running it goes on running, and
halts if it is ticked next. `load_forgets_the_past` says all of this; that the two are told apart in
the last case is `refused_start_tells_apart`.
-/

namespace CueFlow

/-- What a host sees of a call, apart from an earlier halt. -/
def HostView.withoutHalt (v : HostView) : HostView := { v with halted := none }

namespace Engine

variable {e e' : Engine} {state : GraphState} {report : LoadReport}

/-! ### Engines at rest -/

theorem rested_forgetRemoved (e : Engine) (edit : GraphEdit) :
    (e.forgetRemoved edit).rested = e.rested.forgetRemoved edit := by
  rw [forgetRemoved, forgetRemoved]
  cases edit.removedNode? with
  | some node => rfl
  | none => rfl

theorem orStay_rested {x : Except EngineError Engine} :
    e.rested.orStay (x.map rested) = (e.orStay x).rested := by
  cases x with
  | ok e' => rfl
  | error error => rfl

/-- **As long as an engine does not run**, a start does away with nothing that makes a difference to
any other call. -/
theorem call_rested (hrunning : e.running = false) {c : HostCall} (hc : c ≠ .start) :
    (e.rested.call c).1 = (e.call c).1.rested ∧ (e.rested.call c).2 = (e.call c).2 ∧
      e.rested.result c = e.result c := by
  have hgraph : e.rested.graph = e.graph := rfl
  have hedited : ∀ {x y : Except EngineError Engine}, y = x.map rested →
      e.rested.orStay y = (e.orStay x).rested ∧ ([] : List Event) = [] ∧
        CallResult.ofExcept (fun _ ↦ .done) y = CallResult.ofExcept (fun _ ↦ .done) x := by
    rintro x y rfl
    refine ⟨orStay_rested, rfl, ?_⟩
    cases x with
    | ok e' => rfl
    | error error => rfl
  cases c with
  | load state =>
    have hconfig : e.rested.config = e.config := rfl
    rw [call, call, result, result, load, load, hgraph, hconfig]
    cases Graph.load e.graph.catalog state e.config.loadPolicy with
    | ok loaded => exact ⟨rfl, rfl, rfl⟩
    | error error => exact ⟨rfl, rfl, rfl⟩
  | compile =>
    rw [call, call, result, result, compileNow, compileNow, hgraph]
    cases e.graph.compile with
    | ok plan => exact ⟨rfl, rfl, rfl⟩
    | error error => exact ⟨rfl, rfl, rfl⟩
  | applyEdit edit =>
    refine hedited ?_
    rw [applyEdit, applyEdit, hgraph]
    cases e.graph.apply edit with
    | ok g => exact congrArg Except.ok (rested_forgetRemoved { e with graph := g } edit).symm
    | error error => rfl
  | tryEdit edit =>
    refine hedited ?_
    rw [tryEdit, tryEdit, hgraph]
    cases e.graph.apply edit with
    | error error => rfl
    | ok g =>
      cases htopology : edit.isTopology with
      | false =>
        exact congrArg Except.ok (rested_forgetRemoved { e with graph := g } edit).symm
      | true =>
        show (g.compile >>= _) = Except.map rested (g.compile >>= _)
        cases g.compile with
        | error error => rfl
        | ok plan =>
          exact congrArg Except.ok
            (rested_forgetRemoved { e with graph := g, plan := some plan } edit).symm
  | setOverride node kind key value lifetime now =>
    refine hedited ?_
    rw [setOverride, setOverride, hgraph]
    cases e.graph.node? node with
    | some n => rfl
    | none => rfl
  | clearOverride | setPolicy => exact ⟨rfl, rfl, rfl⟩
  | start => exact absurd rfl hc
  | stop =>
    have hrested : e.rested.running = false := hrunning
    rw [call, call, stop, stop, hrunning, hrested]
    exact ⟨rfl, rfl, rfl⟩
  | tick now =>
    rw [call, call, result, result, tickAt_of_not_running hrunning,
      tickAt_of_not_running (e := e.rested) hrunning]
    exact ⟨rfl, rfl, rfl⟩

/-- **At rest an engine looks like one without a past**, apart from the report of an earlier halt.
-/
theorem views_rested (hrunning : e.running = false) (calls : List HostCall) :
    (e.rested.views calls).map HostView.withoutHalt =
      (e.views calls).map HostView.withoutHalt := by
  induction calls generalizing e with
  | nil => rfl
  | cons c rest ih =>
    rw [views, views, List.map_cons, List.map_cons]
    by_cases hc : c = .start
    · subst hc
      rw [view, view, call, call, result, result, start_rested]
      cases hstart : e.start with
      | ok e₁ => rfl
      | error error => exact congrArg (List.cons _) (ih hrunning)
    · obtain ⟨hnext, hevents, hresult⟩ := call_rested hrunning hc
      have hstays := (call_of_not_running hrunning fun heq ↦ absurd heq hc).2
      rw [view, view, hnext, hevents, hresult]
      exact congrArg (List.cons _) (ih hstays)

/-! ### What a load leaves -/

/-- A start does not ask whether the engine runs. -/
theorem start_withRunning (e : Engine) (running : Bool) :
    ({ e with running } : Engine).start = e.start := by
  rw [start, compileNow, start, compileNow]
  cases e.graph.compile with
  | ok plan => rfl
  | error error => rfl

/-- **A fresh engine is the loaded one at rest.** -/
theorem veiled_loaded (he : e.Reachable) (hload : e.load state = .ok (e', report)) :
    ∃ fresh, Engine.ofState e.graph.catalog state e.config = .ok (fresh, report) ∧
      ∀ policy : HostPolicy, policy.GoesOn e' →
        (fresh.setPolicy policy).veiled =
          ({ e' with running := false } : Engine).rested.veiled := by
  obtain ⟨g, hgraph, rfl⟩ := of_load_eq hload
  refine ⟨{ graph := g, config := e.config, watchdog := { config := e.config.watchdog } },
    bind_eq_ok_iff.2 ⟨_, hgraph, bind_eq_ok_iff.2 ⟨_, he.new_eq_ok g, rfl⟩⟩,
    fun policy hpolicy ↦ ?_⟩
  let loaded : Engine := { e with
    graph := g
    plan := none
    overrides := {}
    watchdog := e.watchdog.reset
    memory := []
    running := false }
  have hcold : loaded.Cold := ⟨rfl, rfl, congrArg (Watchdog.mk · 0 []) he.thresholds⟩
  have hgoesOn : policy.GoesOn loaded := ⟨hpolicy.node, hpolicy.sink, hpolicy.compute⟩
  have hrested := hcold.veiled_rested hgoesOn
  rw [Graph.reloaded_of_load hgraph] at hrested
  exact hrested

/-- A start is only refused because the graph does not compile. -/
theorem compile_of_start {error : EngineError} (h : e.start = .error error) :
    e.graph.compile = .error error := by
  cases hcompile : e.graph.compile with
  | ok plan =>
    rw [start_of_compile hcompile] at h
    cases h
  | error error' =>
    rw [start, compileNow, hcompile] at h
    exact congrArg Except.error (Except.error.inj h)

/-- **A load forgets the past.** Let an engine accept a snapshot. Then a fresh engine around the
snapshot reports the same, and with a policy that goes on like the one of the loaded engine, it
starts if and only if that does, and is refused with the same error otherwise. Once both have
started, they look the same in every sequence of calls. An engine that was not running when it was
loaded looks the same in any case, apart from the report of an earlier halt. A start that is refused
changes neither of them, so an engine that was running goes on running, and halts if it is ticked
next. -/
theorem load_forgets_the_past (he : e.Reachable) (hload : e.load state = .ok (e', report)) :
    ∃ fresh, Engine.ofState e.graph.catalog state e.config = .ok (fresh, report) ∧
      ∀ policy, policy.GoesOn e' → ∀ f, f = fresh.setPolicy policy →
        f.result .start = e'.result .start ∧
        (∀ f₁ e₁, f.start = .ok f₁ → e'.start = .ok e₁ →
          ∀ calls, f₁.views calls = e₁.views calls) ∧
        (e.running = false → ∀ calls, (f.views calls).map HostView.withoutHalt =
          (e'.views calls).map HostView.withoutHalt) ∧
        ∀ error, e'.start = .error error → f.call .start = (f, []) ∧ e'.call .start = (e', []) ∧
          (e.running = true → ∀ now, (e'.tickAt now).2.1 = .halted (compileReport error)) := by
  obtain ⟨fresh, hfresh, hveiled⟩ := veiled_loaded he hload
  have hreach : e'.Reachable := by
    have hcall := he.call (.load state)
    rw [call, hload] at hcall
    exact hcall
  have hrunning : e'.running = e.running := by
    obtain ⟨g, -, rfl⟩ := of_load_eq hload
    rfl
  refine ⟨fresh, hfresh, fun policy hpolicy f hf ↦ ?_⟩
  have hreachF : f.Reachable := hf ▸ (Reachable.ofState hfresh).call (.setPolicy policy)
  have hsame : f.veiled = ({ e' with running := false } : Engine).rested.veiled :=
    hf ▸ hveiled policy hpolicy
  have hstart := start_congr hsame
  rw [start_rested, start_withRunning e' false] at hstart
  have hresult : f.result .start = e'.result .start :=
    CallResult.ofExcept_congr hstart fun _ _ _ ↦ rfl
  refine ⟨hresult, fun f₁ e₁ hf₁ he₁ calls ↦ ?_, fun hstopped calls ↦ ?_, fun error herror ↦ ?_⟩
  · rw [hf₁, he₁] at hstart
    exact views_congr (Except.ok.inj hstart) (hreachF.start hf₁).planSound
      (hreach.start he₁).planSound calls
  · rw [hstopped] at hrunning
    have hrested : f.veiled = e'.rested.veiled := by
      rw [hsame, ← hrunning]
    rw [← views_rested hrunning]
    exact congrArg _ (views_congr hrested hreachF.planSound hreach.planSound calls)
  · have herrorF : f.start = .error error := by
      rw [herror] at hstart
      cases hf₁ : f.start with
      | ok f₁ =>
        rw [hf₁] at hstart
        cases hstart
      | error error' =>
        rw [hf₁] at hstart
        exact congrArg Except.error (Except.error.inj hstart)
    refine ⟨by rw [call, herrorF]; rfl, by rw [call, herror]; rfl, fun hruns now ↦ ?_⟩
    rw [tickAt_eq_halt_of_error hreach.planSound (hrunning.trans hruns) (compile_of_start herror),
      halt_eq]

/-- An engine that runs, with an override and a lamp that has been delivered to, takes the snapshot
of the sample anew. It cannot be told apart from a fresh engine once both have started. -/
theorem load_forgets_the_past_sample : ∃ e' fresh f₁ e₁,
    overriddenEngine.load sampleGraph.snapshot = .ok (e', {}) ∧
    Engine.ofState sampleCatalog sampleGraph.snapshot {} = .ok (fresh, {}) ∧
    fresh.start = .ok f₁ ∧ e'.start = .ok e₁ ∧ ∀ calls, f₁.views calls = e₁.views calls := by
  have hreach : overriddenEngine.Reachable := reachable_sampleEngine.run _
  have hload : overriddenEngine.load sampleGraph.snapshot =
      .ok ((overriddenEngine.call (.load sampleGraph.snapshot)).1, {}) := rfl
  obtain ⟨fresh, hfresh, hsame⟩ := load_forgets_the_past hreach hload
  have hsteady : (overriddenEngine.call (.load sampleGraph.snapshot)).1.policy.Steady :=
    HostPolicy.steady_allEnabled
  obtain ⟨-, hviews, -⟩ := hsame _ hsteady.goesOn _ rfl
  obtain ⟨rfl, -⟩ := Prod.mk.inj (Except.ok.inj hfresh)
  exact ⟨_, _, _, _, hload, rfl, rfl, rfl, hviews _ _ rfl rfl⟩

/-- Two wires that are closed on each other. -/
def loopedSnapshot : GraphState where
  nodes := [{ id := "a", type := "wire" }, { id := "b", type := "wire" }]
  connections := [⟨"ab", "a", "out", "b", "in"⟩, ⟨"ba", "b", "out", "a", "in"⟩]

/-- The sample is started and takes two wires that are closed on each other. Then a start is
refused, as it is for a fresh engine around them, but the engine still runs: its next tick halts,
while the fresh engine is idle. -/
theorem refused_start_tells_apart : ∃ e e' fresh,
    sampleEngine.start = .ok e ∧ e.load loopedSnapshot = .ok (e', {}) ∧
    Engine.ofState sampleCatalog loopedSnapshot {} = .ok (fresh, {}) ∧ fresh.policy = e'.policy ∧
    fresh.start = .error (.cycle ["a", "b"]) ∧ e'.start = .error (.cycle ["a", "b"]) ∧
    (fresh.tickAt 0.0).2.1 = .idle ∧
    (e'.tickAt 0.0).2.1 = .halted (compileReport (.cycle ["a", "b"])) :=
  ⟨_, _, _, rfl, rfl, rfl, rfl, rfl, rfl, rfl, rfl⟩

end Engine

end CueFlow
