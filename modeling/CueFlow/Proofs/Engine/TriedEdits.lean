import CueFlow.Proofs.Engine.InPlace
import CueFlow.Proofs.Engine.Influence
import CueFlow.Proofs.Engine.Watched
import CueFlow.Proofs.Watchdog.Oscillation
/-!
# Edits that are tried first

A tried edit is carried out only if the graph still compiles with it. As long as a host changes the
graph in no other way (`Engine.OnlyTries`), a graph that compiles goes on compiling: a tried edit of
the topology brings its plan along, an edit of the content keeps the skeleton, which is all that the
compiler looks at, and no other call touches the topology (`exists_compile_call`,
`exists_compile_run`). On a graph that compiles, a start succeeds, and a tick halts only for what
the watchdog finds (`reason_of_trips`). So once an engine has started, nothing that is tried first
halts it with a compile error (`tried_edits_never_halt`).
-/

namespace CueFlow

/-- Whether a call replaces the graph, or edits it without a trial. -/
def HostCall.isUntried : HostCall → Bool
  | .load _ | .applyEdit _ => true
  | _ => false

/-! ### What the watchdog reports -/

namespace Watchdog

variable {τ : Type} [Sub τ] [LT τ] [DecidableLT τ] {w : Watchdog τ} {node : NodeId} {now : τ}
  {report : HaltReport}

theorem reason_of_observe {port : String} {value : Value}
    (h : (w.observe node now port value).2 = some report) : report.reason = .oscillation := by
  cases hsignature : valueSignature? value w.config.continuousActions with
  | none =>
    rw [observe_of_none hsignature] at h
    cases h
  | some signature =>
    rw [observe_of_some hsignature] at h
    obtain ⟨-, earlier, later, length, hreport⟩ | ⟨-, hnone⟩ :=
      alternationReport?_cases w.config.oscillationMinAlternations node port
        (extendHistory w.config now signature (w.observed node port))
    · obtain rfl := Option.some.inj (hreport.symm.trans h)
      rfl
    · rw [hnone] at h
      cases h

theorem reason_of_checkOscillation {values : ValueMap}
    (h : (w.checkOscillation node values now).2 = some report) : report.reason = .oscillation := by
  induction values generalizing w with
  | nil => cases h
  | cons entry rest ih =>
    rw [checkOscillation] at h
    split at h
    next w' report' heq =>
      obtain rfl := Option.some.inj h
      exact reason_of_observe (congrArg Prod.snd heq)
    next w' heq => exact ih h

end Watchdog

namespace Engine

variable {e e₁ : Engine} {now : Float} {report : HaltReport} {calls : List HostCall}

/-- **What ends a sink pass is a finding of the watchdog.** -/
theorem reason_of_trips {t : Tick} {s : PlanStep} (h : t.Trips s report) :
    report.reason = .sinkBurst ∨ report.reason = .oscillation := by
  obtain ⟨found, delivered, -, hburst | ⟨-, hoscillation⟩⟩ := h
  · exact .inl (Watchdog.reason_of_checkBurst hburst)
  · exact .inr (Watchdog.reason_of_checkOscillation hoscillation)

/-- A tick of a graph that compiles does not halt on a compile error. -/
theorem reason_ne_compileError (hcompile : ∃ plan, e.graph.compile = .ok plan)
    (hhalts : (e.tickAt now).2.1 = .halted report) : report.reason ≠ .compileError := by
  obtain ⟨plan, hcompile⟩ := hcompile
  have hrunning := running_of_halted (tickAt_eq_of_halted hhalts)
  obtain ⟨error, herror, -⟩ | ⟨plan', -, heq⟩ := tickAt_cases hrunning now
  · rw [hcompile] at herror
    cases herror
  · obtain ⟨t, report', hpass, hrun⟩ | ⟨t, -, hrun⟩ :=
      ((e.atTime now).keepPlan plan').runPlan_cases plan' now (e.sinceLast now)
    · obtain ⟨before, s, after, t', -, -, htrips⟩ := exists_trips_of_sinkPass hpass
      rw [heq, hrun] at hhalts
      obtain rfl := TickOutcome.halted.inj hhalts
      obtain hreason | hreason := reason_of_trips htrips
      · exact hreason ▸ nofun
      · exact hreason ▸ nofun
    · rw [heq, hrun] at hhalts
      cases hhalts

/-! ### A graph that goes on compiling -/

/-- Among some calls, no graph is loaded and no edit applied without a trial, unless that is
refused. -/
def OnlyTries (e : Engine) (calls : List HostCall) : Prop :=
  ∀ before c after, calls = before ++ c :: after → c.isUntried = true →
    ∃ error, (e.run before).1.result c = .refused error

theorem OnlyTries.of_isUntried (h : ∀ c ∈ calls, c.isUntried = false) (e : Engine) :
    e.OnlyTries calls := by
  rintro before c after rfl huntried
  rw [h c (by simp)] at huntried
  cases huntried

theorem OnlyTries.of_append {later : List HostCall} (h : e.OnlyTries (calls ++ later)) :
    e.OnlyTries calls := by
  rintro before c after rfl
  exact h before c (after ++ later) (by simp)

/-- **A tried edit leaves a graph that compiles**: one of the topology only goes through if it
does, and one of the content does not matter to that. -/
theorem exists_compile_tryEdit {edit : GraphEdit} (h : e.tryEdit edit = .ok e₁)
    (hcompile : ∃ plan, e.graph.compile = .ok plan) : ∃ plan, e₁.graph.compile = .ok plan := by
  obtain ⟨g, happly, ⟨-, plan, hplan, rfl⟩ | ⟨hcontent, rfl⟩⟩ := of_tryEdit h
  · rw [(forgetRemoved_eq _ edit).1]
    exact ⟨plan, hplan⟩
  · rw [(forgetRemoved_eq _ edit).1]
    show ∃ plan, g.compile = .ok plan
    rw [Graph.compile_congr (Graph.skeleton_of_apply hcontent happly)]
    exact hcompile

/-- A graph that compiles does so after any call that does not pass trials by. -/
theorem exists_compile_call {c : HostCall} (hcompile : ∃ plan, e.graph.compile = .ok plan)
    (honly : c.isUntried = true → ∃ error, e.result c = .refused error) :
    ∃ plan, (e.call c).1.graph.compile = .ok plan := by
  have hkept : c.keepsTopology = true → ∃ plan, (e.call c).1.graph.compile = .ok plan := by
    intro hc
    rw [Graph.compile_congr (skeleton_call hc)]
    exact hcompile
  cases c with
  | load | applyEdit =>
    obtain ⟨error, hrefused⟩ := honly rfl
    rw [call_of_refused hrefused]
    exact hcompile
  | tryEdit edit =>
    exact orStay_of (P := fun e' ↦ ∃ plan, e'.graph.compile = .ok plan) hcompile
      fun e' h ↦ exists_compile_tryEdit h hcompile
  | compile | setOverride | clearOverride | setPolicy | start | stop | tick => exact hkept rfl

/-- So it does after any number of them. -/
theorem exists_compile_run (hcompile : ∃ plan, e.graph.compile = .ok plan)
    (honly : e.OnlyTries calls) : ∃ plan, (e.run calls).1.graph.compile = .ok plan := by
  induction calls generalizing e with
  | nil => exact hcompile
  | cons c rest ih =>
    have hstep := exists_compile_call hcompile (honly [] c rest rfl)
    exact ih hstep fun before c' after hsplit ↦
      honly (c :: before) c' after (congrArg (c :: ·) hsplit)

/-- **Tried edits never halt the show.** Once an engine has started, let a host make any calls by
which the graph changes through tried edits only, whether these are carried out or refused. Then
every start among the calls succeeds, and no tick among them halts on a compile error. -/
theorem tried_edits_never_halt (hstart : e.start = .ok e₁) (honly : e₁.OnlyTries calls) :
    (∀ before after, calls = before ++ .start :: after →
      ∃ e₂, (e₁.run before).1.start = .ok e₂) ∧
    ∀ before now after report, calls = before ++ .tick now :: after →
      ((e₁.run before).1.tickAt now).2.1 = .halted report → report.reason ≠ .compileError := by
  have hcompile : ∃ plan, e₁.graph.compile = .ok plan := by
    obtain ⟨plan, hplan, rfl⟩ := of_start hstart
    exact ⟨plan, hplan⟩
  refine ⟨?_, ?_⟩
  · rintro before after rfl
    obtain ⟨plan, hplan⟩ := exists_compile_run hcompile honly.of_append
    exact ⟨_, start_of_compile hplan⟩
  · rintro before now after report rfl hhalts
    exact reason_ne_compileError (exists_compile_run hcompile honly.of_append) hhalts

/-- A connection that would close a wire on itself. -/
def noose : Connection := ⟨"ee", "e", "out", "e", "in"⟩

/-- One more wire is put in, and closed on itself, which is refused. The engine is started again and
ticked. -/
def rewiring : List HostCall :=
  [.tryEdit (.addNode { id := "e", type := "wire" }), .tryEdit (.addConnection noose),
    .start, .tick 0.0]

/-- The engine with two lamps goes along. The tick halts it, but only because both lamps are
delivered to. -/
theorem tried_edits_never_halt_crowdedEngine : ∃ e₁ e₂ report, crowdedEngine.start = .ok e₁ ∧
    (e₁.run (rewiring.take 1)).1.tryEdit (.addConnection noose) = .error (.cycle ["e"]) ∧
    (e₁.run (rewiring.take 2)).1.start = .ok e₂ ∧
    ((e₁.run (rewiring.take 3)).1.tickAt 0.0).2.1 = .halted report ∧
    report.reason ≠ .compileError := by
  have hstart : crowdedEngine.start = .ok (crowdedEngine.call .start).1 := rfl
  have honly : (crowdedEngine.call .start).1.OnlyTries rewiring :=
    .of_isUntried (by simp [rewiring, HostCall.isUntried]) _
  obtain ⟨hstarts, hticks⟩ := tried_edits_never_halt hstart honly
  obtain ⟨e₂, hagain⟩ := hstarts (rewiring.take 2) (rewiring.drop 3) rfl
  exact ⟨_, e₂, _, hstart, rfl, hagain, rfl, hticks (rewiring.take 3) 0.0 [] _ rfl rfl⟩

end Engine

end CueFlow
