import CueFlow.Proofs.Engine.Turn
/-!
# What a host gets back from a call

A call changes the engine and brings about events (`Engine.call`), and it has a result
(`Engine.result`): that it was refused and why, or what it came to. Results show no generation,
since that number is of no use outside one engine. Where only the kind of a result matters, it is
the *verdict* (`CallResult.verdict`).
-/

namespace CueFlow

/-- What a host gets back from a call. -/
inductive CallResult where
  | done
  | refused (error : EngineError)
  | loaded (report : LoadReport)
  | compiled (steps : List PlanStep) (stats : PlanStats)
  /-- Whether there was an override to clear. -/
  | cleared (found : Bool)
  | ticked (outcome : TickOutcome)

/-- The kind of a result. -/
inductive Verdict where
  | succeeded
  | refused
  | idle
  | completed
  | halted
deriving DecidableEq, Repr

namespace CallResult

/-- The result of an operation that may be refused. -/
def ofExcept {α : Type} (result : α → CallResult) : Except EngineError α → CallResult
  | .ok a => result a
  | .error error => .refused error

/-- The kind of a result. -/
def verdict : CallResult → Verdict
  | done | loaded _ | compiled .. | cleared _ => .succeeded
  | refused _ => .refused
  | ticked .idle => .idle
  | ticked (.completed _) => .completed
  | ticked (.halted _) => .halted

/-- Operations that agree have the same verdict. -/
theorem verdict_of_agree {α β : Type} {R : α → β → Prop} {x : Except EngineError α}
    {y : Except EngineError β} (h : Agree R x y) {result : α → CallResult}
    {result' : β → CallResult} (hresult : ∀ a, (result a).verdict = .succeeded)
    (hresult' : ∀ b, (result' b).verdict = .succeeded) :
    (ofExcept result x).verdict = (ofExcept result' y).verdict := by
  cases h with
  | ok => exact (hresult _).trans (hresult' _).symm
  | error => rfl

end CallResult

/-- Whether all reports that some events tell of pass a test. -/
def reportsPass (p : HaltReport → Bool) (events : List Event) : Bool :=
  events.all fun event ↦
    match event with
    | .halted report => p report
    | .called _ | .ticked _ => true

theorem of_reportsPass {p : HaltReport → Bool} {events : List Event}
    (h : reportsPass p events = true) {report : HaltReport} (hmem : .halted report ∈ events) :
    p report = true :=
  List.all_eq_true.1 h _ hmem

/-- No test passes, so there are no reports. -/
theorem halted_not_mem_of_reportsPass {events : List Event}
    (h : reportsPass (fun _ ↦ false) events = true) (report : HaltReport) :
    .halted report ∉ events :=
  fun hmem ↦ Bool.false_ne_true (of_reportsPass h hmem)

namespace Engine

variable (e : Engine)

/-- What the host gets back from a call. -/
def result : HostCall → CallResult
  | .load state => .ofExcept (fun loaded ↦ .loaded loaded.2) (e.load state)
  | .compile => .ofExcept (fun made ↦ .compiled made.2.steps made.2.stats) e.compileNow
  | .applyEdit edit => .ofExcept (fun _ ↦ .done) (e.applyEdit edit)
  | .tryEdit edit => .ofExcept (fun _ ↦ .done) (e.tryEdit edit)
  | .setOverride node kind key value lifetime now =>
    .ofExcept (fun _ ↦ .done) (e.setOverride node kind key value lifetime now)
  | .clearOverride node kind key => .cleared (e.clearOverride node kind key).2
  | .setPolicy _ => .done
  | .start => .ofExcept (fun _ ↦ .done) e.start
  | .stop => .done
  | .tick now => .ticked (e.tickAt now).2.1

variable {e}

/-- A tick with the outcome of one that halts is one. -/
theorem tickAt_eq_of_halted {now : Float} {report : HaltReport}
    (h : (e.tickAt now).2.1 = .halted report) :
    e.tickAt now = ((e.tickAt now).1, .halted report, (e.tickAt now).2.2) := by
  rw [← h]

/-- Only operations that are not ticks succeed. -/
theorem verdict_ofExcept {α : Type} {shown : α → CallResult}
    (hshown : ∀ a, (shown a).verdict = .succeeded) (x : Except EngineError α) :
    (CallResult.ofExcept shown x).verdict = .succeeded ∨
      (CallResult.ofExcept shown x).verdict = .refused := by
  cases x with
  | ok a => exact .inl (hshown a)
  | error error => exact .inr rfl

/-- Only a tick has an outcome. -/
theorem exists_of_ticked {c : HostCall} (hsucceeded : (e.result c).verdict ≠ .succeeded)
    (hrefused : (e.result c).verdict ≠ .refused) : ∃ now, c = .tick now := by
  cases c with
  | tick now => exact ⟨now, rfl⟩
  | load | compile | applyEdit | tryEdit | setOverride | start =>
    exact absurd (verdict_ofExcept (fun _ ↦ rfl) _) (not_or.2 ⟨hsucceeded, hrefused⟩)
  | clearOverride | setPolicy | stop => exact absurd rfl hsucceeded

/-- Only a tick halts. -/
theorem exists_of_halted {c : HostCall} (h : (e.result c).verdict = .halted) :
    ∃ now report, c = .tick now ∧ (e.tickAt now).2.1 = .halted report := by
  obtain ⟨now, rfl⟩ := exists_of_ticked (by rw [h]; exact nofun) (by rw [h]; exact nofun)
  rw [result] at h
  cases houtcome : (e.tickAt now).2.1 with
  | halted report => exact ⟨now, report, rfl, houtcome⟩
  | idle | completed =>
    rw [houtcome] at h
    cases h

/-- A tick of a running engine is completed unless it halts. -/
theorem exists_of_not_halted (hrunning : e.running = true) {now : Float}
    (h : (e.result (.tick now)).verdict ≠ .halted) :
    ∃ info, (e.tickAt now).2.1 = .completed info := by
  cases houtcome : (e.tickAt now).2.1 with
  | idle => exact absurd houtcome (outcome_tickAt_ne_idle hrunning now)
  | completed info => exact ⟨info, rfl⟩
  | halted report =>
    rw [result, houtcome] at h
    exact absurd rfl h

/-- A tick that halts tells the host. -/
theorem mem_of_halted (he : e.Reachable) {now : Float} {report : HaltReport}
    (h : (e.tickAt now).2.1 = .halted report) : .halted report ∈ (e.call (.tick now)).2 := by
  rw [call, events_of_halted he (tickAt_eq_of_halted h)]
  simp

/-- A call that tells of no halt has not halted. -/
theorem verdict_ne_halted (he : e.Reachable) {c : HostCall}
    (hnone : ∀ report, .halted report ∉ (e.call c).2) : (e.result c).verdict ≠ .halted := by
  intro hhalted
  obtain ⟨now, report, rfl, houtcome⟩ := exists_of_halted hhalted
  exact hnone report (mem_of_halted he houtcome)

/-- Only a tick is completed. -/
theorem exists_of_completed_verdict {c : HostCall} (h : (e.result c).verdict = .completed) :
    ∃ now info, c = .tick now ∧ (e.tickAt now).2.1 = .completed info := by
  obtain ⟨now, rfl⟩ := exists_of_ticked (by rw [h]; exact nofun) (by rw [h]; exact nofun)
  rw [result] at h
  cases houtcome : (e.tickAt now).2.1 with
  | completed info => exact ⟨now, info, rfl, houtcome⟩
  | idle | halted =>
    rw [houtcome] at h
    cases h

end Engine

end CueFlow
