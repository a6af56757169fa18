import Mathlib.Data.List.Induction
import CueFlow.Engine.TickLoop
import CueFlow.Proofs.Engine.Turn
/-!
# The protocol of a tick loop

Between two instants a loop does one of two things: it carries out a command or it runs a tick
(`LoopStep`). Whatever the host sends and whenever ticks are due, what has become of a loop is what
several such steps, one after the other, have made of it (`TickLoop.exists_of_session`), and so it
is enough to look at all lists of steps, at any instants.

What one step may report is said once (`Answered`), together with what it makes of the engine. From
it two things follow for all that a loop reports. Every command is answered in its turn, in the
order of the commands (`Session`). And the reports alone tell whether the engine ticks and what the
number of its next tick is (`LoopEvent.nextAfter`), because they begin to agree with the engine when
the loop begins and every step keeps them in agreement (`Answered.tells`). The theorem about the
loop (`loop_protocol`) reads the order of its ticks off that.
-/

namespace CueFlow

/-- One step of a loop. -/
inductive LoopStep where
  | command (command : LoopCommand)
  | tick

/-! ### What reports tell -/

namespace LoopEvent

/-- The number of a tick that is reported. -/
def tick? : LoopEvent → Option Nat
  | ticked info => some info.tick
  | _ => none

/-- Whether an event reports that ticks begin or end. -/
def isSwitch : LoopEvent → Bool
  | started | stopped | watchdog _ => true
  | _ => false

/-- The number of the next tick, none while there are no ticks, after one more event. -/
def next? (next : Option Nat) : LoopEvent → Option Nat
  | started => some 0
  | ticked info => some (info.tick + 1)
  | stopped | watchdog _ => none
  | _ => next

/-- Whether an event may be reported when this is the number of the next tick. -/
def Fits (next : Option Nat) : LoopEvent → Prop
  | ticked info => next = some info.tick
  | _ => True

/-- The number of the next tick after some events. -/
def nextAfter (next : Option Nat) (events : List LoopEvent) : Option Nat := events.foldl next? next

/-- Each event fits what the events before it tell. -/
def AllFit (next : Option Nat) : List LoopEvent → Prop
  | [] => True
  | event :: rest => event.Fits next ∧ AllFit (event.next? next) rest

/-- Reports fit on if they fit up to some point, and on from there. -/
theorem allFit_append (next : Option Nat) (events later : List LoopEvent) :
    AllFit next (events ++ later) ↔
      AllFit next events ∧ AllFit (nextAfter next events) later := by
  induction events generalizing next with
  | nil => simp [AllFit, nextAfter]
  | cons event rest ih => simp [AllFit, nextAfter, ih, and_assoc]

theorem nextAfter_append (next : Option Nat) (events later : List LoopEvent) :
    nextAfter next (events ++ later) = nextAfter (nextAfter next events) later :=
  List.foldl_append

/-- When there is a next tick, the last switch was a start. -/
theorem getLast?_filter_isSwitch {events : List LoopEvent} (h : AllFit none events) {number : Nat}
    (hnext : nextAfter none events = some number) :
    (events.filter isSwitch).getLast? = some .started := by
  induction events using List.reverseRecOn generalizing number with
  | nil => cases hnext
  | append_singleton events event ih =>
    obtain ⟨hevents, hfits, -⟩ := (allFit_append none events [event]).1 h
    rw [nextAfter_append] at hnext
    rw [List.filter_append]
    cases event with
    | started => simp [isSwitch]
    | stopped => cases hnext
    | watchdog report => cases hnext
    | ticked info => simpa [isSwitch] using ih hevents hfits
    | _ => simpa [isSwitch] using ih hevents hnext

/-- Ticks are numbered on, as long as there is no switch. -/
theorem exists_filterMap_tick?_eq_range' {number : Nat} {events : List LoopEvent}
    (h : AllFit (some number) events) (hswitch : ∀ event ∈ events, event.isSwitch = false) :
    ∃ n, events.filterMap tick? = List.range' number n := by
  induction events generalizing number with
  | nil => exact ⟨0, rfl⟩
  | cons event rest ih =>
    obtain ⟨hfits, hrest⟩ := h
    have hno := hswitch event List.mem_cons_self
    have hlater : ∀ event ∈ rest, event.isSwitch = false :=
      fun later hmem ↦ hswitch later (List.mem_cons_of_mem event hmem)
    cases event with
    | started => cases hno
    | stopped => cases hno
    | watchdog report => cases hno
    | ticked info =>
      obtain rfl := Option.some.inj hfits
      obtain ⟨n, hn⟩ := ih hrest hlater
      exact ⟨n + 1, by simp [tick?, hn, List.range'_succ]⟩
    | _ => exact ih hrest hlater

/-- There are no ticks before a start. -/
theorem filterMap_tick?_eq_nil {events : List LoopEvent} (h : AllFit none events)
    (hstart : .started ∉ events) : events.filterMap tick? = [] := by
  induction events with
  | nil => rfl
  | cons event rest ih =>
    obtain ⟨hfits, hrest⟩ := h
    have hlater : .started ∉ rest := fun hmem ↦ hstart (List.mem_cons_of_mem event hmem)
    cases event with
    | started => exact absurd List.mem_cons_self hstart
    | ticked info => cases hfits
    | _ => exact ih hrest hlater

/-- The order of ticks among some reports. -/
structure TicksInOrder (reported : List LoopEvent) : Prop where
  /-- A tick is reported only if the last switch was a start. -/
  started : ∀ before info later, reported = before ++ .ticked info :: later →
    (before.filter isSwitch).getLast? = some .started
  /-- From each start to the next switch, ticks are numbered from zero without gap or repeat. -/
  numbered : ∀ before stretch later, reported = before ++ .started :: (stretch ++ later) →
    (∀ event ∈ stretch, event.isSwitch = false) → ∃ n, stretch.filterMap tick? = List.range n
  /-- After the report of a halt, no tick is reported before the next start. -/
  quiet : ∀ before report stretch later,
    reported = before ++ .watchdog report :: (stretch ++ later) → .started ∉ stretch →
      stretch.filterMap tick? = []

/-- If all reports fit, ticks are numbered from zero after every start, with no gaps. -/
theorem AllFit.ticksInOrder {reported : List LoopEvent} (h : AllFit none reported) :
    TicksInOrder reported := by
  refine ⟨fun before info later hsplit ↦ ?_, fun before stretch later hsplit hswitch ↦ ?_,
    fun before report stretch later hsplit hstart ↦ ?_⟩
  · rw [hsplit, allFit_append] at h
    obtain ⟨hbefore, hfits, -⟩ := h
    exact getLast?_filter_isSwitch hbefore hfits
  · rw [hsplit, allFit_append] at h
    obtain ⟨-, -, hrest⟩ := h
    obtain ⟨n, hn⟩ := exists_filterMap_tick?_eq_range' ((allFit_append _ _ _).1 hrest).1 hswitch
    exact ⟨n, hn.trans List.range_eq_range'.symm⟩
  · rw [hsplit, allFit_append] at h
    obtain ⟨-, -, hrest⟩ := h
    exact filterMap_tick?_eq_nil ((allFit_append _ _ _).1 hrest).1 hstart

end LoopEvent

/-! ### The next tick of an engine -/

namespace Engine

variable {e e' : Engine} {now : Float} {events : List Event}

/-- The number of the next tick, none if the engine does not run. -/
def nextTick? (e : Engine) : Option Nat := if e.running then some e.tick else none

/-- An engine that is not running has no next tick. -/
theorem nextTick?_eq_none (h : e.running = false) : e.nextTick? = none := by
  rw [nextTick?, h]
  rfl

theorem running_stop (e : Engine) : e.stop.1.running = false := by
  cases hrunning : e.running with
  | false =>
    rw [stop, hrunning]
    exact hrunning
  | true => exact (stop_of_running hrunning).1

/-- After a start the next tick is the first. -/
theorem nextTick?_of_start (h : e.start = .ok e') : e'.nextTick? = some 0 := by
  obtain ⟨plan, -, rfl⟩ := of_start h
  rfl

theorem nextTick?_forgetRemoved (e : Engine) (edit : GraphEdit) :
    (e.forgetRemoved edit).nextTick? = e.nextTick? := by
  rw [forgetRemoved]
  split <;> rfl

/-- An edit does not change which tick is next. -/
theorem nextTick?_of_tryEdit {edit : GraphEdit} (h : e.tryEdit edit = .ok e') :
    e'.nextTick? = e.nextTick? := by
  obtain ⟨g, -, ⟨-, plan, -, rfl⟩ | ⟨-, rfl⟩⟩ := of_tryEdit h
  · exact nextTick?_forgetRemoved _ edit
  · exact nextTick?_forgetRemoved _ edit

/-- A load does not change which tick is next. -/
theorem nextTick?_of_load {state : GraphState} {report : LoadReport}
    (h : e.load state = .ok (e', report)) : e'.nextTick? = e.nextTick? := by
  obtain ⟨g, -, rfl⟩ := of_load_eq h
  rfl

/-- A completed tick is the next tick, and one more comes after it. -/
theorem nextTick?_of_completed {info : TickInfo}
    (htick : e.tickAt now = (e', .completed info, events)) :
    e.nextTick? = some info.tick ∧ e'.nextTick? = some (info.tick + 1) := by
  have hrunning := running_of_completed htick
  obtain ⟨error, -, heq⟩ | ⟨plan, -, heq⟩ := tickAt_cases hrunning now
  · rw [heq, halt_eq] at htick
    cases htick
  · have hkeeps := ((e.atTime now).keepPlan plan).keeps_passes plan now (e.sinceLast now)
    have hcompute := (Tick.Touches.computePass
      (((e.atTime now).keepPlan plan).beginTick now (e.sinceLast now)) plan.steps).number
    have hsink := (Tick.Touches.sinkPass
      (((e.atTime now).keepPlan plan).computed plan now (e.sinceLast now)) plan.steps).number
    obtain ⟨t, report, hpass, hrun⟩ | ⟨t, hpass, hrun⟩ :=
      ((e.atTime now).keepPlan plan).runPlan_cases plan now (e.sinceLast now)
    · rw [heq, hrun] at htick
      cases htick
    · rw [hpass] at hkeeps hsink
      rw [heq, hrun] at htick
      cases htick
      have hnumber : t.info.tick = e.tick := hsink.trans hcompute
      have hlast : t.engine.tick = e.tick := hkeeps.tick
      have hstill : t.engine.running = true := hkeeps.running.trans hrunning
      simp [nextTick?, hrunning, hstill, hnumber, hlast]

/-- A tick that halts leaves no next tick. -/
theorem nextTick?_of_halted {report : HaltReport}
    (htick : e.tickAt now = (e', .halted report, events)) : e'.nextTick? = none := by
  obtain ⟨error, -, heq⟩ | ⟨plan, -, heq⟩ := tickAt_cases (running_of_halted htick) now
  · rw [heq, halt_eq] at htick
    cases htick
    exact nextTick?_eq_none (running_stop (e.atTime now))
  · obtain ⟨t, report', -, hrun⟩ | ⟨t, -, hrun⟩ :=
      ((e.atTime now).keepPlan plan).runPlan_cases plan now (e.sinceLast now)
    · rw [heq, hrun] at htick
      cases htick
      exact nextTick?_eq_none (running_stop t.engine)
    · rw [heq, hrun] at htick
      cases htick

end Engine

/-! ### What one step reports -/

/-- What a step of a loop around an engine reports, and the engine after it. -/
inductive Answered (e : Engine) : LoopStep → List LoopEvent → Engine → Prop
  | started {e' : Engine} (h : e.start = .ok e') : Answered e (.command .start) [.started] e'
  | startFailed {error : EngineError} (h : e.start = .error error) :
      Answered e (.command .start) [.failed error] e
  | stopped : Answered e (.command .stop) [.stopped] e.stop.1
  | intervalSet (milliseconds : Nat) :
      Answered e (.command (.setTickInterval milliseconds)) [] e
  | overrideSet {node : NodeId} (kind : OverrideKind) (key : String) (value : Value)
      (lifetime : Option Float) (now : Float) (h : (e.graph.node? node).isSome) :
      Answered e (.command (.setOverride node kind key value lifetime)) []
        { e with overrides := e.overrides.set node kind key value lifetime now }
  | overrideFailed {node : NodeId} (kind : OverrideKind) (key : String) (value : Value)
      (lifetime : Option Float) (h : e.graph.node? node = none) :
      Answered e (.command (.setOverride node kind key value lifetime))
        [.failed (.unknownNode node)] e
  | overrideCleared (node : NodeId) (kind : OverrideKind) (key : String) :
      Answered e (.command (.clearOverride node kind key)) [] (e.clearOverride node kind key).1
  | editApplied {edit : GraphEdit} {e' : Engine} (h : e.tryEdit edit = .ok e') :
      Answered e (.command (.edit edit)) [.editApplied] e'
  | editRejected {edit : GraphEdit} {error : EngineError} (h : e.tryEdit edit = .error error) :
      Answered e (.command (.edit edit)) [.editRejected error] e
  | loaded {state : GraphState} {report : LoadReport} {e' : Engine}
      (h : e.load state = .ok (e', report)) :
      Answered e (.command (.load state)) [.loaded report] e'
  | loadFailed {state : GraphState} {error : EngineError} (h : e.load state = .error error) :
      Answered e (.command (.load state)) [.failed error] e
  | idle (h : e.running = false) : Answered e .tick [] e
  | ticked {now : Float} {info : TickInfo} {e' : Engine} {events : List Event}
      (h : e.tickAt now = (e', .completed info, events)) : Answered e .tick [.ticked info] e'
  | halted {now : Float} {report : HaltReport} {e' : Engine} {events : List Event}
      (h : e.tickAt now = (e', .halted report, events)) : Answered e .tick [.watchdog report] e'

/-- What a step reports fits, and tells the next tick. -/
theorem Answered.tells {e e' : Engine} {s : LoopStep} {reports : List LoopEvent}
    (h : Answered e s reports e') :
    LoopEvent.AllFit e.nextTick? reports ∧
      LoopEvent.nextAfter e.nextTick? reports = e'.nextTick? := by
  cases h with
  | started h => exact ⟨⟨trivial, trivial⟩, (Engine.nextTick?_of_start h).symm⟩
  | stopped => exact ⟨⟨trivial, trivial⟩, (Engine.nextTick?_eq_none e.running_stop).symm⟩
  | editApplied h => exact ⟨⟨trivial, trivial⟩, (Engine.nextTick?_of_tryEdit h).symm⟩
  | loaded h => exact ⟨⟨trivial, trivial⟩, (Engine.nextTick?_of_load h).symm⟩
  | ticked h =>
    obtain ⟨hnumber, hnext⟩ := Engine.nextTick?_of_completed h
    exact ⟨⟨hnumber, trivial⟩, hnext.symm⟩
  | halted h => exact ⟨⟨trivial, trivial⟩, (Engine.nextTick?_of_halted h).symm⟩
  | startFailed | overrideFailed | editRejected | loadFailed => exact ⟨⟨trivial, trivial⟩, rfl⟩
  | intervalSet | overrideSet | overrideCleared | idle => exact ⟨trivial, rfl⟩

/-- No step reports the end of the loop. -/
theorem Answered.shutdown_notMem {e e' : Engine} {s : LoopStep} {reports : List LoopEvent}
    (h : Answered e s reports e') : .shutdown ∉ reports := by
  cases h <;> simp

/-- What several steps of a loop around an engine report, step by step, and the engine after
them. -/
inductive Session : Engine → List LoopStep → List LoopEvent → Engine → Prop
  | nil (e : Engine) : Session e [] [] e
  | cons {e e' e'' : Engine} {s : LoopStep} {steps : List LoopStep}
      {reports later : List LoopEvent} (first : Answered e s reports e')
      (rest : Session e' steps later e'') : Session e (s :: steps) (reports ++ later) e''

/-- **What is reported in a session fits** what the engine does in it. -/
theorem Session.tells {e e' : Engine} {steps : List LoopStep} {reports : List LoopEvent}
    (h : Session e steps reports e') :
    LoopEvent.AllFit e.nextTick? reports ∧
      LoopEvent.nextAfter e.nextTick? reports = e'.nextTick? := by
  induction h with
  | nil e => exact ⟨trivial, rfl⟩
  | cons first _ ih =>
    obtain ⟨hfit, hnext⟩ := first.tells
    rw [LoopEvent.allFit_append, LoopEvent.nextAfter_append, hnext]
    exact ⟨⟨hfit, ih.1⟩, ih.2⟩

/-- No shutdown is reported in the course of a session. -/
theorem Session.shutdown_notMem {e e' : Engine} {steps : List LoopStep}
    {reports : List LoopEvent} (h : Session e steps reports e') : .shutdown ∉ reports := by
  induction h with
  | nil e => exact List.not_mem_nil
  | cons first _ ih => exact List.not_mem_append first.shutdown_notMem ih

/-! ### Steps of the loop -/

namespace TickLoop

/-- One step of a loop, at an instant. -/
def step (l : TickLoop) (s : LoopStep) (now : Nat) : TickLoop :=
  match s with
  | .command command => l.handle command now
  | .tick => l.runTick now

/-- A loop after several steps, each at its instant. -/
def after (l : TickLoop) : List (LoopStep × Nat) → TickLoop
  | [] => l
  | (s, now) :: rest => (l.step s now).after rest

theorem after_append (l : TickLoop) (steps later : List (LoopStep × Nat)) :
    l.after (steps ++ later) = (l.after steps).after later := by
  induction steps generalizing l with
  | nil => rfl
  | cons s rest ih => exact ih (l.step s.1 s.2)

/-- **A command is answered** after all that was reported before. -/
theorem exists_handle (l : TickLoop) (command : LoopCommand) (now : Nat) :
    ∃ reports, (l.handle command now).reported = l.reported ++ reports ∧
      Answered l.engine (.command command) reports (l.handle command now).engine := by
  cases command with
  | start =>
    rw [handle]
    cases h : l.engine.start with
    | ok e' => exact ⟨[.started], rfl, .started h⟩
    | error error => exact ⟨[.failed error], rfl, .startFailed h⟩
  | stop => exact ⟨[.stopped], rfl, .stopped⟩
  | setTickInterval milliseconds =>
    exact ⟨[], (List.append_nil _).symm, .intervalSet milliseconds⟩
  | setOverride node kind key value lifetime =>
    rw [handle, Engine.setOverride]
    cases h : l.engine.graph.node? node with
    | none => exact ⟨[.failed (.unknownNode node)], rfl, .overrideFailed kind key value lifetime h⟩
    | some n =>
      exact ⟨[], (List.append_nil _).symm,
        .overrideSet kind key value lifetime (hostTime now) (h ▸ rfl)⟩
  | clearOverride node kind key =>
    exact ⟨[], (List.append_nil _).symm, .overrideCleared node kind key⟩
  | edit edit =>
    rw [handle]
    cases h : l.engine.tryEdit edit with
    | ok e' => exact ⟨[.editApplied], rfl, .editApplied h⟩
    | error error => exact ⟨[.editRejected error], rfl, .editRejected h⟩
  | load state =>
    rw [handle]
    cases h : l.engine.load state with
    | ok loaded => exact ⟨[.loaded loaded.2], rfl, .loaded h⟩
    | error error => exact ⟨[.failed error], rfl, .loadFailed h⟩

/-- **A tick is reported if there is one.** -/
theorem exists_runTick (l : TickLoop) (now : Nat) :
    ∃ reports, (l.runTick now).reported = l.reported ++ reports ∧
      Answered l.engine .tick reports (l.runTick now).engine := by
  rw [runTick]
  obtain ⟨e', outcome, events, htick⟩ :
      ∃ e' outcome events, l.engine.tickAt (hostTime now) = (e', outcome, events) :=
    ⟨_, _, _, rfl⟩
  rw [htick]
  cases outcome with
  | completed info => exact ⟨[.ticked info], rfl, .ticked htick⟩
  | halted report => exact ⟨[.watchdog report], rfl, .halted htick⟩
  | idle =>
    obtain rfl := Engine.eq_of_idle htick
    exact ⟨[], (List.append_nil _).symm,
      .idle (Engine.not_running_of_idle (congrArg (fun r ↦ r.2.1) htick))⟩

/-- A step of the loop reports what the engine makes of it, behind what was reported before. -/
theorem exists_step (l : TickLoop) (s : LoopStep) (now : Nat) :
    ∃ reports, (l.step s now).reported = l.reported ++ reports ∧
      Answered l.engine s reports (l.step s now).engine := by
  cases s with
  | command command => exact l.exists_handle command now
  | tick => exact l.exists_runTick now

/-- What several steps report comes after all that was reported before. -/
theorem exists_session (l : TickLoop) (steps : List (LoopStep × Nat)) :
    ∃ reports, (l.after steps).reported = l.reported ++ reports ∧
      Session l.engine (steps.map Prod.fst) reports (l.after steps).engine := by
  induction steps generalizing l with
  | nil => exact ⟨[], (List.append_nil _).symm, .nil l.engine⟩
  | cons s rest ih =>
    obtain ⟨reports, hreported, hfirst⟩ := l.exists_step s.1 s.2
    obtain ⟨later, hlater, hrest⟩ := ih (l.step s.1 s.2)
    refine ⟨reports ++ later, ?_, .cons hfirst hrest⟩
    rw [← List.append_assoc, ← hreported]
    exact hlater

/-- A turn is a command, if one has arrived, and then a tick, if one is due. -/
theorem exists_turn (l : TickLoop) (command : Option LoopCommand) (now : Nat) :
    ∃ steps, l.turn command now = l.after steps := by
  have htick : ∀ handled : TickLoop, ∃ steps,
      (if handled.engine.running && handled.nextTick ≤ now then handled.runTick now
        else handled) = handled.after steps := by
    intro handled
    split
    · exact ⟨[(.tick, now)], rfl⟩
    · exact ⟨[], rfl⟩
  cases command with
  | none => exact htick l
  | some command =>
    obtain ⟨steps, hsteps⟩ := htick (l.handle command now)
    exact ⟨(.command command, now) :: steps, hsteps⟩

/-- To wait for halts is to go through some steps. -/
theorem exists_awaitHalts (l : TickLoop) (halts now fuel : Nat) :
    ∃ steps, (l.awaitHalts halts now fuel).1 = l.after steps := by
  induction fuel generalizing l now with
  | zero => exact ⟨[], rfl⟩
  | succ fuel ih =>
    rw [awaitHalts]
    split
    · exact ⟨[], rfl⟩
    · obtain ⟨turn, hturn⟩ := l.exists_turn none (max now l.nextTick)
      obtain ⟨steps, hsteps⟩ := ih (l.turn none (max now l.nextTick)) (max now l.nextTick)
      exact ⟨turn ++ steps, by rw [hsteps, hturn, after_append]⟩

/-- What a host does comes to some steps of the loop. -/
theorem exists_runHost (l : TickLoop) (now seen : Nat) (host : List HostStep) :
    ∃ steps, l.runHost now seen host = l.after steps := by
  induction host generalizing l now seen with
  | nil => exact ⟨[], rfl⟩
  | cons first rest ih =>
    cases first with
    | send command =>
      obtain ⟨turn, hturn⟩ := l.exists_turn (some command) now
      obtain ⟨steps, hsteps⟩ := ih (l.turn (some command) now) (now + millisecond) seen
      exact ⟨turn ++ steps, by rw [runHost, hsteps, hturn, after_append]⟩
    | awaitHalt =>
      obtain ⟨turns, hturns⟩ := l.exists_awaitHalts (seen + 1) now patience
      rw [runHost]
      generalize l.awaitHalts (seen + 1) now patience = waited at hturns ⊢
      obtain ⟨l', now'⟩ := waited
      dsimp only at hturns
      obtain ⟨steps, hsteps⟩ := ih l' (now' + millisecond) (seen + 1)
      exact ⟨turns ++ steps, hsteps.trans (by rw [hturns, after_append])⟩

/-- **Whatever a host does**, its session is made of such steps. -/
theorem exists_of_session (engine : Engine) (host : List HostStep) :
    ∃ steps, session engine host = ((new engine).after steps).shutdown := by
  obtain ⟨steps, hsteps⟩ := (new engine).exists_runHost 0 0 host
  exact ⟨steps, by rw [session, hsteps]⟩

/-- **The protocol of a tick loop** around an engine that does not run. Whatever steps it takes
before it ends, and whenever: of all that is reported, the ticks are in order; each command has been
answered in its turn; and the end is reported once and last, with the engine stopped. -/
theorem loop_protocol {engine : Engine} (hrest : engine.running = false)
    (steps : List (LoopStep × Nat)) :
    LoopEvent.TicksInOrder ((new engine).after steps).shutdown.reported ∧
    ∃ reports, ((new engine).after steps).shutdown.reported = reports ++ [.shutdown] ∧
      .shutdown ∉ reports ∧
      Session engine (steps.map Prod.fst) reports ((new engine).after steps).engine ∧
      ((new engine).after steps).shutdown.engine.running = false := by
  obtain ⟨reports, hreported, hsession⟩ := (new engine).exists_session steps
  have hall : ((new engine).after steps).shutdown.reported = reports ++ [.shutdown] :=
    congrArg (· ++ [LoopEvent.shutdown]) hreported
  have hfit := hsession.tells.1
  have hnone : (new engine).engine.nextTick? = none := Engine.nextTick?_eq_none hrest
  rw [hnone] at hfit
  refine ⟨?_, reports, hall, hsession.shutdown_notMem, hsession, Engine.running_stop _⟩
  rw [hall]
  exact ((LoopEvent.allFit_append none reports [.shutdown]).2
    ⟨hfit, trivial, trivial⟩).ticksInOrder

/-- The sample is started, ticks twice, and is stopped between two ticks. -/
theorem loop_protocol_sampleEngine : ∃ first second,
    ((new sampleEngine).after [(.command .start, 0), (.tick, 0), (.tick, 33 * millisecond),
      (.command .stop, 40 * millisecond), (.tick, 66 * millisecond)]).shutdown.reported =
        [.started, .ticked first, .ticked second, .stopped, .shutdown] ∧
      [first.tick, second.tick] = [0, 1] := by
  obtain ⟨horder, -⟩ := loop_protocol (show sampleEngine.running = false from rfl)
    [(.command .start, 0), (.tick, 0), (.tick, 33 * millisecond),
      (.command .stop, 40 * millisecond), (.tick, 66 * millisecond)]
  obtain ⟨first, second, hreported⟩ : ∃ first second,
      ((new sampleEngine).after [(.command .start, 0), (.tick, 0), (.tick, 33 * millisecond),
        (.command .stop, 40 * millisecond), (.tick, 66 * millisecond)]).shutdown.reported =
          [.started, .ticked first, .ticked second, .stopped, .shutdown] := ⟨_, _, rfl⟩
  refine ⟨first, second, hreported, ?_⟩
  obtain ⟨n, hn⟩ := horder.numbered [] [.ticked first, .ticked second] [.stopped, .shutdown]
    hreported (by simp [LoopEvent.isSwitch])
  have hlength : n = 2 := by simpa [LoopEvent.tick?] using (congrArg List.length hn).symm
  subst hlength
  exact hn

end TickLoop

end CueFlow
