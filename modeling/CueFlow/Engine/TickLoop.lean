import CueFlow.Engine.Run
/-!
# The tick loop

A tick loop owns an engine, takes commands from its host and reports what happens. Commands are
carried out between ticks, in the order in which they were sent. `TickLoop.handle` carries out one
command and `TickLoop.runTick` runs one tick; `TickLoop.turn` is one turn of the loop, which does
the first if a command has arrived and then the second if a tick is due.

Instants and intervals are in nanoseconds, as the clock has them. Instants count from the beginning
of the loop and are supplied by the caller; the engine is told of them in milliseconds.
-/

namespace CueFlow

/-- What a host may ask of the loop. -/
inductive LoopCommand where
  | start
  | stop
  | setTickInterval (milliseconds : Nat)
  | setOverride (node : NodeId) (kind : OverrideKind) (key : String) (value : Value)
      (lifetime : Option Float)
  | clearOverride (node : NodeId) (kind : OverrideKind) (key : String)
  /-- An edit, refused if the result would not compile. -/
  | edit (edit : GraphEdit)
  | load (state : GraphState)

/-- What the loop reports. -/
inductive LoopEvent where
  | started
  | ticked (info : TickInfo)
  /-- The engine halted, and stays stopped until it is started again. -/
  | watchdog (report : HaltReport)
  | editApplied
  | editRejected (error : EngineError)
  | loaded (report : LoadReport)
  | stopped
  /-- A start, a load or an override failed. -/
  | failed (error : EngineError)
  /-- The loop has ended. -/
  | shutdown

/-- Whether an event reports a halt. -/
def LoopEvent.isWatchdog : LoopEvent → Bool
  | watchdog _ => true
  | _ => false

/-- The nanoseconds of a millisecond. -/
def millisecond : Nat := 1000000

/-- The nanoseconds of a second. -/
def second : Nat := 1000 * millisecond

/-- A tick loop with what it has reported and what its engine has called, oldest first. -/
structure TickLoop where
  engine : Engine
  interval : Nat
  nextTick : Nat := 0
  reported : List LoopEvent := []
  events : List Event := []

namespace TickLoop

/-- The loop around an engine, with the configured interval. -/
def new (engine : Engine) : TickLoop :=
  { engine, interval := engine.config.tickInterval * millisecond }

variable (l : TickLoop)

/-- An instant as host time of the engine: in seconds first, then in milliseconds. -/
def hostTime (now : Nat) : Float :=
  ((now / second).toUInt64.toFloat + (now % second).toUInt64.toFloat / second.toUInt64.toFloat) *
    1000.0

def report (event : LoopEvent) : TickLoop := { l with reported := l.reported ++ [event] }

/-- Stop the engine. -/
def stopEngine : TickLoop :=
  let (engine, events) := l.engine.stop
  { l with engine, events := l.events ++ events }

/-- Carry out a command. -/
def handle (command : LoopCommand) (now : Nat) : TickLoop :=
  match command with
  | .start =>
    match l.engine.start with
    | .ok engine => { l with engine, nextTick := now }.report .started
    | .error error => l.report (.failed error)
  | .stop => l.stopEngine.report .stopped
  | .setTickInterval milliseconds =>
    let interval := max milliseconds 1 * millisecond
    { l with interval, nextTick := now + interval }
  | .setOverride node kind key value lifetime =>
    match l.engine.setOverride node kind key value lifetime (hostTime now) with
    | .ok engine => { l with engine }
    | .error error => l.report (.failed error)
  | .clearOverride node kind key => { l with engine := (l.engine.clearOverride node kind key).1 }
  | .edit edit =>
    match l.engine.tryEdit edit with
    | .ok engine => { l with engine }.report .editApplied
    | .error error => l.report (.editRejected error)
  | .load state =>
    match l.engine.load state with
    | .ok (engine, loaded) => { l with engine }.report (.loaded loaded)
    | .error error => l.report (.failed error)

/-- Run one tick, and plan the next. A loop that has fallen behind does not catch up in a burst. -/
def runTick (now : Nat) : TickLoop :=
  let (engine, outcome, events) := l.engine.tickAt (hostTime now)
  let planned := l.nextTick + l.interval
  let ticked := { l with
    engine
    events := l.events ++ events
    nextTick := if planned < now then now + l.interval else planned }
  match outcome with
  | .completed info => ticked.report (.ticked info)
  | .halted report => ticked.report (.watchdog report)
  | .idle => ticked

/-- One turn of the loop: carry out a command if one has arrived, then tick if a tick is due. -/
def turn (command : Option LoopCommand) (now : Nat) : TickLoop :=
  let handled := match command with
    | some command => l.handle command now
    | none => l
  if handled.engine.running && handled.nextTick ≤ now then handled.runTick now else handled

/-- End the loop with the engine stopped. -/
def shutdown : TickLoop := l.stopEngine.report .shutdown

/-! ### A host that talks to the loop -/

/-- One step of a host: send a command, or wait for the next report of a halt. -/
inductive HostStep where
  | send (command : LoopCommand)
  | awaitHalt

/-- Whether a step waits for a halt. -/
def HostStep.waits : HostStep → Bool
  | awaitHalt => true
  | send _ => false

/-- Turns without commands, each when the next tick is due, until `halts` halts are reported or the
engine has stopped otherwise; at most `fuel` of them. -/
def awaitHalts (l : TickLoop) (halts now : Nat) : Nat → TickLoop × Nat
  | 0 => (l, now)
  | fuel + 1 =>
    if !l.engine.running || halts ≤ l.reported.countP LoopEvent.isWatchdog then (l, now)
    else
      let due := max now l.nextTick
      (l.turn none due).awaitHalts halts due fuel

/-- How many ticks a host waits for a halt. -/
def patience : Nat := 10000

/-- Run the loop against a host whose commands arrive one after another, a millisecond apart; `seen`
is the number of halts the host has read about. -/
def runHost (l : TickLoop) (now seen : Nat) : List HostStep → TickLoop
  | [] => l
  | .send command :: rest => (l.turn (some command) now).runHost (now + millisecond) seen rest
  | .awaitHalt :: rest =>
    let (l', now') := l.awaitHalts (seen + 1) now patience
    l'.runHost (now' + millisecond) (seen + 1) rest

/-- Everything that happens from the first command to the end of the loop. -/
def session (engine : Engine) (steps : List HostStep) : TickLoop :=
  ((new engine).runHost 0 0 steps).shutdown

/-- The reports up to and including that of the `halts`-th halt. -/
def throughHalts : Nat → List LoopEvent → List LoopEvent
  | 0, _ | _, [] => []
  | halts + 1, event :: rest =>
    event :: throughHalts (if event.isWatchdog then halts else halts + 1) rest

/-- What a host has read when it is done, if it reads only while it waits for halts. -/
def readWaiting (steps : List HostStep) : List LoopEvent :=
  throughHalts (steps.countP HostStep.waits) l.reported

end TickLoop

end CueFlow
