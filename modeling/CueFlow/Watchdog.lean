import CueFlow.Command.Signature
import CueFlow.Config
import CueFlow.Node
/-!
# The watchdog

Before sink values reach a device, two checks run on them. The burst check bounds how many values
one tick may deliver. The oscillation check keeps, for every sink port, the recent signatures of
what was on it, and trips when they end in a strict alternation between two: a device that flickers.

Times may be of any type with a difference and a decidable order.
-/

namespace CueFlow

/-- Why an engine halted. -/
inductive HaltReason where
  | sinkBurst
  | oscillation
  | compileError
deriving DecidableEq, Repr

/-- The name of a reason in reports. -/
def HaltReason.name : HaltReason → String
  | sinkBurst => "sink-burst"
  | oscillation => "oscillation"
  | compileError => "compile-error"

/-- What is known about a halt. -/
structure HaltReport where
  reason : HaltReason
  message : String
  diagnostics : ValueMap

/-- One observation of a sink port. -/
structure Observation (τ : Type) where
  time : τ
  signature : String

/-! ### Alternation -/

section Alternation

variable {σ : Type} [DecidableEq σ]

/-- How far back an alternation goes on, given its two latest entries and the entries before them,
latest first: each further entry equals the one two after it and differs from the one after it. -/
def alternationBefore (latest second : σ) : List σ → Nat
  | [] => 0
  | x :: earlier =>
    if x = latest ∧ x ≠ second then alternationBefore second x earlier + 1 else 0

/-- The length of the strict alternation that a history ends in, latest entry first. A single entry
counts as one, and so does an entry that repeats the one before it. -/
def alternation : List σ → Nat
  | [] => 0
  | [_] => 1
  | latest :: second :: earlier =>
    if latest = second then 1 else 2 + alternationBefore latest second earlier

end Alternation

/-- The burst counter and the signature history of every sink port. -/
structure Watchdog (τ : Type) where
  config : WatchdogConfig τ
  burstCount : Nat := 0
  /-- By node and port, oldest observation first. -/
  history : KeyMap (KeyMap (List (Observation τ))) := []

namespace Watchdog

variable {τ : Type} (w : Watchdog τ)

/-- Start counting the deliveries of a new tick. -/
def beginTick : Watchdog τ := { w with burstCount := 0 }

/-- Forget everything observed so far. -/
def reset : Watchdog τ := { w with burstCount := 0, history := [] }

/-- Forget what was observed of one node. -/
def forget (node : NodeId) : Watchdog τ := { w with history := w.history.erase node }

/-- The observations kept for a sink port, oldest first. -/
def observed (node : NodeId) (port : String) : List (Observation τ) :=
  (((w.history.get? node).getD []).get? port).getD []

/-- Keep these observations for a sink port. -/
def keep (node : NodeId) (port : String) (observations : List (Observation τ)) : Watchdog τ :=
  { w with history := w.history.update node [] (·.insert port observations) }

/-! ### The burst check -/

/-- How many deliveries the values amount to. -/
def deliveries (values : ValueMap) : Nat :=
  (values.values.map Value.deliveryCount).foldr (· + ·) 0

/-- The report of a tick that delivers too much. -/
def burstReport (ceiling : Nat) (node : NodeId) (count : Nat) : HaltReport where
  reason := .sinkBurst
  message := "Sink burst: " ++ toString count ++ " values delivered in one tick (ceiling " ++
    toString ceiling ++ ") at node " ++ node
  diagnostics := KeyMap.ofEntries
    [("nodeId", .text node), ("count", .ofNat count), ("ceiling", .ofNat ceiling)]

/-- Count the values about to be delivered; a report if that exceeds the ceiling. -/
def checkBurst (node : NodeId) (delivered : ValueMap) : Watchdog τ × Option HaltReport :=
  let count := w.burstCount + deliveries delivered
  ({ w with burstCount := count },
    if count ≤ w.config.burstCeiling then none
    else some (burstReport w.config.burstCeiling node count))

/-! ### The oscillation check -/

/-- The report of a sink port that flickers between two signatures. -/
def oscillationReport (node : NodeId) (port : String) (earlier later : String) (length : Nat) :
    HaltReport where
  reason := .oscillation
  message := "Oscillation on " ++ node ++ "." ++ port ++ ": '" ++ earlier ++ "' and '" ++ later ++
    "' alternated " ++ toString length ++ " times"
  diagnostics := KeyMap.ofEntries
    [("nodeId", .text node), ("portId", .text port), ("length", .ofNat length),
      ("signatures", .list [.text earlier, .text later])]

/-- An alternation of two entries or more that is long enough to trip; a single entry is never one,
whatever the configured minimum. -/
def alternationReport? (minimum : Nat) (node : NodeId) (port : String)
    (observations : List (Observation τ)) : Option HaltReport :=
  let signatures := (observations.map Observation.signature).reverse
  let length := alternation signatures
  if max minimum 2 ≤ length then
    match signatures with
    | later :: earlier :: _ => some (oscillationReport node port earlier later length)
    | _ => none
  else none

section

variable [Sub τ] [LT τ] [DecidableLT τ]

/-- Add an observation, then drop the oldest ones beyond the window and those beyond the span. -/
def extendHistory (config : WatchdogConfig τ) (now : τ) (signature : String)
    (observations : List (Observation τ)) : List (Observation τ) :=
  let all := observations ++ [⟨now, signature⟩]
  (all.drop (all.length - config.oscillationWindow)).dropWhile fun o ↦
    decide (config.oscillationSpan < now - o.time)

/-- Observe the value of one sink port; a report if its history now ends in a long alternation.
Values without a discrete signature are not observed. -/
def observe (node : NodeId) (now : τ) (port : String) (value : Value) :
    Watchdog τ × Option HaltReport :=
  match valueSignature? value w.config.continuousActions with
  | none => (w, none)
  | some signature =>
    let observations := extendHistory w.config now signature (w.observed node port)
    (w.keep node port observations,
      alternationReport? w.config.oscillationMinAlternations node port observations)

/-- Observe the sink ports of a node in the order of their ids, up to the first that trips. -/
def checkOscillation (w : Watchdog τ) (node : NodeId) (values : ValueMap) (now : τ) :
    Watchdog τ × Option HaltReport :=
  match values with
  | [] => (w, none)
  | entry :: rest =>
    match w.observe node now entry.1 entry.2 with
    | (w', some report) => (w', some report)
    | (w', none) => w'.checkOscillation node rest now

/-- Run both checks on what a node is about to be given, up to the first that trips: the burst check
on what is delivered, the oscillation check on all that was gathered. -/
def review (node : NodeId) (delivered gathered : ValueMap) (now : τ) :
    Watchdog τ × Option HaltReport :=
  match w.checkBurst node delivered with
  | (w', some report) => (w', some report)
  | (w', none) => w'.checkOscillation node gathered now

end

end Watchdog

end CueFlow
