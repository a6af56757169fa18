import CueFlow.Command
import CueFlow.Decimal.Layout
/-!
# Discrete signatures of commands

The watchdog recognises flicker by comparing sink values over time. It compares *signatures*: texts
made of the action and of the few fields that change in steps. Blinking and strobing also carry
their frequency and duty, rounded to steps coarse enough not to tell apart what looks the same.
Actions that change all the time by design have no signature.
-/

namespace CueFlow

/-- The fields that belong to a signature, in the order in which they are written. -/
def signatureFields : List String := ["mode", "waveform", "sceneId", "transition"]

/-- The step to which a blink frequency is rounded, in hertz. -/
def frequencyStep : Float := 0.5

/-- The step to which a blink duty is rounded. -/
def dutyStep : Float := 0.05

/-- A measurement as a whole number of steps. -/
def quantize (x step : Float) : Int := Decimal.nearestInt64 (x / step)

/-- Whether a pattern occurs in a list of characters. -/
def occursIn (pattern : List Char) : List Char → Bool
  | [] => pattern.isEmpty
  | c :: rest => pattern.isPrefixOf (c :: rest) || occursIn pattern rest

/-- Actions that switch a device on and off periodically: those that name a blink or a strobe, in
capitals or not. -/
def isBlinkAction (action : String) : Bool :=
  let lower := action.toList.map Char.toLower
  occursIn "blink".toList lower || occursIn "strobe".toList lower

/-- The text of a scalar field; lists, maps and null have none. -/
def scalarText? : Value → Option String
  | .text s => some s
  | .number x => some (Decimal.plainText x)
  | .bool true => some "true"
  | .bool false => some "false"
  | _ => none

namespace Command

variable (c : Command)

/-- The parts of the signature that come from its scalar fields. -/
def fieldParts : List String :=
  signatureFields.filterMap fun key ↦
    ((c.field? key).bind scalarText?).map fun s ↦ "|" ++ key ++ "=" ++ s

/-- The part of the signature for one blink measurement. -/
def blinkPart (label key : String) (step : Float) : Option String :=
  ((c.field? key).bind Value.asNumber?).map fun x ↦
    "|" ++ label ++ "=" ++ toString (quantize x step)

/-- The parts of the signature that describe a blink. -/
def blinkParts : List String :=
  if isBlinkAction c.action then
    [c.blinkPart "f" "frequency" frequencyStep, c.blinkPart "d" "duty" dutyStep].filterMap id
  else []

/-- The signature of a command; none for a continuous action. -/
def signature? (continuous : List String) : Option String :=
  if c.action ∈ continuous then none
  else some (c.action ++ String.join c.fieldParts ++ String.join c.blinkParts)

end Command

/-- The signature of a whole sink value: those of its commands in order, continuous ones left out.
None if nothing discrete remains. -/
def valueSignature? (v : Value) (continuous : List String) : Option String :=
  match (commandsIn v).filterMap (·.signature? continuous) with
  | [] => none
  | parts => some (";".intercalate parts)

end CueFlow
