import CueFlow.Value
/-!
# Commands inside sink values

A command is a map with a text under `action`; beyond that it is opaque. A sink value may be a
command, or a bundle: a list of commands, possibly nested. The engine looks into commands for two
reasons only: to describe them to the oscillation watchdog (`CueFlow.Command.Signature`), and to
tell which members of a bundle changed (`CueFlow.Command.Change`).
-/

namespace CueFlow

/-- A value seen as a command. -/
structure Command where
  action : String
  /-- All fields of the command, the action included. -/
  fields : ValueMap

namespace Command

/-- A map with a text under `action` is a command, and nothing else is. -/
def ofValue? : Value → Option Command
  | .map fields =>
    match KeyMap.get? fields "action" with
    | some (.text action) => some ⟨action, fields⟩
    | _ => none
  | _ => none

variable (c : Command)

def payload? : Option Value := c.fields.get? "payload"

/-- When the command is to be carried out, if it says so by a number. -/
def executeAt? : Option Float := (c.fields.get? "executeAt").bind Value.asNumber?

/-- A field of the payload, or failing that of the command itself. -/
def field? (key : String) : Option Value :=
  (c.payload?.bind (·.get? key)).or (c.fields.get? key)

end Command

mutual

/-- Every command in a sink value, with nested lists flattened. Maps are not searched. -/
def commandsIn : Value → List Command
  | .list items => commandsInItems items
  | .map entries => (Command.ofValue? (.map entries)).toList
  | _ => []
termination_by structural v => v

/-- Every command in the items of a list, item by item. -/
def commandsInItems : List Value → List Command
  | [] => []
  | item :: rest => commandsIn item ++ commandsInItems rest
termination_by structural items => items

end

/-- Whether a sink value holds any command. -/
def carriesCommands (v : Value) : Bool := !(commandsIn v).isEmpty

end CueFlow
