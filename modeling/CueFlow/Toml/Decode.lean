import CueFlow.Toml
/-!
# Taking TOML documents apart

How the settings of a record are found in a table. Settings may be left out, and those that nobody
asks for are ignored. A record may also be written as an array of its settings in the order of their
declaration. A date holds no settings at all.
-/

namespace CueFlow.Toml

/-- A decoder of `α`. -/
abbrev Decoder (α : Type) := Toml → Option α

/-- A natural number. -/
def asNat : Decoder Nat
  | integer n => if 0 ≤ n then some n.toNat else none
  | _ => none

/-- An integer as a double. -/
def floatOfInt (n : Int) : Float := if 0 ≤ n then n.toNat.toFloat else -(n.natAbs.toFloat)

/-- Any number. -/
def asFloat : Decoder Float
  | float x => some x
  | integer n => some (floatOfInt n)
  | _ => none

/-- A text. -/
def asText : Decoder String
  | text s => some s
  | _ => none

/-- An array of anything that `item` decodes. -/
def asList {α : Type} (item : Decoder α) : Decoder (List α)
  | array items => items.mapM item
  | tables elements => elements.mapM fun entries ↦ item (table .opened entries)
  | _ => none

/-- Whether this is an array or a table without content. -/
def isHollow : Toml → Bool
  | array items => items.isEmpty
  | table _ entries => entries.isEmpty
  | tables elements => elements.isEmpty
  | _ => false

/-- One of the choices that `named` knows: its name, or a table whose only entry maps the name to
something hollow. -/
def asChoice {α : Type} (named : String → Option α) : Decoder α
  | text s => named s
  | table _ [entry] => if isHollow entry.2 then named entry.1 else none
  | _ => none

/-- The settings of a record by name. -/
abbrev Settings := String → Option Toml

/-- The settings of a record with these names, in the order of declaration. -/
def asRecord (names : List String) : Decoder Settings
  | table _ entries => some fun name ↦ entries.lookup name
  | array items => some fun name ↦ (names.zip items).lookup name
  | tables elements => some fun name ↦ (names.zip (elements.map (table .opened))).lookup name
  | moment _ => some fun _ ↦ none
  | _ => none

/-- A setting, or its default. -/
def setting {α : Type} (s : Settings) (name : String) (fallback : α) (decode : Decoder α) :
    Option α :=
  match s name with
  | some v => decode v
  | none => some fallback

end CueFlow.Toml
