import CueFlow.KeyMap
/-!
# Values that flow along connections

A `Value` is all that a node ever sees on its ports and in its config. Two values are compared by
structure, with numbers compared as numbers: `-0.0` equals `0.0`, and a value holding something that
is not a number equals nothing, itself included. Delivering to a device only on change rests on this
comparison.
-/

namespace CueFlow

/-- A dynamically typed port or config value. The entries of a map are kept in the order of their
keys. -/
inductive Value where
  | null
  | bool (flag : Bool)
  | number (x : Float)
  | text (s : String)
  | list (items : List Value)
  | map (entries : List (String × Value))
deriving Inhabited

/-- Named values: a node's inputs, outputs or config. -/
abbrev ValueMap := KeyMap Value

namespace Value

/-! ### Comparison -/

mutual

/-- Equality by structure, with numbers compared as numbers. -/
def beq : Value → Value → Bool
  | null, null => true
  | bool a, bool b => a == b
  | number x, number y => x == y
  | text s, text t => s == t
  | list xs, list ys => beqItems xs ys
  | map xs, map ys => beqEntries xs ys
  | _, _ => false
termination_by structural v => v

/-- Equality of lists of values, item by item. -/
def beqItems : List Value → List Value → Bool
  | [], [] => true
  | x :: xs, y :: ys => beq x y && beqItems xs ys
  | _, _ => false
termination_by structural xs => xs

/-- Equality of maps, entry by entry. -/
def beqEntries : List (String × Value) → List (String × Value) → Bool
  | [], [] => true
  | x :: xs, y :: ys => x.1 == y.1 && beq x.2 y.2 && beqEntries xs ys
  | _, _ => false
termination_by structural xs => xs

end

instance : BEq Value := ⟨beq⟩

/-! ### Reading a value as one kind -/

/-- Whether this is the null value. -/
def isNull : Value → Bool
  | null => true
  | _ => false

def asBool? : Value → Option Bool
  | bool flag => some flag
  | _ => none

def asNumber? : Value → Option Float
  | number x => some x
  | _ => none

def asText? : Value → Option String
  | text s => some s
  | _ => none

def asList? : Value → Option (List Value)
  | list items => some items
  | _ => none

def asMap? : Value → Option ValueMap
  | map entries => some entries
  | _ => none

/-- The entry of a map; nothing for any other value. -/
def get? (v : Value) (key : String) : Option Value := v.asMap?.bind (·.get? key)

/-- A whole number as a value. -/
def ofNat (n : Nat) : Value := number n.toUInt64.toFloat

/-! ### What a value amounts to -/

/-- How many sink deliveries a value stands for: a list counts by its length, null not at all, and
anything else once. -/
def deliveryCount : Value → Nat
  | null => 0
  | list items => items.length
  | _ => 1

mutual

/-- Every text inside a value, depth first. -/
def texts : Value → List String
  | text s => [s]
  | list items => textsOfItems items
  | map entries => textsOfEntries entries
  | _ => []
termination_by structural v => v

/-- Every text inside the items of a list, item by item. -/
def textsOfItems : List Value → List String
  | [] => []
  | item :: rest => texts item ++ textsOfItems rest
termination_by structural items => items

/-- Every text inside the values of a map, in the order of the keys. -/
def textsOfEntries : List (String × Value) → List String
  | [] => []
  | entry :: rest => texts entry.2 ++ textsOfEntries rest
termination_by structural entries => entries

end

end Value

end CueFlow
