import CueFlow.Json.Numeral
/-!
# JSON documents

A `Json` is a document as it stands in a text, before anything is asked of it. Two things are left
open, because a reader that skips a part of a document does not look at them: a number is kept as
its digits, and a string that spells no text, by half of a surrogate pair, is kept as `none`.
-/

namespace CueFlow

/-- A JSON document. Members of an object keep their order and may repeat a key. -/
inductive Json where
  | null
  | bool (flag : Bool)
  | number (numeral : Numeral)
  | string (text : Option String)
  | array (items : List Json)
  | object (members : List (Option String × Json))
deriving Inhabited

namespace Json

/-- A string that spells a text. -/
def text (s : String) : Json := string (some s)

/-- A natural number, in digits. -/
def nat (n : Nat) : Json := number (Numeral.ofNat n)

/-- An object with these members. -/
def record (members : List (String × Json)) : Json :=
  object (members.map fun m ↦ (some m.1, m.2))

/-- Strings with these texts. -/
def texts (ss : List String) : Json := array (ss.map text)

/-- The member of an object; the last one if the key repeats. -/
def member? (j : Json) (key : String) : Option Json :=
  match j with
  | object members => members.reverse.lookup (some key)
  | _ => none

mutual

/-- The same document where, of several members of an object with one key, only the last is left. -/
def lastMembers : Json → Json
  | array items => array (lastMembersOfItems items)
  | object members =>
    object (((lastMembersOfMembers members).reverse.eraseDupsBy fun a b ↦ a.1 == b.1).reverse)
  | j => j
termination_by structural j => j

/-- `lastMembers` for every item of an array. -/
def lastMembersOfItems : List Json → List Json
  | [] => []
  | item :: rest => lastMembers item :: lastMembersOfItems rest
termination_by structural items => items

/-- `lastMembers` for the value of every member of an object. -/
def lastMembersOfMembers : List (Option String × Json) → List (Option String × Json)
  | [] => []
  | m :: rest => (m.1, lastMembers m.2) :: lastMembersOfMembers rest
termination_by structural members => members

end

end Json

end CueFlow
