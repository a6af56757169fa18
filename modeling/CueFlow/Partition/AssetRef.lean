import CueFlow.Value
/-!
# References to assets

A text refers to an asset by `asset:` followed by a name: a letter or digit, and then letters,
digits and the characters `.`, `_`, `/` and `-`. References are found from left to right, each as
long as possible, and do not overlap.
-/

namespace CueFlow.AssetRef

/-- What every reference begins with. -/
def scheme : List Char := "asset:".toList

/-- A letter or digit of ASCII. -/
def isNameStart (c : Char) : Bool := c.isAlphanum

/-- A character that may stand in a name after the first. -/
def isNameChar (c : Char) : Bool := c.isAlphanum || c == '.' || c == '_' || c == '/' || c == '-'

/-- The longest reference that a text begins with. -/
def atStart? (cs : List Char) : Option (List Char) :=
  if scheme.isPrefixOf cs then
    match cs.drop scheme.length with
    | c :: rest => if isNameStart c then some (scheme ++ c :: rest.takeWhile isNameChar) else none
    | [] => none
  else none

/-- The references in a text, of which the first `skip` characters belong to the one before. -/
def scan (skip : Nat) : List Char → List (List Char)
  | [] => []
  | c :: rest =>
    match skip with
    | skip + 1 => scan skip rest
    | 0 =>
      match atStart? (c :: rest) with
      | some found => found :: scan (found.length - 1) rest
      | none => scan 0 rest

/-- The references in a text, from left to right. -/
def all (s : String) : List String := (scan 0 s.toList).map String.ofList

end CueFlow.AssetRef
