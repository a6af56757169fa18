import CueFlow.Character
import CueFlow.Json
/-!
# Writing JSON texts

Two forms: compact, without any white space, and indented, with one item or member per line and two
spaces for each level of nesting. Quotes, backslashes and control characters in strings are escaped;
everything else stands as it is.
-/

namespace CueFlow.Json

/-- The characters that stand for one character inside a string. -/
def escape (c : Char) : List Char :=
  if c == '"' then ['\\', '"']
  else if c == '\\' then ['\\', '\\']
  else if c == '\x08' then ['\\', 'b']
  else if c == '\x0c' then ['\\', 'f']
  else if c == '\n' then ['\\', 'n']
  else if c == '\r' then ['\\', 'r']
  else if c == '\t' then ['\\', 't']
  else if c.toNat < 0x20 then ['\\', 'u', '0', '0', hexDigit (c.toNat / 16), hexDigit c.toNat]
  else [c]

/-- A text in quotes. -/
def quoted (s : String) : List Char := '"' :: (s.toList.flatMap escape ++ ['"'])

/-- The characters of a string; one that spells no text is written as an empty one. -/
def stringChars (s : Option String) : List Char := quoted (s.getD "")

/-- A line break followed by the indentation of a level. -/
def newline (level : Nat) : List Char := '\n' :: List.replicate (2 * level) ' '

mutual

/-- The compact form of a document, in front of what follows it. -/
def compactChars : Json → List Char → List Char
  | null, rest => "null".toList ++ rest
  | bool true, rest => "true".toList ++ rest
  | bool false, rest => "false".toList ++ rest
  | number n, rest => n.chars ++ rest
  | string s, rest => stringChars s ++ rest
  | array [], rest => '[' :: ']' :: rest
  | array (item :: items), rest => '[' :: compactChars item (compactItems items (']' :: rest))
  | object [], rest => '{' :: '}' :: rest
  | object (m :: members), rest =>
    '{' :: (stringChars m.1 ++ ':' :: compactChars m.2 (compactMembers members ('}' :: rest)))
termination_by structural j => j

/-- Further items of an array, each after a comma. -/
def compactItems : List Json → List Char → List Char
  | [], rest => rest
  | item :: items, rest => ',' :: compactChars item (compactItems items rest)
termination_by structural items => items

/-- Further members of an object, each after a comma. -/
def compactMembers : List (Option String × Json) → List Char → List Char
  | [], rest => rest
  | m :: members, rest =>
    ',' :: (stringChars m.1 ++ ':' :: compactChars m.2 (compactMembers members rest))
termination_by structural members => members

end

mutual

/-- The indented form of a document at a level of nesting, in front of what follows it. -/
def indentedChars (level : Nat) : Json → List Char → List Char
  | null, rest => "null".toList ++ rest
  | bool true, rest => "true".toList ++ rest
  | bool false, rest => "false".toList ++ rest
  | number n, rest => n.chars ++ rest
  | string s, rest => stringChars s ++ rest
  | array [], rest => '[' :: ']' :: rest
  | array (item :: items), rest =>
    '[' :: (newline (level + 1) ++ indentedChars (level + 1) item
      (indentedItems (level + 1) items (newline level ++ ']' :: rest)))
  | object [], rest => '{' :: '}' :: rest
  | object (m :: members), rest =>
    '{' :: (newline (level + 1) ++ stringChars m.1 ++ ':' :: ' ' :: indentedChars (level + 1) m.2
      (indentedMembers (level + 1) members (newline level ++ '}' :: rest)))
termination_by structural j => j

/-- Further items of an array, each after a comma and on a line of its own. -/
def indentedItems (level : Nat) : List Json → List Char → List Char
  | [], rest => rest
  | item :: items, rest =>
    ',' :: (newline level ++ indentedChars level item (indentedItems level items rest))
termination_by structural items => items

/-- Further members of an object, each after a comma and on a line of its own. -/
def indentedMembers (level : Nat) : List (Option String × Json) → List Char → List Char
  | [], rest => rest
  | m :: members, rest =>
    ',' :: (newline level ++ stringChars m.1 ++ ':' :: ' ' :: indentedChars level m.2
      (indentedMembers level members rest))
termination_by structural members => members

end

/-- The compact text of a document. -/
def compact (j : Json) : String := String.ofList (compactChars j [])

/-- The indented text of a document. -/
def indented (j : Json) : String := String.ofList (indentedChars 0 j [])

end CueFlow.Json
