import CueFlow.Character
/-!
# Writing TOML strings

A string is written in the first of these forms that needs no escapes but for tabs: in double
quotes, in single quotes, over several lines in double quotes, over several lines in single quotes.
If all of them would, it is escaped.
-/

namespace CueFlow.Toml

/-- The length of the longest run of one character. -/
def longestRun (c : Char) (cs : List Char) : Nat :=
  (cs.foldl (fun (run : Nat × Nat) d ↦
    if d == c then (run.1 + 1, max (run.1 + 1) run.2) else (0, run.2)) (0, 0)).2

/-- A character that can only be written as an escape. -/
def needsEscape (c : Char) : Bool :=
  (c.toNat < 0x20 && c != '\t' && c != '\n') || c.toNat == 0x7f

/-- How a string is written. -/
inductive Quoting where
  /-- In double quotes. -/
  | basic
  /-- In single quotes, which takes no escapes. -/
  | literal
  /-- In three double quotes. -/
  | longBasic
  /-- In three single quotes, which takes no escapes. -/
  | longLiteral
deriving DecidableEq, Repr

/-- The form in which a string is written. -/
def quoting (cs : List Char) : Quoting :=
  let broken := cs.contains '\n'
  let escaped := cs.any needsEscape
  let backslash := cs.contains '\\'
  if !escaped && !backslash && !cs.contains '"' && !broken then .basic
  else if !escaped && !cs.contains '\'' && !broken then .literal
  else if !escaped && !backslash && longestRun '"' cs ≤ 2 then .longBasic
  else if !escaped && longestRun '\'' cs ≤ 2 then .longLiteral
  else if broken then .longBasic
  else .basic

/-- The characters that stand for one character inside double quotes. In the long form a line break
stands for itself. -/
def escape (long : Bool) (c : Char) : List Char :=
  if c == '\x08' then ['\\', 'b']
  else if c == '\t' then ['\\', 't']
  else if c == '\n' then if long then ['\n'] else ['\\', 'n']
  else if c == '\x0c' then ['\\', 'f']
  else if c == '\r' then ['\\', 'r']
  else if c == '\\' then ['\\', '\\']
  else if needsEscape c then
    ['\\', 'u', '0', '0', (hexDigit (c.toNat / 16)).toUpper, (hexDigit c.toNat).toUpper]
  else [c]

/-- The characters inside double quotes. Of several quotes in a row, `run` have been written as they
are; no more than `allowed` may be. -/
def escapeAll (long : Bool) (allowed run : Nat) : List Char → List Char
  | [] => []
  | c :: rest =>
    if c == '"' then
      if run < allowed then '"' :: escapeAll long allowed (run + 1) rest
      else '\\' :: '"' :: escapeAll long allowed 0 rest
    else escape long c ++ escapeAll long allowed 0 rest

/-- A string in quotes. A string that is broken over several lines begins on a line of its own. -/
def quoted (s : String) : String :=
  let cs := s.toList
  let first := if cs.contains '\n' then ['\n'] else []
  String.ofList <|
    match quoting cs with
    | .basic => '"' :: (escapeAll false 0 0 cs ++ ['"'])
    | .literal => '\'' :: (cs ++ ['\''])
    | .longBasic => ['"', '"', '"'] ++ first ++ escapeAll true 2 0 cs ++ ['"', '"', '"']
    | .longLiteral => ['\'', '\'', '\''] ++ first ++ cs ++ ['\'', '\'', '\'']

end CueFlow.Toml
