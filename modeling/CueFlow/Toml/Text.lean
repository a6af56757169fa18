import CueFlow.Character
import CueFlow.Toml.Space
/-!
# Reading TOML strings and keys

A string stands in double quotes, where a backslash begins an escape, or in single quotes, where it
stands for itself; tripled quotes let it run over several lines. A key has parts divided by dots,
each of them a string on one line or a word.
-/

namespace CueFlow.Toml

/-! ### Strings -/

/-- The character that a one-letter escape stands for. -/
def shortEscape? : Char → Option Char
  | 'b' => some '\x08'
  | 't' => some '\t'
  | 'n' => some '\n'
  | 'f' => some '\x0c'
  | 'r' => some '\r'
  | '"' => some '"'
  | '\\' => some '\\'
  | _ => none

/-- The character whose number hexadecimal digits spell; surrogates are none. -/
def hexChar? (digits : List Char) : Option Char := do
  let values ← digits.mapM hexValue?
  let n := values.foldl (fun n d ↦ 16 * n + d) 0
  if n.isValidChar then return Char.ofNat n else none

/-- Read an escape after its backslash. -/
def readEscape : List Char → Option (Char × List Char)
  | 'u' :: rest => (hexChar? (rest.take 4)).bind fun c ↦
    if 4 ≤ rest.length then some (c, rest.drop 4) else none
  | 'U' :: rest => (hexChar? (rest.take 8)).bind fun c ↦
    if 8 ≤ rest.length then some (c, rest.drop 8) else none
  | c :: rest => (shortEscape? c).map fun e ↦ (e, rest)
  | [] => none

/-- Read a string on one line after its quote; the fuel bounds its length. -/
def readBasic (fuel : Nat) (cs : List Char) : Option (List Char × List Char) :=
  match fuel, cs with
  | _, '"' :: rest => some ([], rest)
  | fuel + 1, '\\' :: rest => do
    let (c, rest) ← readEscape rest
    let (s, rest) ← readBasic fuel rest
    return (c :: s, rest)
  | fuel + 1, c :: rest =>
    if isPlain c then (readBasic fuel rest).map fun r ↦ (c :: r.1, r.2) else none
  | _, _ => none

/-- Read a string without escapes on one line after its quote. -/
def readLiteral : List Char → Option (List Char × List Char)
  | [] => none
  | '\'' :: rest => some ([], rest)
  | c :: rest => if isPlain c then (readLiteral rest).map fun r ↦ (c :: r.1, r.2) else none

/-- The end of a string over several lines, after its three closing quotes: up to two more quotes
belong to the string. -/
def closeLong (quote : Char) (cs : List Char) : List Char × List Char :=
  let extra := (cs.take 2).takeWhile (· == quote)
  (extra, cs.drop extra.length)

/-- Read a string over several lines after its quotes. While `trimming`, white space and line breaks
after a backslash at the end of a line are left out. -/
def readLongBasic (fuel : Nat) (trimming : Bool) (cs : List Char) :
    Option (List Char × List Char) :=
  match fuel, cs with
  | _, '"' :: '"' :: '"' :: rest => some (closeLong '"' rest)
  | fuel + 1, '\\' :: rest =>
    match lineBreak? (skipBlanks rest) with
    | some rest => readLongBasic fuel true rest
    | none => do
      let (c, rest) ← readEscape rest
      let (s, rest) ← readLongBasic fuel false rest
      return (c :: s, rest)
  | fuel + 1, c :: rest =>
    match lineBreak? cs with
    | some rest =>
      if trimming then readLongBasic fuel true rest
      else (readLongBasic fuel false rest).map fun r ↦ ('\n' :: r.1, r.2)
    | none =>
      if trimming && isBlank c then readLongBasic fuel true rest
      else if isPlain c then (readLongBasic fuel false rest).map fun r ↦ (c :: r.1, r.2)
      else none
  | _, _ => none

/-- Read a string without escapes over several lines after its quotes. -/
def readLongLiteral : List Char → Option (List Char × List Char)
  | [] => none
  | '\'' :: '\'' :: '\'' :: rest => some (closeLong '\'' rest)
  | '\n' :: rest => (readLongLiteral rest).map fun r ↦ ('\n' :: r.1, r.2)
  | '\r' :: '\n' :: rest => (readLongLiteral rest).map fun r ↦ ('\n' :: r.1, r.2)
  | c :: rest => if isPlain c then (readLongLiteral rest).map fun r ↦ (c :: r.1, r.2) else none

/-- What is left after a line break that directly follows opening quotes, which does not count. -/
def dropFirstBreak (cs : List Char) : List Char := (lineBreak? cs).getD cs

/-- Read a string. -/
def readString (cs : List Char) : Option (String × List Char) :=
  let chars := match cs with
    | '"' :: '"' :: '"' :: rest => readLongBasic rest.length false (dropFirstBreak rest)
    | '"' :: rest => readBasic rest.length rest
    | '\'' :: '\'' :: '\'' :: rest => readLongLiteral (dropFirstBreak rest)
    | '\'' :: rest => readLiteral rest
    | _ => none
  chars.map fun r ↦ (String.ofList r.1, r.2)

/-! ### Keys -/

/-- How deep values nest, and how many parts a key has, at most one less. -/
def nestingLimit : Nat := 80

/-- A character of a key without quotes. -/
def isKeyChar (c : Char) : Bool := c.isAlphanum || c == '_' || c == '-'

/-- Read one part of a key. -/
def readKeyPart (cs : List Char) : Option (String × List Char) :=
  match cs with
  | '"' :: rest => (readBasic rest.length rest).map fun r ↦ (String.ofList r.1, r.2)
  | '\'' :: rest => (readLiteral rest).map fun r ↦ (String.ofList r.1, r.2)
  | cs =>
    match cs.takeWhile isKeyChar with
    | [] => none
    | part => some (String.ofList part, cs.dropWhile isKeyChar)

/-- Read a key of at most `parts` parts, with white space around each: the path that all parts but
the last make, and the last part. -/
def readKey (parts : Nat) (cs : List Char) : Option ((List String × String) × List Char) :=
  match parts with
  | 0 => none
  | parts + 1 =>
    match readKeyPart (skipBlanks cs) with
    | none => none
    | some (part, rest) =>
      match skipBlanks rest with
      | '.' :: rest => (readKey parts rest).map fun r ↦ ((part :: r.1.1, r.1.2), r.2)
      | rest => some (([], part), rest)

end CueFlow.Toml
