import CueFlow.Toml.Moment
import CueFlow.Toml.Text
/-!
# Reading TOML texts

The grammar of TOML 1.0, line by line. `Toml.parse?` reads a whole text; the functions before it
read one part each and return what is left. Values nest fewer than `nestingLimit` deep.
-/

namespace CueFlow.Toml

/-! ### Values -/

/-- Read a value that holds no other values. -/
def readScalar (cs : List Char) : Option (Toml × List Char) :=
  match cs with
  | 't' :: 'r' :: 'u' :: 'e' :: rest => some (.bool true, rest)
  | 'f' :: 'a' :: 'l' :: 's' :: 'e' :: rest => some (.bool false, rest)
  | cs =>
    ((readString cs).map fun r ↦ (.text r.1, r.2)).or
      ((readMoment cs).or ((readFloat cs).or (readInteger cs)))

mutual

/-- Read a value that nests at most `depth` deep; the fuel bounds how many parts it may have. -/
def readValue (fuel depth : Nat) (cs : List Char) : Option (Toml × List Char) :=
  match fuel, depth, cs with
  | fuel + 1, depth + 1, '[' :: rest => (readItems fuel depth (skipSpace false rest)).map fun r ↦
    (.array r.1, r.2)
  | fuel + 1, depth + 1, '{' :: rest =>
    match skipBlanks rest with
    | '}' :: rest => some (.table .closed [], rest)
    | rest => do
      let (pairs, rest) ← readPairs fuel depth rest
      return (← ofPairs? pairs, rest)
  | _, _, cs => readScalar cs

/-- Read the items of an array up to its closing bracket. -/
def readItems (fuel depth : Nat) (cs : List Char) : Option (List Toml × List Char) :=
  match fuel, cs with
  | _, ']' :: rest => some ([], rest)
  | 0, _ => none
  | fuel + 1, cs =>
    match readValue fuel depth cs with
    | none => none
    | some (item, rest) =>
      match skipSpace false rest with
      | ',' :: rest => (readItems fuel depth (skipSpace false rest)).map fun r ↦ (item :: r.1, r.2)
      | ']' :: rest => some ([item], rest)
      | _ => none

/-- Read the assignments of a table in braces, at least one, up to its closing brace. -/
def readPairs (fuel depth : Nat) (cs : List Char) :
    Option (List (List String × String × Toml) × List Char) :=
  match fuel with
  | 0 => none
  | fuel + 1 =>
    match readKey (nestingLimit - 1) cs with
    | some ((path, key), '=' :: rest) =>
      match readValue fuel depth (skipBlanks rest) with
      | none => none
      | some (value, rest) =>
        match skipBlanks rest with
        | ',' :: rest => (readPairs fuel depth rest).map fun r ↦ ((path, key, value) :: r.1, r.2)
        | '}' :: rest => some ([(path, key, value)], rest)
        | _ => none
    | _ => none

end

/-! ### Lines -/

/-- Fuel for a value: every two calls in a row take a character off it. -/
def fuelFor (cs : List Char) : Nat := 2 * cs.length + 2

/-- Read a header or an assignment, without the end of its line. -/
def readLine (cs : List Char) : Option (Line × List Char) :=
  match cs with
  | '[' :: '[' :: rest =>
    match readKey (nestingLimit - 1) rest with
    | some ((path, key), ']' :: ']' :: rest) => some (.rowHeader path key, rest)
    | _ => none
  | '[' :: rest =>
    match readKey (nestingLimit - 1) rest with
    | some ((path, key), ']' :: rest) => some (.header path key, rest)
    | _ => none
  | cs =>
    match readKey (nestingLimit - 1) cs with
    | some ((path, key), '=' :: rest) =>
      (readValue (fuelFor rest) (nestingLimit - 1) (skipBlanks rest)).map fun r ↦
        (.assign path key r.1, r.2)
    | _ => none

/-- Read all lines, at most `fuel` of them. -/
def readLines (fuel : Nat) (cs : List Char) : Option (List Line) :=
  match fuel with
  | 0 => none
  | fuel + 1 =>
    match skipSpace false cs with
    | [] => some []
    | cs => do
      let (line, rest) ← readLine cs
      let lines ← readLines fuel (← endLine? rest)
      return line :: lines

/-- The text without a byte order mark. -/
def dropMark : List Char → List Char
  | '\ufeff' :: rest => rest
  | cs => cs

/-- Read a whole text as one document. -/
def parse? (s : String) : Option Entries :=
  let cs := dropMark s.toList
  (readLines (cs.length + 1) cs).bind ofLines?

end CueFlow.Toml
