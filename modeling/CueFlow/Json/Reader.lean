import CueFlow.Character
import CueFlow.Json
/-!
# Reading JSON texts

The grammar of RFC 8259: no comments, no trailing commas, no text after the document, and no control
characters inside strings. `Json.parse?` reads a whole text; the functions before it read one part
each and return what is left.
-/

namespace CueFlow.Json

/-- What a successful reader returns: what it read, and what is left of the text. -/
abbrev Read (α : Type) := Option (α × List Char)

/-- White space between tokens. -/
def isBlank (c : Char) : Bool := c == ' ' || c == '\n' || c == '\t' || c == '\r'

/-- What is left after white space. -/
def skipBlanks : List Char → List Char := List.dropWhile isBlank

/-! ### Strings -/

/-- The number that four hexadecimal digits spell. -/
def hexUnit? (a b c d : Char) : Option Nat := do
  return 4096 * (← hexValue? a) + 256 * (← hexValue? b) + 16 * (← hexValue? c) + (← hexValue? d)

/-- One element of a string: a character, or a 16-bit unit given by its number. -/
inductive Piece where
  | char (c : Char)
  | unit (n : Nat)

/-- The character that a one-letter escape stands for. -/
def shortEscape? : Char → Option Char
  | '"' => some '"'
  | '\\' => some '\\'
  | '/' => some '/'
  | 'b' => some '\x08'
  | 'f' => some '\x0c'
  | 'n' => some '\n'
  | 'r' => some '\r'
  | 't' => some '\t'
  | _ => none

/-- Read the pieces of a string up to its closing quote. -/
def readPieces : List Char → Read (List Piece)
  | [] => none
  | '"' :: rest => some ([], rest)
  | '\\' :: 'u' :: a :: b :: c :: d :: rest =>
    match hexUnit? a b c d with
    | some n => (readPieces rest).map fun r ↦ (.unit n :: r.1, r.2)
    | none => none
  | '\\' :: c :: rest =>
    match shortEscape? c with
    | some e => (readPieces rest).map fun r ↦ (.char e :: r.1, r.2)
    | none => none
  | c :: rest =>
    if c.toNat < 0x20 || c == '\\' then none
    else (readPieces rest).map fun r ↦ (.char c :: r.1, r.2)

/-- The characters that the pieces of a string spell; none if half of a surrogate pair is
missing. -/
def spell? : List Piece → Option (List Char)
  | [] => some []
  | .char c :: rest => (spell? rest).map (c :: ·)
  | .unit high :: .unit low :: rest =>
    if 0xD800 ≤ high && high < 0xDC00 then
      if 0xDC00 ≤ low && low < 0xE000 then
        (spell? rest).map
          (Char.ofNat (0x10000 + 1024 * (high - 0xD800) + (low - 0xDC00)) :: ·)
      else none
    else if 0xDC00 ≤ high && high < 0xE000 then none
    else (spell? (.unit low :: rest)).map (Char.ofNat high :: ·)
  | .unit n :: rest =>
    if 0xD800 ≤ n && n < 0xE000 then none else (spell? rest).map (Char.ofNat n :: ·)

/-- Read a string after its opening quote. -/
def readString (cs : List Char) : Read (Option String) :=
  (readPieces cs).map fun r ↦ ((spell? r.1).map String.ofList, r.2)

/-! ### Numbers -/

/-- Read digits, at least one. -/
def readDigits (cs : List Char) : Read (List Char) :=
  match cs.takeWhile isDigit with
  | [] => none
  | digits => some (digits, cs.dropWhile isDigit)

/-- Read the digits before the point: a leading zero stands alone. -/
def readWhole (cs : List Char) : Read (List Char) :=
  match readDigits cs with
  | some ('0' :: _ :: _, _) => none
  | r => r

/-- Read a point and the digits after it, if there is a point. -/
def readFraction : List Char → Read (List Char)
  | '.' :: rest => readDigits rest
  | cs => some ([], cs)

/-- Read the digits of an exponent. -/
def readExponentDigits (negative : Bool) (cs : List Char) : Read (Option Int) :=
  (readDigits cs).map fun r ↦
    let magnitude := Int.ofNat (natInBase 10 r.1)
    (some (if negative then -magnitude else magnitude), r.2)

/-- Read the sign and the digits of an exponent. -/
def readExponentBody : List Char → Read (Option Int)
  | '+' :: rest => readExponentDigits false rest
  | '-' :: rest => readExponentDigits true rest
  | cs => readExponentDigits false cs

/-- Read an exponent, if there is one. -/
def readExponent : List Char → Read (Option Int)
  | 'e' :: rest => readExponentBody rest
  | 'E' :: rest => readExponentBody rest
  | cs => some (none, cs)

/-- Read a number after its sign. -/
def readMagnitude (negative : Bool) (cs : List Char) : Read Numeral :=
  (readWhole cs).bind fun whole ↦
    (readFraction whole.2).bind fun fraction ↦
      (readExponent fraction.2).map fun exponent ↦
        (⟨negative, whole.1, fraction.1, exponent.1⟩, exponent.2)

/-- Read a number. -/
def readNumeral : List Char → Read Numeral
  | '-' :: rest => readMagnitude true rest
  | cs => readMagnitude false cs

/-! ### Documents -/

mutual

/-- Read a document; the fuel bounds how many parts it may have. -/
def readValue (fuel : Nat) (cs : List Char) : Read Json :=
  match fuel with
  | 0 => none
  | fuel + 1 =>
    match skipBlanks cs with
    | 'n' :: 'u' :: 'l' :: 'l' :: rest => some (null, rest)
    | 't' :: 'r' :: 'u' :: 'e' :: rest => some (bool true, rest)
    | 'f' :: 'a' :: 'l' :: 's' :: 'e' :: rest => some (bool false, rest)
    | '"' :: rest => (readString rest).map fun r ↦ (string r.1, r.2)
    | '[' :: rest =>
      match skipBlanks rest with
      | ']' :: rest => some (array [], rest)
      | rest => (readItems fuel rest).map fun r ↦ (array r.1, r.2)
    | '{' :: rest =>
      match skipBlanks rest with
      | '}' :: rest => some (object [], rest)
      | rest => (readMembers fuel rest).map fun r ↦ (object r.1, r.2)
    | cs => (readNumeral cs).map fun r ↦ (number r.1, r.2)

/-- Read the items of an array, at least one, up to its closing bracket. -/
def readItems (fuel : Nat) (cs : List Char) : Read (List Json) :=
  match fuel with
  | 0 => none
  | fuel + 1 =>
    match readValue fuel cs with
    | none => none
    | some (item, rest) =>
      match skipBlanks rest with
      | ',' :: rest => (readItems fuel rest).map fun r ↦ (item :: r.1, r.2)
      | ']' :: rest => some ([item], rest)
      | _ => none

/-- Read the members of an object, at least one, up to its closing brace. -/
def readMembers (fuel : Nat) (cs : List Char) : Read (List (Option String × Json)) :=
  match fuel with
  | 0 => none
  | fuel + 1 =>
    match skipBlanks cs with
    | '"' :: rest =>
      match readString rest with
      | none => none
      | some (key, rest) =>
        match skipBlanks rest with
        | ':' :: rest =>
          match readValue fuel rest with
          | none => none
          | some (value, rest) =>
            match skipBlanks rest with
            | ',' :: rest => (readMembers fuel rest).map fun r ↦ ((key, value) :: r.1, r.2)
            | '}' :: rest => some ([(key, value)], rest)
            | _ => none
        | _ => none
    | _ => none

end

/-- Fuel for a text: every two calls in a row take a character off it. -/
def fuelFor (cs : List Char) : Nat := 2 * cs.length + 2

/-- Read a whole text as one document. -/
def parse? (s : String) : Option Json :=
  let cs := s.toList
  match readValue (fuelFor cs) cs with
  | some (j, rest) => if (skipBlanks rest).isEmpty then some j else none
  | none => none

end CueFlow.Json
