import CueFlow.Character
import CueFlow.Decimal.Shortest
import CueFlow.Toml
/-!
# Reading TOML numbers

Integers in base ten, sixteen, eight and two, and floats with a point, an exponent or both. Digits
may be parted by single underscores. Integers are signed and have 64 bits; a float is the double
nearest to what is written.
-/

namespace CueFlow.Toml

/-- Further digits; two neighbours may be parted by an underscore. -/
def moreDigits (isDigit : Char → Bool) : List Char → List Char × List Char
  | [] => ([], [])
  | '_' :: c :: rest =>
    if isDigit c then
      let (digits, rest) := moreDigits isDigit rest
      (c :: digits, rest)
    else ([], '_' :: c :: rest)
  | c :: rest =>
    if isDigit c then
      let (digits, rest) := moreDigits isDigit rest
      (c :: digits, rest)
    else ([], c :: rest)

/-- Read digits, at least one. -/
def readDigits (isDigit : Char → Bool) : List Char → Option (List Char × List Char)
  | c :: rest =>
    if isDigit c then
      let (digits, rest) := moreDigits isDigit rest
      some (c :: digits, rest)
    else none
  | [] => none

/-- Read a sign, if there is one, and tell whether it is a minus. -/
def readSign : List Char → Bool × List Char
  | '+' :: rest => (false, rest)
  | '-' :: rest => (true, rest)
  | cs => (false, cs)

/-- Read the digits of a decimal before the point: a leading zero stands alone. -/
def readWhole : List Char → Option (List Char × List Char)
  | '0' :: rest => some (['0'], rest)
  | cs => readDigits isDigit cs

/-- An integer, if it is in range. -/
def inRange? (n : Int) : Option Toml :=
  if -integerLimit ≤ n ∧ n < integerLimit then some (.integer n) else none

/-- Read an integer in another base after its mark. -/
def readBased (base : Nat) (cs : List Char) : Option (Toml × List Char) := do
  let (digits, rest) ← readDigits (fun c ↦ (hexValue? c).any (· < base)) cs
  return (← inRange? (natInBase base digits), rest)

/-- Read an integer. -/
def readInteger : List Char → Option (Toml × List Char)
  | '0' :: 'x' :: rest => readBased 16 rest
  | '0' :: 'o' :: rest => readBased 8 rest
  | '0' :: 'b' :: rest => readBased 2 rest
  | cs => do
    let (negative, rest) := readSign cs
    let (digits, rest) ← readWhole rest
    let n := Int.ofNat (natInBase 10 digits)
    return (← inRange? (if negative then -n else n), rest)

/-- Read an exponent with its mark. -/
def readExponent (cs : List Char) : Option (Int × List Char) :=
  match cs with
  | mark :: rest =>
    if mark == 'e' || mark == 'E' then do
      let (negative, rest) := readSign rest
      let (digits, rest) ← readDigits isDigit rest
      let n := Int.ofNat (natInBase 10 digits)
      return (if negative then -n else n, rest)
    else none
  | [] => none

/-- Read what makes a decimal a float: digits after a point, an exponent, or both. -/
def readFractionOrExponent (cs : List Char) : Option ((List Char × Int) × List Char) :=
  match cs with
  | '.' :: rest => do
    let (fraction, rest) ← readDigits isDigit rest
    match readExponent rest with
    | some (exponent, rest) => return ((fraction, exponent), rest)
    | none => return ((fraction, 0), rest)
  | cs => (readExponent cs).map fun r ↦ (([], r.1), r.2)

/-- Read a float. One too large for a double is refused if it is positive. -/
def readFloat (cs : List Char) : Option (Toml × List Char) := do
  let (negative, rest) := readSign cs
  match rest with
  | 'i' :: 'n' :: 'f' :: rest => return (.float (if negative then -1.0 / 0.0 else 1.0 / 0.0), rest)
  | 'n' :: 'a' :: 'n' :: rest => return (.float (0.0 / 0.0), rest)
  | _ =>
    let (whole, rest) ← readWhole rest
    let ((fraction, exponent), rest) ← readFractionOrExponent rest
    let x := (Decimal.Scaled.mk (natInBase 10 (whole ++ fraction))
      (exponent - fraction.length)).nearest
    if negative then return (.float (-x), rest)
    else if x.isInf then none
    else return (.float x, rest)

end CueFlow.Toml
