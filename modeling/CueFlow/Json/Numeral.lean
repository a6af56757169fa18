import CueFlow.Character
import CueFlow.Decimal.Layout
/-!
# Numerals

A `Numeral` is a number as it is written in a JSON text: a sign, digits before and after the point,
and an exponent. This module says which number a numeral stands for, and how a number is written.

Reading goes through the leading digits, as many as spell an integer below `2 ^ 64`, and scales that
integer by a power of ten in floating point. So a numeral with many digits may be read as a
neighbour of the closest double.
-/

namespace CueFlow

/-- A number as it is written. -/
structure Numeral where
  negative : Bool
  /-- The digits before the point. -/
  whole : List Char
  /-- The digits after the point; without any there is no point. -/
  fraction : List Char
  exponent : Option Int
deriving DecidableEq, Inhabited

namespace Numeral

/-! ### Reading -/

/-- Append digits to an integer as long as it stays below `2 ^ 64`; the number of digits taken comes
second. -/
def appendDigits (n : Nat) : List Char → Nat × Nat
  | [] => (n, 0)
  | c :: rest =>
    let next := 10 * n + (hexValue? c).getD 0
    if next < UInt64.size then
      let (m, taken) := appendDigits next rest
      (m, taken + 1)
    else (n, 0)

/-- The power of ten with this exponent, as a double. -/
def powerOfTen (k : Nat) : Float := Float.ofScientific 1 false k

/-- Divide by `10 ^ k`, in steps that stay within the range of doubles. -/
def scaleDown (x : Float) (k : Nat) : Float :=
  if k ≤ 308 then x / powerOfTen k
  else if x == 0.0 then x
  else scaleDown (x / powerOfTen 308) (k - 308)
termination_by k

/-- Multiply by a power of ten; nothing if the result is out of range. -/
def scale? (x : Float) (exponent : Int) : Option Float :=
  if exponent < 0 then some (scaleDown x (-exponent).toNat)
  else if x == 0.0 then some x
  else if 308 < exponent then none
  else
    let scaled := x * powerOfTen exponent.toNat
    if scaled.isInf then none else some scaled

variable (n : Numeral)

/-- The number that a numeral stands for; nothing if it is out of range. -/
def toFloat? : Option Float :=
  let (lead, takenWhole) := appendDigits 0 n.whole
  let (significand, takenFraction) := appendDigits lead n.fraction
  let dropped := n.whole.length - takenWhole
  let exponent := Int.ofNat dropped - Int.ofNat takenFraction + n.exponent.getD 0
  (scale? significand.toUInt64.toFloat exponent).map fun x ↦ if n.negative then -x else x

/-- The natural number that a numeral spells as an unsigned 64-bit integer: no sign, no point and no
exponent. -/
def toNat? : Option Nat :=
  let value := natInBase 10 n.whole
  if !n.negative && n.fraction.isEmpty && n.exponent.isNone && value < UInt64.size then some value
  else none

/-! ### Writing -/

/-- How numbers are written in documents: positionally from `10 ^ -5` up to `10 ^ 16`, with a zero
after the point of a whole number. -/
def layout : Decimal.Layout := ⟨some (-5, 16), true, .toEven⟩

/-- The numeral of a finite number. -/
def ofFloat (x : Float) : Numeral :=
  let w := layout.write x
  ⟨w.negative, w.whole, w.fraction, w.exponent⟩

/-- The numeral of a natural number. -/
def ofNat (k : Nat) : Numeral := ⟨false, Decimal.digitChars k, [], none⟩

/-- The numeral of an integer. -/
def ofInt (k : Int) : Numeral := ⟨k < 0, Decimal.digitChars k.natAbs, [], none⟩

/-- The characters of an exponent: its mark, always a sign, and its digits. -/
def exponentChars (k : Int) : List Char :=
  'e' :: (if k < 0 then '-' else '+') :: Decimal.digitChars k.natAbs

/-- The characters of a numeral. -/
def chars : List Char :=
  (if n.negative then ['-'] else []) ++ n.whole ++
    (if n.fraction.isEmpty then [] else '.' :: n.fraction) ++
    (n.exponent.map exponentChars).getD []

end Numeral

end CueFlow
