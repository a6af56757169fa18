import CueFlow.Decimal.Shortest
/-!
# Laying out a decimal

A number is written in one of two shapes: positionally, with the point set among the digits and
zeros filled in, or in scientific form, with one digit before the point and an exponent. A
`Layout` says for which exponents the positional shape is used and how whole numbers look; the
digits themselves are those of `Decimal.Binary.shortest`.
-/

namespace CueFlow.Decimal

/-- The decisions of a number format. -/
structure Layout where
  /-- Exponents of the leading digit that are written positionally, as a half-open range; `none`
  writes every number positionally. -/
  positional : Option (Int × Int)
  /-- Whole numbers keep one zero after the point. -/
  pointZero : Bool
  /-- How an exact tie between two shortest decimals is settled. -/
  tie : Tie

/-- A number split at its point, before any punctuation: sign, digits before the point, digits after
it, and the exponent of ten if there is one. -/
structure Written where
  negative : Bool
  whole : List Char
  fraction : List Char
  exponent : Option Int

/-- Set the point of `digits · 10 ^ exponent` where its value wants it. -/
def positionalParts (digits : List Char) (exponent : Int) : List Char × List Char :=
  if 0 ≤ exponent then (digits ++ List.replicate exponent.toNat '0', [])
  else
    let places := (-exponent).toNat
    if places < digits.length then
      (digits.take (digits.length - places), digits.drop (digits.length - places))
    else (['0'], List.replicate (places - digits.length) '0' ++ digits)

/-- Lay out a decimal: `exponent + length − 1` is the exponent of its leading digit. -/
def Layout.arrange (layout : Layout) (negative : Bool) (d : Scaled) : Written :=
  let digits := digitChars d.digits
  let leading := d.exponent + digits.length - 1
  let plain := match layout.positional with
    | none => true
    | some (low, high) => low ≤ leading && leading < high
  if plain then
    let (whole, fraction) := positionalParts digits d.exponent
    ⟨negative, whole, if fraction.isEmpty && layout.pointZero then ['0'] else fraction, none⟩
  else ⟨negative, digits.take 1, digits.drop 1, some leading⟩

/-- The written form of a finite number. -/
def Layout.write (layout : Layout) (x : Float) : Written :=
  let b := Binary.ofFloat x
  if b.mantissa = 0 then ⟨signBit x, ['0'], if layout.pointZero then ['0'] else [], none⟩
  else layout.arrange (signBit x) (b.shortest layout.tie)

/-- The digits with their sign and point, for a layout without exponents. -/
def Written.positionalText (w : Written) : String :=
  String.ofList ((if w.negative then ['-'] else []) ++ w.whole ++
    (if w.fraction.isEmpty then [] else '.' :: w.fraction))

/-- Numbers as they stand in signatures and diagnostics: never an exponent, whole numbers without a
point. -/
def plainLayout : Layout := ⟨none, false, .awayFromZero⟩

/-- A number as plain text; what is not a number is spelled out. -/
def plainText (x : Float) : String :=
  if x.isNaN then "NaN"
  else if x.isInf then (if signBit x then "-inf" else "inf")
  else (plainLayout.write x).positionalText

/-! ### Rounding to whole numbers -/

/-- The integer nearest to a number, halves away from zero, held within the range of signed 64-bit
integers; what is not a number gives zero. -/
def nearestInt64 (x : Float) : Int :=
  let limit : Int := 0x8000000000000000
  if x.isNaN then 0
  else if x.isInf then (if signBit x then -limit else limit - 1)
  else
    let b := Binary.ofFloat x
    let magnitude : Nat :=
      if 0 ≤ b.exponent then b.mantissa * twoTo b.exponent
      else (2 * b.mantissa + twoTo (-b.exponent)) / (2 * twoTo (-b.exponent))
    let signed : Int := if signBit x then -magnitude else magnitude
    max (-limit) (min signed (limit - 1))

end CueFlow.Decimal
