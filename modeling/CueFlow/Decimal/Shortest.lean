/-!
# Decimals and doubles

A finite double stands for every real that rounds to it: an interval around its exact value
`mantissa · 2 ^ exponent`, ends included exactly when the mantissa is even. `shortest` picks the
decimal in that interval with the fewest digits, and of two such decimals the closer one; only an
exact tie is left to the caller.

The selection is exact arithmetic on naturals. On the grid of multiples of `10 ^ k` only the two
neighbours of the value can be the closest points, so one grid costs two comparisons, and the
coarsest grid with a hit gives the fewest digits.

The other way round, `Scaled.nearest` is the double closest to a decimal, and the one with an even
mantissa if two are equally close. Decimals too large for every double go to infinity.
-/

namespace CueFlow.Decimal

/-- A non-negative dyadic value `mantissa · 2 ^ exponent` together with the width of its rounding
interval. -/
structure Binary where
  mantissa : Nat
  exponent : Int
  /-- The gap to the double below is half the gap to the double above. -/
  narrowBelow : Bool

/-- The leading bit of a full mantissa, two to the power of 52. -/
def leadingBit : Nat := 0x10000000000000

/-- The magnitude of a finite double, decoded from its bits: 52 bits of the mantissa, eleven of the
exponent, and the sign. -/
def Binary.ofFloat (x : Float) : Binary :=
  let bits := x.toBits.toNat
  let biased := bits / leadingBit % 0x800
  let fraction := bits % leadingBit
  if biased = 0 then ⟨fraction, -1074, false⟩
  else ⟨leadingBit + fraction, Int.ofNat biased - 1075, fraction == 0 && biased > 1⟩

/-- Whether the sign bit is set. -/
def signBit (x : Float) : Bool := x.toBits.toNat / (0x800 * leadingBit) == 1

/-- The power of two with this exponent; one if the exponent is negative. -/
def twoTo (k : Int) : Nat := Nat.pow 2 k.toNat

/-- The power of ten with this exponent; one if the exponent is negative. -/
def tenTo (k : Int) : Nat := Nat.pow 10 k.toNat

/-- The decimal `digits · 10 ^ exponent`. -/
structure Scaled where
  digits : Nat
  exponent : Int
deriving DecidableEq, Repr

/-- What becomes of a value exactly halfway between two equally short decimals. -/
inductive Tie where
  | toEven
  | awayFromZero
deriving DecidableEq

/-- Compare `a · 10 ^ i` with `b · 2 ^ j`, exactly. -/
def compareScaled (a : Nat) (i : Int) (b : Nat) (j : Int) : Ordering :=
  compare (a * tenTo i * twoTo (-j)) (b * twoTo j * tenTo (-i))

/-- Whether the decimal lies among the reals that round to the value. The ends of the interval are
counted in quarters of the last place. -/
def Binary.readsBack (x : Binary) (d : Scaled) : Bool :=
  let below := compareScaled d.digits d.exponent
    (if x.narrowBelow then 4 * x.mantissa - 1 else 4 * x.mantissa - 2) (x.exponent - 2)
  let above := compareScaled d.digits d.exponent (4 * x.mantissa + 2) (x.exponent - 2)
  let closed := x.mantissa % 2 == 0
  (below == .gt || (closed && below == .eq)) && (above == .lt || (closed && above == .eq))

/-- The largest multiple of `10 ^ k` that does not exceed the value, as a multiplier. -/
def Binary.floorOn (x : Binary) (k : Int) : Nat :=
  x.mantissa * twoTo x.exponent * tenTo (-k) / (tenTo k * twoTo (-x.exponent))

/-- The closest point of the grid `10 ^ k` that reads back, if any does. -/
def Binary.hitOn (x : Binary) (tie : Tie) (k : Int) : Option Scaled :=
  let floor := x.floorOn k
  let low : Scaled := ⟨floor, k⟩
  let high : Scaled := ⟨floor + 1, k⟩
  match x.readsBack low, x.readsBack high with
  | false, false => none
  | true, false => some low
  | false, true => some high
  | true, true =>
    -- twice the value against the sum of the two neighbours
    match compareScaled (2 * floor + 1) k (2 * x.mantissa) x.exponent with
    | .gt => some low
    | .lt => some high
    | .eq => if tie = .awayFromZero || floor % 2 == 1 then some high else some low

/-- The exact value, for want of anything shorter. -/
def Binary.exact (x : Binary) : Scaled :=
  ⟨x.mantissa * twoTo x.exponent * tenTo (-x.exponent) / twoTo (-x.exponent), min x.exponent 0⟩

/-- Move trailing zeros from the digits into the exponent; `fuel` bounds how many. -/
def Scaled.strip (fuel : Nat) (d : Scaled) : Scaled :=
  match fuel with
  | 0 => d
  | fuel + 1 =>
    if d.digits ≠ 0 ∧ d.digits % 10 = 0 then strip fuel ⟨d.digits / 10, d.exponent + 1⟩ else d

/-- An exponent of ten that is above the value, but by less than two powers of ten. -/
def Binary.ceilingExponent (x : Binary) : Int :=
  (((Nat.log2 x.mantissa : Int) + 1 + x.exponent) * 30103) / 100000 + 1

/-- How many grids are tried, from the coarsest: seventeen digits always suffice, and the start may
be two powers of ten too high. -/
def gridCount : Nat := 20

/-- The fewest digits that read back to a non-zero value, the closer of two such decimals, and on an
exact tie the one that `tie` names. -/
def Binary.shortest (x : Binary) (tie : Tie) : Scaled :=
  let start := x.ceilingExponent
  let hit := (List.range gridCount).findSome? fun i ↦ x.hitOn tie (start - Int.ofNat i)
  (hit.getD x.exact).strip 400

/-- The decimal digits of a natural number, most significant first. -/
def digitChars (n : Nat) : List Char := Nat.toDigits 10 n

/-! ### The other way round -/

/-- The double nearest to a decimal. Exponents that are out of all proportion are not even tried: no
double comes close to `10 ^ 310`, and what lies below `10 ^ -330` rounds to zero. -/
def Scaled.nearest (d : Scaled) : Float :=
  let magnitude := d.exponent + (digitChars d.digits).length
  if d.digits = 0 || magnitude < -330 then 0.0
  else if 310 < magnitude then 1.0 / 0.0
  else Float.ofScientific d.digits (d.exponent < 0) d.exponent.natAbs

end CueFlow.Decimal
