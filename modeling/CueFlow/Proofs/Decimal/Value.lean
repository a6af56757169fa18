import Mathlib.Algebra.Order.Field.Power
import Mathlib.Algebra.Order.Field.Rat
import Mathlib.Tactic.FieldSimp
import Mathlib.Tactic.Linarith
import Mathlib.Tactic.Positivity
import Mathlib.Tactic.Ring
import CueFlow.Proofs.Decimal
/-!
# What decimals and doubles stand for

Decimals (`Scaled.value`) and the magnitudes of doubles (`Binary.value`) stand for rational numbers.
The selection of a shortest decimal compares such numbers without ever dividing
(`compareScaled_eq`). So what it selects lies close to the value that it was selected for
(`Binary.near_shortest`): within half a unit of its last place, or a quarter below a power of two,
and strictly within unless the mantissa is even (`Binary.Near`).

Moving the point of a decimal does not change what it stands for (`value_pointed_positionalParts`),
so what a layout without exponents writes is just as close (`Layout.near_write`).
-/

namespace CueFlow.Decimal

/-! ### Values -/

/-- The number that a decimal stands for. -/
def Scaled.value (d : Scaled) : ℚ := d.digits * 10 ^ d.exponent

/-- The number that a magnitude stands for. -/
def Binary.value (x : Binary) : ℚ := x.mantissa * 2 ^ x.exponent

/-- Negative exponents are clipped: `twoTo` is the power of two times what is clipped. -/
theorem twoTo_eq (k : ℤ) : (twoTo k : ℚ) = 2 ^ k * twoTo (-k) := by
  obtain ⟨n, rfl | rfl⟩ := k.eq_nat_or_neg
  · simp [twoTo]
  · simp [twoTo]

/-- Negative exponents are clipped: `tenTo` is the power of ten times what is clipped. -/
theorem tenTo_eq (k : ℤ) : (tenTo k : ℚ) = 10 ^ k * tenTo (-k) := by
  obtain ⟨n, rfl | rfl⟩ := k.eq_nat_or_neg
  · simp [tenTo]
  · simp [tenTo]

/-- **A comparison in integers** is one of the numbers themselves. -/
theorem compareScaled_eq (a : ℕ) (i : ℤ) (b : ℕ) (j : ℤ) :
    compareScaled a i b j = compare (a * 10 ^ i : ℚ) (b * 2 ^ j) := by
  have hpos : (0 : ℚ) < tenTo (-i) * twoTo (-j) := by
    exact_mod_cast Nat.mul_pos (Binary.tenTo_pos (-i)) (Binary.twoTo_pos (-j))
  have hleft : ((a * tenTo i * twoTo (-j) : ℕ) : ℚ) =
      a * 10 ^ i * (tenTo (-i) * twoTo (-j)) := by
    push_cast
    rw [tenTo_eq i]
    ring
  have hright : ((b * twoTo j * tenTo (-i) : ℕ) : ℚ) =
      b * 2 ^ j * (tenTo (-i) * twoTo (-j)) := by
    push_cast
    rw [twoTo_eq j]
    ring
  rw [compareScaled, ← cmp_eq_compare, ← (Nat.strictMono_cast (α := ℚ)).cmp_map_eq, hleft, hright,
    cmp_mul_pos_right hpos, cmp_eq_compare]

/-! ### Near a double -/

namespace Binary

/-- The lower end of the numbers that round to a magnitude. -/
def low (x : Binary) : ℚ :=
  (x.mantissa - if x.narrowBelow then 1 / 4 else 1 / 2) * 2 ^ x.exponent

/-- The upper end. -/
def high (x : Binary) : ℚ := (x.mantissa + 1 / 2) * 2 ^ x.exponent

/-- A number lies between the two ends; it may only be one of them if the mantissa is even. -/
structure Near (x : Binary) (q : ℚ) : Prop where
  low_le : x.low ≤ q
  le_high : q ≤ x.high
  strict : x.mantissa % 2 = 1 → x.low < q ∧ q < x.high

variable {x : Binary}

/-- A quarter of the last place is a unit two places further down. -/
theorem quarters (k : ℚ) (e : ℤ) : k * 2 ^ (e - 2) = k / 4 * 2 ^ e := by
  rw [zpow_sub₀ two_ne_zero]
  norm_num
  ring

/-- The lower end of the interval, as it is compared on a grid of quarters. -/
theorem low_eq (hx : x.mantissa ≠ 0) :
    ((if x.narrowBelow then 4 * x.mantissa - 1 else 4 * x.mantissa - 2 : ℕ) : ℚ) *
      2 ^ (x.exponent - 2) = x.low := by
  rw [quarters, low]
  congr 1
  split
  · rw [Nat.cast_sub (by omega)]
    push_cast
    ring
  · rw [Nat.cast_sub (by omega)]
    push_cast
    ring

/-- The upper end of the interval, as it is compared on a grid of quarters. -/
theorem high_eq : ((4 * x.mantissa + 2 : ℕ) : ℚ) * 2 ^ (x.exponent - 2) = x.high := by
  rw [quarters, high]
  congr 1
  push_cast
  ring

/-- **What reads back** is near. -/
theorem near_of_readsBack (hx : x.mantissa ≠ 0) {d : Scaled} (h : x.readsBack d = true) :
    x.Near d.value := by
  rw [readsBack, compareScaled_eq, compareScaled_eq, low_eq hx, high_eq] at h
  simp only [Bool.and_eq_true, Bool.or_eq_true, beq_iff_eq, compare_gt_iff_gt, compare_lt_iff_lt,
    compare_eq_iff_eq] at h
  obtain ⟨hlow, hhigh⟩ := h
  refine ⟨?_, ?_, fun hodd ↦ ?_⟩
  · obtain hlow | ⟨-, hlow⟩ := hlow
    · exact hlow.le
    · exact hlow.ge
  · obtain hhigh | ⟨-, hhigh⟩ := hhigh
    · exact hhigh.le
    · exact hhigh.le
  · have hodd' : x.mantissa % 2 ≠ 0 := by omega
    exact ⟨hlow.resolve_right fun h ↦ hodd' h.1, hhigh.resolve_right fun h ↦ hodd' h.1⟩

/-- What is picked on a grid reads back. -/
theorem readsBack_of_hitOn {tie : Tie} {k : ℤ} {d : Scaled} (h : x.hitOn tie k = some d) :
    x.readsBack d = true := by
  rw [hitOn] at h
  -- Whichever neighbour is selected has been found to read back.
  split at h
  next => cases h
  next hlow _ => exact Option.some.inj h ▸ hlow
  next _ hhigh => exact Option.some.inj h ▸ hhigh
  next hlow hhigh =>
    split at h
    · exact Option.some.inj h ▸ hlow
    · exact Option.some.inj h ▸ hhigh
    · split at h
      · exact Option.some.inj h ▸ hhigh
      · exact Option.some.inj h ▸ hlow

/-- The exact decimal has the value of the double. -/
theorem value_exact : x.exact.value = x.value := by
  obtain ⟨n, he | he⟩ := x.exponent.eq_nat_or_neg
  · simp [exact, Scaled.value, value, he, twoTo, tenTo]
  · have hdigits : x.mantissa * 10 ^ n / 2 ^ n = x.mantissa * 5 ^ n := by
      refine Nat.div_eq_of_eq_mul_left (by positivity) ?_
      rw [Nat.mul_assoc, ← Nat.mul_pow]
    have hvalue : x.exact.value = (x.mantissa * 5 ^ n : ℕ) * (10 : ℚ) ^ (-n : ℤ) := by
      simp [exact, Scaled.value, he, twoTo, tenTo, hdigits]
    have hpow : (10 : ℚ) ^ (-n : ℤ) * 5 ^ n = 2 ^ (-n : ℤ) := by
      rw [zpow_neg, zpow_neg, zpow_natCast, zpow_natCast, show (10 : ℚ) = 2 * 5 by norm_num,
        mul_pow]
      field_simp
    rw [hvalue, value, he, ← hpow]
    push_cast
    ring

/-- The value of a double lies in its interval. -/
theorem near_value : x.Near x.value := by
  have hpos : (0 : ℚ) < 2 ^ x.exponent := by positivity
  have hlow : x.low < x.value := by
    refine mul_lt_mul_of_pos_right ?_ hpos
    split <;> linarith
  have hhigh : x.value < x.high := mul_lt_mul_of_pos_right (by linarith) hpos
  exact ⟨hlow.le, hhigh.le, fun _ ↦ ⟨hlow, hhigh⟩⟩

/-- To move trailing zeros into the exponent keeps the value. -/
theorem value_strip (d : Scaled) (fuel : ℕ) : (d.strip fuel).value = d.value := by
  induction fuel generalizing d with
  | zero => rfl
  | succ fuel ih =>
    rw [Scaled.strip]
    split
    next htrailing =>
      have hdigits : d.digits = 10 * (d.digits / 10) := by omega
      rw [ih, Scaled.value, Scaled.value, zpow_add_one₀ (by norm_num)]
      conv_rhs => rw [hdigits]
      push_cast
      ring
    next => rfl

/-- **The shortest decimal** is near. -/
theorem near_shortest (hx : x.mantissa ≠ 0) (tie : Tie) : x.Near (x.shortest tie).value := by
  rw [shortest, value_strip]
  cases hhit : (List.range gridCount).findSome?
      fun i ↦ x.hitOn tie (x.ceilingExponent - Int.ofNat i) with
  | none =>
    rw [Option.getD_none, value_exact]
    exact near_value
  | some d =>
    obtain ⟨i, -, hi⟩ := List.exists_of_findSome?_eq_some hhit
    exact near_of_readsBack hx (readsBack_of_hitOn hi)

end Binary

/-! ### Moving the point -/

/-- The decimal that digits around a point spell. -/
def pointed (whole fraction : List Char) : Scaled :=
  ⟨natInBase 10 (whole ++ fraction), -fraction.length⟩

/-- Digits in front count for more by the number of digits behind them. -/
theorem natInBase_append (base : ℕ) (cs ds : List Char) :
    natInBase base (cs ++ ds) = base ^ ds.length * natInBase base cs + natInBase base ds := by
  induction ds using List.reverseRecOn with
  | nil => simp [natInBase]
  | append_singleton ds d ih =>
    have hsnoc : ∀ cs : List Char,
        natInBase base (cs ++ [d]) = base * natInBase base cs + (hexValue? d).getD 0 :=
      fun cs ↦ by simp [natInBase]
    rw [← List.append_assoc, hsnoc, hsnoc, ih, List.length_append, List.length_singleton, pow_succ]
    ring

theorem natInBase_replicate_zero (base n : ℕ) : natInBase base (List.replicate n '0') = 0 := by
  induction n with
  | zero => rfl
  | succ n ih =>
    rw [List.replicate_succ', natInBase_append, ih]
    rfl

/-- **Setting the point** does not change what a decimal stands for. -/
theorem value_pointed_positionalParts (n : ℕ) (exponent : ℤ) :
    (pointed (positionalParts (digitChars n) exponent).1
      (positionalParts (digitChars n) exponent).2).value = n * 10 ^ exponent := by
  have hdigits := natInBase_digitChars n
  rw [positionalParts]
  split
  next hexponent =>
    obtain ⟨k, rfl⟩ := Int.eq_ofNat_of_zero_le hexponent
    have hspelt : natInBase 10 (digitChars n ++ List.replicate k '0') = n * 10 ^ k := by
      rw [natInBase_append, natInBase_replicate_zero, hdigits, List.length_replicate]
      ring
    simp [Scaled.value, pointed, hspelt]
  next hexponent =>
    obtain ⟨k, rfl⟩ : ∃ k : ℕ, exponent = -k := ⟨(-exponent).toNat, by omega⟩
    dsimp only
    rw [neg_neg, Int.toNat_natCast]
    split
    next hplaces =>
      have hlength : (digitChars n).length - ((digitChars n).length - k) = k := by omega
      simp [Scaled.value, pointed, hdigits, hlength]
    next hplaces =>
      have hlength : k - (digitChars n).length + (digitChars n).length = k := by omega
      have hspelt : natInBase 10 ('0' :: (List.replicate (k - (digitChars n).length) '0' ++
          digitChars n)) = n := by
        rw [← List.cons_append, ← List.replicate_succ, natInBase_append, natInBase_replicate_zero,
          hdigits, Nat.mul_zero, Nat.zero_add]
      simp [Scaled.value, pointed, hspelt, hlength]

/-- A zero for want of digits after the point does not count. -/
theorem value_pointed_zero (whole fraction : List Char) (pointZero : Bool) :
    (pointed whole (if fraction.isEmpty && pointZero then ['0'] else fraction)).value =
      (pointed whole fraction).value := by
  split
  next hempty =>
    obtain rfl := List.isEmpty_iff.1 (Bool.and_eq_true_iff.1 hempty).1
    have hspelt : natInBase 10 (whole ++ ['0']) = 10 * natInBase 10 whole :=
      natInBase_append 10 whole ['0']
    simp only [Scaled.value, pointed, hspelt, List.append_nil, List.length_singleton,
      List.length_nil]
    norm_num
    ring
  next => rfl

namespace Layout

variable {layout : Layout}

/-- Without an exponent the point is set among the digits of the shortest decimal. -/
theorem write_eq (hlayout : layout.positional = none) {x : Float}
    (hx : (Binary.ofFloat x).mantissa ≠ 0) :
    ∃ whole fraction,
      positionalParts (digitChars ((Binary.ofFloat x).shortest layout.tie).digits)
        ((Binary.ofFloat x).shortest layout.tie).exponent = (whole, fraction) ∧
      layout.write x = ⟨signBit x, whole,
        if fraction.isEmpty && layout.pointZero then ['0'] else fraction, none⟩ := by
  refine ⟨_, _, rfl, ?_⟩
  rw [write, if_neg hx, arrange, hlayout]
  exact if_pos rfl

/-- **What is written of a number** without an exponent is near. -/
theorem near_write (hlayout : layout.positional = none) {x : Float}
    (hx : (Binary.ofFloat x).mantissa ≠ 0) :
    (Binary.ofFloat x).Near (pointed (layout.write x).whole (layout.write x).fraction).value := by
  obtain ⟨whole, fraction, hparts, hwrite⟩ := write_eq hlayout hx
  have hvalue := value_pointed_positionalParts ((Binary.ofFloat x).shortest layout.tie).digits
    ((Binary.ofFloat x).shortest layout.tie).exponent
  rw [hparts] at hvalue
  rw [hwrite, value_pointed_zero, hvalue]
  exact Binary.near_shortest hx layout.tie

/-- A zero stands after the point for want of other digits, if the layout wants one. -/
theorem fraction_write_ne_nil (hlayout : layout.positional = none) (hzero : layout.pointZero = true)
    (x : Float) : (layout.write x).fraction ≠ [] := by
  by_cases hx : (Binary.ofFloat x).mantissa = 0
  · rw [write, if_pos hx, hzero]
    exact List.cons_ne_nil _ _
  · obtain ⟨whole, fraction, -, hwrite⟩ := write_eq hlayout hx
    rw [hwrite, hzero]
    cases fraction with
    | nil => exact List.cons_ne_nil _ _
    | cons c fraction => exact List.cons_ne_nil c fraction

theorem negative_write (x : Float) : (layout.write x).negative = signBit x := by
  rw [write]
  split
  · rfl
  · rw [arrange]
    split_ifs <;> rfl

end Layout

end CueFlow.Decimal
