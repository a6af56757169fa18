import CueFlow.Decimal.Shortest
import CueFlow.Proofs.Decimal.Rounding
import Mathlib
/-!
# The double nearest to a decimal

Of a decimal near a double that double is read (`nearest_eq_of_near`), so the decimal that is
written of a double leads back to it.

Doubles are handled as what their bits unpack to, and packing undoes that (`ofModel_pack`). A
decimal is made a double in one of two ways. If its digits and its power of ten are both natural
numbers that doubles represent exactly (`IsNat`), as all numbers below `2 ^ 53` are
(`isNat_toFloat`), the two are multiplied or divided as doubles. Otherwise they are multiplied or
divided as natural numbers (`ofScientific_of_near`). Either way one number is rounded once, and it
is near the double. Decimals far from all doubles are settled without that, and a decimal near a
double is none of them (`magnitude_of_near`).
-/

namespace CueFlow.Decimal

open Float.Model Float.Model.UnpackedFloat

/-! ### The bits of a double -/

/-- The low bits of a double are its fraction. -/
theorem toNat_unpackMantissa (b : BitVec Format.binary64.numBits) :
    (unpackMantissa b).toNat = b.toNat % leadingBit := by
  rw [unpackMantissa_def, BitVec.extractLsb'_toNat]
  simp [leadingBit]

/-- The bits above the fraction are its exponent, with a bias. -/
theorem toNat_unpackExponent (b : BitVec Format.binary64.numBits) :
    (unpackExponent b).toNat = b.toNat / leadingBit % 0x800 := by
  rw [unpackExponent_def, BitVec.extractLsb'_toNat, Nat.shiftRight_eq_div_pow]
  rfl

/-- The highest bit is its sign. -/
theorem toNat_unpackSign (b : BitVec Format.binary64.numBits) :
    (unpackSign b).toNat = b.toNat / (0x800 * leadingBit) := by
  have hlt : b.toNat / (0x800 * leadingBit) < 2 ^ 1 :=
    Nat.div_lt_of_lt_mul b.isLt
  rw [unpackSign_def, BitVec.extractLsb'_toNat, Nat.shiftRight_eq_div_pow]
  exact Nat.mod_eq_of_lt hlt

/-- The leading bit of a normal double is put in front of its fraction. -/
theorem toNat_append_one (b : BitVec 52) : (1#1 ++ b).toNat = leadingBit + b.toNat := by
  rw [BitVec.toNat_append, ← Nat.shiftLeft_add_eq_or_of_lt b.isLt]
  rfl

/-- Without a leading bit the exponent is the least. -/
theorem canonical_subnormal {fraction : ℕ} (hpos : 0 < fraction) (hlt : fraction < leadingBit) :
    (⟨fraction, -1074, false⟩ : Binary).Canonical where
  pos := hpos
  lt := hlt.trans (by decide)
  le_exponent := le_rfl
  exponent_le := by show (-1074 : ℤ) ≤ 971; decide
  full := .inr rfl
  narrow := by simp

/-- A normal double is canonical. -/
theorem canonical_normal {fraction biased : ℕ} (hfraction : fraction < leadingBit)
    (hpos : 0 < biased) (hlt : biased < 0x7ff) :
    (⟨leadingBit + fraction, Int.ofNat biased - 1075, fraction == 0 && biased > 1⟩ :
      Binary).Canonical where
  pos := Nat.add_pos_left (by decide) fraction
  lt := by simp only [leadingBit] at hfraction ⊢; omega
  le_exponent := by show (-1074 : ℤ) ≤ biased - 1075; omega
  exponent_le := by show (biased : ℤ) - 1075 ≤ 971; omega
  full := .inl (Nat.le_add_right _ _)
  narrow := by
    simp only [leadingBit, Bool.and_eq_true, beq_iff_eq, decide_eq_true_eq, Int.ofNat_eq_natCast]
    omega

/-- The mantissa and the exponent of a finite double, as its bits tell them. -/
theorem ofFloat_of_unpack {x : Float} {sign : Sign} {m : ℕ} {e : ℤ} {hm : 0 < m}
    (hx : x.toModel.unpack = .finite sign m e hm) :
    (Binary.ofFloat x).mantissa = m ∧ (Binary.ofFloat x).exponent = e ∧
      (Binary.ofFloat x).Canonical := by
  have hmantissa := toNat_unpackMantissa x.toBits.toBitVec
  have hexponent := toNat_unpackExponent x.toBits.toBitVec
  rw [UInt64.toNat_toBitVec] at hmantissa hexponent
  have hlt : x.toBits.toNat % leadingBit < leadingBit := Nat.mod_lt _ (by decide)
  have hunpack : UnpackedFloat.unpack .binary64 x.toBits.toBitVec = .finite sign m e hm := hx
  rw [UnpackedFloat.unpack] at hunpack
  rw [Binary.ofFloat, ← hmantissa, ← hexponent]
  rw [← hmantissa] at hlt
  split_ifs at hunpack with hones hzero hleast hzero'
  · obtain ⟨rfl, rfl, rfl⟩ := finite.inj hunpack
    rw [if_pos (by rw [hleast]; rfl)]
    refine ⟨rfl, ?_, canonical_subnormal hm hlt⟩
    rw [hleast]
    rfl
  · obtain ⟨rfl, rfl, rfl⟩ := finite.inj hunpack
    have hpos := Nat.pos_of_ne_zero fun h ↦ hleast (BitVec.eq_of_toNat_eq h)
    have hless := Nat.lt_of_le_of_ne (Nat.le_of_lt_succ (BitVec.isLt _))
      fun h ↦ hones (BitVec.eq_of_toNat_eq h)
    rw [if_neg (Nat.ne_of_gt hpos)]
    exact ⟨(toNat_append_one _).symm, rfl, canonical_normal hlt hpos hless⟩

/-- A positive number has its highest bit clear. -/
theorem highest_bit_of_unpack {b : BitVec Format.binary64.numBits} {m : ℕ} {e : ℤ} {hm : 0 < m}
    (hb : UnpackedFloat.unpack .binary64 b = .finite .positive m e hm) :
    b.toNat / (0x800 * leadingBit) = 0 := by
  have hpositive : Sign.ofBitVec (unpackSign b) = .positive := by
    rw [UnpackedFloat.unpack] at hb
    split_ifs at hb
    · exact (finite.inj hb).1
    · exact (finite.inj hb).1
  rw [← toNat_unpackSign]
  rw [Sign.ofBitVec] at hpositive
  split_ifs at hpositive with hzero
  rw [hzero]
  rfl

/-- A positive double has no sign bit. -/
theorem signBit_of_unpack {x : Float} {m : ℕ} {e : ℤ} {hm : 0 < m}
    (hx : x.toModel.unpack = .finite .positive m e hm) : signBit x = false := by
  have hbit : x.toBits.toNat / (0x800 * leadingBit) = 0 := highest_bit_of_unpack hx
  rw [signBit, hbit]
  rfl

/-- A number greater than zero is finite and not zero, or infinite. -/
theorem unpack_of_pos {x : Float} (hx : 0.0 < x) :
    (∃ m e, ∃ hm : 0 < m, x.toModel.unpack = .finite .positive m e hm) ∨
      x.toModel.unpack = .infinity .positive := by
  have hzero : (0.0 : Float).toModel.unpack = .zero .positive := by rfl
  have hlt : UnpackedFloat.lt (0.0 : Float).toModel.unpack x.toModel.unpack = true :=
    of_decide_eq_true hx
  rw [hzero] at hlt
  match hu : x.toModel.unpack, hlt with
  | .finite .positive m e hm, _ => exact .inl ⟨m, e, hm, rfl⟩
  | .infinity .positive, _ => exact .inr rfl

/-- A double is made of its mantissa and its exponent. -/
theorem ofModel_pack {x : Float} {u : UnpackedFloat} (hx : x.toModel.unpack = u) :
    Float.ofModel (.pack u) = x := by
  rw [← hx]
  have hbits : UnpackedFloat.pack .binary64 x.toModel.unpack = x.toModel.toBits.toBitVec :=
    pack_unpack_of_valid x.toModel.valid
  apply Float.toBits_inj.1
  show UInt64.ofBitVec (UnpackedFloat.pack .binary64 x.toModel.unpack) = x.toModel.toBits
  rw [hbits]

/-! ### Natural numbers as doubles -/

/-- An unpacked double is a natural number, with a full mantissa. -/
def IsNat (u : UnpackedFloat) (n : ℕ) : Prop :=
  match u with
  | .finite .positive m e _ => 2 ^ 52 ≤ m ∧ m * twoTo e = n * twoTo (-e)
  | _ => False

instance (u : UnpackedFloat) (n : ℕ) : Decidable (IsNat u n) :=
  match u with
  | .finite .positive _ _ _ => inferInstanceAs (Decidable (_ ∧ _))
  | .finite .negative _ _ _ | .infinity _ | .notANumber | .zero _ => .isFalse id

theorem isNat_finite {m n : ℕ} {e : ℤ} {hm : 0 < m} :
    IsNat (.finite .positive m e hm) n ↔ 2 ^ 52 ≤ m ∧ (m * 2 ^ e : ℚ) = n := by
  have hpos : (twoTo (-e) : ℚ) ≠ 0 := Nat.cast_ne_zero.2 (Binary.twoTo_pos (-e)).ne'
  have hcast : m * twoTo e = n * twoTo (-e) ↔ (m * 2 ^ e : ℚ) = n := by
    rw [← Nat.cast_inj (R := ℚ), Nat.cast_mul, Nat.cast_mul, twoTo_eq e, ← mul_assoc,
      mul_left_inj' hpos]
  exact and_congr_right fun _ ↦ hcast

theorem IsNat.exists_finite {u : UnpackedFloat} {n : ℕ} (h : IsNat u n) :
    ∃ m e, ∃ hm : 0 < m, u = .finite .positive m e hm ∧ 2 ^ 52 ≤ m ∧ (m * 2 ^ e : ℚ) = n := by
  match u, h with
  | .finite .positive m e hm, h => exact ⟨m, e, hm, rfl, isNat_finite.1 h⟩

/-- A natural number with a full mantissa. -/
def ofNat (n : ℕ) : Binary :=
  ⟨n * 2 ^ (52 - n.log2), n.log2 - 52, n * 2 ^ (52 - n.log2) = 2 ^ 52⟩

/-- A small natural number is shifted until its mantissa is full. -/
theorem log2_ofNat {n : ℕ} (hn : n ≠ 0) (hlt : n < 2 ^ 53) : (ofNat n).mantissa.log2 = 52 := by
  have hlog : n.log2 < 53 := (Nat.log2_lt hn).2 hlt
  rw [ofNat, log2_mul_two_pow hn]
  omega

theorem canonical_ofNat {n : ℕ} (hn : n ≠ 0) (hlt : n < 2 ^ 53) : (ofNat n).Canonical := by
  have hpos : (ofNat n).mantissa ≠ 0 := Nat.mul_ne_zero hn (Nat.two_pow_pos _).ne'
  have hlog := (Nat.log2_eq_iff hpos).1 (log2_ofNat hn hlt)
  have hlog' : n.log2 < 53 := (Nat.log2_lt hn).2 hlt
  refine ⟨Nat.pos_of_ne_zero hpos, hlog.2, ?_, ?_, .inl hlog.1, ?_⟩
  · show (-1074 : ℤ) ≤ n.log2 - 52
    omega
  · show (n.log2 : ℤ) - 52 ≤ 971
    omega
  · have hexponent : (n.log2 : ℤ) - 52 ≠ -1074 := by omega
    simp [ofNat, hexponent]

/-- The shift does not change the value. -/
theorem value_ofNat {n : ℕ} (hn : n ≠ 0) (hlt : n < 2 ^ 53) : (ofNat n).value = n := by
  have hlog : n.log2 < 53 := (Nat.log2_lt hn).2 hlt
  have hexponent : (n.log2 : ℤ) - 52 = -(52 - n.log2 : ℕ) := by omega
  rw [Binary.value, ofNat, hexponent, zpow_neg, zpow_natCast]
  push_cast
  field_simp

/-- Packing keeps a full mantissa. -/
theorem unpack_pack_of_full {sign : Sign} {m : ℕ} {e : ℤ} {hm : 0 < m} (hlog : m.log2 = 52)
    (hlow : -1074 ≤ e) (hhigh : e ≤ 971) :
    UnpackedFloat.unpack .binary64 (UnpackedFloat.pack .binary64 (.finite sign m e hm)) =
      .finite sign m e hm := by
  obtain ⟨biased, rfl⟩ : ∃ biased : ℕ, e = biased - 1075 := ⟨(e + 1075).toNat, by omega⟩
  have hbiased : ((biased : ℤ) - 1075 + Format.binary64.exponentBias +
      Format.binary64.mantissaBitsWithoutImplicit).toNat = biased := by
    have hbias : (Format.binary64.exponentBias : ℤ) + Format.binary64.mantissaBitsWithoutImplicit =
      1075 := rfl
    omega
  have hexponent : (BitVec.ofNat Format.binary64.exponentBits biased).toNat = biased :=
    Nat.mod_eq_of_lt (by show biased < 2048; omega)
  have hones : BitVec.ofNat Format.binary64.exponentBits biased ≠ -1#_ := fun h ↦ by
    have hall : biased = 2047 := hexponent.symm.trans (congrArg BitVec.toNat h)
    omega
  have hzero : BitVec.ofNat Format.binary64.exponentBits biased ≠ 0#_ := fun h ↦ by
    have hnone : biased = 0 := hexponent.symm.trans (congrArg BitVec.toNat h)
    omega
  have hmantissa : (1#1 ++ BitVec.ofNat 52 m).toNat = m := by
    have hbits := (Nat.log2_eq_iff hm.ne').1 hlog
    rw [toNat_append_one, BitVec.toNat_ofNat, leadingBit]
    omega
  rw [UnpackedFloat.pack]
  simp only [hbiased, hlog]
  rw [if_neg (by show ¬2048 ≤ biased + 1; omega), if_pos (by rfl), UnpackedFloat.unpack]
  simp only [unpackMantissa_packComponents, unpackExponent_packComponents,
    unpackSign_packComponents, Sign.ofBitVec_toBitVec, hones, hzero, if_false, hexponent]
  congr 1

/-- A small natural number is a double exactly. -/
theorem isNat_toFloat {n : ℕ} (hn : n ≠ 0) (hlt : n < 2 ^ 53) :
    IsNat n.toUInt64.toFloat.toModel.unpack n := by
  have hvalue := value_ofNat hn hlt
  have hround : UnpackedFloat.ofUInt64 .binary64 n.toUInt64 =
      .finite .positive (ofNat n).mantissa (ofNat n).exponent (canonical_ofNat hn hlt).pos := by
    have hsize : n.toUInt64.toNat = n :=
      UInt64.toNat_ofNat_of_lt (hlt.trans (by decide))
    have hnear : (ofNat n).Near (n * 2 ^ (0 : ℤ)) := by
      rw [zpow_zero, mul_one, ← hvalue]
      exact Binary.near_value
    rw [UnpackedFloat.ofUInt64, UnpackedFloat.ofNat, UnpackedFloat.ofInt,
      UnpackedFloat.normalize, hsize, Int.compare_eq_gt.2 (by omega)]
    exact round_eq_of_near (canonical_ofNat hn hlt) hn hnear .positive
  have hunpack : n.toUInt64.toFloat.toModel.unpack =
      UnpackedFloat.unpack .binary64
        (UnpackedFloat.pack .binary64 (UnpackedFloat.ofUInt64 .binary64 n.toUInt64)) := rfl
  rw [hunpack, hround, unpack_pack_of_full (log2_ofNat hn hlt)]
  · exact isNat_finite.2
      ⟨((Nat.log2_eq_iff (canonical_ofNat hn hlt).pos.ne').1 (log2_ofNat hn hlt)).1, hvalue⟩
  · exact (canonical_ofNat hn hlt).le_exponent
  · exact (canonical_ofNat hn hlt).exponent_le

/-- The table of powers of ten holds the powers of ten. -/
theorem isNat_powersOfTen : ∀ k : Fin Float.exactlyRepresentablePowersOfTen.size,
    IsNat (Float.exactlyRepresentablePowersOfTen[k]).toModel.unpack (10 ^ k.val) := by
  decide +kernel

/-! ### Reading decimals -/

variable {x : Binary} {u v : UnpackedFloat} {a b : ℕ}

/-- The product of two exact doubles is the double nearest to their product. -/
theorem mul_of_isNat (hx : x.Canonical) (hu : IsNat u a) (hv : IsNat v b)
    (hnear : x.Near (a * b)) :
    mul .binary64 u v = .finite .positive x.mantissa x.exponent hx.pos := by
  obtain ⟨m₁, e₁, h₁, rfl, hfull, ha⟩ := hu.exists_finite
  obtain ⟨m₂, e₂, h₂, rfl, -, hb⟩ := hv.exists_finite
  rw [← ha, ← hb] at hnear
  exact mul_eq_of_near hx h₁ h₂ hnear hfull

/-- The quotient of two exact doubles is the double nearest to their quotient. -/
theorem div_of_isNat (hx : x.Canonical) (hu : IsNat u a) (hv : IsNat v b)
    (hnear : x.Near (a / b)) :
    div .binary64 u v = .finite .positive x.mantissa x.exponent hx.pos := by
  obtain ⟨m₁, e₁, h₁, rfl, -, ha⟩ := hu.exists_finite
  obtain ⟨m₂, e₂, h₂, rfl, -, hb⟩ := hv.exists_finite
  rw [← ha, ← hb] at hnear
  exact div_eq_of_near hx h₁ h₂ hnear

variable {d : Scaled}

/-- The number of digits bounds a number from both sides. -/
theorem digitChars_bounds {n : ℕ} (hn : n ≠ 0) :
    10 ^ ((digitChars n).length - 1) ≤ n ∧ n < 10 ^ (digitChars n).length := by
  have hpos : 0 < (digitChars n).length := Nat.length_toDigits_pos
  refine ⟨?_, (Nat.length_toDigits_le_iff (by decide) hpos).1 le_rfl⟩
  obtain hone | hmore := Nat.eq_or_lt_of_le hpos
  · rw [← hone]
    exact Nat.pos_of_ne_zero hn
  · have hless : ¬(digitChars n).length ≤ (digitChars n).length - 1 := by omega
    exact not_lt.1 fun hlt ↦ hless ((Nat.length_toDigits_le_iff (by decide) (by omega)).2 hlt)

/-- A decimal near a double is not out of all proportion. -/
theorem magnitude_of_near (hx : x.Canonical) (hd : d.digits ≠ 0) (hnear : x.Near d.value) :
    -330 ≤ d.exponent + (digitChars d.digits).length ∧
      d.exponent + (digitChars d.digits).length ≤ 310 := by
  obtain ⟨hlow, hhigh⟩ := digitChars_bounds hd
  have hpos : 0 < (digitChars d.digits).length := Nat.length_toDigits_pos
  have hpower : ∀ n : ℕ, (10 : ℚ) ^ (n + d.exponent) = 10 ^ n * 10 ^ d.exponent := fun n ↦ by
    rw [zpow_add₀ (by norm_num), zpow_natCast]
  have hbelow : (2 : ℚ) ^ (-1075 : ℤ) < 10 ^ ((digitChars d.digits).length + d.exponent) := by
    refine (hx.le_of_near hnear).trans_lt ?_
    rw [hpower]
    exact mul_lt_mul_of_pos_right (by exact_mod_cast hhigh) (by positivity)
  have habove : (10 : ℚ) ^ (((digitChars d.digits).length - 1 : ℕ) + d.exponent) <
      2 ^ (1024 : ℤ) := by
    refine lt_of_le_of_lt ?_ (hx.lt_of_near hnear)
    rw [hpower]
    exact mul_le_mul_of_nonneg_right (by exact_mod_cast hlow) (by positivity)
  have hten : (1 : ℚ) < 10 := by norm_num
  have hleast : (10 : ℚ) ^ (-330 : ℤ) < 2 ^ (-1075 : ℤ) := by
    have hlt : 2 ^ 1075 < 10 ^ 330 := by decide +kernel
    rw [zpow_neg, zpow_neg, inv_lt_inv₀ (by positivity) (by positivity)]
    exact_mod_cast hlt
  have hmost : (2 : ℚ) ^ (1024 : ℤ) < 10 ^ (310 : ℤ) := by
    have hlt : 2 ^ 1024 < 10 ^ 310 := by decide +kernel
    exact_mod_cast hlt
  have hleast' := (zpow_lt_zpow_iff_right₀ hten).1 (hleast.trans hbelow)
  have hmost' := (zpow_lt_zpow_iff_right₀ hten).1 (habove.trans hmost)
  omega

/-- A decimal without a negative exponent is a product. -/
theorem Scaled.value_of_nonneg (h : 0 ≤ d.exponent) :
    d.value = d.digits * (10 ^ d.exponent.natAbs : ℕ) := by
  obtain ⟨k, hk⟩ := Int.eq_ofNat_of_zero_le h
  rw [Scaled.value, hk, Int.natAbs_natCast, zpow_natCast, Nat.cast_pow]
  rfl

/-- A decimal with a negative exponent is a quotient. -/
theorem Scaled.value_of_neg (h : d.exponent < 0) :
    d.value = d.digits / (10 ^ d.exponent.natAbs : ℕ) := by
  obtain ⟨k, hk⟩ := Int.eq_negSucc_of_lt_zero h
  rw [Scaled.value, hk, Int.natAbs_negSucc, zpow_negSucc, Nat.cast_pow, div_eq_mul_inv]
  rfl

/-- By the arithmetic of doubles, if both numbers are exact. -/
theorem quotient_or_product_of_near {y p : Float} (hx : x.Canonical) (hnear : x.Near d.value)
    (hy : IsNat y.toModel.unpack d.digits) (hp : IsNat p.toModel.unpack (10 ^ d.exponent.natAbs)) :
    (if decide (d.exponent < 0) = true then y / p else y * p) =
      Float.ofModel (.pack (.finite .positive x.mantissa x.exponent hx.pos)) := by
  split
  next hneg =>
    rw [Scaled.value_of_neg (of_decide_eq_true hneg)] at hnear
    exact congrArg (Float.ofModel <| .pack ·) (div_of_isNat hx hy hp hnear)
  next hneg =>
    have hnonneg := Int.not_lt.1 fun h ↦ hneg (decide_eq_true h)
    rw [Scaled.value_of_nonneg hnonneg] at hnear
    exact congrArg (Float.ofModel <| .pack ·) (mul_of_isNat hx hy hp hnear)

/-- By the arithmetic of natural numbers. -/
theorem ofScientific_of_near (hx : x.Canonical) (hd : d.digits ≠ 0) (hnear : x.Near d.value) :
    UnpackedFloat.ofScientific .binary64 d.digits d.exponent =
      .finite .positive x.mantissa x.exponent hx.pos := by
  obtain ⟨hlow, hhigh⟩ := magnitude_of_near hx hd hnear
  have hpos : 0 < (digitChars d.digits).length := Nat.length_toDigits_pos
  have hlength : (digitChars d.digits).length ≤ d.digits.log2 + 1 :=
    (Nat.length_toDigits_le_iff (by decide) (Nat.succ_pos _)).2 <|
      Nat.lt_log2_self.trans_le (Nat.pow_le_pow_left (by decide) _)
  rw [UnpackedFloat.ofScientific, dif_neg hd, if_neg (by show ¬2048 < d.exponent; omega),
    if_neg (by show ¬d.exponent < -(2048 + d.digits.log2); omega)]
  split
  next hexponent =>
    have hvalue : ((d.digits <<< 53 : ℕ) * 2 ^ (-53 : ℤ) * ((10 ^ d.exponent.toNat : ℕ) *
        2 ^ (0 : ℤ)) : ℚ) = d.value := by
      have htoNat : d.exponent.toNat = d.exponent.natAbs := by omega
      rw [Scaled.value_of_nonneg hexponent, htoNat, Nat.shiftLeft_eq, zpow_neg, zpow_zero]
      push_cast
      field_simp
    refine mul_eq_of_near hx _ _ ?_ ?_
    · exact hvalue.symm ▸ hnear
    · show 2 ^ 52 ≤ d.digits <<< 53
      rw [Nat.shiftLeft_eq]
      omega
  next hexponent =>
    have hvalue : (d.digits * 2 ^ (0 : ℤ) / ((10 ^ (-d.exponent).toNat : ℕ) * 2 ^ (0 : ℤ)) : ℚ) =
        d.value := by
      have htoNat : (-d.exponent).toNat = d.exponent.natAbs := by omega
      rw [Scaled.value_of_neg (not_le.1 hexponent), htoNat, zpow_zero, mul_one, mul_one]
    exact div_eq_of_near hx _ _ (hvalue.symm ▸ hnear)

theorem ofScientific_eq_of_near {x : Float} {m : ℕ} {e : ℤ} {hm : 0 < m}
    (hx : x.toModel.unpack = .finite .positive m e hm) (hd : d.digits ≠ 0)
    (hnear : (Binary.ofFloat x).Near d.value) :
    Float.ofScientific d.digits (d.exponent < 0) d.exponent.natAbs = x := by
  obtain ⟨hmantissa, hexponent, hcanonical⟩ := ofFloat_of_unpack hx
  have hpacked : Float.ofModel (.pack (.finite .positive (Binary.ofFloat x).mantissa
      (Binary.ofFloat x).exponent hcanonical.pos)) = x := by
    refine ofModel_pack (hx.trans ?_)
    congr 1
    · exact hmantissa.symm
    · exact hexponent.symm
  rw [Float.ofScientific]
  split
  next hfast =>
    have hpower := isNat_powersOfTen ⟨d.exponent.natAbs, Nat.lt_succ_of_le hfast.2⟩
    exact (quotient_or_product_of_near hcanonical hnear (isNat_toFloat hd hfast.1) hpower).trans
      hpacked
  next =>
    have hsigned : (if decide (d.exponent < 0) then Int.negOfNat d.exponent.natAbs
        else Int.ofNat d.exponent.natAbs) = d.exponent := by
      rw [Int.negOfNat_eq, Int.ofNat_eq_natCast]
      split
      next hneg =>
        have := of_decide_eq_true hneg
        omega
      next hneg =>
        have := of_decide_eq_false (Bool.eq_false_iff.2 hneg)
        omega
    dsimp only
    rw [hsigned, Float.Model.ofScientific, ofScientific_of_near hcanonical hd hnear]
    exact hpacked

/-- **A decimal near a double** is read as that double. -/
theorem nearest_eq_of_near {x : Float} {m : ℕ} {e : ℤ} {hm : 0 < m}
    (hx : x.toModel.unpack = .finite .positive m e hm)
    (hnear : (Binary.ofFloat x).Near d.value) : d.nearest = x := by
  obtain ⟨-, -, hcanonical⟩ := ofFloat_of_unpack hx
  have hd : d.digits ≠ 0 := fun hzero ↦ by
    have hle := hcanonical.le_of_near hnear
    rw [Scaled.value, hzero, Nat.cast_zero, zero_mul] at hle
    exact absurd hle (not_le.2 (by positivity))
  obtain ⟨hlow, hhigh⟩ := magnitude_of_near hcanonical hd hnear
  rw [Scaled.nearest, if_neg (by simp [hd, hlow]), if_neg (by omega)]
  exact ofScientific_eq_of_near hx hd hnear

end CueFlow.Decimal
