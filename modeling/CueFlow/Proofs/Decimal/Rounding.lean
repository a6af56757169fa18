import Mathlib
import CueFlow.Proofs.Decimal.Value
/-!
# Rounding to doubles

Arithmetic on doubles works out a mantissa and two more bits, which tell where the exact number lies
beyond the mantissa (`Located`). Shifting keeps that (`Located.shiftRight`), and the bits are enough
to tell whether to round up (`Located.roundedMantissa_eq`). So a number near a double is rounded to
that double, as long as enough bits of it have been worked out (`roundWithAccuracy_eq_of_near`).
-/

namespace CueFlow.Decimal

open Float.Model Float.Model.UnpackedFloat

/-! ### Two more bits -/

/-- Where a number lies beyond a mantissa, in units of its last place: there, in the first half of
the unit, in the middle, or in the second half. -/
inductive Located : ExtendedMantissa → ℚ → Prop
  | exact (m : ℕ) : Located ⟨m, false, false⟩ m
  | lower {m : ℕ} {q : ℚ} (hlow : m < q) (hhigh : q < m + 1 / 2) : Located ⟨m, false, true⟩ q
  | middle (m : ℕ) : Located ⟨m, true, false⟩ (m + 1 / 2)
  | upper {m : ℕ} {q : ℚ} (hlow : m + 1 / 2 < q) (hhigh : q < m + 1) : Located ⟨m, true, true⟩ q

namespace Located

variable {em : ExtendedMantissa} {q : ℚ}

/-- Either bit tells that a number is not exactly the mantissa. -/
theorem exact_or_beyond (h : Located em q) :
    (em.roundBit || em.stickyBit) = false ∧ q = em.mantissa ∨
      (em.roundBit || em.stickyBit) = true ∧ em.mantissa < q ∧ q < em.mantissa + 1 := by
  cases h with
  | exact m => exact .inl ⟨rfl, rfl⟩
  | lower hlow hhigh => exact .inr ⟨rfl, hlow, by dsimp only; linarith⟩
  | middle m => exact .inr ⟨rfl, by dsimp only; linarith, by dsimp only; linarith⟩
  | upper hlow hhigh => exact .inr ⟨rfl, by dsimp only; linarith, hhigh⟩

theorem mantissa_le (h : Located em q) : em.mantissa ≤ q := by
  obtain ⟨-, rfl⟩ | ⟨-, hlow, -⟩ := h.exact_or_beyond
  · exact le_rfl
  · exact hlow.le

theorem lt_mantissa_add_one (h : Located em q) : q < em.mantissa + 1 := by
  obtain ⟨-, rfl⟩ | ⟨-, -, hhigh⟩ := h.exact_or_beyond
  · exact lt_add_one _
  · exact hhigh

theorem mantissa_eq {m : ℕ} (h : Located em m) : em.mantissa = m := by
  have hle := h.mantissa_le
  have hlt := h.lt_mantissa_add_one
  norm_cast at hle hlt
  omega

theorem shiftRightOne (h : Located em q) : Located em.shiftRightOne (q / 2) := by
  obtain ⟨k, hk | hk⟩ := em.mantissa.even_or_odd'
  · have hshift : em.shiftRightOne = ⟨k, false, em.roundBit || em.stickyBit⟩ := by
      simp [ExtendedMantissa.shiftRightOne, hk]
    have hcast : (em.mantissa : ℚ) = 2 * k := by rw [hk]; push_cast; ring
    obtain ⟨hbits, hq⟩ | ⟨hbits, hlow, hhigh⟩ := h.exact_or_beyond
    · have hq' : q / 2 = k := by linarith
      rw [hshift, hbits, hq']
      exact .exact k
    · rw [hshift, hbits]
      exact .lower (by linarith) (by linarith)
  · have hshift : em.shiftRightOne = ⟨k, true, em.roundBit || em.stickyBit⟩ := by
      simp [ExtendedMantissa.shiftRightOne, hk]
      omega
    have hcast : (em.mantissa : ℚ) = 2 * k + 1 := by rw [hk]; push_cast; ring
    obtain ⟨hbits, hq⟩ | ⟨hbits, hlow, hhigh⟩ := h.exact_or_beyond
    · have hq' : q / 2 = k + 1 / 2 := by linarith
      rw [hshift, hbits, hq']
      exact .middle k
    · rw [hshift, hbits]
      exact .upper (by linarith) (by linarith)

/-- **Shifting** keeps what the bits tell. -/
theorem shiftRight (h : Located em q) (n : ℕ) : Located (em >>> n) (q / 2 ^ n) := by
  show Located (n.repeat ExtendedMantissa.shiftRightOne em) _
  induction n with
  | zero => simpa [Nat.repeat] using h
  | succ n ih =>
    rw [Nat.repeat, pow_succ, ← div_div]
    exact ih.shiftRightOne

/-- **Rounding** goes to the integer that is at most half a unit away; half a unit, only if it is
even. -/
theorem roundedMantissa_eq (h : Located em q) {m : ℕ} (hlow : m - 1 / 2 ≤ q) (hhigh : q ≤ m + 1 / 2)
    (hodd : m % 2 = 1 → m - 1 / 2 < q ∧ q < m + 1 / 2) : em.roundedMantissa = m := by
  cases h with
  | exact k =>
    have hle : (k : ℚ) < m + 1 := by linarith
    have hge : (m : ℚ) < k + 1 := by linarith
    norm_cast at hle hge
    show k = m
    omega
  | @lower k =>
    have hle : (k : ℚ) < m + 1 := by linarith
    have hge : (m : ℚ) < k + 1 := by linarith
    norm_cast at hle hge
    show k = m
    omega
  | middle k =>
    have hle : (k : ℚ) ≤ m := by linarith
    have hge : (m : ℚ) ≤ k + 1 := by linarith
    have hbelow : m % 2 = 1 → (k : ℚ) < m := fun h ↦ by linarith [(hodd h).2]
    have habove : m % 2 = 1 → (m : ℚ) < k + 1 := fun h ↦ by linarith [(hodd h).1]
    norm_cast at hle hge hbelow habove
    show k + k % 2 = m
    omega
  | @upper k =>
    have hle : (k : ℚ) < m := by linarith
    have hge : (m : ℚ) < k + 1 + 1 := by linarith
    norm_cast at hle hge
    show k + 1 = m
    omega

/-- Without any bits the number is the mantissa. -/
theorem ofMantissa (m : ℕ) :
    Located (ExtendedMantissa.ofMantissaAndAccuracy m .exact) m := .exact m

/-- To compare twice a remainder with the divisor is to compare the rest with one half. -/
theorem compare_two_mul (r : ℕ) {b : ℕ} (hb : 0 < b) :
    compare (2 * r) b = compare (r / (b : ℚ)) (1 / 2) := by
  have hpos : (0 : ℚ) < b := Nat.cast_pos.2 hb
  have htwice : ((2 * r : ℕ) : ℚ) = r / (b : ℚ) * (2 * b) := by
    push_cast
    field_simp
  have hdivisor : (b : ℚ) = 1 / 2 * (2 * b) := by ring
  calc compare (2 * r) b = cmp ((2 * r : ℕ) : ℚ) b := by
        rw [(Nat.strictMono_cast (α := ℚ)).cmp_map_eq, cmp_eq_compare]
    _ = cmp (r / (b : ℚ) * (2 * b)) (1 / 2 * (2 * b)) := by rw [htwice, ← hdivisor]
    _ = cmp (r / (b : ℚ)) (1 / 2) := cmp_mul_pos_right (by positivity) _ _
    _ = compare (r / (b : ℚ)) (1 / 2) := cmp_eq_compare _ _

/-- The remainder of a division tells where the quotient lies. -/
theorem ofQuotient (a : ℕ) {b : ℕ} (hb : 0 < b) :
    Located (ExtendedMantissa.ofMantissaAndAccuracy (a / b) (accuracyOfFraction (a % b) b))
      (a / b) := by
  have hpos : (0 : ℚ) < b := Nat.cast_pos.2 hb
  have hsum : (a : ℚ) = ((a / b : ℕ) : ℚ) * b + (a % b : ℕ) := by
    exact_mod_cast (Nat.div_add_mod' a b).symm
  have hquotient : (a / b : ℚ) = (a / b : ℕ) + (a % b : ℕ) / (b : ℚ) := by
    rw [hsum]
    field_simp
  rw [accuracyOfFraction]
  split
  next hzero =>
    rw [hquotient, hzero, Nat.cast_zero, zero_div, add_zero]
    exact .exact (a / b)
  next hzero =>
    have hrest : (0 : ℚ) < (a % b : ℕ) / (b : ℚ) := div_pos (Nat.cast_pos.2 (by omega)) hpos
    rw [hquotient, compare_two_mul _ hb]
    cases hcompare : compare ((a % b : ℕ) / (b : ℚ)) (1 / 2) with
    | lt =>
      have hlt := compare_lt_iff_lt.1 hcompare
      exact .lower (by linarith) (by linarith)
    | eq =>
      rw [compare_eq_iff_eq.1 hcompare]
      exact .middle (a / b)
    | gt =>
      have hgt := compare_gt_iff_gt.1 hcompare
      have hone : ((a % b : ℕ) / (b : ℚ)) < 1 :=
        (div_lt_one hpos).2 (Nat.cast_lt.2 (Nat.mod_lt a hb))
      exact .upper (by linarith) (by linarith)

end Located

/-! ### Shifting to the exponent of a double -/

variable {m : ℕ} {e : ℤ} {accuracy : Accuracy} {q : ℚ}

/-- A mantissa and an accuracy tell where a number lies, in units of the last place. -/
def LocatedAt (m : ℕ) (e : ℤ) (accuracy : Accuracy) (q : ℚ) : Prop :=
  Located (ExtendedMantissa.ofMantissaAndAccuracy m accuracy) (q / 2 ^ e)

theorem binary64_targetExponent (total : ℤ) :
    Format.binary64.targetExponent total = max (total - 53) (-1074) := by
  simp [Format.targetExponent, Format.mantissaBits, Format.minExponent]

theorem targetExponent_eq : Format.binary64.targetExponent (totalExponent m e) =
    max (m.log2 + e - 52) (-1074) := by
  rw [binary64_targetExponent, totalExponent]
  congr 1
  omega

theorem LocatedAt.shiftToTargetExponent (h : LocatedAt m e accuracy q) {target : ℤ}
    (htarget : Format.binary64.targetExponent (totalExponent m e) = target) (he : e ≤ target) :
    ∃ em, UnpackedFloat.shiftToTargetExponent .binary64 m e accuracy = (em, target) ∧
      Located em (q / 2 ^ target) := by
  obtain ⟨n, rfl⟩ : ∃ n : ℕ, target = e + n := ⟨(target - e).toNat, by omega⟩
  have hshift : (e + n - e).toNat = n := by omega
  have hlocated := h.shiftRight n
  rw [div_div, ← zpow_natCast, ← zpow_add₀ two_ne_zero] at hlocated
  refine ⟨_, ?_, hlocated⟩
  simp only [UnpackedFloat.shiftToTargetExponent, htarget, shiftToExponent, hshift]

theorem mantissa_ofMantissaAndAccuracy :
    (ExtendedMantissa.ofMantissaAndAccuracy m accuracy).mantissa = m := by
  obtain _ | _ | _ | _ := accuracy <;> rfl

theorem LocatedAt.lt (h : LocatedAt m e accuracy q) : q < 2 ^ (m.log2 + e + 1) := by
  have hlog : ((m + 1 : ℕ) : ℚ) ≤ 2 ^ (m.log2 + 1) := by exact_mod_cast Nat.lt_log2_self (n := m)
  have hlt := h.lt_mantissa_add_one
  rw [mantissa_ofMantissaAndAccuracy, div_lt_iff₀ (by positivity)] at hlt
  calc q < (m + 1) * 2 ^ e := hlt
    _ ≤ 2 ^ (m.log2 + 1) * 2 ^ e := by gcongr; exact_mod_cast hlog
    _ = 2 ^ (m.log2 + e + 1) := by
      rw [← zpow_natCast, ← zpow_add₀ two_ne_zero]
      congr 1
      push_cast
      ring

theorem LocatedAt.le (h : LocatedAt m e accuracy q) (hm : m ≠ 0) : 2 ^ (m.log2 + e) ≤ q := by
  have hlog : (2 ^ m.log2 : ℚ) ≤ m := by exact_mod_cast Nat.log2_self_le hm
  have hle := h.mantissa_le
  rw [mantissa_ofMantissaAndAccuracy, le_div_iff₀ (by positivity)] at hle
  calc (2 : ℚ) ^ (m.log2 + e) = 2 ^ m.log2 * 2 ^ e := by
        rw [zpow_add₀ two_ne_zero, zpow_natCast]
    _ ≤ m * 2 ^ e := by gcongr
    _ ≤ q := hle

/-- The last place of a double at this place has the exponent `target`. -/
theorem LocatedAt.targetExponent_eq (h : LocatedAt m e accuracy q)
    (he : e ≤ Format.binary64.targetExponent (totalExponent m e)) {target : ℤ}
    (hleast : -1074 ≤ target) (hhigh : q < 2 ^ (target + 53))
    (hlow : 2 ^ (target + 52) ≤ q ∨ target = -1074) :
    Format.binary64.targetExponent (totalExponent m e) = target := by
  rw [Decimal.targetExponent_eq] at he ⊢
  have habove : (m.log2 : ℤ) + e - 52 ≤ target := by
    by_cases hm : m = 0
    · simp only [hm, Nat.log2_zero] at he ⊢
      omega
    · have hlt := (zpow_lt_zpow_iff_right₀ one_lt_two).1 ((h.le hm).trans_lt hhigh)
      omega
  obtain hlow | rfl := hlow
  · have hlt := (zpow_lt_zpow_iff_right₀ one_lt_two).1 (hlow.trans_lt h.lt)
    omega
  · omega

/-! ### Rounding to the exponent of a double -/

/-- What the magnitude of a double other than zero is like: the mantissa is full unless the exponent
is the least, and the gap below is half the gap above at the powers of two. -/
structure Binary.Canonical (x : Binary) : Prop where
  pos : 0 < x.mantissa
  lt : x.mantissa < 2 ^ 53
  le_exponent : -1074 ≤ x.exponent
  exponent_le : x.exponent ≤ 971
  full : 2 ^ 52 ≤ x.mantissa ∨ x.exponent = -1074
  narrow : x.narrowBelow = true ↔ x.mantissa = 2 ^ 52 ∧ x.exponent ≠ -1074

variable {x : Binary}

/-- What is near a double is not tiny. -/
theorem Binary.Canonical.le_of_near (hx : x.Canonical) (hnear : x.Near q) :
    2 ^ (-1075 : ℤ) ≤ q := by
  have hone : (1 : ℚ) ≤ x.mantissa := by exact_mod_cast hx.pos
  have hunit : (2 : ℚ) ^ (-1074 : ℤ) ≤ 2 ^ x.exponent :=
    zpow_le_zpow_right₀ one_le_two hx.le_exponent
  have hgap : (1 / 2 : ℚ) ≤ x.mantissa - if x.narrowBelow then 1 / 4 else 1 / 2 := by
    split <;> linarith
  calc (2 : ℚ) ^ (-1075 : ℤ) = 1 / 2 * 2 ^ (-1074 : ℤ) := by
        rw [show (-1075 : ℤ) = -1074 - 1 by norm_num, zpow_sub_one₀ two_ne_zero]
        ring
    _ ≤ x.low := mul_le_mul hgap hunit (by positivity) (by linarith)
    _ ≤ q := hnear.low_le

/-- What is near a double is not huge. -/
theorem Binary.Canonical.lt_of_near (hx : x.Canonical) (hnear : x.Near q) : q < 2 ^ (1024 : ℤ) := by
  have hlt : (x.mantissa : ℚ) + 1 ≤ 2 ^ 53 := by exact_mod_cast hx.lt
  have hunit : (2 : ℚ) ^ x.exponent ≤ 2 ^ (971 : ℤ) :=
    zpow_le_zpow_right₀ one_le_two hx.exponent_le
  calc q ≤ (x.mantissa + 1 / 2) * 2 ^ x.exponent := hnear.le_high
    _ < 2 ^ 53 * 2 ^ x.exponent := by gcongr; linarith
    _ ≤ 2 ^ 53 * 2 ^ (971 : ℤ) := by gcongr
    _ = 2 ^ (1024 : ℤ) := by
        rw [← zpow_natCast, ← zpow_add₀ two_ne_zero]
        rfl

theorem Binary.Canonical.targetExponent (hx : x.Canonical) :
    max ((x.mantissa.log2 : ℤ) + x.exponent - 52) (-1074) = x.exponent := by
  have hlog : x.mantissa.log2 < 53 := (Nat.log2_lt hx.pos.ne').2 hx.lt
  have hexponent := hx.le_exponent
  obtain hfull | hleast := hx.full
  · have hlog' : 52 ≤ x.mantissa.log2 := (Nat.le_log2 hx.pos.ne').2 hfull
    omega
  · omega

theorem log2_mul_two_pow (hm : m ≠ 0) (k : ℕ) : (m * 2 ^ k).log2 = m.log2 + k := by
  have hlow : 2 ^ m.log2 ≤ m := Nat.log2_self_le hm
  have hhigh : m < 2 ^ (m.log2 + 1) := Nat.lt_log2_self
  rw [Nat.log2_eq_iff (Nat.mul_ne_zero hm (Nat.two_pow_pos k).ne'), pow_add, Nat.add_right_comm,
    pow_add]
  exact ⟨Nat.mul_le_mul_right _ hlow, Nat.mul_lt_mul_of_pos_right hhigh (Nat.two_pow_pos k)⟩

/-- Shifting a multiple of the mantissa makes it the mantissa again. -/
theorem shiftToTargetExponent_eq (hx : x.Canonical) (k : ℕ) :
    ∃ em, shiftToTargetExponent .binary64 (x.mantissa * 2 ^ k) (x.exponent - k) .exact =
      (em, x.exponent) ∧ em.mantissa = x.mantissa := by
  have hlog := log2_mul_two_pow hx.pos.ne' k
  have hvalue : (x.mantissa * 2 ^ k : ℕ) = x.value / 2 ^ (x.exponent - k) := by
    rw [Binary.value, zpow_sub₀ two_ne_zero, zpow_natCast]
    push_cast
    field_simp
  have hlocated : LocatedAt (x.mantissa * 2 ^ k) (x.exponent - k) .exact x.value := by
    rw [LocatedAt, ← hvalue]
    exact .ofMantissa _
  have htarget : Format.binary64.targetExponent
      (totalExponent (x.mantissa * 2 ^ k) (x.exponent - k)) = x.exponent := by
    have hcanonical := hx.targetExponent
    rw [targetExponent_eq, hlog]
    push_cast
    rwa [show (x.mantissa.log2 + k + (x.exponent - k) : ℤ) = x.mantissa.log2 + x.exponent by ring]
  obtain ⟨em, hshift, hmantissa⟩ := hlocated.shiftToTargetExponent htarget (by omega)
  rw [Binary.value, mul_div_cancel_right₀ _ (by positivity)] at hmantissa
  exact ⟨em, hshift, hmantissa.mantissa_eq⟩

/-- A number that is at most half a unit away is rounded there, strictly less if the result is odd.
-/
theorem Located.roundedMantissa_eq_of_le {em : ExtendedMantissa} {target : ℤ}
    (h : Located em (q / 2 ^ target)) {m : ℕ} (hlow : (m - 1 / 2) * 2 ^ target ≤ q)
    (hhigh : q ≤ (m + 1 / 2) * 2 ^ target)
    (hodd : m % 2 = 1 → (m - 1 / 2) * 2 ^ target < q ∧ q < (m + 1 / 2) * 2 ^ target) :
    em.roundedMantissa = m := by
  have hunit : (0 : ℚ) < 2 ^ target := by positivity
  exact h.roundedMantissa_eq ((le_div_iff₀ hunit).2 hlow) ((div_le_iff₀ hunit).2 hhigh)
    fun hm ↦ ⟨(lt_div_iff₀ hunit).2 (hodd hm).1, (div_lt_iff₀ hunit).2 (hodd hm).2⟩

/-- A number is cut off `k` places below the last place of a double, and what is left of it is
rounded to the double. -/
def RoundsBelow (x : Binary) (q : ℚ) (target : ℤ) (k : ℕ) : Prop :=
  target = x.exponent - k ∧
    ∀ em, Located em (q / 2 ^ (x.exponent - k)) → em.roundedMantissa = x.mantissa * 2 ^ k

theorem two_zpow_add (e : ℤ) (n : ℕ) : (2 : ℚ) ^ (e + n) = 2 ^ n * 2 ^ e := by
  rw [zpow_add₀ two_ne_zero, zpow_natCast, mul_comm]

/-- Just below a power of two the last place is one further down, and the number rounds up to it. -/
theorem roundsBelow_one (hx : x.Canonical) (hnear : x.Near q) (hq : LocatedAt m e accuracy q)
    (he : e ≤ Format.binary64.targetExponent (totalExponent m e)) (hnarrow : x.narrowBelow = true)
    (hless : q < 2 ^ (x.exponent + (52 : ℕ))) :
    RoundsBelow x q (Format.binary64.targetExponent (totalExponent m e)) 1 := by
  have hunit : (0 : ℚ) < 2 ^ x.exponent := by positivity
  have hleast := hx.le_exponent
  obtain ⟨hmantissa, hexponent⟩ := hx.narrow.1 hnarrow
  have hhalf : (2 : ℚ) ^ (x.exponent - 1) = 2 ^ x.exponent / 2 := zpow_sub_one₀ two_ne_zero _
  have hlow := hnear.low_le
  rw [Binary.low, if_pos hnarrow, hmantissa] at hlow
  rw [two_zpow_add] at hless
  refine ⟨hq.targetExponent_eq he (by omega) ?_ (.inl ?_), fun em hem ↦ ?_⟩
  · rwa [show x.exponent - (1 : ℕ) + 53 = x.exponent + (52 : ℕ) by omega, two_zpow_add]
  · rw [show x.exponent - (1 : ℕ) + 52 = x.exponent + (51 : ℕ) by omega, two_zpow_add]
    push_cast at hlow
    linarith
  · rw [hmantissa]
    refine hem.roundedMantissa_eq_of_le ?_ ?_ (by norm_num)
    · push_cast at hlow ⊢
      linarith
    · push_cast
      linarith

/-- Everywhere else the two have the same last place. -/
theorem roundsBelow_zero (hx : x.Canonical) (hnear : x.Near q) (hq : LocatedAt m e accuracy q)
    (he : e ≤ Format.binary64.targetExponent (totalExponent m e))
    (hbelow : x.narrowBelow = true → 2 ^ (x.exponent + (52 : ℕ)) ≤ q) :
    RoundsBelow x q (Format.binary64.targetExponent (totalExponent m e)) 0 := by
  have hunit : (0 : ℚ) < 2 ^ x.exponent := by positivity
  have hleast := hx.le_exponent
  have hhalf : (x.mantissa - 1 / 2) * 2 ^ x.exponent ≤ x.low := by
    refine mul_le_mul_of_nonneg_right ?_ hunit.le
    split <;> linarith
  refine ⟨hq.targetExponent_eq he (by omega) ?_ ?_, fun em hem ↦ ?_⟩
  · have hlt : (x.mantissa : ℚ) + 1 ≤ 2 ^ 53 := by exact_mod_cast hx.lt
    rw [show x.exponent - (0 : ℕ) + 53 = x.exponent + (53 : ℕ) by omega, two_zpow_add]
    exact hnear.le_high.trans_lt (mul_lt_mul_of_pos_right (by linarith) hunit)
  · rw [Nat.cast_zero, sub_zero]
    refine or_iff_not_imp_right.2 fun hexponent ↦ ?_
    by_cases hnarrow : x.narrowBelow = true
    · exact hbelow hnarrow
    · have hfull := hx.full.resolve_right hexponent
      have hne : x.mantissa ≠ 2 ^ 52 := fun hpow ↦ hnarrow (hx.narrow.2 ⟨hpow, hexponent⟩)
      have hge : (2 : ℚ) ^ 52 + 1 ≤ x.mantissa := by
        exact_mod_cast Nat.lt_of_le_of_ne hfull hne.symm
      calc (2 : ℚ) ^ (x.exponent + 52) = 2 ^ 52 * 2 ^ x.exponent := two_zpow_add _ 52
        _ ≤ (x.mantissa - 1 / 2) * 2 ^ x.exponent := by gcongr; linarith
        _ ≤ q := hhalf.trans hnear.low_le
  · rw [pow_zero, mul_one]
    rw [Nat.cast_zero, sub_zero] at hem
    exact hem.roundedMantissa_eq_of_le (hhalf.trans hnear.low_le) hnear.le_high
      fun hm ↦ ⟨hhalf.trans_lt (hnear.strict hm).1, (hnear.strict hm).2⟩

theorem exists_roundsBelow (hx : x.Canonical) (hnear : x.Near q) (hq : LocatedAt m e accuracy q)
    (he : e ≤ Format.binary64.targetExponent (totalExponent m e)) :
    ∃ k, RoundsBelow x q (Format.binary64.targetExponent (totalExponent m e)) k := by
  by_cases hbelow : x.narrowBelow = true ∧ q < 2 ^ (x.exponent + (52 : ℕ))
  · exact ⟨1, roundsBelow_one hx hnear hq he hbelow.1 hbelow.2⟩
  · exact ⟨0, roundsBelow_zero hx hnear hq he fun hnarrow ↦
      not_lt.1 fun hless ↦ hbelow ⟨hnarrow, hless⟩⟩

/-- **A number near a double** is rounded to it, as long as what has been worked out of the number
does not end in front of the last place of the double. -/
theorem roundWithAccuracy_eq_of_near (hx : x.Canonical) (hnear : x.Near q)
    (hq : LocatedAt m e accuracy q)
    (he : e ≤ Format.binary64.targetExponent (totalExponent m e)) (sign : Sign) :
    roundWithAccuracy .binary64 sign m e accuracy = .finite sign x.mantissa x.exponent hx.pos := by
  obtain ⟨k, htarget, hround⟩ := exists_roundsBelow hx hnear hq he
  obtain ⟨em, hfirst, hlocated⟩ := hq.shiftToTargetExponent htarget (htarget ▸ he)
  obtain ⟨em', hsecond, hmantissa⟩ := shiftToTargetExponent_eq hx k
  simp only [roundWithAccuracy, hfirst, hround em hlocated, hsecond, hmantissa, hx.pos.ne',
    ↓reduceDIte]

/-! ### Conversions, products and quotients -/

/-- **A number with finitely many bits near a double** is converted to it. -/
theorem round_eq_of_near (hx : x.Canonical) (hm : m ≠ 0) (hnear : x.Near (m * 2 ^ e))
    (sign : Sign) :
    UnpackedFloat.round .binary64 sign m e = .finite sign x.mantissa x.exponent hx.pos := by
  rw [UnpackedFloat.round, decreaseExponent]
  generalize hn : (e - Format.binary64.targetExponent (totalExponent m e)).toNat = n
  have hlog : (m <<< n).log2 = m.log2 + n := by rw [Nat.shiftLeft_eq, log2_mul_two_pow hm]
  have hvalue : (m * 2 ^ e : ℚ) / 2 ^ (e - n) = (m <<< n : ℕ) := by
    rw [zpow_sub₀ two_ne_zero, zpow_natCast, Nat.shiftLeft_eq]
    push_cast
    field_simp
  have hlocated : LocatedAt (m <<< n) (e - n) .exact (m * 2 ^ e) := by
    rw [LocatedAt, hvalue]
    exact .ofMantissa _
  refine roundWithAccuracy_eq_of_near hx hnear hlocated ?_ sign
  rw [targetExponent_eq] at hn ⊢
  omega

/-- **A product near a double** is that double, if the first factor has a full mantissa. -/
theorem mul_eq_of_near (hx : x.Canonical) {m₁ m₂ : ℕ} {e₁ e₂ : ℤ} (h₁ : 0 < m₁) (h₂ : 0 < m₂)
    (hnear : x.Near (m₁ * 2 ^ e₁ * (m₂ * 2 ^ e₂))) (hfull : 2 ^ 52 ≤ m₁) :
    mul .binary64 (.finite .positive m₁ e₁ h₁) (.finite .positive m₂ e₂ h₂) =
      .finite .positive x.mantissa x.exponent hx.pos := by
  have hvalue : (m₁ * 2 ^ e₁ * (m₂ * 2 ^ e₂) : ℚ) / 2 ^ (e₁ + e₂) = (m₁ * m₂ : ℕ) := by
    rw [zpow_add₀ two_ne_zero]
    push_cast
    field_simp
  have hlocated : LocatedAt (m₁ * m₂) (e₁ + e₂) .exact (m₁ * 2 ^ e₁ * (m₂ * 2 ^ e₂)) := by
    rw [LocatedAt, hvalue]
    exact .ofMantissa _
  have hlog : 52 ≤ (m₁ * m₂).log2 :=
    (Nat.le_log2 (Nat.mul_pos h₁ h₂).ne').2 (hfull.trans (Nat.le_mul_of_pos_right m₁ h₂))
  refine roundWithAccuracy_eq_of_near hx hnear hlocated ?_ .positive
  rw [targetExponent_eq]
  omega

/-- The exact quotient lies where the division of the mantissas tells. -/
theorem locatedAt_divCore (m₁ : ℕ) (e₁ e₂ : ℤ) {m₂ : ℕ} (h₂ : 0 < m₂) :
    LocatedAt (divCore .binary64 m₁ e₁ m₂ e₂).1 (divCore .binary64 m₁ e₁ m₂ e₂).2.1
      (divCore .binary64 m₁ e₁ m₂ e₂).2.2 (m₁ * 2 ^ e₁ / (m₂ * 2 ^ e₂)) := by
  simp only [divCore, LocatedAt]
  generalize hfirst : min (e₁ - e₂) _ = first
  obtain ⟨n, hn⟩ : ∃ n : ℕ, e₁ - e₂ = first + n := ⟨(e₁ - e₂ - first).toNat, by omega⟩
  have hshift : (e₁ - e₂ - first).toNat = n := by omega
  have hvalue : (m₁ * 2 ^ e₁ / (m₂ * 2 ^ e₂) : ℚ) / 2 ^ first = (m₁ <<< n : ℕ) / m₂ := by
    have hexponent : e₁ = n + e₂ + first := by omega
    rw [Nat.shiftLeft_eq, hexponent, zpow_add₀ two_ne_zero, zpow_add₀ two_ne_zero, zpow_natCast]
    push_cast
    field_simp
  rw [hshift, hvalue]
  exact .ofQuotient _ h₂

/-- **A quotient near a double** is that double. -/
theorem div_eq_of_near (hx : x.Canonical) {m₁ m₂ : ℕ} {e₁ e₂ : ℤ} (h₁ : 0 < m₁) (h₂ : 0 < m₂)
    (hnear : x.Near (m₁ * 2 ^ e₁ / (m₂ * 2 ^ e₂))) :
    div .binary64 (.finite .positive m₁ e₁ h₁) (.finite .positive m₂ e₂ h₂) =
      .finite .positive x.mantissa x.exponent hx.pos := by
  have hlocated := locatedAt_divCore m₁ e₁ e₂ h₂
  refine roundWithAccuracy_eq_of_near hx hnear hlocated ?_ .positive
  have hless : (2 : ℚ) ^ (m₁.log2 + e₁ - (m₂.log2 + 1 + e₂)) < m₁ * 2 ^ e₁ / (m₂ * 2 ^ e₂) := by
    have hfirst : (2 : ℚ) ^ m₁.log2 ≤ m₁ := by exact_mod_cast Nat.log2_self_le h₁.ne'
    have hsecond : (m₂ : ℚ) < 2 ^ (m₂.log2 + 1) := by exact_mod_cast Nat.lt_log2_self (n := m₂)
    have hpos₁ : (0 : ℚ) < m₁ := Nat.cast_pos.2 h₁
    have hpos₂ : (0 : ℚ) < m₂ := Nat.cast_pos.2 h₂
    calc (2 : ℚ) ^ (m₁.log2 + e₁ - (m₂.log2 + 1 + e₂))
        = 2 ^ m₁.log2 * 2 ^ e₁ / (2 ^ (m₂.log2 + 1) * 2 ^ e₂) := by
          rw [zpow_sub₀ two_ne_zero, zpow_add₀ two_ne_zero, zpow_add₀ two_ne_zero, zpow_natCast,
            ← Nat.cast_add_one, zpow_natCast]
      _ ≤ m₁ * 2 ^ e₁ / (2 ^ (m₂.log2 + 1) * 2 ^ e₂) := by gcongr
      _ < m₁ * 2 ^ e₁ / (m₂ * 2 ^ e₂) := by gcongr
  have hbits := (zpow_lt_zpow_iff_right₀ one_lt_two).1 (hless.trans hlocated.lt)
  have hfirst : (divCore .binary64 m₁ e₁ m₂ e₂).2.1 =
      min (e₁ - e₂) (max (m₁.log2 + 1 + e₁ - (m₂.log2 + 1 + e₂) - 53) (-1074)) := by
    simp only [divCore, binary64_targetExponent, totalExponent]
  rw [targetExponent_eq]
  omega

end CueFlow.Decimal
