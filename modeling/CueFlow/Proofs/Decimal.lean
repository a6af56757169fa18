import CueFlow.Character
import CueFlow.Decimal.Layout
import Mathlib.Data.List.Basic
import Mathlib.Tactic.SplitIfs
/-!
# The digits of decimals

Digits spell the number that they were made of (`natInBase_digitChars`), and do not begin with a
zero unless they spell zero (`head?_digitChars_ne`). Digits like that may stand before a point
(`Decimal.IsWhole`). The shortest decimal of a value that is not zero has digits that are not zero
(`Decimal.Binary.digits_shortest_ne_zero`), and so both parts of what a layout writes are digits,
and those before the point may stand there (`Decimal.Layout.isWhole_write`,
`Decimal.Layout.isDigits_fraction_write`).
-/

namespace CueFlow

/-! ### Digits -/

/-- All of these are decimal digits. -/
def IsDigits (cs : List Char) : Prop := ∀ c ∈ cs, isDigit c = true

theorem isDigits_append {cs ds : List Char} :
    IsDigits (cs ++ ds) ↔ IsDigits cs ∧ IsDigits ds :=
  List.forall_mem_append

theorem isDigits_replicate_zero (n : Nat) : IsDigits (List.replicate n '0') := by
  intro c hc
  obtain rfl := List.eq_of_mem_replicate hc
  rfl

/-- A decimal digit has the value by which it comes after zero. -/
theorem hexValue?_of_isDigit {c : Char} (h : isDigit c = true) :
    hexValue? c = some (c.toNat - '0'.toNat) :=
  if_pos h

/-- Decimal digits spell in any base what they spell for the library. -/
theorem natInBase_eq_ofDigitChars {cs : List Char} (h : IsDigits cs) (base : Nat) :
    natInBase base cs = Nat.ofDigitChars base cs 0 :=
  List.foldl_ext _ _ _ fun n c hc ↦ by rw [hexValue?_of_isDigit (h c hc), Option.getD_some]

namespace Decimal

/-- A natural number is written in decimal digits. -/
theorem isDigits_digitChars (n : Nat) : IsDigits (digitChars n) :=
  fun _ hc ↦ Nat.isDigit_of_mem_toDigits (by decide) (by decide) hc

/-- **Digits spell the number they were made of.** -/
theorem natInBase_digitChars (n : Nat) : natInBase 10 (digitChars n) = n := by
  rw [natInBase_eq_ofDigitChars (isDigits_digitChars n)]
  exact Nat.ofDigitChars_ten_toDigits

/-- The digits of a number other than zero do not begin with a zero. -/
theorem head?_digitChars_ne {n : Nat} (hn : n ≠ 0) : (digitChars n).head? ≠ some '0' := by
  rw [digitChars]
  induction n using Nat.base_induction 10 (by decide) with
  | single m hm => simpa [Nat.toDigits_of_lt_base hm] using hn
  | digit m k hk hm ih =>
    rw [← Nat.toDigits_append_toDigits (by decide) hm hk, List.head?_append_of_ne_nil _
      Nat.toDigits_ne_nil]
    exact ih (Nat.ne_of_gt hm)

/-- Digits that may stand before a point: at least one, and none after a leading zero. -/
structure IsWhole (cs : List Char) : Prop where
  ne_nil : cs ≠ []
  digits : IsDigits cs
  eq_zero : cs.head? = some '0' → cs = ['0']

theorem isWhole_zero : IsWhole ['0'] :=
  ⟨by simp, by simp [IsDigits, isDigit], fun _ ↦ rfl⟩

/-- The beginning of digits without leading zero may stand before a point. -/
theorem isWhole_of_head? {cs ds : List Char} (hdigits : IsDigits (cs ++ ds)) (hne : cs ≠ [])
    (hhead : (cs ++ ds).head? ≠ some '0') : IsWhole cs := by
  refine ⟨hne, (isDigits_append.1 hdigits).1, fun hzero ↦ absurd ?_ hhead⟩
  rw [List.head?_append_of_ne_nil _ hne]
  exact hzero

/-- The digits of a natural number can stand in front of a point. -/
theorem isWhole_digitChars (n : Nat) : IsWhole (digitChars n) := by
  by_cases hn : n = 0
  · subst hn
    exact isWhole_zero
  · refine ⟨Nat.toDigits_ne_nil, isDigits_digitChars n, fun hzero ↦ ?_⟩
    exact absurd hzero (head?_digitChars_ne hn)

/-! ### The shortest decimal -/

/-- To move trailing zeros into the exponent does not make a number zero. -/
theorem digits_strip_ne_zero {d : Scaled} (hd : d.digits ≠ 0) (fuel : Nat) :
    (d.strip fuel).digits ≠ 0 := by
  induction fuel generalizing d with
  | zero => exact hd
  | succ fuel ih =>
    rw [Scaled.strip]
    split
    next htrailing =>
      refine ih (d := ⟨d.digits / 10, d.exponent + 1⟩) ?_
      show d.digits / 10 ≠ 0
      omega
    next => exact hd

namespace Binary

variable {x : Binary}

theorem twoTo_pos (k : Int) : 0 < twoTo k := Nat.pow_pos (by decide)

theorem tenTo_pos (k : Int) : 0 < tenTo k := Nat.pow_pos (by decide)

/-- Zero lies below all other values. -/
theorem compareScaled_zero {b : Nat} (hb : 0 < b) (i j : Int) :
    compareScaled 0 i b j = .lt := by
  have hpos : 0 < b * twoTo j * tenTo (-i) :=
    Nat.mul_pos (Nat.mul_pos hb (twoTo_pos j)) (tenTo_pos (-i))
  rw [compareScaled, Nat.zero_mul, Nat.zero_mul]
  exact Nat.compare_eq_lt.2 hpos

/-- What reads back as something that is not zero is not zero. -/
theorem digits_ne_zero_of_readsBack (hx : x.mantissa ≠ 0) {d : Scaled}
    (h : x.readsBack d = true) : d.digits ≠ 0 := by
  intro hzero
  have hbelow : 0 < if x.narrowBelow then 4 * x.mantissa - 1 else 4 * x.mantissa - 2 := by
    split <;> omega
  rw [readsBack, hzero, compareScaled_zero hbelow] at h
  simp at h

/-- A decimal on a grid that reads back to a number other than zero is not zero. -/
theorem digits_ne_zero_of_hitOn (hx : x.mantissa ≠ 0) {tie : Tie} {k : Int} {d : Scaled}
    (h : x.hitOn tie k = some d) : d.digits ≠ 0 := by
  have hhigh : (⟨x.floorOn k + 1, k⟩ : Scaled).digits ≠ 0 := Nat.succ_ne_zero _
  have hlow : x.readsBack ⟨x.floorOn k, k⟩ = true → (⟨x.floorOn k, k⟩ : Scaled).digits ≠ 0 :=
    digits_ne_zero_of_readsBack hx
  rw [hitOn] at h
  -- A hit is the upper neighbour, or the lower one after it has read back.
  split at h
  next => cases h
  next hreads _ => exact Option.some.inj h ▸ hlow hreads
  next => exact Option.some.inj h ▸ hhigh
  next hreads _ =>
    split at h
    · exact Option.some.inj h ▸ hlow hreads
    · exact Option.some.inj h ▸ hhigh
    · split at h
      · exact Option.some.inj h ▸ hhigh
      · exact Option.some.inj h ▸ hlow hreads

/-- The exact decimal of a number other than zero is not zero. -/
theorem digits_exact_ne_zero (hx : x.mantissa ≠ 0) : x.exact.digits ≠ 0 := by
  have hpow : twoTo (-x.exponent) ≤ tenTo (-x.exponent) :=
    Nat.pow_le_pow_left (by decide) _
  have hle : tenTo (-x.exponent) ≤ x.mantissa * twoTo x.exponent * tenTo (-x.exponent) :=
    Nat.le_mul_of_pos_left _ (Nat.mul_pos (Nat.pos_of_ne_zero hx) (twoTo_pos _))
  exact Nat.ne_of_gt (Nat.div_pos (Nat.le_trans hpow hle) (twoTo_pos _))

/-- The shortest decimal of a number other than zero is not zero. -/
theorem digits_shortest_ne_zero (hx : x.mantissa ≠ 0) (tie : Tie) :
    (x.shortest tie).digits ≠ 0 := by
  refine digits_strip_ne_zero ?_ 400
  cases hhit : (List.range gridCount).findSome?
      fun i ↦ x.hitOn tie (x.ceilingExponent - Int.ofNat i) with
  | none => exact digits_exact_ne_zero hx
  | some d =>
    obtain ⟨i, -, hi⟩ := List.exists_of_findSome?_eq_some hhit
    exact digits_ne_zero_of_hitOn hx hi

end Binary

/-! ### What a layout writes -/

namespace Layout

/-- What a positional layout puts in front of the point can stand there. -/
theorem isWhole_positionalParts {n : Nat} (hn : n ≠ 0) (exponent : Int) :
    IsWhole (positionalParts (digitChars n) exponent).1 := by
  have hdigits := isDigits_digitChars n
  have hhead := head?_digitChars_ne hn
  have hne : digitChars n ≠ [] := Nat.toDigits_ne_nil
  rw [positionalParts]
  split
  · refine ⟨by simp [hne], isDigits_append.2 ⟨hdigits, isDigits_replicate_zero _⟩, fun hzero ↦ ?_⟩
    rw [List.head?_append_of_ne_nil _ hne] at hzero
    exact absurd hzero hhead
  · dsimp only
    split
    next hplaces =>
      have hsplit := List.take_append_drop
        ((digitChars n).length - (-exponent).toNat) (digitChars n)
      refine isWhole_of_head? (hsplit.symm ▸ hdigits) ?_ (hsplit.symm ▸ hhead)
      rw [Ne, List.take_eq_nil_iff]
      simp only [hne, or_false]
      omega
    next => exact isWhole_zero

/-- What a positional layout puts behind the point are digits. -/
theorem isDigits_positionalParts (n : Nat) (exponent : Int) :
    IsDigits (positionalParts (digitChars n) exponent).2 := by
  have hdigits := isDigits_digitChars n
  rw [positionalParts]
  split
  · exact List.forall_mem_nil _
  · dsimp only
    split
    · exact fun c hc ↦ hdigits c (List.mem_of_mem_drop hc)
    · exact isDigits_append.2 ⟨isDigits_replicate_zero _, hdigits⟩

variable (layout : Layout)

/-- A decimal is written positionally, with a zero after the point for want of any digits there, or
in scientific form. -/
theorem arrange_cases (negative : Bool) (d : Scaled) :
    (∃ fraction, (fraction = (positionalParts (digitChars d.digits) d.exponent).2 ∨
        fraction = ['0']) ∧
      layout.arrange negative d =
        ⟨negative, (positionalParts (digitChars d.digits) d.exponent).1, fraction, none⟩) ∨
    ∃ leading, layout.arrange negative d =
      ⟨negative, (digitChars d.digits).take 1, (digitChars d.digits).drop 1, some leading⟩ := by
  rw [arrange]
  split_ifs
  · refine .inl ⟨_, ?_, rfl⟩
    split
    · exact .inr rfl
    · exact .inl rfl
  · exact .inr ⟨_, rfl⟩

/-- Every layout of a number other than zero has a proper whole part. -/
theorem isWhole_arrange (negative : Bool) {d : Scaled} (hd : d.digits ≠ 0) :
    IsWhole (layout.arrange negative d).whole := by
  obtain ⟨fraction, -, heq⟩ | ⟨leading, heq⟩ := layout.arrange_cases negative d
  · rw [heq]
    exact isWhole_positionalParts hd d.exponent
  · have hsplit := List.take_append_drop 1 (digitChars d.digits)
    rw [heq]
    refine isWhole_of_head? (hsplit.symm ▸ isDigits_digitChars d.digits) ?_
      (hsplit.symm ▸ head?_digitChars_ne hd)
    simp [List.take_eq_nil_iff, digitChars]

/-- Every layout has nothing but digits behind the point. -/
theorem isDigits_fraction_arrange (negative : Bool) (d : Scaled) :
    IsDigits (layout.arrange negative d).fraction := by
  obtain ⟨fraction, rfl | rfl, heq⟩ | ⟨leading, heq⟩ := layout.arrange_cases negative d
  · rw [heq]
    exact isDigits_positionalParts d.digits d.exponent
  · rw [heq]
    exact isDigits_replicate_zero 1
  · rw [heq]
    exact fun c hc ↦ isDigits_digitChars d.digits c (List.mem_of_mem_drop hc)

/-- **What a layout writes before the point** may stand there. -/
theorem isWhole_write (x : Float) : IsWhole (layout.write x).whole := by
  rw [write]
  split
  · exact isWhole_zero
  next hmantissa =>
    exact layout.isWhole_arrange _ (Binary.digits_shortest_ne_zero hmantissa layout.tie)

/-- What a layout writes after the point are digits. -/
theorem isDigits_fraction_write (x : Float) : IsDigits (layout.write x).fraction := by
  rw [write]
  split
  · split
    · exact isDigits_replicate_zero 1
    · exact List.forall_mem_nil _
  · exact layout.isDigits_fraction_arrange _ _

end Layout

/-! ### Characters -/

/-- A character that may stand in the text of a number. -/
def IsNumeric (c : Char) : Prop := isDigit c = true ∨ c ∈ "-.NaNinf".toList

instance (c : Char) : Decidable (IsNumeric c) := inferInstanceAs (Decidable (_ ∨ _))

/-- The text of a number in positional form has nothing in it but digits, a point and a sign. -/
theorem isNumeric_of_mem_positionalText {w : Written} (hwhole : IsDigits w.whole)
    (hfraction : IsDigits w.fraction) {c : Char} (h : c ∈ w.positionalText.toList) :
    IsNumeric c := by
  rw [Written.positionalText, String.toList_ofList, List.mem_append, List.mem_append] at h
  obtain (h | h) | h := h
  · split at h
    · obtain rfl := List.mem_singleton.1 h
      decide
    · cases h
  · exact .inl (hwhole c h)
  · split at h
    · cases h
    · obtain rfl | h := List.mem_cons.1 h
      · decide
      · exact .inl (hfraction c h)

/-- The plain text of a double has numeric characters only, as the names of infinity and NaN do. -/
theorem isNumeric_of_mem_plainText {x : Float} {c : Char} (h : c ∈ (plainText x).toList) :
    IsNumeric c := by
  rw [plainText] at h
  split_ifs at h
  · exact .inr ((by decide : "NaN".toList ⊆ "-.NaNinf".toList) h)
  · exact .inr ((by decide : "-inf".toList ⊆ "-.NaNinf".toList) h)
  · exact .inr ((by decide : "inf".toList ⊆ "-.NaNinf".toList) h)
  · exact isNumeric_of_mem_positionalText (plainLayout.isWhole_write x).digits
      (plainLayout.isDigits_fraction_write x) h

/-- The text of an integer has numeric characters only. -/
theorem isNumeric_of_mem_toString {n : Int} {c : Char} (h : c ∈ (toString n).toList) :
    IsNumeric c := by
  rw [Int.toString_eq_repr, Int.repr_eq_if] at h
  split at h
  · rw [Nat.toList_repr] at h
    exact .inl (isDigits_digitChars _ c h)
  · rw [String.toList_append, Nat.toList_repr] at h
    obtain h | h := List.mem_append.1 h
    · obtain rfl := List.mem_singleton.1 h
      decide
    · exact .inl (isDigits_digitChars _ c h)

end Decimal

end CueFlow
