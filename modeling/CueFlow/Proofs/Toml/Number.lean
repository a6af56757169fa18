import CueFlow.Proofs.Decimal.Nearest
import CueFlow.Toml.Moment
import CueFlow.Toml.Printer
/-!
# Numbers of TOML texts

What is written of a natural number is read as that number (`readInteger_digits`), and what is
written of a number greater than zero as that number (`readFloat_floatText`): the decimal that is
written is near the double, and of a decimal near a double the double is read. Neither is taken for
a date or a time, nor an integer for a float.
-/

namespace CueFlow.Toml

/-! ### Digits -/

/-- What stands behind a value if anything does: a line break, a comma or a bracket. -/
def EndsValue (rest : List Char) : Prop := ∀ c ∈ rest.head?, c ∈ ['\n', ',', ']']

/-- What does not go on with digits, nor with the other parts of a date or a time. -/
def EndsDigits (rest : List Char) : Prop :=
  ∀ c ∈ rest.head?, isDigit c = false ∧ c ≠ '_' ∧ c ≠ '-' ∧ c ≠ ':'

theorem EndsValue.cases {rest : List Char} (h : EndsValue rest) :
    rest = [] ∨ ∃ cs, rest = '\n' :: cs ∨ rest = ',' :: cs ∨ rest = ']' :: cs := by
  cases rest with
  | nil => exact .inl rfl
  | cons c cs =>
    obtain rfl | rfl | rfl : c = '\n' ∨ c = ',' ∨ c = ']' := by simpa using h c rfl
    · exact .inr ⟨cs, .inl rfl⟩
    · exact .inr ⟨cs, .inr (.inl rfl)⟩
    · exact .inr ⟨cs, .inr (.inr rfl)⟩

theorem EndsValue.endsDigits {rest : List Char} (h : EndsValue rest) : EndsDigits rest := by
  intro c hc
  obtain rfl | rfl | rfl : c = '\n' ∨ c = ',' ∨ c = ']' := by simpa using h c hc
  all_goals decide

theorem endsDigits_point {cs : List Char} : EndsDigits ('.' :: cs) := by
  rintro c hc
  obtain rfl : '.' = c := Option.some.inj hc
  decide

theorem moreDigits_append {digits rest : List Char} (hdigits : IsDigits digits)
    (hrest : EndsDigits rest) : moreDigits isDigit (digits ++ rest) = (digits, rest) := by
  induction digits with
  | nil =>
    rw [List.nil_append, moreDigits.eq_def]
    split
    next => rfl
    next => exact absurd rfl (hrest '_' rfl).2.1
    next c cs _ => rw [if_neg (by simp [(hrest c rfl).1])]
  | cons c digits ih =>
    obtain ⟨hdigit, hdigits⟩ := List.forall_mem_cons.1 hdigits
    rw [List.cons_append, moreDigits.eq_def]
    split
    next heq => cases heq
    next heq =>
      obtain ⟨rfl, -⟩ := List.cons.inj heq
      cases hdigit
    next heq =>
      obtain ⟨rfl, rfl⟩ := List.cons.inj heq
      rw [if_pos hdigit, ih hdigits]

theorem readDigits_append {digits rest : List Char} (hdigits : IsDigits digits)
    (hne : digits ≠ []) (hrest : EndsDigits rest) :
    readDigits isDigit (digits ++ rest) = some (digits, rest) := by
  cases digits with
  | nil => exact absurd rfl hne
  | cons c digits =>
    obtain ⟨hdigit, hdigits⟩ := List.forall_mem_cons.1 hdigits
    rw [List.cons_append, readDigits, if_pos hdigit, moreDigits_append hdigits hrest]

theorem readWhole_append {whole rest : List Char} (hwhole : Decimal.IsWhole whole)
    (hrest : EndsDigits rest) : readWhole (whole ++ rest) = some (whole, rest) := by
  rw [readWhole.eq_def]
  split
  next cs heq =>
    obtain ⟨c, digits, rfl⟩ := List.exists_cons_of_ne_nil hwhole.ne_nil
    obtain ⟨rfl, rfl⟩ := List.cons.inj heq
    obtain ⟨-, rfl⟩ := List.cons.inj (hwhole.eq_zero rfl)
    rfl
  next => exact readDigits_append hwhole.digits hwhole.ne_nil hrest

/-! ### Neither dates nor times -/

theorem readCount_append {count low high n : ℕ} {digits rest rest' : List Char}
    (hrest : EndsDigits rest)
    (h : readCount count low high (digits ++ rest) = some (n, rest')) :
    rest' = digits.drop count ++ rest := by
  rw [readCount] at h
  split at h
  next hread =>
    obtain ⟨-, rfl⟩ := Prod.mk.inj (Option.some.inj h)
    obtain ⟨hlength, hall, -⟩ := hread
    obtain hlt | hle := Nat.lt_or_ge digits.length count
    · -- Otherwise the first character behind the digits would have been read as a digit.
      obtain ⟨more, rfl⟩ := Nat.exists_eq_add_of_lt hlt
      cases rest with
      | nil =>
        rw [List.append_nil, List.length_take] at hlength
        omega
      | cons c rest =>
        have hmem : c ∈ (digits ++ c :: rest).take (digits.length + more + 1) := by
          rw [Nat.add_assoc, List.take_length_add_append, List.take_succ_cons]
          simp
        rw [List.all_eq_true] at hall
        exact absurd (hall c hmem) (by simp [(hrest c rfl).1])
    · rw [List.drop_append_of_le_length hle]
  next => cases h

theorem after?_append {c : Char} (hc : c = '-' ∨ c = ':') {digits rest : List Char}
    (hdigits : IsDigits digits) (hrest : EndsDigits rest) : after? c (digits ++ rest) = none := by
  have hne : ∀ d ∈ (digits ++ rest).head?, d ≠ c := by
    intro d hd
    cases digits with
    | nil =>
      obtain ⟨-, -, hdash, hcolon⟩ := hrest d hd
      obtain rfl | rfl := hc
      · exact hdash
      · exact hcolon
    | cons d' digits =>
      obtain rfl : d' = d := Option.some.inj hd
      have hdigit := hdigits d' List.mem_cons_self
      rintro rfl
      obtain rfl | rfl := hc <;> cases hdigit
  cases hcs : digits ++ rest with
  | nil => rfl
  | cons d cs => rw [after?, if_neg (by simpa using hne d (by rw [hcs]; rfl))]

/-- **Digits** are not taken for a date or a time. -/
theorem readMoment_append {digits rest : List Char} (hdigits : IsDigits digits)
    (hrest : EndsDigits rest) : readMoment (digits ++ rest) = none := by
  have hdrop : ∀ n, IsDigits (digits.drop n) := fun n c hc ↦ hdigits c (List.mem_of_mem_drop hc)
  have hdate : afterDate? (digits ++ rest) = none := by
    rw [afterDate?]
    cases hyear : readCount 4 0 9999 (digits ++ rest) with
    | none => rfl
    | some r =>
      obtain ⟨year, rest'⟩ := r
      obtain rfl := readCount_append hrest hyear
      show (after? '-' (digits.drop 4 ++ rest)).bind _ = none
      rw [after?_append (.inl rfl) (hdrop 4) hrest]
      rfl
  have htime : afterTime? (digits ++ rest) = none := by
    rw [afterTime?]
    cases hhour : readCount 2 0 23 (digits ++ rest) with
    | none => rfl
    | some r =>
      obtain ⟨hour, rest'⟩ := r
      obtain rfl := readCount_append hrest hhour
      show (after? ':' (digits.drop 2 ++ rest)).bind _ = none
      rw [after?_append (.inr rfl) (hdrop 2) hrest]
      rfl
  rw [readMoment, hdate]
  show (afterTime? (digits ++ rest)).bind _ = none
  rw [htime]
  rfl

/-! ### Integers and floats -/

theorem readSign_of_isDigit {c : Char} (hc : isDigit c = true) (cs : List Char) :
    readSign (c :: cs) = (false, c :: cs) := by
  rw [readSign.eq_def]
  split
  next heq =>
    obtain ⟨rfl, -⟩ := List.cons.inj heq
    cases hc
  next heq =>
    obtain ⟨rfl, -⟩ := List.cons.inj heq
    cases hc
  next => rfl

/-- A float that begins with a digit is a decimal without sign. -/
theorem readFloat_of_isDigit {c : Char} (hc : isDigit c = true) (cs : List Char) :
    readFloat (c :: cs) =
      (readWhole (c :: cs)).bind fun whole ↦
        (readFractionOrExponent whole.2).bind fun fraction ↦
          let x := (Decimal.Scaled.mk (natInBase 10 (whole.1 ++ fraction.1.1))
            (fraction.1.2 - fraction.1.1.length)).nearest
          if x.isInf then none else some (.float x, fraction.2) := by
  rw [readFloat, readSign_of_isDigit hc]
  dsimp only
  split
  next heq =>
    obtain ⟨rfl, -⟩ := List.cons.inj heq
    cases hc
  next heq =>
    obtain ⟨rfl, -⟩ := List.cons.inj heq
    cases hc
  next => rfl

/-- Digits alone are no float. -/
theorem readFloat_digits {whole rest : List Char} (hwhole : Decimal.IsWhole whole)
    (hrest : EndsValue rest) : readFloat (whole ++ rest) = none := by
  obtain ⟨c, digits, rfl⟩ := List.exists_cons_of_ne_nil hwhole.ne_nil
  have hnone : readFractionOrExponent rest = none := by
    obtain rfl | ⟨cs, rfl | rfl | rfl⟩ := hrest.cases <;> rfl
  rw [List.cons_append, readFloat_of_isDigit (hwhole.digits c List.mem_cons_self),
    ← List.cons_append, readWhole_append hwhole hrest.endsDigits, Option.bind_some, hnone]
  rfl

/-- No mark of another base stands behind a leading zero. -/
theorem ne_based {whole rest : List Char} (hwhole : Decimal.IsWhole whole) (hrest : EndsValue rest)
    {c : Char} (hc : c ∈ ['x', 'o', 'b']) (cs : List Char) : whole ++ rest ≠ '0' :: c :: cs := by
  intro heq
  obtain ⟨d, digits, rfl⟩ := List.exists_cons_of_ne_nil hwhole.ne_nil
  obtain ⟨rfl, htail⟩ := List.cons.inj heq
  obtain ⟨-, rfl⟩ := List.cons.inj (hwhole.eq_zero rfl)
  have hmem := hrest c (by rw [show rest = c :: cs from htail]; rfl)
  obtain rfl | rfl | rfl : c = 'x' ∨ c = 'o' ∨ c = 'b' := by simpa using hc
  all_goals exact absurd hmem (by decide)

theorem inRange?_ofNat {n : ℕ} (h : Int.ofNat n < integerLimit) :
    inRange? (Int.ofNat n) = some (.integer n) := by
  have hlow : -integerLimit ≤ Int.ofNat n := by
    rw [integerLimit, Int.ofNat_eq_natCast]
    omega
  exact if_pos ⟨hlow, h⟩

/-- **Digits** are read as the number that they spell, if it is in range. -/
theorem readInteger_digits {whole rest : List Char} (hwhole : Decimal.IsWhole whole)
    (hrest : EndsValue rest) (hrange : Int.ofNat (natInBase 10 whole) < integerLimit) :
    readInteger (whole ++ rest) = some (.integer (natInBase 10 whole), rest) := by
  have hsign : readSign (whole ++ rest) = (false, whole ++ rest) := by
    obtain ⟨c, digits, rfl⟩ := List.exists_cons_of_ne_nil hwhole.ne_nil
    exact readSign_of_isDigit (hwhole.digits c List.mem_cons_self) _
  have hinRange := inRange?_ofNat hrange
  rw [readInteger.eq_def]
  split
  next heq => exact absurd heq (ne_based hwhole hrest (by decide) _)
  next heq => exact absurd heq (ne_based hwhole hrest (by decide) _)
  next heq => exact absurd heq (ne_based hwhole hrest (by decide) _)
  next =>
    rw [hsign]
    show (readWhole (whole ++ rest)).bind _ = _
    rw [readWhole_append hwhole hrest.endsDigits, Option.bind_some]
    show (inRange? (Int.ofNat (natInBase 10 whole))).bind _ = _
    rw [hinRange]
    rfl

/-- **A decimal near a double** is read as that double. -/
theorem readFloat_of_near {x : Float} {m : ℕ} {e : ℤ} {hm : 0 < m}
    (hx : x.toModel.unpack = .finite .positive m e hm) {whole fraction rest : List Char}
    (hwhole : Decimal.IsWhole whole) (hfraction : IsDigits fraction) (hne : fraction ≠ [])
    (hrest : EndsValue rest)
    (hnear : (Decimal.Binary.ofFloat x).Near (Decimal.pointed whole fraction).value) :
    readFloat (whole ++ '.' :: (fraction ++ rest)) = some (.float x, rest) := by
  have hexponent : readExponent rest = none := by
    obtain rfl | ⟨cs, rfl | rfl | rfl⟩ := hrest.cases <;> rfl
  have hparts : readFractionOrExponent ('.' :: (fraction ++ rest)) =
      some ((fraction, 0), rest) := by
    show (readDigits isDigit (fraction ++ rest)).bind _ = _
    rw [readDigits_append hfraction hne hrest.endsDigits, Option.bind_some]
    dsimp only
    rw [hexponent]
    rfl
  have hnearest : (Decimal.Scaled.mk (natInBase 10 (whole ++ fraction))
      (0 - fraction.length)).nearest = x := by
    rw [zero_sub]
    exact Decimal.nearest_eq_of_near hx hnear
  have hfinite : x.isInf = false := by
    rw [Float.isInf, Float.Model.isInf, hx]
    rfl
  obtain ⟨c, digits, rfl⟩ := List.exists_cons_of_ne_nil hwhole.ne_nil
  rw [List.cons_append, readFloat_of_isDigit (hwhole.digits c List.mem_cons_self),
    ← List.cons_append, readWhole_append hwhole endsDigits_point, Option.bind_some, hparts,
    Option.bind_some]
  dsimp only
  rw [hnearest, hfinite]
  rfl

/-- What is written of a number greater than zero: digits around a point that spell a decimal near
the number, or the word for what is infinite. -/
theorem floatText_cases {x : Float} (hx : 0.0 < x) :
    (∃ m e, ∃ hm : 0 < m, x.toModel.unpack = .finite .positive m e hm ∧
      ∃ whole fraction, (floatText x).toList = whole ++ '.' :: fraction ∧
        Decimal.IsWhole whole ∧ IsDigits fraction ∧ fraction ≠ [] ∧
        (Decimal.Binary.ofFloat x).Near (Decimal.pointed whole fraction).value) ∨
    x = 1.0 / 0.0 ∧ (floatText x).toList = ['i', 'n', 'f'] := by
  obtain ⟨m, e, hm, hunpack⟩ | hunpack := Decimal.unpack_of_pos hx
  · have hnan : x.isNaN = false := by
      rw [Float.isNaN, Float.Model.isNaN, hunpack]
      rfl
    have hinf : x.isInf = false := by
      rw [Float.isInf, Float.Model.isInf, hunpack]
      rfl
    have hsign : (floatLayout.write x).negative = false :=
      (Decimal.Layout.negative_write x).trans (Decimal.signBit_of_unpack hunpack)
    have hne : (floatLayout.write x).fraction ≠ [] :=
      Decimal.Layout.fraction_write_ne_nil rfl rfl x
    obtain ⟨hmantissa, -, -⟩ := Decimal.ofFloat_of_unpack hunpack
    refine .inl ⟨m, e, hm, hunpack, _, _, ?_, floatLayout.isWhole_write x,
      floatLayout.isDigits_fraction_write x, hne,
      Decimal.Layout.near_write rfl (hmantissa ▸ hm.ne')⟩
    rw [floatText, hnan, hinf, Decimal.Written.positionalText, hsign]
    simp [hne]
  · have hinfinity : x = 1.0 / 0.0 := by
      rw [← Decimal.ofModel_pack hunpack]
      decide +kernel
    refine .inr ⟨hinfinity, ?_⟩
    rw [hinfinity]
    decide +kernel

/-- **A number greater than zero** is read as that number. -/
theorem readFloat_floatText {x : Float} (hx : 0.0 < x) {rest : List Char} (hrest : EndsValue rest) :
    readFloat ((floatText x).toList ++ rest) = some (.float x, rest) := by
  obtain ⟨m, e, hm, hunpack, whole, fraction, hchars, hwhole, hfraction, hne, hnear⟩ |
    ⟨rfl, hchars⟩ := floatText_cases hx
  · rw [hchars, List.append_assoc, List.cons_append]
    exact readFloat_of_near hunpack hwhole hfraction hne hrest hnear
  · rw [hchars]
    rfl

/-- It is not taken for a date or a time. -/
theorem readMoment_floatText {x : Float} (hx : 0.0 < x) (rest : List Char) :
    readMoment ((floatText x).toList ++ rest) = none := by
  obtain ⟨-, -, -, -, whole, fraction, hchars, hwhole, -⟩ | ⟨-, hchars⟩ := floatText_cases hx
  · rw [hchars, List.append_assoc, List.cons_append]
    exact readMoment_append hwhole.digits endsDigits_point
  · rw [hchars]
    have hrest : EndsDigits ('i' :: 'n' :: 'f' :: rest) := by
      rintro c hc
      obtain rfl : 'i' = c := Option.some.inj hc
      decide
    have hnone : readMoment ([] ++ 'i' :: 'n' :: 'f' :: rest) = none :=
      readMoment_append (List.forall_mem_nil _) hrest
    exact hnone

/-- It begins with a digit, or with the first letter of that word. -/
theorem exists_floatText {x : Float} (hx : 0.0 < x) :
    ∃ c cs, (floatText x).toList = c :: cs ∧ (isDigit c = true ∨ c = 'i') := by
  obtain ⟨-, -, -, -, whole, fraction, hchars, hwhole, -⟩ | ⟨-, hchars⟩ := floatText_cases hx
  · obtain ⟨c, digits, rfl⟩ := List.exists_cons_of_ne_nil hwhole.ne_nil
    exact ⟨c, _, hchars, .inl (hwhole.digits c List.mem_cons_self)⟩
  · exact ⟨_, _, hchars, .inr rfl⟩

end CueFlow.Toml
