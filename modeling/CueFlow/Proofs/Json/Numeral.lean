import CueFlow.Json.Reader
import CueFlow.Proofs.Decimal
/-!
# Numerals read back

A numeral is well formed if it keeps to the grammar: digits on both sides of the point, at least one
before it, and no leading zero (`Numeral.WellFormed`). What is written of a well-formed numeral
reads back as that numeral, in front of anything that could not be part of it
(`Json.readNumeral_chars`). All numerals that are made of numbers are well formed
(`Numeral.wellFormed_ofFloat`, `Numeral.wellFormed_ofNat`).
-/

namespace CueFlow

/-! ### Well-formed numerals -/

namespace Numeral

/-- The grammar of numerals, before any exponent. -/
structure WellFormed (n : Numeral) : Prop where
  whole : Decimal.IsWhole n.whole
  fraction : IsDigits n.fraction

/-- **The numeral of a number** keeps to the grammar. -/
theorem wellFormed_ofFloat (x : Float) : (ofFloat x).WellFormed :=
  ⟨layout.isWhole_write x, layout.isDigits_fraction_write x⟩

theorem wellFormed_ofNat (k : Nat) : (ofNat k).WellFormed :=
  ⟨Decimal.isWhole_digitChars k, List.forall_mem_nil _⟩

/-- A numeral of a natural number spells that number, as far as it fits. -/
theorem toNat?_ofNat {k : Nat} (hk : k < UInt64.size) : (ofNat k).toNat? = some k := by
  simp [toNat?, ofNat, Decimal.natInBase_digitChars, hk]

/-- A numeral begins with its sign or with a digit. -/
theorem WellFormed.exists_chars {n : Numeral} (hn : n.WellFormed) :
    ∃ c cs, n.chars = c :: cs ∧ (c = '-' ∨ isDigit c = true) := by
  rw [chars]
  cases n.negative with
  | true => exact ⟨_, _, rfl, .inl rfl⟩
  | false =>
    obtain ⟨c, whole, hwhole⟩ := List.exists_cons_of_ne_nil hn.whole.ne_nil
    rw [hwhole]
    exact ⟨_, _, rfl, .inr (hn.whole.digits c (hwhole ▸ List.mem_cons_self))⟩

end Numeral

namespace Json

/-! ### Reading digits -/

/-- What cannot go on with a numeral. -/
def EndsNumeral (rest : List Char) : Prop :=
  ∀ c ∈ rest.head?, isDigit c = false ∧ c ≠ '.' ∧ c ≠ 'e' ∧ c ≠ 'E'

/-- What does not begin with a digit. -/
def EndsDigits (rest : List Char) : Prop := ∀ c ∈ rest.head?, isDigit c = false

/-- What ends a numeral is no digit. -/
theorem EndsNumeral.endsDigits {rest : List Char} (h : EndsNumeral rest) : EndsDigits rest :=
  fun c hc ↦ (h c hc).1

/-- Digits are read up to the first character that is none. -/
theorem readDigits_append {digits rest : List Char} (hdigits : IsDigits digits)
    (hne : digits ≠ []) (hrest : EndsDigits rest) :
    readDigits (digits ++ rest) = some (digits, rest) := by
  have htake : rest.takeWhile isDigit = [] := by
    cases rest with
    | nil => rfl
    | cons c rest => rw [List.takeWhile_cons, hrest c rfl]; rfl
  have hdrop : rest.dropWhile isDigit = rest := by
    cases rest with
    | nil => rfl
    | cons c rest => rw [List.dropWhile_cons, hrest c rfl]; rfl
  rw [readDigits, List.takeWhile_append_of_pos hdigits, List.dropWhile_append_of_pos hdigits,
    htake, hdrop, List.append_nil]
  cases digits with
  | nil => exact absurd rfl hne
  | cons c digits => rfl

/-- A whole part is read back. -/
theorem readWhole_append {whole rest : List Char} (hwhole : Decimal.IsWhole whole)
    (hrest : EndsDigits rest) : readWhole (whole ++ rest) = some (whole, rest) := by
  rw [readWhole, readDigits_append hwhole.digits hwhole.ne_nil hrest]
  split
  next c cs rest' heq =>
    obtain ⟨rfl, -⟩ := Prod.mk.inj (Option.some.inj heq)
    have hzero := hwhole.eq_zero rfl
    cases hzero
  next => rfl

/-! ### Reading what is written -/

/-- An exponent is read back, and so is the lack of one. -/
theorem readExponent_chars {rest : List Char} (hrest : EndsNumeral rest) (exponent : Option Int) :
    readExponent ((exponent.map Numeral.exponentChars).getD [] ++ rest) =
      some (exponent, rest) := by
  cases exponent with
  | none =>
    show readExponent rest = _
    rw [readExponent.eq_def]
    split
    next => exact absurd rfl (hrest 'e' rfl).2.2.1
    next => exact absurd rfl (hrest 'E' rfl).2.2.2
    next => rfl
  | some k =>
    have hdigits := readDigits_append (Decimal.isDigits_digitChars k.natAbs) Nat.toDigits_ne_nil
      hrest.endsDigits
    by_cases hk : k < 0
    · have hchars : ((some k).map Numeral.exponentChars).getD [] ++ rest =
          'e' :: '-' :: (Decimal.digitChars k.natAbs ++ rest) := by
        simp [Numeral.exponentChars, hk]
      have habs : -(k.natAbs : Int) = k := by omega
      rw [hchars]
      show (readDigits _).map _ = _
      rw [hdigits, Option.map_some]
      show some (some (-(natInBase 10 _ : Int)), rest) = _
      rw [Decimal.natInBase_digitChars, habs]
    · have hchars : ((some k).map Numeral.exponentChars).getD [] ++ rest =
          'e' :: '+' :: (Decimal.digitChars k.natAbs ++ rest) := by
        simp [Numeral.exponentChars, hk]
      have habs : (k.natAbs : Int) = k := by omega
      rw [hchars]
      show (readDigits _).map _ = _
      rw [hdigits, Option.map_some]
      show some (some (natInBase 10 _ : Int), rest) = _
      rw [Decimal.natInBase_digitChars, habs]

/-- What is written of an exponent does not go on with the digits before it, nor with a point. -/
theorem endsDigits_exponentChars {rest : List Char} (hrest : EndsNumeral rest)
    (exponent : Option Int) :
    ∀ c ∈ ((exponent.map Numeral.exponentChars).getD [] ++ rest).head?,
      isDigit c = false ∧ c ≠ '.' := by
  cases exponent with
  | none => exact fun c hc ↦ ⟨(hrest c hc).1, (hrest c hc).2.1⟩
  | some k =>
    rintro c hc
    obtain rfl : 'e' = c := Option.some.inj hc
    decide

/-- A fraction is read back, and so is the lack of one. -/
theorem readFraction_append {fraction rest : List Char} (hfraction : IsDigits fraction)
    (hrest : ∀ c ∈ rest.head?, isDigit c = false ∧ c ≠ '.') :
    readFraction ((if fraction.isEmpty then [] else '.' :: fraction) ++ rest) =
      some (fraction, rest) := by
  cases fraction with
  | nil =>
    show readFraction rest = _
    rw [readFraction.eq_def]
    split
    next => exact absurd rfl (hrest '.' rfl).2
    next => rfl
  | cons c fraction =>
    exact readDigits_append hfraction (List.cons_ne_nil c fraction) fun d hd ↦ (hrest d hd).1

/-- What is written of a numeral after its sign, in front of what follows it. -/
def magnitudeChars (n : Numeral) (rest : List Char) : List Char :=
  n.whole ++ ((if n.fraction.isEmpty then [] else '.' :: n.fraction) ++
    ((n.exponent.map Numeral.exponentChars).getD [] ++ rest))

/-- A numeral is read back behind its sign. -/
theorem readMagnitude_chars {n : Numeral} (hn : n.WellFormed) {rest : List Char}
    (hrest : EndsNumeral rest) :
    readMagnitude n.negative (magnitudeChars n rest) = some (n, rest) := by
  have hexponent := endsDigits_exponentChars hrest n.exponent
  have hwhole : EndsDigits ((if n.fraction.isEmpty then [] else '.' :: n.fraction) ++
      ((n.exponent.map Numeral.exponentChars).getD [] ++ rest)) := by
    cases n.fraction with
    | nil => exact fun c hc ↦ (hexponent c hc).1
    | cons d fraction =>
      rintro c hc
      obtain rfl : '.' = c := Option.some.inj hc
      decide
  rw [readMagnitude, magnitudeChars, readWhole_append hn.whole hwhole, Option.bind_some,
    readFraction_append hn.fraction hexponent, Option.bind_some, readExponent_chars hrest]
  rfl

/-- **A numeral reads back.** -/
theorem readNumeral_chars {n : Numeral} (hn : n.WellFormed) {rest : List Char}
    (hrest : EndsNumeral rest) : readNumeral (n.chars ++ rest) = some (n, rest) := by
  have hread := readMagnitude_chars hn hrest
  have hchars : n.chars ++ rest = (if n.negative then ['-'] else []) ++ magnitudeChars n rest := by
    simp only [Numeral.chars, magnitudeChars, List.append_assoc]
  rw [hchars]
  cases hsign : n.negative with
  | true =>
    rw [hsign] at hread
    exact hread
  | false =>
    rw [hsign] at hread
    obtain ⟨c, whole, hwhole⟩ := List.exists_cons_of_ne_nil hn.whole.ne_nil
    have hdigit : isDigit c = true := hn.whole.digits c (hwhole ▸ List.mem_cons_self)
    have hhead : ∃ cs, magnitudeChars n rest = c :: cs := ⟨_, by rw [magnitudeChars, hwhole]; rfl⟩
    obtain ⟨cs, hcs⟩ := hhead
    rw [hcs] at hread ⊢
    show readNumeral (c :: cs) = _
    rw [readNumeral.eq_def]
    split
    next heq =>
      obtain ⟨rfl, -⟩ := List.cons.inj heq
      cases hdigit
    next => exact hread

end Json

end CueFlow
