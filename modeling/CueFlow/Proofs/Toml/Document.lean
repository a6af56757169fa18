import CueFlow.Proofs.Toml.Number
import CueFlow.Proofs.Toml.Text
import CueFlow.Toml.Reader
/-!
# Documents read back

What is written of a document of settings and sections is read as that document
(`parse?_documentText`), if its keys need no quotes and do not repeat and its values are texts,
natural numbers in range, floats greater than zero, or lists of these (`IsSetting`).

Each part is read in front of whatever may follow it. A value ends with its line, or with the comma
or the bracket behind an item (`EndsValue`). Of lines it is said which of them some characters are
read as, given fuel for each character (`ReadAs`), so that each line can be put in front of others.
What the lines amount to is a matter of adding entries one by one, and it is the same for the
document itself and for the table that was opened last (`foldlM_settingLines`).
-/

namespace CueFlow.Toml

/-! ### Scalars -/

/-- A value without parts that reads back: a text, a natural number in range or a float greater than
zero. -/
inductive IsScalar : Toml → Prop
  | text (s : String) : IsScalar (.text s)
  | natural {n : ℕ} (h : Int.ofNat n < integerLimit) : IsScalar (.integer (Int.ofNat n))
  | float {x : Float} (h : 0.0 < x) : IsScalar (.float x)

theorem endsValue_cons {c : Char} (h : c ∈ ['\n', ',', ']']) (cs : List Char) :
    EndsValue (c :: cs) := by
  rintro _ ⟨⟩
  exact h

/-- What ends a value is no quotation mark, so it does not prolong a text that was closed. -/
theorem EndsValue.otherThan {rest : List Char} (h : EndsValue rest) {quote : Char}
    (hquote : quote = '"' ∨ quote = '\'') : OtherThan quote rest := by
  rintro c hc rfl
  have hmem := h c hc
  obtain rfl | rfl := hquote <;> exact absurd hmem (by decide)

/-- A text in quotes begins with its quotation mark, of either sort. -/
theorem exists_quoted (s : String) :
    ∃ c cs, (quoted s).toList = c :: cs ∧ (c = '"' ∨ c = '\'') := by
  rw [quoted, String.toList_ofList]
  cases quoting s.toList with
  | basic => exact ⟨_, _, rfl, .inl rfl⟩
  | literal => exact ⟨_, _, rfl, .inr rfl⟩
  | longBasic => exact ⟨_, _, rfl, .inl rfl⟩
  | longLiteral => exact ⟨_, _, rfl, .inr rfl⟩

theorem toList_valueText_natural (n : ℕ) :
    (valueText (.integer (Int.ofNat n))).toList = Decimal.digitChars n :=
  Nat.toList_repr

/-- Digits or the word for what is infinite: not a text. -/
theorem readScalar_number {c : Char} (hc : isDigit c = true ∨ c = 'i') (cs : List Char) :
    readScalar (c :: cs) =
      (readMoment (c :: cs)).or ((readFloat (c :: cs)).or (readInteger (c :: cs))) := by
  have hquote : c ≠ '"' ∧ c ≠ '\'' ∧ c ≠ 't' ∧ c ≠ 'f' := by
    refine ⟨?_, ?_, ?_, ?_⟩ <;>
    · rintro rfl
      exact absurd hc (by simp [isDigit])
  obtain ⟨hdouble, hsingle, ht, hf⟩ := hquote
  rw [readScalar, readString]
  · rfl
  · exact fun rest heq ↦ hdouble (List.cons.inj heq).1
  · exact fun rest heq ↦ hdouble (List.cons.inj heq).1
  · exact fun rest heq ↦ hsingle (List.cons.inj heq).1
  · exact fun rest heq ↦ hsingle (List.cons.inj heq).1
  · exact fun rest heq ↦ ht (List.cons.inj heq).1
  · exact fun rest heq ↦ hf (List.cons.inj heq).1

/-- A text is read back from its quoted form. -/
theorem readScalar_quoted (s : String) {rest : List Char} (hrest : EndsValue rest) :
    readScalar ((quoted s).toList ++ rest) = some (.text s, rest) := by
  have hread := readString_quoted s (hrest.otherThan (.inl rfl)) (hrest.otherThan (.inr rfl))
  obtain ⟨c, cs, hchars, hc⟩ := exists_quoted s
  rw [hchars, List.cons_append] at hread ⊢
  rw [readScalar, hread]
  · rfl
  all_goals
    rintro rest heq
    obtain rfl : c = _ := (List.cons.inj heq).1
    exact absurd hc (by decide)

/-- A natural number below the limit of integers is read back from its digits. -/
theorem readScalar_digitChars {n : ℕ} (h : Int.ofNat n < integerLimit) {rest : List Char}
    (hrest : EndsValue rest) :
    readScalar (Decimal.digitChars n ++ rest) = some (.integer (Int.ofNat n), rest) := by
  have hwhole := Decimal.isWhole_digitChars n
  have hinteger : readInteger (Decimal.digitChars n ++ rest) =
      some (.integer (Int.ofNat n), rest) := by
    have hvalue := Decimal.natInBase_digitChars n
    have hread := readInteger_digits hwhole hrest (by rwa [hvalue])
    rwa [hvalue] at hread
  have hmoment := readMoment_append hwhole.digits hrest.endsDigits
  have hfloat := readFloat_digits hwhole hrest
  obtain ⟨c, cs, hchars⟩ := List.exists_cons_of_ne_nil hwhole.ne_nil
  have hc := hwhole.digits c (by rw [hchars]; exact List.mem_cons_self)
  rw [hchars, List.cons_append] at hmoment hfloat hinteger ⊢
  rw [readScalar_number (.inl hc), hmoment, hfloat, hinteger]
  rfl

/-- A positive number is read back from its text. -/
theorem readScalar_floatText {x : Float} (h : 0.0 < x) {rest : List Char} (hrest : EndsValue rest) :
    readScalar ((floatText x).toList ++ rest) = some (.float x, rest) := by
  have hmoment := readMoment_floatText h rest
  have hfloat := readFloat_floatText h hrest
  obtain ⟨c, cs, hchars, hc⟩ := exists_floatText h
  rw [hchars, List.cons_append] at hmoment hfloat ⊢
  rw [readScalar_number hc, hmoment, hfloat]
  rfl

/-- **A scalar** is read from what is written of it, up to the end of a value. -/
theorem readScalar_valueText {v : Toml} (h : IsScalar v) {rest : List Char}
    (hrest : EndsValue rest) : readScalar ((valueText v).toList ++ rest) = some (v, rest) := by
  cases h with
  | text s => exact readScalar_quoted s hrest
  | natural h =>
    rw [toList_valueText_natural]
    exact readScalar_digitChars h hrest
  | float h => exact readScalar_floatText h hrest

/-! ### Values -/

/-- What a scalar may begin with. -/
def Opens (c : Char) : Prop := isDigit c = true ∨ c ∈ ['i', '"', '\'']

/-- What opens a value opens neither a list nor a table, and is not skipped as space or as a
comment. -/
theorem Opens.ne {c d : Char} (h : Opens c)
    (hd : d ∈ ['[', '{', ']', ' ', '\t', '\n', '\r', '#']) : c ≠ d := by
  have hnone : ∀ d ∈ ['[', '{', ']', ' ', '\t', '\n', '\r', '#'],
      ¬ (isDigit d = true ∨ d ∈ ['i', '"', '\'']) := by simp [isDigit]
  rintro rfl
  exact hnone c hd h

/-- The text of a scalar begins with a character that opens a value. -/
theorem exists_valueText {v : Toml} (h : IsScalar v) :
    ∃ c cs, (valueText v).toList = c :: cs ∧ Opens c := by
  cases h with
  | text s =>
    obtain ⟨c, cs, hchars, rfl | rfl⟩ := exists_quoted s
    · exact ⟨_, cs, hchars, .inr (by decide)⟩
    · exact ⟨_, cs, hchars, .inr (by decide)⟩
  | @natural n h =>
    obtain ⟨c, cs, hdigits⟩ := List.exists_cons_of_ne_nil (Decimal.isWhole_digitChars n).ne_nil
    refine ⟨c, cs, (toList_valueText_natural n).trans hdigits, .inl ?_⟩
    exact Decimal.isDigits_digitChars n c (by rw [hdigits]; exact List.mem_cons_self)
  | float h =>
    obtain ⟨c, cs, hchars, hdigit | rfl⟩ := exists_floatText h
    · exact ⟨c, cs, hchars, .inl hdigit⟩
    · exact ⟨_, cs, hchars, .inr (by decide)⟩

theorem skipSpace_cons {c : Char} (hblank : isBlank c = false) (hbreak : c ≠ '\n' ∧ c ≠ '\r')
    (hcomment : c ≠ '#') (cs : List Char) : skipSpace false (c :: cs) = c :: cs := by
  rw [skipSpace, if_neg (by decide), hblank]
  · simp [hcomment]
  · exact fun h ↦ hbreak.1 h
  · exact fun rest h _ ↦ hbreak.2 h

/-- There is no space in front of the text of a scalar. -/
theorem skipSpace_valueText {v : Toml} (h : IsScalar v) (cs : List Char) :
    skipSpace false ((valueText v).toList ++ cs) = (valueText v).toList ++ cs := by
  obtain ⟨c, cs', hchars, hc⟩ := exists_valueText h
  rw [hchars, List.cons_append]
  exact skipSpace_cons (by simp [isBlank, hc.ne]) ⟨hc.ne (by decide), hc.ne (by decide)⟩
    (hc.ne (by decide)) _

/-- What opens neither a list nor a table is read as a scalar. -/
theorem readValue_cons {c : Char} (harray : c ≠ '[') (hbraced : c ≠ '{') (fuel depth : ℕ)
    (cs : List Char) : readValue fuel depth (c :: cs) = readScalar (c :: cs) := by
  rw [readValue.eq_def]
  split
  next heq => exact absurd (List.cons.inj heq).1 harray
  next heq => exact absurd (List.cons.inj heq).1 hbraced
  next => rfl

/-- A scalar is read back as a value, whatever the bounds on depth. -/
theorem readValue_scalar {v : Toml} (h : IsScalar v) (fuel depth : ℕ) {rest : List Char}
    (hrest : EndsValue rest) :
    readValue fuel depth ((valueText v).toList ++ rest) = some (v, rest) := by
  have hread := readScalar_valueText h hrest
  obtain ⟨c, cs, hchars, hc⟩ := exists_valueText h
  rw [hchars, List.cons_append] at hread ⊢
  rw [readValue_cons (hc.ne (by decide)) (hc.ne (by decide)), hread]

theorem readValue_list (fuel depth : ℕ) (cs : List Char) :
    readValue (fuel + 1) (depth + 1) ('[' :: cs) =
      (readItems fuel depth (skipSpace false cs)).map fun r ↦ (.array r.1, r.2) := by
  rw [readValue]

/-- An item with a comma behind it is read, and the list goes on. -/
theorem readItems_of_comma {item : Toml} (h : IsScalar item) (fuel depth : ℕ)
    (rest : List Char) :
    readItems (fuel + 1) depth ((valueText item).toList ++ ',' :: rest) =
      (readItems fuel depth (skipSpace false rest)).map fun r ↦ (item :: r.1, r.2) := by
  have hends : EndsValue (',' :: rest) := endsValue_cons (by decide) rest
  have hread := readValue_scalar h fuel depth hends
  obtain ⟨c, cs, hchars, hc⟩ := exists_valueText h
  rw [hchars, List.cons_append] at hread ⊢
  rw [readItems, hread]
  · rfl
  · exact fun rest heq ↦ hc.ne (d := ']') (by decide) (List.cons.inj heq).1

/-- An item with a closing bracket behind it is the last of its list. -/
theorem readItems_of_bracket {item : Toml} (h : IsScalar item) (fuel depth : ℕ)
    (rest : List Char) :
    readItems (fuel + 1) depth ((valueText item).toList ++ ']' :: rest) = some ([item], rest) := by
  have hends : EndsValue (']' :: rest) := endsValue_cons (by decide) rest
  have hread := readValue_scalar h fuel depth hends
  obtain ⟨c, cs, hchars, hc⟩ := exists_valueText h
  rw [hchars, List.cons_append] at hread ⊢
  rw [readItems, hread]
  · rfl
  · exact fun rest heq ↦ hc.ne (d := ']') (by decide) (List.cons.inj heq).1

/-- What is written of the items of a list of several, each on a line of its own. -/
def itemLines (items : List Toml) : List Char :=
  items.flatMap fun item ↦ ' ' :: ' ' :: ' ' :: ' ' :: ((valueText item).toList ++ [',', '\n'])

/-- **The items of a list are read back** from their lines, by induction on the list. -/
theorem readItems_itemLines {items : List Toml} (h : ∀ item ∈ items, IsScalar item) {fuel : ℕ}
    (hfuel : items.length ≤ fuel) (depth : ℕ) (rest : List Char) :
    readItems fuel depth (skipSpace false (itemLines items ++ ']' :: rest)) =
      some (items, rest) := by
  induction items generalizing fuel with
  | nil =>
    cases fuel <;> rfl
  | cons item items ih =>
    obtain ⟨fuel, rfl⟩ := Nat.exists_eq_add_one_of_ne_zero (Nat.ne_zero_of_lt hfuel)
    obtain ⟨hitem, hitems⟩ := List.forall_mem_cons.1 h
    have hspace : skipSpace false (itemLines (item :: items) ++ ']' :: rest) =
        (valueText item).toList ++ ',' :: '\n' :: (itemLines items ++ ']' :: rest) := by
      rw [itemLines, List.flatMap_cons, ← itemLines]
      simp only [List.cons_append, List.append_assoc, List.nil_append]
      exact skipSpace_valueText hitem _
    rw [hspace, readItems_of_comma hitem, skipSpace, ih hitems (Nat.le_of_succ_le_succ hfuel)]
    rfl

/-- A value that reads back: a scalar or a list of scalars. -/
inductive IsSettled : Toml → Prop
  | scalar {v : Toml} (h : IsScalar v) : IsSettled v
  | list {items : List Toml} (h : ∀ item ∈ items, IsScalar item) : IsSettled (.array items)

theorem itemTexts_eq_map (items : List Toml) : itemTexts items = items.map valueText := by
  induction items with
  | nil => rfl
  | cons item items ih => rw [itemTexts, ih, List.map_cons]

/-- The items of a list are written on lines of their own. -/
theorem toList_join_itemTexts (items : List Toml) :
    (String.join ((itemTexts items).map fun item ↦ "    " ++ item ++ ",\n")).toList =
      itemLines items := by
  rw [itemTexts_eq_map, List.map_map, String.toList_join, List.flatMap_map, itemLines]
  refine List.flatMap_congr fun item _ ↦ ?_
  show ("    " ++ valueText item ++ ",\n").toList = _
  rw [String.toList_append, String.toList_append, List.append_assoc]
  rfl

/-- A list of one item is written on one line. -/
theorem toList_valueText_single (item : Toml) :
    (valueText (.array [item])).toList = '[' :: ((valueText item).toList ++ [']']) := by
  show ("[" ++ valueText item ++ "]").toList = _
  rw [String.toList_append, String.toList_append]
  rfl

/-- A list of several items is written over several lines. -/
theorem toList_valueText_several (first second : Toml) (items : List Toml) :
    (valueText (.array (first :: second :: items))).toList =
      '[' :: '\n' :: (itemLines (first :: second :: items) ++ [']']) := by
  rw [← toList_join_itemTexts]
  show ("[\n" ++ String.join _ ++ "]").toList = _
  rw [String.toList_append, String.toList_append]
  rfl

/-- Every item takes at least one character, so the text of a list bounds how many items it has. -/
theorem length_le_length_itemLines (items : List Toml) :
    items.length ≤ (itemLines items).length := by
  rw [itemLines, List.length_flatMap]
  refine le_trans (le_of_eq ?_) (List.length_le_sum_of_one_le _ fun n hn ↦ ?_)
  · rw [List.length_map]
  · obtain ⟨item, -, rfl⟩ := List.mem_map.1 hn
    exact Nat.succ_pos _

/-- **A value** is read from what is written of it, up to the end of a value. -/
theorem readValue_valueText {v : Toml} (h : IsSettled v) {fuel : ℕ}
    (hfuel : (valueText v).toList.length ≤ fuel) (depth : ℕ) {rest : List Char}
    (hrest : EndsValue rest) :
    readValue fuel (depth + 1) ((valueText v).toList ++ rest) = some (v, rest) := by
  cases h with
  | scalar h => exact readValue_scalar h fuel (depth + 1) hrest
  | @list items h =>
    match items, h with
    | [], _ =>
      obtain ⟨fuel, rfl⟩ := Nat.exists_eq_add_one_of_ne_zero (Nat.ne_zero_of_lt hfuel)
      cases fuel <;> rfl
    | [item], h =>
      rw [toList_valueText_single] at hfuel ⊢
      obtain ⟨fuel, rfl⟩ : ∃ n, fuel = n + 1 + 1 := by
        simp only [List.length_cons, List.length_append] at hfuel
        exact ⟨fuel - 2, by omega⟩
      have hitem := h item List.mem_cons_self
      rw [List.cons_append, List.append_assoc, List.singleton_append, readValue_list,
        skipSpace_valueText hitem, readItems_of_bracket hitem]
      rfl
    | first :: second :: items, h =>
      have hlength := length_le_length_itemLines (first :: second :: items)
      rw [toList_valueText_several] at hfuel ⊢
      simp only [List.length_cons, List.length_append] at hfuel hlength
      obtain ⟨fuel, rfl⟩ := Nat.exists_eq_add_one_of_ne_zero (Nat.ne_zero_of_lt hfuel)
      have hitems : (first :: second :: items).length ≤ fuel := by
        rw [List.length_cons, List.length_cons]
        omega
      have hread := readItems_itemLines h hitems depth rest
      rw [List.cons_append, List.cons_append, List.append_assoc, List.singleton_append,
        readValue_list, skipSpace, hread]
      rfl

/-! ### Lines -/

/-- A key that needs no quotes. -/
def IsBare (key : String) : Prop := key.toList ≠ [] ∧ ∀ c ∈ key.toList, isKeyChar c = true

instance (key : String) : Decidable (IsBare key) :=
  decidable_of_iff (key.toList ≠ [] ∧ key.toList.all isKeyChar = true) <| by
    rw [IsBare, List.all_eq_true]

/-- A bare key is written without quotes. -/
theorem IsBare.keyText {key : String} (h : IsBare key) : keyText key = key := by
  have hall : key.toList.all (fun c ↦ c.isAlphanum || c == '_' || c == '-') = true :=
    List.all_eq_true.2 h.2
  have hempty : key.isEmpty = false := by
    rw [Bool.eq_false_iff, ne_eq, String.isEmpty_iff]
    rintro rfl
    exact h.1 rfl
  rw [CueFlow.Toml.keyText, hempty, hall]
  rfl

theorem IsBare.exists_cons {key : String} (h : IsBare key) :
    ∃ c cs, key.toList = c :: cs ∧ isKeyChar c = true := by
  obtain ⟨c, cs, hchars⟩ := List.exists_cons_of_ne_nil h.1
  exact ⟨c, cs, hchars, h.2 c (by rw [hchars]; exact List.mem_cons_self)⟩

/-- A character of a key differs from every character that no key contains. -/
theorem ne_of_isKeyChar {c d : Char} (hc : isKeyChar c = true) (hd : isKeyChar d = false) :
    c ≠ d := by
  rintro rfl
  exact absurd hc (by rw [hd]; decide)

theorem isBlank_of_isKeyChar {c : Char} (hc : isKeyChar c = true) : isBlank c = false := by
  rw [isBlank, Bool.or_eq_false_iff]
  exact ⟨beq_false_of_ne (ne_of_isKeyChar hc (by decide)),
    beq_false_of_ne (ne_of_isKeyChar hc (by decide))⟩

/-- A bare key is read up to the first character that no key contains. -/
theorem readKeyPart_bare {key : String} (h : IsBare key) {c : Char} (hc : isKeyChar c = false)
    (cs : List Char) : readKeyPart (key.toList ++ c :: cs) = some (key, c :: cs) := by
  have htake : (key.toList ++ c :: cs).takeWhile isKeyChar = key.toList := by
    rw [List.takeWhile_append_of_pos h.2, List.takeWhile_cons_of_neg (by simp [hc]),
      List.append_nil]
  have hdrop : (key.toList ++ c :: cs).dropWhile isKeyChar = c :: cs := by
    rw [List.dropWhile_append_of_pos h.2, List.dropWhile_cons_of_neg (by simp [hc])]
  obtain ⟨first, more, hchars, hfirst⟩ := h.exists_cons
  rw [hchars, List.cons_append] at htake hdrop ⊢
  rw [readKeyPart, htake, hdrop]
  · dsimp only
    rw [← hchars, String.ofList_toList]
  · exact fun rest heq ↦ ne_of_isKeyChar (d := '"') hfirst (by decide) (List.cons.inj heq).1
  · exact fun rest heq ↦ ne_of_isKeyChar (d := '\'') hfirst (by decide) (List.cons.inj heq).1

/-- **A key** of one part is read up to what follows it. -/
theorem readKey_bare {key : String} (h : IsBare key) {c : Char} (hc : isKeyChar c = false)
    {d : Char} (hd : d ≠ '.') {cs rest : List Char} (hrest : skipBlanks (c :: cs) = d :: rest)
    (parts : ℕ) : readKey (parts + 1) (key.toList ++ c :: cs) = some (([], key), d :: rest) := by
  have hpart := readKeyPart_bare h hc cs
  obtain ⟨first, more, hchars, hfirst⟩ := h.exists_cons
  have hblanks : skipBlanks (first :: (more ++ c :: cs)) = first :: (more ++ c :: cs) :=
    List.dropWhile_cons_of_neg (by simp [isBlank_of_isKeyChar hfirst])
  rw [hchars, List.cons_append] at hpart ⊢
  rw [readKey, hblanks, hpart]
  dsimp only
  rw [hrest]
  split
  next heq => exact absurd (List.cons.inj heq).1 hd
  next => rfl

/-- What is written of a setting, in front of what follows it. -/
def settingChars (entry : String × Toml) (rest : List Char) : List Char :=
  entry.1.toList ++ ' ' :: '=' :: ' ' :: ((valueText entry.2).toList ++ rest)

/-- A setting that reads back. -/
structure IsSetting (entry : String × Toml) : Prop where
  bare : IsBare entry.1
  settled : IsSettled entry.2

theorem skipBlanks_valueText {v : Toml} (h : IsSettled v) (rest : List Char) :
    skipBlanks (' ' :: ((valueText v).toList ++ rest)) = (valueText v).toList ++ rest := by
  have hfirst : ∃ c cs, (valueText v).toList = c :: cs ∧ isBlank c = false := by
    cases h with
    | scalar h =>
      obtain ⟨c, cs, hchars, hc⟩ := exists_valueText h
      exact ⟨c, cs, hchars, by simp [isBlank, hc.ne]⟩
    | @list items h =>
      match items with
      | [] => exact ⟨_, _, rfl, rfl⟩
      | [item] => exact ⟨_, _, toList_valueText_single item, rfl⟩
      | first :: second :: items => exact ⟨_, _, toList_valueText_several first second items, rfl⟩
  obtain ⟨c, cs, hchars, hc⟩ := hfirst
  rw [hchars, List.cons_append, skipBlanks, List.dropWhile_cons_of_pos (by decide),
    List.dropWhile_cons_of_neg (by simp [hc])]

/-- A setting is read back from its line. -/
theorem readLine_setting {entry : String × Toml} (h : IsSetting entry) {rest : List Char}
    (hrest : EndsValue rest) :
    readLine (settingChars entry rest) = some (.assign [] entry.1 entry.2, rest) := by
  have hkey : readKey (nestingLimit - 1) (settingChars entry rest) =
      some (([], entry.1), '=' :: ' ' :: ((valueText entry.2).toList ++ rest)) :=
    readKey_bare h.bare (c := ' ') (by decide) (by decide) rfl (nestingLimit - 2)
  have hlength : (valueText entry.2).toList.length ≤
      fuelFor (' ' :: ((valueText entry.2).toList ++ rest)) := by
    simp only [fuelFor, List.length_cons, List.length_append]
    omega
  have hvalue : readValue _ (nestingLimit - 1) ((valueText entry.2).toList ++ rest) = _ :=
    readValue_valueText h.settled hlength (nestingLimit - 2) hrest
  obtain ⟨c, cs, hchars, hc⟩ := h.bare.exists_cons
  rw [settingChars, hchars, List.cons_append] at hkey ⊢
  rw [readLine, hkey]
  · show (readValue _ _ (skipBlanks (' ' :: ((valueText entry.2).toList ++ rest)))).map _ = _
    rw [skipBlanks_valueText h.settled, hvalue]
    rfl
  · exact fun rest heq ↦ ne_of_isKeyChar (d := '[') hc (by decide) (List.cons.inj heq).1
  · exact fun rest heq ↦ ne_of_isKeyChar (d := '[') hc (by decide) (List.cons.inj heq).1

/-- A header is read back from its line. -/
theorem readLine_header {key : String} (h : IsBare key) (rest : List Char) :
    readLine ('[' :: (key.toList ++ ']' :: rest)) = some (.header [] key, rest) := by
  have hkey : readKey (nestingLimit - 1) (key.toList ++ ']' :: rest) =
      some (([], key), ']' :: rest) :=
    readKey_bare h (by decide) (by decide) rfl (nestingLimit - 2)
  obtain ⟨c, cs, hchars, hc⟩ := h.exists_cons
  rw [hchars, List.cons_append] at hkey ⊢
  rw [readLine, hkey]
  · rfl
  · exact fun rest heq ↦ ne_of_isKeyChar (d := '[') hc (by decide) (List.cons.inj heq).1

/-- These characters are read as these lines. -/
def ReadAs (cs : List Char) (lines : List Line) : Prop :=
  ∀ fuel, cs.length < fuel → readLines fuel cs = some lines

/-- Nothing is read from nothing. -/
theorem readAs_nil : ReadAs [] [] := by
  intro fuel hfuel
  obtain ⟨fuel, rfl⟩ := Nat.exists_eq_add_one_of_ne_zero (Nat.ne_zero_of_lt hfuel)
  rfl

/-- What is read as one line in front of a line break, white space aside. -/
theorem ReadAs.cons {rest : List Char} {lines : List Line} (h : ReadAs rest lines)
    {cs : List Char} {line : Line} (hlength : rest.length < cs.length)
    (hline : readLine (skipSpace false cs) = some (line, '\n' :: rest)) :
    ReadAs cs (line :: lines) := by
  intro fuel hfuel
  obtain ⟨fuel, rfl⟩ := Nat.exists_eq_add_one_of_ne_zero (Nat.ne_zero_of_lt hfuel)
  have hrest := h fuel (by omega)
  rw [readLines]
  cases hcs : skipSpace false cs with
  | nil =>
    rw [hcs] at hline
    cases hline
  | cons c cs' =>
    rw [hcs] at hline
    dsimp only
    rw [hline]
    show (readLines fuel rest).bind _ = _
    rw [hrest]
    rfl

/-- **A setting** in front of what is read as some lines. -/
theorem ReadAs.setting {rest : List Char} {lines : List Line} (h : ReadAs rest lines)
    {entry : String × Toml} (hentry : IsSetting entry) :
    ReadAs (settingChars entry ('\n' :: rest)) (.assign [] entry.1 entry.2 :: lines) := by
  refine h.cons ?_ ?_
  · simp only [settingChars, List.length_append, List.length_cons]
    omega
  · have hends : EndsValue ('\n' :: rest) := endsValue_cons (by decide) rest
    have hline := readLine_setting hentry hends
    obtain ⟨c, cs, hchars, hc⟩ := hentry.bare.exists_cons
    have hspace : skipSpace false (settingChars entry ('\n' :: rest)) =
        settingChars entry ('\n' :: rest) := by
      rw [settingChars, hchars, List.cons_append]
      exact skipSpace_cons (isBlank_of_isKeyChar hc)
        ⟨ne_of_isKeyChar hc (by decide), ne_of_isKeyChar hc (by decide)⟩
        (ne_of_isKeyChar hc (by decide)) _
    rw [hspace, hline]

/-- **A header** in front of what is read as some lines. -/
theorem ReadAs.header {rest : List Char} {lines : List Line} (h : ReadAs rest lines)
    {key : String} (hkey : IsBare key) :
    ReadAs ('\n' :: '[' :: (key.toList ++ ']' :: '\n' :: rest)) (.header [] key :: lines) := by
  refine h.cons ?_ ?_
  · simp only [List.length_append, List.length_cons]
    omega
  · exact readLine_header hkey ('\n' :: rest)

/-! ### Documents -/

/-- What is written of settings, in front of what follows them. -/
def settingsChars : Entries → List Char → List Char
  | [], rest => rest
  | entry :: entries, rest => settingChars entry ('\n' :: settingsChars entries rest)

/-- The lines of settings. -/
def settingLines (entries : Entries) : List Line :=
  entries.map fun entry ↦ .assign [] entry.1 entry.2

/-- Settings are read back line by line, in front of whatever can be read. -/
theorem ReadAs.settings {rest : List Char} {lines : List Line} (h : ReadAs rest lines)
    {entries : Entries} (hentries : ∀ entry ∈ entries, IsSetting entry) :
    ReadAs (settingsChars entries rest) (settingLines entries ++ lines) := by
  induction entries with
  | nil => exact h
  | cons entry entries ih =>
    obtain ⟨hentry, hentries⟩ := List.forall_mem_cons.1 hentries
    exact (ih hentries).setting hentry

theorem toList_settingsText {entries : Entries} (h : ∀ entry ∈ entries, IsSetting entry)
    (rest : List Char) : (settingsText entries).toList ++ rest = settingsChars entries rest := by
  induction entries with
  | nil => rfl
  | cons entry entries ih =>
    obtain ⟨hentry, hentries⟩ := List.forall_mem_cons.1 h
    have hline : ((keyText entry.1 ++ " = " ++ valueText entry.2) ++ "\n").toList =
        settingChars entry ['\n'] := by
      simp only [hentry.bare.keyText, String.toList_append, List.append_assoc]
      rfl
    rw [settingsText, assignmentTexts, List.map_cons, String.toList_join, List.flatMap_cons,
      ← String.toList_join, ← settingsText, hline, List.append_assoc, ih hentries]
    simp only [settingChars, settingsChars, List.append_assoc, List.cons_append, List.nil_append]

/-- A section that reads back: a key, and settings under different keys. -/
structure IsSection (s : String × Entries) : Prop where
  bare : IsBare s.1
  settings : ∀ entry ∈ s.2, IsSetting entry
  distinct : (s.2.map Prod.fst).Nodup

/-- The entry of a section: a table that a header opened. -/
def sectionEntry (s : String × Entries) : String × Toml := (s.1, .table .opened s.2)

/-- What is written of sections. -/
def sectionsChars : List (String × Entries) → List Char
  | [] => []
  | s :: sections =>
    '\n' :: '[' :: (s.1.toList ++ ']' :: '\n' :: settingsChars s.2 (sectionsChars sections))

/-- The lines of sections. -/
def sectionLines (sections : List (String × Entries)) : List Line :=
  sections.flatMap fun s ↦ .header [] s.1 :: settingLines s.2

/-- Sections are read back one after the other, each with its header. -/
theorem readAs_sectionsChars {sections : List (String × Entries)}
    (h : ∀ s ∈ sections, IsSection s) :
    ReadAs (sectionsChars sections) (sectionLines sections) := by
  induction sections with
  | nil => exact readAs_nil
  | cons s sections ih =>
    obtain ⟨hs, hsections⟩ := List.forall_mem_cons.1 h
    exact ((ih hsections).settings hs.settings).header hs.bare

/-- The text of sections is what the reader is shown to read. -/
theorem toList_join_sectionText {sections : List (String × Entries)}
    (h : ∀ s ∈ sections, IsSection s) :
    (String.join ((sections.map sectionEntry).map sectionText)).toList =
      sectionsChars sections := by
  induction sections with
  | nil => rfl
  | cons s sections ih =>
    obtain ⟨hs, hsections⟩ := List.forall_mem_cons.1 h
    have hsection : (sectionText (sectionEntry s)).toList =
        '\n' :: '[' :: (s.1.toList ++ ']' :: '\n' :: (settingsText s.2).toList) := by
      show ("\n[" ++ keyText s.1 ++ "]\n" ++ settingsText s.2).toList = _
      simp only [hs.bare.keyText, String.toList_append, List.append_assoc]
      rfl
    rw [List.map_cons, List.map_cons, String.toList_join, List.flatMap_cons, ← String.toList_join,
      ih hsections, hsection]
    simp only [List.cons_append, List.append_assoc, toList_settingsText hs.settings, sectionsChars]

/-- A value that is written on the line of its key is not put into a section. -/
theorem isSection_of_isSettled {v : Toml} (h : IsSettled v) : isSection v = false := by
  cases h with
  | scalar h => cases h <;> rfl
  | list => rfl

/-- What is written of a document. -/
theorem toList_documentText {settings : Entries} {sections : List (String × Entries)}
    (hsettings : ∀ entry ∈ settings, IsSetting entry) (hsections : ∀ s ∈ sections, IsSection s) :
    (documentText (settings ++ sections.map sectionEntry)).toList =
      settingsChars settings (sectionsChars sections) := by
  have hrest : (settings ++ sections.map sectionEntry).filter (fun entry ↦ !isSection entry.2) =
      settings := by
    rw [List.filter_append, List.filter_eq_self.2, List.filter_eq_nil_iff.2, List.append_nil]
    · intro entry hentry
      obtain ⟨s, -, rfl⟩ := List.mem_map.1 hentry
      exact of_decide_eq_true rfl
    · intro entry hentry
      rw [isSection_of_isSettled (hsettings entry hentry).settled]
      rfl
  have hopened : (settings ++ sections.map sectionEntry).filter (fun entry ↦ isSection entry.2) =
      sections.map sectionEntry := by
    rw [List.filter_append, List.filter_eq_nil_iff.2, List.filter_eq_self.2, List.nil_append]
    · intro entry hentry
      obtain ⟨s, -, rfl⟩ := List.mem_map.1 hentry
      rfl
    · intro entry hentry
      rw [isSection_of_isSettled (hsettings entry hentry).settled]
      exact Bool.false_ne_true
  rw [documentText, hrest, hopened, String.toList_append, toList_join_sectionText hsections,
    toList_settingsText hsettings]

/-! ### What the lines amount to -/

theorem lookup_eq_none {key : String} {entries : Entries} (h : key ∉ entries.map Prod.fst) :
    entries.lookup key = none :=
  List.lookup_eq_none_iff.2 fun _ hentry ↦ bne_iff_ne.2 fun hkey ↦
    h (hkey ▸ List.mem_map_of_mem hentry)

/-- An assignment without dots adds an entry, unless the key is there. -/
theorem assign_new {key : String} {entries : Entries} (h : key ∉ entries.map Prod.fst) (v : Toml) :
    assign [] key v .opened entries = some (entries ++ [(key, v)]) := by
  show (if (entries.lookup key).isSome then none else some (entries ++ [(key, v)])) = _
  rw [lookup_eq_none h]
  rfl

/-- A setting with a new key is entered into a document that has no section open. -/
theorem add_setting {key : String} {entries : Entries} (h : key ∉ entries.map Prod.fst) (v : Toml) :
    Draft.add ⟨entries, []⟩ (.assign [] key v) = some ⟨entries ++ [(key, v)], []⟩ := by
  show (assign [] key v .opened entries).bind _ = _
  rw [assign_new h]
  rfl

/-- A header with a new key opens a section of the document. -/
theorem add_header {key : String} {entries : Entries} (h : key ∉ entries.map Prod.fst)
    (here : List String) :
    Draft.add ⟨entries, here⟩ (.header [] key) =
      some ⟨entries ++ [sectionEntry (key, [])], [key]⟩ := by
  show (openTable key entries).bind _ = _
  rw [openTable, lookup_eq_none h]
  rfl

/-- The section that was opened last is found under its name. -/
theorem lookup_last {name : String} {before : Entries} (hname : name ∉ before.map Prod.fst)
    (entries : Entries) :
    (before ++ [sectionEntry (name, entries)]).lookup name = some (.table .opened entries) := by
  rw [List.lookup_append, lookup_eq_none hname]
  simp [sectionEntry]

/-- A change of the section that was opened last leaves the others alone. -/
theorem replace_last {name : String} {before : Entries} (hname : name ∉ before.map Prod.fst)
    (entries settings : Entries) :
    replace (before ++ [sectionEntry (name, entries)]) name (.table .opened settings) =
      before ++ [sectionEntry (name, settings)] := by
  have hbefore : before.map (fun entry ↦ if entry.1 == name
      then (name, .table .opened settings) else entry) = before := by
    refine (List.map_congr_left fun entry hentry ↦ if_neg ?_).trans before.map_id
    exact fun heq ↦ hname (eq_of_beq heq ▸ List.mem_map_of_mem hentry)
  rw [replace, List.map_append, hbefore]
  simp [sectionEntry]

/-- Below a header an assignment goes to the table that the header opened. -/
theorem add_setting_below {name key : String} {before entries : Entries}
    (hname : name ∉ before.map Prod.fst) (hkey : key ∉ entries.map Prod.fst) (v : Toml) :
    Draft.add ⟨before ++ [sectionEntry (name, entries)], [name]⟩ (.assign [] key v) =
      some ⟨before ++ [sectionEntry (name, entries ++ [(key, v)])], [name]⟩ := by
  have hedit : editAt false (assign [] key v) .opened
      (before ++ [sectionEntry (name, entries)]) [name] =
        some (before ++ [sectionEntry (name, entries ++ [(key, v)])]) := by
    rw [editAt, lookup_last hname]
    show ((assign [] key v .opened entries).bind _) = _
    rw [assign_new hkey]
    exact congrArg some (replace_last hname entries (entries ++ [(key, v)]))
  show (editAt false (assign [] key v) .opened _ [name]).bind _ = _
  rw [hedit]
  rfl

/-- Of distinct keys, none occurs among those before it. -/
theorem not_mem_of_nodup {key : String} {before behind : List String}
    (h : (before ++ key :: behind).Nodup) : key ∉ before :=
  fun hkey ↦ (List.nodup_cons.1 (List.nodup_middle.1 h)).1 (List.mem_append_left behind hkey)

/-- Settings under different keys add to a table one by one, wherever it is. -/
theorem foldlM_settingLines (place : Entries → Draft)
    (hplace : ∀ entries key v, key ∉ entries.map Prod.fst →
      (place entries).add (.assign [] key v) = some (place (entries ++ [(key, v)])))
    {before entries : Entries} (hdistinct : ((before ++ entries).map Prod.fst).Nodup) :
    (settingLines entries).foldlM Draft.add (place before) = some (place (before ++ entries)) := by
  induction entries generalizing before with
  | nil =>
    rw [List.append_nil]
    rfl
  | cons entry entries ih =>
    have hnew : entry.1 ∉ before.map Prod.fst := by
      rw [List.map_append, List.map_cons] at hdistinct
      exact not_mem_of_nodup hdistinct
    have hrest : (((before ++ [entry]) ++ entries).map Prod.fst).Nodup := by
      rwa [List.append_assoc, List.singleton_append]
    have hadd := ih hrest
    rw [List.append_assoc, List.singleton_append] at hadd
    rw [settingLines, List.map_cons, List.foldlM_cons, hplace _ _ _ hnew]
    exact hadd

/-- **The lines of sections amount to the sections**, by induction on how many there are. -/
theorem foldlM_sectionLines {sections : List (String × Entries)}
    (h : ∀ s ∈ sections, IsSection s) {entries : Entries} (here : List String)
    (hdistinct : (entries.map Prod.fst ++ sections.map Prod.fst).Nodup) :
    ((sectionLines sections).foldlM Draft.add ⟨entries, here⟩).map Draft.entries =
      some (entries ++ sections.map sectionEntry) := by
  induction sections generalizing entries here with
  | nil =>
    rw [List.map_nil, List.append_nil]
    rfl
  | cons s sections ih =>
    obtain ⟨hs, hsections⟩ := List.forall_mem_cons.1 h
    have hnew : s.1 ∉ entries.map Prod.fst := not_mem_of_nodup hdistinct
    have hrest : ((entries ++ [sectionEntry s]).map Prod.fst ++ sections.map Prod.fst).Nodup := by
      rwa [List.map_append, List.append_assoc]
    have hsettings : (settingLines s.2).foldlM Draft.add
        ⟨entries ++ [sectionEntry (s.1, [])], [s.1]⟩ =
          some ⟨entries ++ [sectionEntry s], [s.1]⟩ :=
      foldlM_settingLines (fun below ↦ ⟨entries ++ [sectionEntry (s.1, below)], [s.1]⟩)
        (fun _ _ v hkey ↦ add_setting_below hnew hkey v) hs.distinct
    have hread := ih hsections [s.1] hrest
    rw [sectionLines, List.flatMap_cons, ← sectionLines, List.cons_append, List.foldlM_cons,
      add_header hnew]
    show ((settingLines s.2 ++ sectionLines sections).foldlM Draft.add _).map _ = _
    rw [List.foldlM_append, hsettings, List.map_cons]
    rw [List.append_assoc] at hread
    exact hread

/-- **A document** of settings and sections under different keys reads back. -/
theorem parse?_documentText {settings : Entries} {sections : List (String × Entries)}
    (hsettings : ∀ entry ∈ settings, IsSetting entry) (hsections : ∀ s ∈ sections, IsSection s)
    (hdistinct : (settings.map Prod.fst ++ sections.map Prod.fst).Nodup) :
    parse? (documentText (settings ++ sections.map sectionEntry)) =
      some (settings ++ sections.map sectionEntry) := by
  have hlines := (readAs_sectionsChars hsections).settings hsettings
  have hmark : dropMark (settingsChars settings (sectionsChars sections)) =
      settingsChars settings (sectionsChars sections) := by
    cases settings with
    | nil => cases sections <;> rfl
    | cons entry settings =>
      obtain ⟨c, cs, hchars, hc⟩ := (hsettings entry List.mem_cons_self).bare.exists_cons
      rw [settingsChars, settingChars, hchars, List.cons_append, dropMark]
      exact fun rest heq ↦ ne_of_isKeyChar (d := '\ufeff') hc (by decide) (List.cons.inj heq).1
  have hroot : (settingLines settings).foldlM Draft.add ⟨[], []⟩ = some ⟨settings, []⟩ :=
    foldlM_settingLines (fun entries ↦ ⟨entries, []⟩) (fun _ _ v hkey ↦ add_setting hkey v)
      hdistinct.of_append_left
  rw [parse?, toList_documentText hsettings hsections, hmark,
    hlines _ (Nat.lt_succ_self _), Option.bind_some, ofLines?, List.foldlM_append, hroot]
  exact foldlM_sectionLines hsections [] hdistinct

end CueFlow.Toml
