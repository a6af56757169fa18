import CueFlow.Json.Printer
import CueFlow.Proofs.Json.Numeral
/-!
# Indented documents read back

A document is well formed if its numerals are and its strings spell texts (`Json.WellFormed`). The
indented text of a well-formed document reads back as that document (`Json.parse?_indented`).

Strings and numerals are read part by part, and for a whole document it is enough to know of each
part that it reads back in front of whatever may follow it (`Json.ReadsBack`): what follows an item
or a member is a comma or a line break, and neither goes on with a numeral. The fuel of the reader
is counted in the parts of the document (`Json.steps`), of which there are at most twice as many as
there are characters (`Json.steps_le`).
-/

namespace CueFlow.Json

/-! ### Numerals by their first character -/

/-- What a numeral begins with is nothing else. -/
theorem ne_of_start {c d : Char} (hc : c = '-' ∨ isDigit c = true) (hminus : d ≠ '-')
    (hdigit : isDigit d = false) : c ≠ d := by
  rintro rfl
  rcases hc with hc | hc
  · exact hminus hc
  · rw [hdigit] at hc
    cases hc

/-- What begins like a numeral is read as one. -/
theorem readValue_of_numeral {fuel : Nat} {cs tail : List Char} {c : Char}
    (hcs : skipBlanks cs = c :: tail) (hc : c = '-' ∨ isDigit c = true) :
    readValue (fuel + 1) cs = (readNumeral (c :: tail)).map fun r ↦ (number r.1, r.2) := by
  rw [readValue, hcs]
  split
  next heq => exact absurd (List.cons.inj heq).1 (ne_of_start hc (by decide) (by decide))
  next heq => exact absurd (List.cons.inj heq).1 (ne_of_start hc (by decide) (by decide))
  next heq => exact absurd (List.cons.inj heq).1 (ne_of_start hc (by decide) (by decide))
  next heq => exact absurd (List.cons.inj heq).1 (ne_of_start hc (by decide) (by decide))
  next heq => exact absurd (List.cons.inj heq).1 (ne_of_start hc (by decide) (by decide))
  next heq => exact absurd (List.cons.inj heq).1 (ne_of_start hc (by decide) (by decide))
  next => rfl

/-! ### Strings -/

/-- A piece stands for a character: it is that character, or the number of a control character. -/
inductive StandsFor : Piece → Char → Prop
  | char (c : Char) : StandsFor (.char c) c
  | unit {c : Char} (h : c.toNat < 0x20) : StandsFor (.unit c.toNat) c

/-- A hexadecimal digit has the value that it was written for. -/
theorem hexValue?_hexDigit : ∀ n < 16, hexValue? (hexDigit n) = some n := by decide

theorem hexDigit_mod (n : Nat) : hexDigit (n % 16) = hexDigit n := by
  rw [hexDigit, Nat.mod_mod]
  rfl

/-- What is written of a character is read as one piece. -/
theorem exists_readPieces_escape (c : Char) (rest : List Char) :
    ∃ p, StandsFor p c ∧
      readPieces (escape c ++ rest) = (readPieces rest).map fun r ↦ (p :: r.1, r.2) := by
  rw [escape]
  split_ifs with hquote hbackslash hback hfeed hline hreturn htab hcontrol
  · obtain rfl := eq_of_beq hquote
    exact ⟨_, .char _, rfl⟩
  · obtain rfl := eq_of_beq hbackslash
    exact ⟨_, .char _, rfl⟩
  · obtain rfl := eq_of_beq hback
    exact ⟨_, .char _, rfl⟩
  · obtain rfl := eq_of_beq hfeed
    exact ⟨_, .char _, rfl⟩
  · obtain rfl := eq_of_beq hline
    exact ⟨_, .char _, rfl⟩
  · obtain rfl := eq_of_beq hreturn
    exact ⟨_, .char _, rfl⟩
  · obtain rfl := eq_of_beq htab
    exact ⟨_, .char _, rfl⟩
  · have hunit : hexUnit? '0' '0' (hexDigit (c.toNat / 16)) (hexDigit c.toNat) =
        some c.toNat := by
      have hzero : hexValue? '0' = some 0 := rfl
      rw [hexUnit?, ← hexDigit_mod c.toNat, hexValue?_hexDigit _ (by omega),
        hexValue?_hexDigit _ (by omega), hzero]
      simp
      omega
    refine ⟨_, .unit hcontrol, ?_⟩
    show readPieces ('\\' :: 'u' :: '0' :: '0' :: hexDigit (c.toNat / 16) :: hexDigit c.toNat ::
      rest) = _
    rw [readPieces, hunit]
  · refine ⟨_, .char c, ?_⟩
    show readPieces (c :: rest) = _
    rw [readPieces.eq_def]
    split
    next heq => cases heq
    next heq => exact absurd (beq_of_eq (List.cons.inj heq).1) hquote
    next heq => exact absurd (beq_of_eq (List.cons.inj heq).1) hbackslash
    next heq => exact absurd (beq_of_eq (List.cons.inj heq).1) hbackslash
    next heq =>
      obtain ⟨rfl, rfl⟩ := List.cons.inj heq
      rw [if_neg (by simp_all)]

/-- The escapes of a text are read, piece by piece, as what its characters stand for. -/
theorem exists_readPieces (cs rest : List Char) :
    ∃ pieces, List.Forall₂ StandsFor pieces cs ∧
      readPieces (cs.flatMap escape ++ '"' :: rest) = some (pieces, rest) := by
  induction cs with
  | nil => exact ⟨[], .nil, rfl⟩
  | cons c cs ih =>
    obtain ⟨pieces, hpieces, hrest⟩ := ih
    obtain ⟨p, hp, hread⟩ := exists_readPieces_escape c (cs.flatMap escape ++ '"' :: rest)
    refine ⟨p :: pieces, .cons hp hpieces, ?_⟩
    rw [List.flatMap_cons, List.append_assoc, hread, hrest]
    rfl

/-- Pieces spell the characters that they stand for. -/
theorem spell?_of_standsFor {pieces : List Piece} {cs : List Char}
    (h : List.Forall₂ StandsFor pieces cs) : spell? pieces = some cs := by
  induction h with
  | nil => rfl
  | @cons p c pieces cs hp hrest ih =>
    cases hp with
    | char => rw [spell?, ih]; rfl
    | unit hc =>
      -- A control character is no half of a surrogate pair, whatever follows it.
      have hhigh : (decide (0xD800 ≤ c.toNat) && decide (c.toNat < 0xDC00)) = false := by
        simp; omega
      have hlow : (decide (0xDC00 ≤ c.toNat) && decide (c.toNat < 0xE000)) = false := by
        simp; omega
      have hany : (decide (0xD800 ≤ c.toNat) && decide (c.toNat < 0xE000)) = false := by
        simp; omega
      cases hrest with
      | nil =>
        rw [spell?, hany, ih, Char.ofNat_toNat]
        · rfl
        · exact nofun
      | cons hp' _ =>
        cases hp' with
        | char =>
          rw [spell?, hany, ih, Char.ofNat_toNat]
          · rfl
          · exact nofun
        | unit hc' =>
          rw [spell?, hhigh, hlow, ih, Char.ofNat_toNat]
          rfl

/-- **A string reads back**, whatever is in it. -/
theorem readString_quoted (s : String) (rest : List Char) :
    readString (s.toList.flatMap escape ++ '"' :: rest) = some (some s, rest) := by
  obtain ⟨pieces, hpieces, hread⟩ := exists_readPieces s.toList rest
  rw [readString, hread, Option.map_some, spell?_of_standsFor hpieces, Option.map_some,
    String.ofList_toList]

/-! ### Documents -/

mutual

/-- The numerals of a document keep to the grammar, and its strings spell texts. -/
def WellFormed : Json → Prop
  | number n => n.WellFormed
  | string s => s.isSome = true
  | array items => WellFormedItems items
  | object members => WellFormedMembers members
  | _ => True
termination_by structural j => j

/-- All items of an array are well formed. -/
def WellFormedItems : List Json → Prop
  | [] => True
  | item :: rest => WellFormed item ∧ WellFormedItems rest
termination_by structural items => items

/-- The keys of an object spell texts, and its values are well formed. -/
def WellFormedMembers : List (Option String × Json) → Prop
  | [] => True
  | m :: rest => m.1.isSome = true ∧ WellFormed m.2 ∧ WellFormedMembers rest
termination_by structural members => members

end

/-- A list of well-formed documents is well formed. -/
theorem wellFormed_array {items : List Json} (h : ∀ j ∈ items, j.WellFormed) :
    (array items).WellFormed := by
  show WellFormedItems items
  induction items with
  | nil => trivial
  | cons item rest ih =>
    exact ⟨h item List.mem_cons_self, ih fun j hj ↦ h j (List.mem_cons_of_mem item hj)⟩

/-- A record of well-formed documents is well formed. -/
theorem wellFormed_record {members : List (String × Json)} (h : ∀ m ∈ members, m.2.WellFormed) :
    (record members).WellFormed := by
  show WellFormedMembers (members.map fun m ↦ (some m.1, m.2))
  induction members with
  | nil => trivial
  | cons m rest ih =>
    exact ⟨rfl, h m List.mem_cons_self, ih fun m' hm' ↦ h m' (List.mem_cons_of_mem m hm')⟩

mutual

/-- How many parts a document has. -/
def steps : Json → Nat
  | array items => 1 + stepsOfItems items
  | object members => 1 + stepsOfMembers members
  | _ => 1
termination_by structural j => j

/-- How many parts the items of an array have. -/
def stepsOfItems : List Json → Nat
  | [] => 0
  | item :: rest => 1 + steps item + stepsOfItems rest
termination_by structural items => items

/-- How many parts the members of an object have. -/
def stepsOfMembers : List (Option String × Json) → Nat
  | [] => 0
  | m :: rest => 1 + steps m.2 + stepsOfMembers rest
termination_by structural members => members

end

/-! ### What is written -/

theorem indentedChars_array (level : Nat) (item : Json) (items : List Json) (rest : List Char) :
    indentedChars level (.array (item :: items)) rest =
      '[' :: (newline (level + 1) ++ indentedChars (level + 1) item
        (indentedItems (level + 1) items (newline level ++ ']' :: rest))) :=
  rfl

theorem indentedItems_cons (level : Nat) (item : Json) (items : List Json) (rest : List Char) :
    indentedItems level (item :: items) rest =
      ',' :: (newline level ++ indentedChars level item (indentedItems level items rest)) :=
  rfl

/-- What is written of a member, in front of what follows it. -/
def memberChars (level : Nat) (m : Option String × Json) (rest : List Char) : List Char :=
  stringChars m.1 ++ ':' :: ' ' :: indentedChars level m.2 rest

theorem indentedChars_object (level : Nat) (m : Option String × Json)
    (members : List (Option String × Json)) (rest : List Char) :
    indentedChars level (.object (m :: members)) rest =
      '{' :: (newline (level + 1) ++ memberChars (level + 1) m
        (indentedMembers (level + 1) members (newline level ++ '}' :: rest))) :=
  congrArg ('{' :: ·) (List.append_assoc _ _ _)

theorem indentedMembers_cons (level : Nat) (m : Option String × Json)
    (members : List (Option String × Json)) (rest : List Char) :
    indentedMembers level (m :: members) rest =
      ',' :: (newline level ++ memberChars level m (indentedMembers level members rest)) :=
  congrArg (',' :: ·) (List.append_assoc _ _ _)

/-- What it takes for a document to be read back from the text that is written of it at a level of
nesting, after any white space and in front of what cannot go on with a numeral. -/
structure ReadsBack (level : Nat) (j : Json) : Prop where
  /-- The text begins with a character that is no white space and does not close an array. -/
  starts : ∀ rest, ∃ c cs, indentedChars level j rest = c :: cs ∧ isBlank c = false ∧ c ≠ ']'
  reads : ∀ rest fuel cs, EndsNumeral rest → j.steps ≤ fuel →
    skipBlanks cs = indentedChars level j rest → readValue fuel cs = some (j, rest)

/-- A line break and the indentation behind it are skipped. -/
theorem skipBlanks_newline (level : Nat) {cs : List Char} (h : skipBlanks cs = cs) :
    skipBlanks (newline level ++ cs) = cs := by
  have hblank : ∀ c ∈ newline level, isBlank c = true := by
    intro c hc
    rcases List.mem_cons.1 hc with rfl | hc
    · rfl
    · obtain rfl := List.eq_of_mem_replicate hc
      rfl
  rw [skipBlanks, List.dropWhile_append_of_pos hblank]
  exact h

/-- There is no space in front of what is written of a document. -/
theorem ReadsBack.skipBlanks {level : Nat} {j : Json} (h : ReadsBack level j)
    (rest : List Char) : skipBlanks (indentedChars level j rest) = indentedChars level j rest := by
  obtain ⟨c, cs, hchars, hblank, -⟩ := h.starts rest
  rw [hchars, Json.skipBlanks, List.dropWhile_cons, hblank]
  rfl

/-- A line break ends a numeral. -/
theorem endsNumeral_newline (level : Nat) (rest : List Char) :
    EndsNumeral (newline level ++ rest) := by
  rintro c hc
  obtain rfl : '\n' = c := Option.some.inj hc
  decide

/-- A comma ends a numeral. -/
theorem endsNumeral_comma (rest : List Char) : EndsNumeral (',' :: rest) := by
  rintro c hc
  obtain rfl : ',' = c := Option.some.inj hc
  decide

/-! ### Parts of a document -/

/-- The document null is read back. -/
theorem readsBack_null (level : Nat) : ReadsBack level .null := by
  refine ⟨fun rest ↦ ⟨_, _, rfl, by decide⟩, fun rest fuel cs hrest hfuel hcs ↦ ?_⟩
  obtain ⟨fuel, rfl⟩ : ∃ k, fuel = k + 1 := Nat.exists_eq_add_of_le' hfuel
  rw [readValue, hcs]
  rfl

/-- A truth value is read back. -/
theorem readsBack_bool (flag : Bool) (level : Nat) : ReadsBack level (.bool flag) := by
  constructor
  · intro rest
    cases flag <;> exact ⟨_, _, rfl, by decide⟩
  · intro rest fuel cs hrest hfuel hcs
    obtain ⟨fuel, rfl⟩ : ∃ k, fuel = k + 1 := Nat.exists_eq_add_of_le' hfuel
    rw [readValue, hcs]
    cases flag <;> rfl

/-- A well-formed numeral is read back. -/
theorem readsBack_number {n : Numeral} (hn : n.WellFormed) (level : Nat) :
    ReadsBack level (.number n) := by
  obtain ⟨c, tail, hchars, hc⟩ := hn.exists_chars
  refine ⟨fun rest ↦ ⟨c, tail ++ rest, congrArg (· ++ rest) hchars, ?_⟩,
    fun rest fuel cs hrest hfuel hcs ↦ ?_⟩
  · have hblank : isBlank c = false := by
      simp [isBlank, ne_of_start hc (d := ' '), ne_of_start hc (d := '\n'),
        ne_of_start hc (d := '\t'), ne_of_start hc (d := '\r'), isDigit]
    exact ⟨hblank, ne_of_start hc (by decide) (by decide)⟩
  · have hstart : n.chars ++ rest = c :: (tail ++ rest) := congrArg (· ++ rest) hchars
    obtain ⟨fuel, rfl⟩ : ∃ k, fuel = k + 1 := Nat.exists_eq_add_of_le' hfuel
    rw [readValue_of_numeral (hcs.trans hstart) hc, ← hstart, readNumeral_chars hn hrest]
    rfl

theorem stringChars_append (key : String) (rest : List Char) :
    stringChars (some key) ++ rest = '"' :: (key.toList.flatMap escape ++ '"' :: rest) := by
  simp [stringChars, quoted]

/-- A text is read back. -/
theorem readsBack_string (s : String) (level : Nat) : ReadsBack level (.string (some s)) := by
  refine ⟨fun rest ↦ ⟨_, _, rfl, by decide⟩, fun rest fuel cs hrest hfuel hcs ↦ ?_⟩
  obtain ⟨fuel, rfl⟩ : ∃ k, fuel = k + 1 := Nat.exists_eq_add_of_le' hfuel
  have hcs' : skipBlanks cs = _ := hcs.trans (stringChars_append s rest)
  rw [readValue, hcs']
  show (readString _).map _ = _
  rw [readString_quoted]
  rfl

/-- A bracket with anything but its counterpart behind it opens a list with items. -/
theorem readValue_of_bracket {fuel : Nat} {cs rest tail : List Char} {c : Char}
    (hcs : skipBlanks cs = '[' :: rest) (hrest : skipBlanks rest = c :: tail) (hc : c ≠ ']') :
    readValue (fuel + 1) cs = (readItems fuel (c :: tail)).map fun r ↦ (array r.1, r.2) := by
  rw [readValue, hcs]
  conv_lhs => whnf
  rw [hrest]
  split
  next heq => exact absurd (List.cons.inj heq).1 hc
  next => rfl

/-- A brace with anything but its counterpart behind it opens an object with members. -/
theorem readValue_of_brace {fuel : Nat} {cs rest tail : List Char} {c : Char}
    (hcs : skipBlanks cs = '{' :: rest) (hrest : skipBlanks rest = c :: tail) (hc : c ≠ '}') :
    readValue (fuel + 1) cs = (readMembers fuel (c :: tail)).map fun r ↦ (object r.1, r.2) := by
  rw [readValue, hcs]
  conv_lhs => whnf
  rw [hrest]
  split
  next heq => exact absurd (List.cons.inj heq).1 hc
  next => rfl

/-- Items that read back, at least one, read back up to the closing bracket. -/
theorem readItems_of_readsBack {level : Nat} (closing : Nat) {items : List Json} :
    ∀ {item : Json}, (∀ j ∈ item :: items, ReadsBack level j) → ∀ fuel cs rest,
      stepsOfItems (item :: items) ≤ fuel →
      skipBlanks cs =
        indentedChars level item (indentedItems level items (newline closing ++ ']' :: rest)) →
      readItems fuel cs = some (item :: items, rest) := by
  induction items with
  | nil =>
    intro item hback fuel cs rest hfuel hcs
    rw [stepsOfItems, stepsOfItems] at hfuel
    obtain ⟨fuel, rfl⟩ : ∃ k, fuel = k + 1 := Nat.exists_eq_add_of_le' (by omega)
    have hread := (hback item List.mem_cons_self).reads _ fuel cs
      (endsNumeral_newline closing _) (by omega) hcs
    rw [readItems, hread]
    dsimp only
    rw [skipBlanks_newline closing rfl]
    rfl
  | cons next items ih =>
    intro item hback fuel cs rest hfuel hcs
    rw [stepsOfItems] at hfuel
    obtain ⟨fuel, rfl⟩ : ∃ k, fuel = k + 1 := Nat.exists_eq_add_of_le' (by omega)
    have hread := (hback item List.mem_cons_self).reads _ fuel cs
      (endsNumeral_comma _) (by omega) hcs
    have hnext := hback next (List.mem_cons_of_mem item List.mem_cons_self)
    have hlater := ih (fun j hj ↦ hback j (List.mem_cons_of_mem item hj)) fuel _ rest (by omega)
      (skipBlanks_newline level (hnext.skipBlanks _))
    rw [readItems, hread]
    show Option.map _ (readItems fuel _) = _
    rw [hlater]
    rfl

/-- **An array reads back** if its items do. -/
theorem readsBack_array {level : Nat} {items : List Json}
    (hback : ∀ j ∈ items, ReadsBack (level + 1) j) : ReadsBack level (.array items) := by
  constructor
  · intro rest
    cases items <;> exact ⟨_, _, rfl, by decide⟩
  · intro rest fuel cs hrest hfuel hcs
    rw [steps] at hfuel
    obtain ⟨fuel, rfl⟩ : ∃ k, fuel = k + 1 := Nat.exists_eq_add_of_le' (by omega)
    cases items with
    | nil =>
      rw [readValue, hcs]
      rfl
    | cons item items =>
      have hitem := hback item List.mem_cons_self
      have hread := readItems_of_readsBack level hback fuel _ rest (by omega) (hitem.skipBlanks _)
      obtain ⟨c, tail, hchars, -, hclose⟩ := hitem.starts
        (indentedItems (level + 1) items (newline level ++ ']' :: rest))
      have hskip := skipBlanks_newline (level + 1) (hitem.skipBlanks
        (indentedItems (level + 1) items (newline level ++ ']' :: rest)))
      rw [hchars] at hread hskip
      rw [indentedChars_array, hchars] at hcs
      rw [readValue_of_bracket hcs hskip hclose, hread]
      rfl

/-- A key that spells a text, and a value that reads back. -/
def MemberReadsBack (level : Nat) (m : Option String × Json) : Prop :=
  m.1.isSome = true ∧ ReadsBack level m.2

theorem skipBlanks_memberChars (level : Nat) (m : Option String × Json) (rest : List Char) :
    skipBlanks (memberChars level m rest) = memberChars level m rest := rfl

/-- The key of a member, and its value up to what follows it. -/
theorem readMembers_of_memberChars {level : Nat} {m : Option String × Json}
    (hm : MemberReadsBack level m) {fuel : Nat} {cs rest : List Char} (hrest : EndsNumeral rest)
    (hfuel : m.2.steps ≤ fuel) (hcs : skipBlanks cs = memberChars level m rest) :
    readMembers (fuel + 1) cs =
      match skipBlanks rest with
      | ',' :: rest => (readMembers fuel rest).map fun r ↦ (m :: r.1, r.2)
      | '}' :: rest => some ([m], rest)
      | _ => none := by
  obtain ⟨key, value⟩ := m
  obtain ⟨hkey, hvalue⟩ := hm
  obtain ⟨key, rfl⟩ := Option.isSome_iff_exists.1 hkey
  have hread := hvalue.reads rest fuel (' ' :: indentedChars level value rest) hrest hfuel
    (hvalue.skipBlanks rest)
  rw [memberChars, stringChars_append] at hcs
  rw [readMembers, hcs]
  conv_lhs => whnf
  rw [readString_quoted]
  conv_lhs => whnf
  rewrite [hread]
  rfl

/-- Members that read back, at least one, read back up to the closing brace. -/
theorem readMembers_of_readsBack {level : Nat} (closing : Nat)
    {members : List (Option String × Json)} :
    ∀ {m : Option String × Json}, (∀ m' ∈ m :: members, MemberReadsBack level m') →
      ∀ fuel cs rest, stepsOfMembers (m :: members) ≤ fuel →
      skipBlanks cs =
        memberChars level m (indentedMembers level members (newline closing ++ '}' :: rest)) →
      readMembers fuel cs = some (m :: members, rest) := by
  induction members with
  | nil =>
    intro m hback fuel cs rest hfuel hcs
    rw [stepsOfMembers, stepsOfMembers] at hfuel
    obtain ⟨fuel, rfl⟩ : ∃ k, fuel = k + 1 := Nat.exists_eq_add_of_le' (by omega)
    rw [readMembers_of_memberChars (hback m List.mem_cons_self) (endsNumeral_newline closing _)
      (by omega) hcs, skipBlanks_newline closing rfl]
    rfl
  | cons next members ih =>
    intro m hback fuel cs rest hfuel hcs
    rw [stepsOfMembers] at hfuel
    rw [indentedMembers_cons] at hcs
    obtain ⟨fuel, rfl⟩ : ∃ k, fuel = k + 1 := Nat.exists_eq_add_of_le' (by omega)
    have hlater := ih (fun m' hm' ↦ hback m' (List.mem_cons_of_mem m hm')) fuel _ rest (by omega)
      (skipBlanks_newline level (skipBlanks_memberChars level next _))
    rw [readMembers_of_memberChars (hback m List.mem_cons_self) (endsNumeral_comma _)
      (by omega) hcs]
    show Option.map _ (readMembers fuel _) = _
    rw [hlater]
    rfl

/-- **An object reads back** if its members do. -/
theorem readsBack_object {level : Nat} {members : List (Option String × Json)}
    (hback : ∀ m ∈ members, MemberReadsBack (level + 1) m) : ReadsBack level (.object members) := by
  constructor
  · intro rest
    cases members <;> exact ⟨_, _, rfl, by decide⟩
  · intro rest fuel cs hrest hfuel hcs
    rw [steps] at hfuel
    obtain ⟨fuel, rfl⟩ : ∃ k, fuel = k + 1 := Nat.exists_eq_add_of_le' (by omega)
    cases members with
    | nil =>
      rw [readValue, hcs]
      rfl
    | cons m members =>
      have hread := readMembers_of_readsBack level hback fuel _ rest (by omega)
        (skipBlanks_memberChars (level + 1) m _)
      have hskip := skipBlanks_newline (level + 1) (skipBlanks_memberChars (level + 1) m
        (indentedMembers (level + 1) members (newline level ++ '}' :: rest)))
      rw [indentedChars_object] at hcs
      rw [readValue_of_brace hcs hskip (by decide)]
      exact congrArg (Option.map fun r ↦ (object r.1, r.2)) hread

/-! ### Whole documents -/

mutual

/-- **A well-formed document reads back**, at any level. -/
theorem readsBack : ∀ (j : Json), j.WellFormed → ∀ level, ReadsBack level j
  | .null, _, level => readsBack_null level
  | .bool flag, _, level => readsBack_bool flag level
  | .number _, h, level => readsBack_number h level
  | .string (some s), _, level => readsBack_string s level
  | .array items, h, level => readsBack_array (readsBackItems items h (level + 1))
  | .object members, h, level => readsBack_object (readsBackMembers members h (level + 1))

/-- The same for the items of a list. -/
theorem readsBackItems : ∀ (items : List Json), WellFormedItems items → ∀ level,
    ∀ j ∈ items, ReadsBack level j
  | [], _, _ => List.forall_mem_nil _
  | item :: rest, h, level =>
    List.forall_mem_cons.2 ⟨readsBack item h.1 level, readsBackItems rest h.2 level⟩

/-- The same for the members of an object. -/
theorem readsBackMembers : ∀ (members : List (Option String × Json)), WellFormedMembers members →
    ∀ level, ∀ m ∈ members, MemberReadsBack level m
  | [], _, _ => List.forall_mem_nil _
  | m :: rest, h, level =>
    List.forall_mem_cons.2 ⟨⟨h.1, readsBack m.2 h.2.1 level⟩, readsBackMembers rest h.2.2 level⟩

end

/-! ### Fuel -/

/-- A well-formed numeral is written with one character at least. -/
theorem length_pos_chars {n : Numeral} (hn : n.WellFormed) : 0 < n.chars.length := by
  obtain ⟨c, cs, hchars, -⟩ := hn.exists_chars
  rw [hchars]
  exact Nat.succ_pos _

mutual

/-- **There are at most twice as many parts as characters.** -/
theorem steps_le : ∀ (j : Json), j.WellFormed → ∀ level rest,
    j.steps + 2 * rest.length ≤ 2 * (indentedChars level j rest).length
  | .null, _, level, rest => by
    show 1 + 2 * rest.length ≤ 2 * (rest.length + 4)
    omega
  | .bool true, _, level, rest => by
    show 1 + 2 * rest.length ≤ 2 * (rest.length + 4)
    omega
  | .bool false, _, level, rest => by
    show 1 + 2 * rest.length ≤ 2 * (rest.length + 5)
    omega
  | .number n, h, level, rest => by
    have hpos := length_pos_chars (n := n) h
    show 1 + 2 * rest.length ≤ 2 * (n.chars ++ rest).length
    rw [List.length_append]
    omega
  | .string s, _, level, rest => by
    show 1 + 2 * rest.length ≤ 2 * (stringChars s ++ rest).length
    simp only [stringChars, quoted, List.length_cons, List.length_append]
    omega
  | .array [], _, level, rest => by
    show 1 + 2 * rest.length ≤ 2 * (rest.length + 2)
    omega
  | .array (item :: items), h, level, rest => by
    have hitem := steps_le item h.1 (level + 1)
      (indentedItems (level + 1) items (newline level ++ ']' :: rest))
    have hitems := stepsOfItems_le items h.2 (level + 1) (newline level ++ ']' :: rest)
    simp only [steps, stepsOfItems, indentedChars_array, List.length_cons, List.length_append]
      at hitem hitems ⊢
    omega
  | .object [], _, level, rest => by
    show 1 + 2 * rest.length ≤ 2 * (rest.length + 2)
    omega
  | .object (m :: members), h, level, rest => by
    have hvalue := steps_le m.2 h.2.1 (level + 1)
      (indentedMembers (level + 1) members (newline level ++ '}' :: rest))
    have hmembers := stepsOfMembers_le members h.2.2 (level + 1) (newline level ++ '}' :: rest)
    simp only [steps, stepsOfMembers, indentedChars_object, memberChars, List.length_cons,
      List.length_append] at hvalue hmembers ⊢
    omega

/-- The same for the items of a list. -/
theorem stepsOfItems_le : ∀ (items : List Json), WellFormedItems items → ∀ level rest,
    stepsOfItems items + 2 * rest.length ≤ 2 * (indentedItems level items rest).length
  | [], _, level, rest => Nat.le_of_eq (Nat.zero_add _)
  | item :: items, h, level, rest => by
    have hitem := steps_le item h.1 level (indentedItems level items rest)
    have hitems := stepsOfItems_le items h.2 level rest
    simp only [stepsOfItems, indentedItems_cons, List.length_cons, List.length_append]
    omega

/-- The same for the members of an object. -/
theorem stepsOfMembers_le : ∀ (members : List (Option String × Json)),
    WellFormedMembers members → ∀ level rest,
      stepsOfMembers members + 2 * rest.length ≤ 2 * (indentedMembers level members rest).length
  | [], _, level, rest => Nat.le_of_eq (Nat.zero_add _)
  | m :: members, h, level, rest => by
    have hvalue := steps_le m.2 h.2.1 level (indentedMembers level members rest)
    have hmembers := stepsOfMembers_le members h.2.2 level rest
    simp only [stepsOfMembers, indentedMembers_cons, memberChars, List.length_cons,
      List.length_append]
    omega

end

/-- **The indented text of a well-formed document reads back.** -/
theorem parse?_indented {j : Json} (h : j.WellFormed) : parse? j.indented = some j := by
  have hends : EndsNumeral [] := nofun
  have hfuel : j.steps ≤ fuelFor (indentedChars 0 j []) := by
    have hle := steps_le j h 0 []
    rw [List.length_nil] at hle
    rw [fuelFor]
    omega
  have hread := (readsBack j h 0).reads [] _ _ hends hfuel ((readsBack j h 0).skipBlanks [])
  rw [parse?, indented, String.toList_ofList, hread]
  rfl

end CueFlow.Json
