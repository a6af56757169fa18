import Mathlib.Data.List.Basic
import Mathlib.Data.List.Infix
import CueFlow.Toml.Quoting
import CueFlow.Toml.Text
/-!
# Strings of TOML texts

A string is written in one of four forms, and read from each of them (`readString_quoted`), as long
as no other quote follows. In the long forms quotes stand for themselves, and only three in a row
end the string. So what is carried along these is how many quotes have just been passed
(`readLongBasic_escapeAll`), or that there never are three (`readLongLiteral_append`).
-/

namespace CueFlow.Toml

/-! ### Escapes -/

/-- What stands for a character within double quotes: itself, or a backslash with what is read as
the character and does not begin like the end of a line. -/
inductive Spells (c : Char) : List Char → Prop
  | plain (hplain : isPlain c = true) (hquote : c ≠ '"') (hslash : c ≠ '\\') : Spells c [c]
  | escape {first : Char} {body : List Char}
      (hread : ∀ rest, readEscape (first :: (body ++ rest)) = some (c, rest))
      (hfirst : isBlank first = false ∧ first ≠ '\n' ∧ first ≠ '\r') :
      Spells c ('\\' :: first :: body)

/-- Four hexadecimal digits spell any character that can only be written as an escape. -/
theorem hexChar?_hexDigit {c : Char} (hc : c.toNat < 0x80) :
    hexChar? ['0', '0', (hexDigit (c.toNat / 16)).toUpper, (hexDigit c.toNat).toUpper] =
      some c := by
  have hall : ∀ n : Fin 0x80,
      hexChar? ['0', '0', (hexDigit (n.val / 16)).toUpper, (hexDigit n.val).toUpper] =
        some (Char.ofNat n.val) := by decide +kernel
  have hread := hall ⟨c.toNat, hc⟩
  rwa [Char.ofNat_toNat] at hread

/-- What needs no escape may stand for itself, but for a line break. -/
theorem isPlain_of_needsEscape_eq_false {c : Char} (h : needsEscape c = false) (hbreak : c ≠ '\n') :
    isPlain c = true := by
  simp only [needsEscape, isPlain, Bool.or_eq_false_iff, Bool.and_eq_false_iff, bne_eq_false_iff_eq,
    decide_eq_false_iff_not, beq_eq_false_iff_ne, Bool.or_eq_true, Bool.and_eq_true, beq_iff_eq,
    decide_eq_true_eq, bne_iff_ne] at h ⊢
  obtain ⟨(hge | htab) | hbreak', hdelete⟩ := h
  · exact .inr ⟨Nat.le_of_not_lt hge, hdelete⟩
  · exact .inl htab
  · exact absurd hbreak' hbreak

/-- The escape of a character spells it, unless it is a quotation mark or a line break that stays as
it is. -/
theorem spells_escape {long : Bool} {c : Char} (hquote : c ≠ '"')
    (hbreak : long = true → c ≠ '\n') : Spells c (escape long c) := by
  rw [escape]
  split_ifs with hb ht hn hlong hf hr hslash hescape
  · obtain rfl := eq_of_beq hb
    exact .escape (fun _ ↦ rfl) (by decide)
  · obtain rfl := eq_of_beq ht
    exact .escape (fun _ ↦ rfl) (by decide)
  · exact absurd (eq_of_beq hn) (hbreak hlong)
  · obtain rfl := eq_of_beq hn
    exact .escape (fun _ ↦ rfl) (by decide)
  · obtain rfl := eq_of_beq hf
    exact .escape (fun _ ↦ rfl) (by decide)
  · obtain rfl := eq_of_beq hr
    exact .escape (fun _ ↦ rfl) (by decide)
  · obtain rfl := eq_of_beq hslash
    exact .escape (fun _ ↦ rfl) (by decide)
  · have hlt : c.toNat < 0x80 := by
      rw [needsEscape] at hescape
      simp at hescape
      omega
    refine .escape (fun rest ↦ ?_) (by decide)
    show (hexChar? ['0', '0', _, _]).bind _ = _
    rw [hexChar?_hexDigit hlt]
    rfl
  · exact .plain (isPlain_of_needsEscape_eq_false (Bool.eq_false_iff.2 hescape) (by simpa using hn))
      hquote (by simpa using hslash)

/-- A quotation mark behind a backslash spells a quotation mark. -/
theorem spells_quote : Spells '"' ['\\', '"'] :=
  .escape (fun _ ↦ rfl) (by decide)

theorem isPlain_ne_break {c : Char} (h : isPlain c = true) : c ≠ '\n' ∧ c ≠ '\r' := by
  constructor <;>
  · rintro rfl
    exact absurd h (by decide)

/-- What does not begin with either character of a line break does not begin with a line break. -/
theorem lineBreak?_cons {c : Char} (h : c ≠ '\n' ∧ c ≠ '\r') (cs : List Char) :
    lineBreak? (c :: cs) = none := by
  rw [lineBreak?.eq_def]
  split
  next heq => exact absurd (List.cons.inj heq).1 h.1
  next heq => exact absurd (List.cons.inj heq).1 h.2
  next => rfl

/-- What does not begin with this quote. -/
def OtherThan (quote : Char) (cs : List Char) : Prop := ∀ c ∈ cs.head?, c ≠ quote

/-- What spells a character does not begin with a quotation mark. -/
theorem Spells.otherThan {c : Char} {written : List Char} (h : Spells c written)
    (cs : List Char) : OtherThan '"' (written ++ cs) := by
  cases h with
  | plain hplain hquote hslash =>
    rintro _ ⟨⟩
    exact hquote
  | escape =>
    rintro _ ⟨⟩
    decide

/-- What spells a character does not begin with a line break. -/
theorem Spells.lineBreak? {c : Char} {written : List Char} (h : Spells c written)
    (cs : List Char) : lineBreak? (written ++ cs) = none := by
  cases h with
  | plain hplain hquote hslash => exact lineBreak?_cons (isPlain_ne_break hplain) cs
  | escape => rfl

/-! ### In double quotes -/

/-- A quotation mark ends a text. -/
theorem readBasic_quote (fuel : ℕ) (rest : List Char) :
    readBasic fuel ('"' :: rest) = some ([], rest) := by
  cases fuel <;> rfl

/-- What spells a character is read as this character, and the text goes on. -/
theorem readBasic_append {c : Char} {written : List Char} (h : Spells c written) (fuel : ℕ)
    (cs : List Char) :
    readBasic (fuel + 1) (written ++ cs) = (readBasic fuel cs).map fun r ↦ (c :: r.1, r.2) := by
  cases h with
  | plain hplain hquote hslash =>
    rw [List.singleton_append, readBasic, if_pos hplain]
    · exact fun h ↦ hquote h
    · exact fun h ↦ hslash h
  | @escape first body hread hfirst =>
    show (readEscape (first :: (body ++ cs))).bind _ = _
    rw [hread]
    show (readBasic fuel cs).bind _ = _
    cases readBasic fuel cs <;> rfl

/-- **On one line** escaped characters are read up to the closing quote. -/
theorem readBasic_escapeAll {cs rest : List Char} {fuel : ℕ} (hfuel : cs.length ≤ fuel) :
    readBasic fuel (escapeAll false 0 0 cs ++ '"' :: rest) = some (cs, rest) := by
  induction cs generalizing fuel with
  | nil => exact readBasic_quote fuel rest
  | cons c cs ih =>
    obtain ⟨fuel, rfl⟩ := Nat.exists_eq_add_one_of_ne_zero (Nat.ne_zero_of_lt hfuel)
    have ih := ih (Nat.le_of_succ_le_succ hfuel)
    rw [escapeAll]
    split
    next hquote =>
      obtain rfl := eq_of_beq hquote
      have hread := readBasic_append spells_quote fuel (escapeAll false 0 0 cs ++ '"' :: rest)
      rw [ih] at hread
      exact hread
    next hquote =>
      have hspells : Spells c (escape false c) := spells_escape (by simpa using hquote) nofun
      rw [List.append_assoc, readBasic_append hspells, ih]
      rfl

/-! ### In three double quotes -/

/-- Up to two quotes behind the closing ones belong to the string. -/
theorem closeLong_append {quote : Char} {count : ℕ} (hcount : count ≤ 2) {rest : List Char}
    (hrest : OtherThan quote rest) :
    closeLong quote (List.replicate count quote ++ rest) = (List.replicate count quote, rest) := by
  have hextra : ((List.replicate count quote ++ rest).take 2).takeWhile (· == quote) =
      List.replicate count quote := by
    obtain rfl | rfl | rfl : count = 0 ∨ count = 1 ∨ count = 2 := by omega
    all_goals
      cases rest with
      | nil => simp [List.replicate]
      | cons c cs => simp [List.replicate, hrest c rfl]
  rw [closeLong, hextra, List.length_replicate, List.drop_left' List.length_replicate]

/-- Three quotation marks end a text, and up to two in front of them belong to it. -/
theorem readLongBasic_quotes (fuel : ℕ) {count : ℕ} (hcount : count ≤ 2) {rest : List Char}
    (hrest : OtherThan '"' rest) :
    readLongBasic fuel false (List.replicate (count + 3) '"' ++ rest) =
      some (List.replicate count '"', rest) := by
  have hchars : List.replicate (count + 3) '"' ++ rest =
      '"' :: '"' :: '"' :: (List.replicate count '"' ++ rest) := rfl
  rw [hchars, ← closeLong_append hcount hrest]
  cases fuel <;> rfl

/-- A quote stands for itself, unless two more follow. -/
theorem readLongBasic_quote (fuel : ℕ) {cs : List Char} (hcs : ∀ rest, cs ≠ '"' :: '"' :: rest) :
    readLongBasic (fuel + 1) false ('"' :: cs) =
      (readLongBasic fuel false cs).map fun r ↦ ('"' :: r.1, r.2) := by
  rw [readLongBasic]
  · rfl
  · exact fun rest _ h ↦ hcs rest h
  · nofun

/-- Up to two quotation marks in a row are read as they are. -/
theorem readLongBasic_replicate {count : ℕ} (hcount : count ≤ 2) (fuel : ℕ) {cs : List Char}
    (hcs : OtherThan '"' cs) :
    readLongBasic (fuel + count) false (List.replicate count '"' ++ cs) =
      (readLongBasic fuel false cs).map fun r ↦ (List.replicate count '"' ++ r.1, r.2) := by
  induction count with
  | zero => simp
  | succ count ih =>
    have hnext : ∀ rest, List.replicate count '"' ++ cs ≠ '"' :: '"' :: rest := by
      intro rest heq
      obtain rfl | rfl : count = 0 ∨ count = 1 := by omega
      · exact hcs '"' (by rw [show cs = _ from heq]; rfl) rfl
      · exact hcs '"' (by rw [show cs = _ from (List.cons.inj heq).2]; rfl) rfl
    rw [List.replicate_succ, List.cons_append, ← Nat.add_assoc, readLongBasic_quote _ hnext,
      ih (Nat.le_of_succ_le hcount), Option.map_map]
    rfl

/-- What spells a character is read as this character between three quotation marks as well. -/
theorem readLongBasic_append {c : Char} {written : List Char} (h : Spells c written) (fuel : ℕ)
    (cs : List Char) :
    readLongBasic (fuel + 1) false (written ++ cs) =
      (readLongBasic fuel false cs).map fun r ↦ (c :: r.1, r.2) := by
  cases h with
  | plain hplain hquote hslash =>
    rw [List.singleton_append, readLongBasic]
    · rw [lineBreak?_cons (isPlain_ne_break hplain)]
      exact if_pos hplain
    · exact fun _ h _ ↦ hquote h
    · exact fun h ↦ hslash h
  | @escape first body hread hfirst =>
    obtain ⟨hblank, hbreak⟩ := hfirst
    have hnone : lineBreak? (skipBlanks (first :: (body ++ cs))) = none := by
      rw [skipBlanks, List.dropWhile_cons_of_neg (by simp [hblank])]
      exact lineBreak?_cons hbreak _
    rw [List.cons_append, readLongBasic, List.cons_append, hnone]
    · show (readEscape (first :: (body ++ cs))).bind _ = _
      rw [hread]
      show (readLongBasic fuel false cs).bind _ = _
      cases readLongBasic fuel false cs <;> rfl

/-- A character other than a quote, escaped or not. -/
theorem readLongBasic_escape {c : Char} (hquote : c ≠ '"') (fuel : ℕ) (cs : List Char) :
    readLongBasic (fuel + 1) false (escape true c ++ cs) =
      (readLongBasic fuel false cs).map fun r ↦ (c :: r.1, r.2) := by
  by_cases hbreak : c = '\n'
  · subst hbreak
    rfl
  · exact readLongBasic_append (spells_escape hquote fun _ ↦ hbreak) fuel cs

/-- An escape does not begin with a quotation mark. -/
theorem otherThan_escape {c : Char} (hquote : c ≠ '"') (cs : List Char) :
    OtherThan '"' (escape true c ++ cs) := by
  by_cases hbreak : c = '\n'
  · subst hbreak
    rintro _ ⟨⟩
    decide
  · have hspells : Spells c (escape true c) := spells_escape hquote fun _ ↦ hbreak
    exact hspells.otherThan cs

/-- A run of quotes ends with what stands for another character, or for an escaped quote. -/
theorem readLongBasic_run {run : ℕ} (hrun : run ≤ 2) {c : Char} {written cs s rest : List Char}
    (hother : OtherThan '"' (written ++ cs)) {fuel : ℕ}
    (hwritten : readLongBasic (fuel + 1) false (written ++ cs) =
      (readLongBasic fuel false cs).map fun r ↦ (c :: r.1, r.2))
    (hcs : readLongBasic fuel false cs = some (s, rest)) :
    readLongBasic (fuel + 1 + run) false (List.replicate run '"' ++ (written ++ cs)) =
      some (List.replicate run '"' ++ c :: s, rest) := by
  rw [readLongBasic_replicate hrun _ hother, hwritten, hcs]
  rfl

/-- **Over several lines** escaped characters are read up to the closing quotes. The quotes in `run`
have been written as they are, directly in front. -/
theorem readLongBasic_escapeAll {cs rest : List Char} (hrest : OtherThan '"' rest) {run fuel : ℕ}
    (hrun : run ≤ 2) (hfuel : run + cs.length ≤ fuel) :
    readLongBasic fuel false
        (List.replicate run '"' ++ (escapeAll true 2 run cs ++ '"' :: '"' :: '"' :: rest)) =
      some (List.replicate run '"' ++ cs, rest) := by
  induction cs generalizing run fuel with
  | nil =>
    have hread := readLongBasic_quotes fuel hrun hrest
    rw [List.replicate_add, List.append_assoc] at hread
    rw [List.append_nil]
    exact hread
  | cons c cs ih =>
    rw [List.length_cons] at hfuel
    by_cases hquote : c = '"' ∧ run < 2
    · obtain ⟨rfl, hlt⟩ := hquote
      have hless : run + 1 + cs.length ≤ fuel := by omega
      have hread := ih hlt hless
      rw [List.replicate_succ', List.append_assoc, List.append_assoc] at hread
      rw [escapeAll, if_pos (beq_self_eq_true '"'), if_pos hlt]
      exact hread
    · obtain ⟨fuel, rfl⟩ : ∃ n, fuel = n + 1 + run := ⟨fuel - 1 - run, by omega⟩
      have hless : 0 + cs.length ≤ fuel := by omega
      have hread := ih (Nat.zero_le 2) hless
      rw [List.replicate_zero, List.nil_append, List.nil_append] at hread
      rw [escapeAll]
      split
      next heq =>
        obtain rfl := eq_of_beq heq
        rw [if_neg fun hlt ↦ hquote ⟨rfl, hlt⟩]
        exact readLongBasic_run hrun (spells_quote.otherThan _)
          (readLongBasic_append spells_quote fuel _) hread
      next hne =>
        have hne : c ≠ '"' := by simpa using hne
        rw [List.append_assoc]
        exact readLongBasic_run hrun (otherThan_escape hne _) (readLongBasic_escape hne fuel _)
          hread

/-! ### In single quotes -/

/-- Plain characters are read as they are up to the quotation mark. -/
theorem readLiteral_append {cs : List Char} (hcs : ∀ c ∈ cs, isPlain c = true ∧ c ≠ '\'')
    (rest : List Char) : readLiteral (cs ++ '\'' :: rest) = some (cs, rest) := by
  induction cs with
  | nil => rfl
  | cons c cs ih =>
    obtain ⟨⟨hplain, hquote⟩, hcs⟩ := List.forall_mem_cons.1 hcs
    rw [List.cons_append, readLiteral, if_pos hplain, ih hcs]
    · rfl
    · exact fun h ↦ hquote h

/-- One step of counting a run: how long it is by now, and how long the longest one. -/
def countRun (c : Char) (run : ℕ × ℕ) (d : Char) : ℕ × ℕ :=
  if d == c then (run.1 + 1, max (run.1 + 1) run.2) else (0, run.2)

theorem longestRun_eq (c : Char) (cs : List Char) :
    longestRun c cs = (cs.foldl (countRun c) (0, 0)).2 := rfl

/-- The longest run found so far does not become shorter. -/
theorem le_foldl_countRun (c : Char) (run : ℕ × ℕ) (cs : List Char) :
    run.2 ≤ (cs.foldl (countRun c) run).2 := by
  induction cs generalizing run with
  | nil => rfl
  | cons d cs ih =>
    refine le_trans ?_ (ih (countRun c run d))
    rw [countRun]
    split
    next => exact le_max_right _ _
    next => rfl

/-- A run is counted in full, whatever was counted before. -/
theorem le_foldl_countRun_replicate (c : Char) (run : ℕ × ℕ) (count : ℕ) :
    run.1 + (count + 1) ≤ ((List.replicate (count + 1) c).foldl (countRun c) run).2 := by
  induction count generalizing run with
  | zero => exact le_trans (le_max_left _ run.2) (le_of_eq (by simp [countRun]))
  | succ count ih =>
    have hcounted : (countRun c run c).1 = run.1 + 1 := by
      rw [countRun, if_pos (beq_self_eq_true c)]
    have hle := ih (countRun c run c)
    rw [hcounted] at hle
    rw [List.replicate_succ, List.foldl_cons]
    omega

/-- A run longer than the longest one occurs nowhere. -/
theorem not_isInfix_of_longestRun_le {c : Char} {cs : List Char} {count : ℕ}
    (h : longestRun c cs ≤ count) : ¬ List.replicate (count + 1) c <:+: cs := by
  rintro ⟨before, behind, rfl⟩
  rw [longestRun_eq, List.foldl_append, List.foldl_append] at h
  have hrun := le_foldl_countRun_replicate c (before.foldl (countRun c) (0, 0)) count
  have hbest := le_foldl_countRun c
    ((List.replicate (count + 1) c).foldl (countRun c) (before.foldl (countRun c) (0, 0))) behind
  omega

/-- Three quotation marks end a literal text, and up to two in front of them belong to it. -/
theorem readLongLiteral_quotes {count : ℕ} (hcount : count ≤ 2) {rest : List Char}
    (hrest : OtherThan '\'' rest) :
    readLongLiteral (List.replicate (count + 3) '\'' ++ rest) =
      some (List.replicate count '\'', rest) := by
  have hchars : List.replicate (count + 3) '\'' ++ rest =
      '\'' :: '\'' :: '\'' :: (List.replicate count '\'' ++ rest) := rfl
  rw [hchars, ← closeLong_append hcount hrest]
  rfl

/-- A plain character or a line break is read as it is, unless it is the first of three quotation
marks. -/
theorem readLongLiteral_cons {c : Char} (hplain : isPlain c = true ∨ c = '\n') {cs : List Char}
    (hcs : c = '\'' → ∀ rest, cs ≠ '\'' :: '\'' :: rest) :
    readLongLiteral (c :: cs) = (readLongLiteral cs).map fun r ↦ (c :: r.1, r.2) := by
  obtain hplain | rfl := hplain
  · rw [readLongLiteral, if_pos hplain]
    · exact fun rest h ↦ hcs h rest
    · exact fun h ↦ (isPlain_ne_break hplain).1 h
    · exact fun _ h _ ↦ (isPlain_ne_break hplain).2 h
  · rfl

/-- Behind one quote there are not two more, if there are no three in a row and not all that is left
are quotes. -/
theorem ne_two_quotes {cs : List Char} (hrun : ¬ List.replicate 3 '\'' <:+: '\'' :: cs)
    (hquotes : '\'' :: cs ≠ List.replicate (cs.length + 1) '\'') (rest rest' : List Char) :
    cs ++ rest ≠ '\'' :: '\'' :: rest' := by
  intro heq
  match cs, heq with
  | [], _ => exact hquotes rfl
  | [d], heq =>
    obtain ⟨rfl, -⟩ := List.cons.inj heq
    exact hquotes rfl
  | d :: e :: cs, heq =>
    obtain ⟨rfl, hnext⟩ := List.cons.inj heq
    obtain ⟨rfl, -⟩ := List.cons.inj hnext
    exact hrun ⟨[], cs, rfl⟩

/-- **Over several lines without escapes** characters are read up to the closing quotes if there are
no three quotes in a row. -/
theorem readLongLiteral_append {cs rest : List Char} (hcs : ∀ c ∈ cs, isPlain c = true ∨ c = '\n')
    (hrun : ¬ List.replicate 3 '\'' <:+: cs) (hrest : OtherThan '\'' rest) :
    readLongLiteral (cs ++ '\'' :: '\'' :: '\'' :: rest) = some (cs, rest) := by
  induction cs with
  | nil => exact readLongLiteral_quotes (Nat.zero_le 2) hrest
  | cons c cs ih =>
    obtain ⟨hplain, htail⟩ := List.forall_mem_cons.1 hcs
    -- Quotes at the very end are only told from the closing ones when all have been read.
    by_cases hquotes : c :: cs = List.replicate (cs.length + 1) '\''
    · have hcount : cs.length + 1 ≤ 2 := by
        by_contra hcount
        refine hrun (hquotes ▸ ⟨[], List.replicate (cs.length - 2) '\'', ?_⟩)
        rw [List.nil_append, ← List.replicate_add]
        congr 1
        omega
      have hread := readLongLiteral_quotes hcount hrest
      rw [List.replicate_add, List.append_assoc, ← hquotes] at hread
      exact hread
    · have hread := ih htail fun h ↦ hrun (h.trans (List.suffix_cons c cs).isInfix)
      rw [List.cons_append, readLongLiteral_cons hplain, hread]
      · rfl
      · rintro rfl
        exact ne_two_quotes hrun hquotes _

/-! ### Any string -/

theorem isPlain_or_break {c : Char} (h : needsEscape c = false) : isPlain c = true ∨ c = '\n' :=
  or_iff_not_imp_right.2 (isPlain_of_needsEscape_eq_false h)

/-- What is put in single quotes needs no escape and has no such quote in it. -/
theorem of_quoting_literal {cs : List Char} (h : quoting cs = .literal) :
    ∀ c ∈ cs, isPlain c = true ∧ c ≠ '\'' := by
  rw [quoting] at h
  split_ifs at h with hbasic hliteral
  intro c hc
  simp only [Bool.and_eq_true, Bool.not_eq_true', List.any_eq_false, Bool.not_eq_true,
    List.contains_eq_mem, decide_eq_false_iff_not] at hliteral
  obtain ⟨⟨hescape, hquote⟩, hbreak⟩ := hliteral
  refine ⟨isPlain_of_needsEscape_eq_false (hescape c hc) ?_, ?_⟩
  · rintro rfl
    exact hbreak hc
  · rintro rfl
    exact hquote hc

/-- What is put in three single quotes needs no escape and has no three such quotes in a row. -/
theorem of_quoting_longLiteral {cs : List Char} (h : quoting cs = .longLiteral) :
    (∀ c ∈ cs, isPlain c = true ∨ c = '\n') ∧ ¬ List.replicate 3 '\'' <:+: cs := by
  rw [quoting] at h
  split_ifs at h with hbasic hliteral hlongBasic hlongLiteral
  simp only [Bool.and_eq_true, Bool.not_eq_true', List.any_eq_false, Bool.not_eq_true,
    decide_eq_true_eq] at hlongLiteral
  obtain ⟨hescape, hrun⟩ := hlongLiteral
  exact ⟨fun c hc ↦ isPlain_or_break (hescape c hc), not_isInfix_of_longestRun_le hrun⟩

/-- The line break that opens a text of several lines is not part of it. -/
theorem dropFirstBreak_append {broken : Bool} {cs : List Char}
    (h : broken = false → lineBreak? cs = none) :
    dropFirstBreak ((if broken then ['\n'] else []) ++ cs) = cs := by
  cases broken with
  | true => rfl
  | false =>
    show (lineBreak? cs).getD cs = cs
    rw [h rfl]
    rfl

/-- A text does not become shorter when it is escaped, so its length serves as fuel. -/
theorem length_le_length_escapeAll (long : Bool) (allowed run : ℕ) (cs : List Char) :
    cs.length ≤ (escapeAll long allowed run cs).length := by
  have hescape : ∀ c, 0 < (escape long c).length := by
    intro c
    rw [escape]
    split_ifs <;> exact Nat.succ_pos _
  induction cs generalizing run with
  | nil => exact Nat.zero_le _
  | cons c cs ih =>
    rw [escapeAll]
    split_ifs with hquote hrun
    · exact Nat.succ_le_succ (ih _)
    · exact Nat.succ_le_succ ((ih 0).trans (Nat.le_succ _))
    · rw [List.length_append, List.length_cons, Nat.add_comm]
      exact Nat.add_le_add (hescape c) (ih 0)

/-- One double quotation mark that is not the first of three opens a text with escapes. -/
theorem readString_double {cs : List Char} (hcs : ∀ rest, cs ≠ '"' :: '"' :: rest) :
    readString ('"' :: cs) =
      (readBasic cs.length cs).map fun r ↦ (String.ofList r.1, r.2) := by
  rw [readString]
  exact hcs

/-- One single quotation mark that is not the first of three opens a literal text. -/
theorem readString_single {cs : List Char} (hcs : ∀ rest, cs ≠ '\'' :: '\'' :: rest) :
    readString ('\'' :: cs) = (readLiteral cs).map fun r ↦ (String.ofList r.1, r.2) := by
  rw [readString]
  exact hcs

/-- Behind one quote there are not two more, if neither the string nor what follows it begins with
one. -/
theorem ne_quotes {quote : Char} {cs rest : List Char} (hcs : OtherThan quote cs)
    (hrest : OtherThan quote rest) (rest' : List Char) :
    cs ++ quote :: rest ≠ quote :: quote :: rest' := by
  intro heq
  cases cs with
  | nil => exact hrest quote (by rw [show rest = _ from (List.cons.inj heq).2]; rfl) rfl
  | cons c cs => exact hcs c rfl (List.cons.inj heq).1

/-- An escaped text does not begin with a bare quotation mark. -/
theorem otherThan_escapeAll (cs : List Char) : OtherThan '"' (escapeAll false 0 0 cs) := by
  cases cs with
  | nil => nofun
  | cons c cs =>
    rw [escapeAll]
    split
    next =>
      rintro _ ⟨⟩
      decide
    next hquote =>
      have hspells : Spells c (escape false c) := spells_escape (by simpa using hquote) nofun
      exact hspells.otherThan _

/-- A text without line breaks has none in front when it is escaped. -/
theorem lineBreak?_escapeAll {cs : List Char} (hbreak : '\n' ∉ cs) (rest : List Char) :
    lineBreak? (escapeAll true 2 0 cs ++ '"' :: rest) = none := by
  cases cs with
  | nil => rfl
  | cons c cs =>
    obtain ⟨hne, -⟩ := List.ne_and_not_mem_of_not_mem_cons hbreak
    rw [escapeAll]
    split
    next => rfl
    next hquote =>
      have hspells : Spells c (escape true c) :=
        spells_escape (by simpa using hquote) fun _ h ↦ hne h.symm
      rw [List.append_assoc]
      exact hspells.lineBreak? _

/-- **A text between three double quotes is read back**, whatever opens its first line. -/
theorem readString_longBasic {first cs rest : List Char} (hrest : OtherThan '"' rest)
    (hdrop : dropFirstBreak (first ++ (escapeAll true 2 0 cs ++ '"' :: '"' :: '"' :: rest)) =
      escapeAll true 2 0 cs ++ '"' :: '"' :: '"' :: rest) :
    readString ('"' :: '"' :: '"' ::
        (first ++ (escapeAll true 2 0 cs ++ '"' :: '"' :: '"' :: rest))) =
      some (String.ofList cs, rest) := by
  have hlength := length_le_length_escapeAll true 2 0 cs
  have hread : ∀ fuel, cs.length ≤ fuel → readLongBasic fuel false
      (escapeAll true 2 0 cs ++ '"' :: '"' :: '"' :: rest) = some (cs, rest) := fun fuel hfuel ↦
    readLongBasic_escapeAll hrest (Nat.zero_le 2) (by rwa [Nat.zero_add])
  show (readLongBasic _ false (dropFirstBreak _)).map _ = _
  rw [hdrop, hread _ (by simp only [List.length_append]; omega)]
  rfl

/-- **A text between three single quotes is read back**, whatever opens its first line. -/
theorem readString_longLiteral {first cs rest : List Char}
    (hcs : ∀ c ∈ cs, isPlain c = true ∨ c = '\n') (hrun : ¬ List.replicate 3 '\'' <:+: cs)
    (hrest : OtherThan '\'' rest)
    (hdrop : dropFirstBreak (first ++ (cs ++ '\'' :: '\'' :: '\'' :: rest)) =
      cs ++ '\'' :: '\'' :: '\'' :: rest) :
    readString ('\'' :: '\'' :: '\'' :: (first ++ (cs ++ '\'' :: '\'' :: '\'' :: rest))) =
      some (String.ofList cs, rest) := by
  show (readLongLiteral (dropFirstBreak _)).map _ = _
  rw [hdrop, readLongLiteral_append hcs hrun hrest]
  rfl

/-- A literal text without line breaks has none in front. -/
theorem lineBreak?_literal {cs : List Char} (hcs : ∀ c ∈ cs, isPlain c = true ∨ c = '\n')
    (hbreak : '\n' ∉ cs) (rest : List Char) : lineBreak? (cs ++ '\'' :: rest) = none := by
  cases cs with
  | nil => rfl
  | cons c cs =>
    obtain ⟨hne, -⟩ := List.ne_and_not_mem_of_not_mem_cons hbreak
    have hplain := (hcs c List.mem_cons_self).resolve_right fun h ↦ hne h.symm
    exact lineBreak?_cons (isPlain_ne_break hplain) _

/-- **A string** is read from what is written of it, up to what does not begin with a quote. -/
theorem readString_quoted (s : String) {rest : List Char} (hdouble : OtherThan '"' rest)
    (hsingle : OtherThan '\'' rest) : readString ((quoted s).toList ++ rest) = some (s, rest) := by
  have hs : String.ofList s.toList = s := String.ofList_toList
  rw [quoted, String.toList_ofList]
  cases hquoting : quoting s.toList with
  | basic =>
    simp only [List.cons_append, List.append_assoc, List.nil_append]
    have hlength := length_le_length_escapeAll false 0 0 s.toList
    rw [readString_double (ne_quotes (otherThan_escapeAll _) hdouble),
      readBasic_escapeAll (by rw [List.length_append]; omega), Option.map_some, hs]
  | literal =>
    simp only [List.cons_append, List.append_assoc, List.nil_append]
    have hcs := of_quoting_literal hquoting
    have hother : OtherThan '\'' s.toList := fun c hc ↦ (hcs c (List.mem_of_mem_head? hc)).2
    rw [readString_single (ne_quotes hother hsingle), readLiteral_append hcs, Option.map_some, hs]
  | longBasic =>
    simp only [List.cons_append, List.append_assoc, List.nil_append]
    rw [readString_longBasic hdouble, hs]
    exact dropFirstBreak_append fun hbreak ↦ lineBreak?_escapeAll (by simpa using hbreak) _
  | longLiteral =>
    simp only [List.cons_append, List.append_assoc, List.nil_append]
    obtain ⟨hcs, hrun⟩ := of_quoting_longLiteral hquoting
    rw [readString_longLiteral hcs hrun hsingle, hs]
    exact dropFirstBreak_append fun hbreak ↦ lineBreak?_literal hcs (by simpa using hbreak) _

end CueFlow.Toml
