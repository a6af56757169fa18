import Mathlib.Data.List.Infix
import CueFlow.Partition.AssetRef
/-!
# References in a text

A reference stands at some place of a text if it can be read there, as far as possible (`StandsAt`).
References that stand in a text may overlap, and `asset:asset:x` has two of them. Its *matches* are
those that a reader meets from left to right who goes on behind each one: no match begins before the
one before it has ended, and every reference in the text begins where a match begins or inside one
(`Matches`). That leaves no choice (`Matches.unique`).

What a scan finds are the matches (`exists_matches`). It goes on behind a match by skipping
characters one at a time, so that the proof is by induction on the text: a scan that is to skip some
characters finds the matches that begin behind them.
-/

namespace CueFlow.AssetRef

/-! ### References -/

/-- A letter or digit of ASCII. -/
def IsAlphanumeric (c : Char) : Prop := 'a' ≤ c ∧ c ≤ 'z' ∨ 'A' ≤ c ∧ c ≤ 'Z' ∨ '0' ≤ c ∧ c ≤ '9'

/-- A reference is `asset:` with a letter or digit behind it, and then any letters, digits, dots,
underscores, slashes and hyphens. -/
inductive IsRef : List Char → Prop
  | mk {c : Char} {name : List Char} : IsAlphanumeric c →
      (∀ d ∈ name, IsAlphanumeric d ∨ d ∈ ['.', '_', '/', '-']) →
      IsRef ("asset:".toList ++ c :: name)

/-- The reference stands at this place of the text, and goes on as far as possible. -/
structure StandsAt (cs : List Char) (i : Nat) (r : List Char) : Prop where
  isRef : IsRef r
  here : r <+: cs.drop i
  longest : ∀ r', IsRef r' → r' <+: cs.drop i → r' <+: r

/-- The matches of a text that begin at this place or behind it, given with their places. -/
structure Matches (start : Nat) (cs : List Char) (found : List (Nat × List Char)) : Prop where
  starts : ∀ m ∈ found, start ≤ m.1
  stands : ∀ m ∈ found, StandsAt cs m.1 m.2
  apart : found.Pairwise fun m n ↦ m.1 + m.2.length ≤ n.1
  covers : ∀ i r, start ≤ i → IsRef r → r <+: cs.drop i →
    ∃ m ∈ found, m.1 ≤ i ∧ i < m.1 + m.2.length

variable {c : Char} {cs rest r : List Char} {start i : Nat} {found found' : List (Nat × List Char)}

theorem IsRef.length_pos (h : IsRef r) : 0 < r.length := by
  obtain ⟨-, -⟩ := h
  simp

theorem isNameStart_iff : isNameStart c = true ↔ IsAlphanumeric c := by
  show (decide ('A' ≤ c ∧ c ≤ 'Z') || decide ('a' ≤ c) && decide (c ≤ 'z') ||
    decide ('0' ≤ c) && decide (c ≤ '9')) = true ↔ _
  simp only [Bool.or_eq_true, Bool.and_eq_true, decide_eq_true_eq, IsAlphanumeric]
  tauto

theorem isNameChar_iff :
    isNameChar c = true ↔ IsAlphanumeric c ∨ c ∈ ['.', '_', '/', '-'] := by
  rw [← isNameStart_iff]
  simp [isNameChar, isNameStart, or_assoc]

/-! ### Reading at the beginning -/

theorem atStart?_eq_some_iff : atStart? cs = some r ↔
    ∃ c rest, cs = scheme ++ c :: rest ∧ isNameStart c = true ∧
      r = scheme ++ c :: rest.takeWhile isNameChar := by
  rw [atStart?]
  split
  next hscheme =>
    obtain ⟨tail, rfl⟩ := List.isPrefixOf_iff_prefix.1 hscheme
    rw [List.drop_left]
    cases tail with
    | nil =>
      refine iff_of_false nofun ?_
      rintro ⟨c, rest, heq, -⟩
      cases List.append_cancel_left heq
    | cons c rest =>
      constructor
      · intro h
        obtain ⟨hc, hr⟩ := Option.ite_none_right_eq_some.1 h
        exact ⟨c, rest, rfl, hc, (Option.some.inj hr).symm⟩
      · rintro ⟨_, _, heq, hc, rfl⟩
        obtain ⟨rfl, rfl⟩ := List.cons.inj (List.append_cancel_left heq)
        exact if_pos hc
  next hscheme =>
    rw [List.isPrefixOf_iff_prefix] at hscheme
    refine iff_of_false nofun ?_
    rintro ⟨c, rest, rfl, -⟩
    exact hscheme (List.prefix_append _ _)

/-- What is read at the beginning is a reference that stands there. -/
theorem standsAt_of_atStart? (h : atStart? cs = some r) : StandsAt cs 0 r := by
  obtain ⟨c, rest, rfl, hc, rfl⟩ := atStart?_eq_some_iff.1 h
  constructor
  case isRef =>
    refine .mk (isNameStart_iff.1 hc) fun d hd ↦ isNameChar_iff.1 ?_
    exact List.all_eq_true.1 List.all_takeWhile d hd
  case here =>
    rw [List.drop_zero, List.prefix_append_right_inj, List.prefix_cons_inj]
    exact List.takeWhile_prefix _
  case longest =>
    rintro _ ⟨-, hname⟩ hr'
    rw [List.drop_zero, ← scheme, List.prefix_append_right_inj, List.cons_prefix_cons] at hr'
    obtain ⟨rfl, tail, rfl⟩ := hr'
    rw [List.takeWhile_append_of_pos fun d hd ↦ isNameChar_iff.2 (hname d hd)]
    exact (List.prefix_append_right_inj _).2 ((List.prefix_cons_inj _).2 (List.prefix_append _ _))

/-- A reference at the beginning is read. -/
theorem exists_atStart?_eq_some (h : IsRef r) (hr : r <+: cs) : ∃ r', atStart? cs = some r' := by
  obtain ⟨hc, -⟩ := h
  obtain ⟨tail, rfl⟩ := hr
  rw [List.append_assoc]
  exact ⟨_, atStart?_eq_some_iff.2 ⟨_, _, rfl, isNameStart_iff.2 hc, rfl⟩⟩

/-! ### Scanning -/

/-- A place in the rest of a text is the next one in the text. -/
theorem StandsAt.cons (h : StandsAt rest i r) (c : Char) : StandsAt (c :: rest) (i + 1) r :=
  ⟨h.isRef, h.here, h.longest⟩

/-- Matches behind the first character are matches of the rest. -/
theorem Matches.cons (h : Matches start rest found) (c : Char) :
    Matches (start + 1) (c :: rest) (found.map (Prod.map (· + 1) id)) := by
  constructor
  case starts =>
    simp only [List.forall_mem_map, Prod.map_fst, Nat.add_le_add_iff_right]
    exact h.starts
  case stands =>
    rw [List.forall_mem_map]
    exact fun m hm ↦ (h.stands m hm).cons c
  case apart =>
    rw [List.pairwise_map]
    refine h.apart.imp fun {m n} hmn ↦ ?_
    simp only [Prod.map_fst, Prod.map_snd, id_eq]
    omega
  case covers =>
    intro i r hi hr hhere
    obtain ⟨j, rfl⟩ := Nat.exists_eq_add_of_le' (Nat.le_of_add_left_le hi)
    obtain ⟨m, hm, hbegin, hend⟩ := h.covers j r (Nat.le_of_succ_le_succ hi) hr hhere
    refine ⟨_, List.mem_map_of_mem hm, ?_⟩
    simp only [Prod.map_fst, Prod.map_snd, id_eq]
    omega

/-- **What a scan finds are the matches**, where it begins behind the characters that it skips. -/
theorem exists_matches (skip : Nat) (cs : List Char) :
    ∃ found, Matches skip cs found ∧ scan skip cs = found.map Prod.snd := by
  induction cs generalizing skip with
  | nil =>
    refine ⟨[], ⟨nofun, nofun, .nil, fun i r _ hr hhere ↦ ?_⟩, rfl⟩
    rw [List.drop_nil, List.prefix_nil] at hhere
    exact absurd hr.length_pos (by simp [hhere])
  | cons c rest ih =>
    have hshift : ∀ {found : List (Nat × List Char)},
        (found.map (Prod.map (· + 1) id)).map Prod.snd = found.map Prod.snd := by
      intro found
      rw [List.map_map]
      rfl
    cases skip with
    | succ skip =>
      obtain ⟨found, hmatches, hscan⟩ := ih skip
      exact ⟨_, hmatches.cons c, by rw [scan, hscan, hshift]⟩
    | zero =>
      cases hread : atStart? (c :: rest) with
      | some r =>
        have hstands := standsAt_of_atStart? hread
        have hlength := hstands.isRef.length_pos
        obtain ⟨found, hmatches, hscan⟩ := ih (r.length - 1)
        have hbehind := hmatches.cons c
        rw [Nat.sub_add_cancel hlength] at hbehind
        refine ⟨(0, r) :: found.map (Prod.map (· + 1) id),
          ⟨fun m _ ↦ m.1.zero_le, ?_, ?_, fun i s _ hs hhere ↦ ?_⟩,
          by simp only [scan, hread, List.map_cons, hscan, hshift]⟩
        · exact List.forall_mem_cons.2 ⟨hstands, hbehind.stands⟩
        · refine List.pairwise_cons.2 ⟨fun n hn ↦ ?_, hbehind.apart⟩
          rw [Nat.zero_add]
          exact hbehind.starts n hn
        · by_cases hi : r.length ≤ i
          · obtain ⟨m, hm, hreach⟩ := hbehind.covers i s hi hs hhere
            exact ⟨m, .tail _ hm, hreach⟩
          · exact ⟨(0, r), .head _, i.zero_le, by simpa using hi⟩
      | none =>
        obtain ⟨found, hmatches, hscan⟩ := ih 0
        have hbehind := hmatches.cons c
        refine ⟨_, ⟨fun m _ ↦ m.1.zero_le, hbehind.stands, hbehind.apart,
          fun i s _ hs hhere ↦ ?_⟩, by simp only [scan, hread, hscan, hshift]⟩
        cases i with
        | zero =>
          obtain ⟨r, hr⟩ := exists_atStart?_eq_some hs hhere
          cases hread.symm.trans hr
        | succ i => exact hbehind.covers _ s (by omega) hs hhere

/-! ### There is one way to match -/

/-- What stands at a place is one reference. -/
theorem StandsAt.unique {r' : List Char} (h : StandsAt cs i r) (h' : StandsAt cs i r') : r = r' :=
  (h'.longest r h.isRef h.here).eq_of_length_le (h.longest r' h'.isRef h'.here).length_le

/-- Of two ways to match, the one does not begin before the other. -/
theorem Matches.head_le {m n : Nat × List Char} (h : Matches start cs (m :: found))
    (h' : Matches start cs (n :: found')) : m.1 ≤ n.1 := by
  have hn := h'.stands n (.head _)
  obtain ⟨k, hk, hbegin, -⟩ := h.covers n.1 n.2 (h'.starts n (.head _)) hn.isRef hn.here
  obtain rfl | hk := List.mem_cons.1 hk
  · exact hbegin
  · have := (List.pairwise_cons.1 h.apart).1 k hk
    omega

/-- Behind the first match are the matches that begin behind it. -/
theorem Matches.tail {m : Nat × List Char} (h : Matches start cs (m :: found)) :
    Matches (m.1 + m.2.length) cs found := by
  obtain ⟨hbehind, hapart⟩ := List.pairwise_cons.1 h.apart
  refine ⟨hbehind, fun n hn ↦ h.stands n (.tail _ hn), hapart, fun i r hi hr hhere ↦ ?_⟩
  have hstart := h.starts m (.head _)
  obtain ⟨n, hn, hbegin, hend⟩ := h.covers i r (by omega) hr hhere
  obtain rfl | hn := List.mem_cons.1 hn
  · omega
  · exact ⟨n, hn, hbegin, hend⟩

/-- If there is a match, there is one whichever way a text is matched. -/
theorem Matches.ne_nil {m : Nat × List Char} (h : Matches start cs (m :: found))
    (h' : Matches start cs found') : found' ≠ [] := by
  have hm := h.stands m (.head _)
  obtain ⟨_, hmem, -⟩ := h'.covers m.1 m.2 (h.starts m (.head _)) hm.isRef hm.here
  exact List.ne_nil_of_mem hmem

/-- **A text has one list of matches.** -/
theorem Matches.unique (h : Matches start cs found) (h' : Matches start cs found') :
    found = found' := by
  induction found generalizing start found' with
  | nil =>
    cases found' with
    | nil => rfl
    | cons n found' => exact absurd rfl (h'.ne_nil h)
  | cons m found ih =>
    cases found' with
    | nil => exact absurd rfl (h.ne_nil h')
    | cons n found' =>
      have hplace : m.1 = n.1 := Nat.le_antisymm (h.head_le h') (h'.head_le h)
      have hn := h'.stands n (.head _)
      rw [← hplace] at hn
      obtain rfl : m = n := Prod.ext hplace ((h.stands m (.head _)).unique hn)
      rw [ih h.tail h'.tail]

end CueFlow.AssetRef
