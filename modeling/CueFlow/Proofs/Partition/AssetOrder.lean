import CueFlow.Proofs.Document.GraphState
import CueFlow.Proofs.Partition.AssetRef
import CueFlow.Proofs.Partition.PatchRetrace
/-!
# The references of a patch

All that the nodes of a patch are set to is one value: a list of nodes, of each its config and its
stored inputs (`GraphState.settings`). A reference in it has a place, which is a path: by numbers
through lists and by keys through maps to a text, and then to a match of that text (`Value.RefAt`).
Going through a value depth first meets places in their order, which is that of the first steps in
which they differ (`Place`). So nothing needs to be said of the walk itself, and a list of
references is in order if it is that of some list of places in order (`InPlaceOrder`).

Lists and maps are gone through in the same way, one branch after another (`InPlaceOrder.branches`).
Maps are kept in the order of the code points of their keys, which is the order of their bytes
(`utf8Bytes_lt`).

A patch lists each reference that has a place, and lists it once; its references are in the order of
their first places (`assetRefs_exhaustive`).
-/

namespace CueFlow

/-! ### The order of keys -/

/-- The bytes of a text. -/
def utf8Bytes (s : String) : List UInt8 := s.toUTF8.data.toList

/-- The bytes of a text are those of its characters, one after the other. -/
theorem utf8Bytes_eq (s : String) : utf8Bytes s = s.toList.flatMap String.utf8EncodeChar := by
  rw [utf8Bytes, String.toUTF8_eq_toByteArray, ← String.utf8Encode_toList, List.utf8Encode,
    List.data_toByteArray]

/-- The bytes of a character tell its place among the characters, whatever comes behind them. -/
theorem utf8EncodeChar_append_lt {c d : Char} (h : c < d) (s t : List UInt8) :
    String.utf8EncodeChar c ++ s < String.utf8EncodeChar d ++ t := by
  have hlt : c.val.toNat < d.val.toNat := h
  have hd : d.val.toNat < 0x110000 := by
    have := d.valid
    simp only [UInt32.isValidChar, Nat.isValidChar] at this
    omega
  simp only [String.utf8EncodeChar]
  generalize c.val.toNat = m at hlt
  generalize d.val.toNat = n at hlt hd
  -- One case for each number of bytes on either side: more bytes begin with a larger one, and as
  -- many are the digits of the code points to the base 64.
  split_ifs <;>
    simp (disch := omega) only [List.cons_append, List.nil_append, List.cons_lt_cons_iff,
      UInt8.lt_iff_toNat_lt, UInt8.toNat_ofNat', ← UInt8.toNat_inj, Nat.mod_eq_of_lt,
      Nat.add_lt_add_iff_right, Nat.add_right_cancel_iff]
  all_goals omega

/-- Texts are in the order of their bytes. -/
theorem utf8Bytes_lt {s t : String} (h : s < t) : utf8Bytes s < utf8Bytes t := by
  have hchars : s.toList < t.toList := h
  rw [utf8Bytes_eq, utf8Bytes_eq]
  generalize s.toList = cs at hchars
  generalize t.toList = ds at hchars
  induction hchars with
  | nil =>
    rename_i d ds
    rw [List.flatMap_nil, List.flatMap_cons]
    cases hd : String.utf8EncodeChar d with
    | nil =>
      have hlength := String.length_utf8EncodeChar d
      rw [hd] at hlength
      exact absurd hlength d.utf8Size_pos.ne
    | cons b bs => exact List.nil_lt_cons b _
  | rel hcd =>
    rw [List.flatMap_cons, List.flatMap_cons]
    exact utf8EncodeChar_append_lt hcd _ _
  | cons _ ih =>
    rw [List.flatMap_cons, List.flatMap_cons]
    exact List.Lex.append_left _ ih _

/-! ### Places -/

/-- A step inwards: to one of several things by its number, or to what stands under a key. -/
inductive PlaceStep
  | index (i : Nat)
  | key (k : String)

/-- Of two steps from one place, this one comes first. Keys go by their bytes. -/
inductive PlaceStep.Before : PlaceStep → PlaceStep → Prop
  | index {i j : Nat} : i < j → Before (.index i) (.index j)
  | key {k l : String} : utf8Bytes k < utf8Bytes l → Before (.key k) (.key l)

instance : LT PlaceStep := ⟨PlaceStep.Before⟩

/-- The steps that lead to a place. Of two places, the one comes first that takes the step that does
where they part. -/
abbrev Place := List PlaceStep

namespace Value

/-- The reference has this place in a value: it is a match of a text. -/
inductive RefAt : Value → Place → String → Prop
  | text {s r : String} {i : Nat} {found : List (Nat × List Char)} :
      AssetRef.Matches 0 s.toList found → (i, r.toList) ∈ found → RefAt (.text s) [.index i] r
  | item {items : List Value} {i : Nat} {v : Value} {place : Place} {r : String} :
      items[i]? = some v → RefAt v place r → RefAt (.list items) (.index i :: place) r
  | entry {entries : ValueMap} {key : String} {v : Value} {place : Place} {r : String} :
      entries.get? key = some v → RefAt v place r → RefAt (.map entries) (.key key :: place) r

/-- The references in a value. -/
def refs (v : Value) : List String := v.texts.flatMap AssetRef.all

/-- The references of a list are those of its items, in order. -/
theorem refs_list (items : List Value) : refs (.list items) = items.flatMap refs := by
  show (textsOfItems items).flatMap AssetRef.all = _
  induction items with
  | nil => rfl
  | cons item rest ih => rw [textsOfItems, List.flatMap_append, ih, List.flatMap_cons, refs]

/-- The references of a map are those of its entries, in the order of their keys. -/
theorem refs_map (entries : ValueMap) :
    refs (.map entries) = entries.flatMap fun entry ↦ entry.2.refs := by
  show (textsOfEntries entries).flatMap AssetRef.all = _
  induction entries with
  | nil => rfl
  | cons entry rest ih => rw [textsOfEntries, List.flatMap_append, ih, List.flatMap_cons, refs]

end Value

/-! ### Lists in the order of places -/

/-- The list has all that have a place, in the order of their places. -/
def InPlaceOrder (P : Place → String → Prop) (refs : List String) : Prop :=
  ∃ found : List (Place × String), found.map Prod.snd = refs ∧
    found.Pairwise (fun a b ↦ a.1 < b.1) ∧ ∀ place r, (place, r) ∈ found ↔ P place r

namespace InPlaceOrder

variable {P Q : Place → String → Prop} {refs : List String}

theorem nil (h : ∀ place r, ¬ P place r) : InPlaceOrder P [] :=
  ⟨[], rfl, .nil, fun place r ↦ iff_of_false nofun (h place r)⟩

theorem congr (h : InPlaceOrder P refs) (hiff : ∀ place r, P place r ↔ Q place r) :
    InPlaceOrder Q refs := by
  obtain ⟨found, hrefs, hplaces, hfound⟩ := h
  exact ⟨found, hrefs, hplaces, fun place r ↦ (hfound place r).trans (hiff place r)⟩

/-- **One branch after another**, in the order of the steps to them. -/
theorem branches {β : Type} (step : β → PlaceStep) {refsOf : β → List String}
    {P : β → Place → String → Prop} {bs : List β} (hsteps : bs.Pairwise fun a b ↦ step a < step b)
    (h : ∀ b ∈ bs, InPlaceOrder (P b) (refsOf b)) :
    InPlaceOrder (fun place r ↦ ∃ b ∈ bs, ∃ rest, place = step b :: rest ∧ P b rest r)
      (bs.flatMap refsOf) := by
  induction bs with
  | nil => exact nil fun _ _ ⟨_, hb, _⟩ ↦ nomatch hb
  | cons b bs ih =>
    obtain ⟨hfirst, hsteps⟩ := List.pairwise_cons.1 hsteps
    obtain ⟨hb, hbs⟩ := List.forall_mem_cons.1 h
    obtain ⟨found, hrefs, hplaces, hfound⟩ := hb
    obtain ⟨found', hrefs', hplaces', hfound'⟩ := ih hsteps hbs
    refine ⟨found.map (Prod.map (step b :: ·) id) ++ found', ?_, ?_, fun place r ↦ ?_⟩
    · rw [List.map_append, List.map_map, Prod.map_snd', Function.id_comp, hrefs, hrefs',
        List.flatMap_cons]
    · refine List.pairwise_append.2 ⟨?_, hplaces', ?_⟩
      · rw [List.pairwise_map]
        exact hplaces.imp fun hlt ↦ List.cons_lt_cons_iff.2 (.inr ⟨rfl, hlt⟩)
      · rintro _ hmem ⟨place', r'⟩ hmem'
        obtain ⟨⟨place, r⟩, -, rfl⟩ := List.mem_map.1 hmem
        obtain ⟨b', hb', rest, rfl, -⟩ := (hfound' place' r').1 hmem'
        exact List.cons_lt_cons_iff.2 (.inl (hfirst b' hb'))
    · rw [List.mem_append, hfound', List.mem_map]
      beta_reduce
      rw [List.exists_mem_cons_iff]
      refine or_congr_left ⟨?_, ?_⟩
      · rintro ⟨⟨rest, _⟩, hmem, heq⟩
        obtain ⟨rfl, rfl⟩ := Prod.mk.inj heq
        exact ⟨rest, rfl, (hfound _ _).1 hmem⟩
      · rintro ⟨rest, rfl, hP⟩
        exact ⟨(rest, r), (hfound _ _).2 hP, rfl⟩

variable {α : Type} {refsOf : α → List String} {P : α → Place → String → Prop}

/-- One item after another. -/
theorem items {items : List α} (h : ∀ a ∈ items, InPlaceOrder (P a) (refsOf a)) :
    InPlaceOrder (fun place r ↦ ∃ (i : Nat) (a : α) (rest : Place), items[i]? = some a ∧
      place = .index i :: rest ∧ P a rest r) (items.flatMap refsOf) := by
  have hnumbers : (items.zipIdx.map Prod.snd).Pairwise (· < ·) := by
    rw [List.zipIdx_map_snd]
    exact List.pairwise_lt_range'
  have hflat : (items.zipIdx.flatMap fun item ↦ refsOf item.1) = items.flatMap refsOf := by
    rw [← List.flatMap_map Prod.fst refsOf, List.zipIdx_map_fst]
  rw [← hflat]
  refine (branches (fun item ↦ .index item.2) (P := fun item ↦ P item.1)
    ((List.pairwise_map.1 hnumbers).imp .index) fun item hitem ↦ ?_).congr fun place r ↦ ⟨?_, ?_⟩
  · exact h _ (List.mem_of_getElem? (List.mem_zipIdx_iff_getElem?.1 hitem))
  · rintro ⟨item, hitem, rest, heq, hP⟩
    exact ⟨_, _, rest, List.mem_zipIdx_iff_getElem?.1 hitem, heq, hP⟩
  · rintro ⟨i, a, rest, ha, heq, hP⟩
    exact ⟨(a, i), List.mem_zipIdx_iff_getElem?.2 ha, rest, heq, hP⟩

/-- What stands under one key after another. -/
theorem entries {entries : KeyMap α} (hsorted : entries.Sorted)
    (h : ∀ entry ∈ entries, InPlaceOrder (P entry.2) (refsOf entry.2)) :
    InPlaceOrder (fun place r ↦ ∃ (key : String) (a : α) (rest : Place),
      entries.get? key = some a ∧ place = .key key :: rest ∧ P a rest r)
      (entries.flatMap fun entry ↦ refsOf entry.2) := by
  refine (branches (fun entry ↦ .key entry.1) (P := fun entry ↦ P entry.2)
    (hsorted.imp fun hlt ↦ .key (utf8Bytes_lt hlt)) h).congr fun place r ↦ ⟨?_, ?_⟩
  · rintro ⟨entry, hentry, rest, heq, hP⟩
    exact ⟨_, _, rest, hsorted.get?_eq_some_iff.2 hentry, heq, hP⟩
  · rintro ⟨key, a, rest, ha, heq, hP⟩
    exact ⟨(key, a), hsorted.get?_eq_some_iff.1 ha, rest, heq, hP⟩

end InPlaceOrder

/-! ### Going through a value -/

namespace Value

/-- The matches of a text. -/
theorem inPlaceOrder_all (s : String) : InPlaceOrder (text s).RefAt (AssetRef.all s) := by
  obtain ⟨found, hmatches, hscan⟩ := AssetRef.exists_matches 0 s.toList
  refine ⟨found.map fun m ↦ ([.index m.1], String.ofList m.2), ?_, ?_, fun place r ↦ ?_⟩
  · rw [AssetRef.all, hscan, List.map_map, List.map_map]
    rfl
  · rw [List.pairwise_map]
    refine hmatches.apart.imp_of_mem fun {m n} hm _ hmn ↦ ?_
    have hlength := (hmatches.stands m hm).isRef.length_pos
    exact List.cons_lt_cons_iff.2 (.inl (.index (by omega)))
  · rw [List.mem_map]
    constructor
    · rintro ⟨m, hm, heq⟩
      obtain ⟨rfl, rfl⟩ := Prod.mk.inj heq
      exact .text hmatches (by rwa [String.toList_ofList])
    · rintro ⟨hmatches', hmem⟩
      obtain rfl := hmatches.unique hmatches'
      exact ⟨_, hmem, by rw [String.ofList_toList]⟩

mutual

/-- **Going through a value** meets its references in the order of their places. -/
theorem inPlaceOrder_refs : ∀ {v : Value}, v.Ordered → InPlaceOrder v.RefAt v.refs
  | null, _ | bool _, _ | number _, _ => .nil nofun
  | text s, _ => by
    rw [refs, texts, List.flatMap_singleton]
    exact inPlaceOrder_all s
  | list items, h => by
    rw [refs_list]
    refine (InPlaceOrder.items (inPlaceOrder_refs_items h)).congr fun place r ↦ ⟨?_, ?_⟩
    · rintro ⟨i, v, rest, hv, rfl, href⟩
      exact .item hv href
    · rintro ⟨⟩
      exact ⟨_, _, _, ‹_›, rfl, ‹_›⟩
  | map entries, h => by
    rw [refs_map]
    refine (InPlaceOrder.entries h.1 (inPlaceOrder_refs_entries h.2)).congr
      fun place r ↦ ⟨?_, ?_⟩
    · rintro ⟨key, v, rest, hv, rfl, href⟩
      exact .entry hv href
    · rintro ⟨⟩
      exact ⟨_, _, _, ‹_›, rfl, ‹_›⟩
termination_by structural v => v

/-- The same for the items of a list. -/
theorem inPlaceOrder_refs_items : ∀ {items : List Value}, OrderedItems items →
    ∀ v ∈ items, InPlaceOrder v.RefAt v.refs
  | [], _ => List.forall_mem_nil _
  | _ :: _, h => List.forall_mem_cons.2 ⟨inPlaceOrder_refs h.1, inPlaceOrder_refs_items h.2⟩
termination_by structural items => items

/-- The same for the entries of a map. -/
theorem inPlaceOrder_refs_entries : ∀ {entries : List (String × Value)}, OrderedEntries entries →
    ∀ entry ∈ entries, InPlaceOrder entry.2.RefAt entry.2.refs
  | [], _ => List.forall_mem_nil _
  | _ :: _, h => List.forall_mem_cons.2 ⟨inPlaceOrder_refs h.1, inPlaceOrder_refs_entries h.2⟩
termination_by structural entries => entries

end

end Value

/-! ### First places -/

/-- Without its repetitions, a list is in the order of first places. -/
theorem pairwise_eraseDups_map_snd (found : List (Place × String))
    (h : found.Pairwise fun a b ↦ a.1 < b.1) :
    (found.map Prod.snd).eraseDups.Pairwise fun a b ↦
      ∃ place, (place, a) ∈ found ∧ ∀ place', (place', b) ∈ found → place < place' := by
  match found with
  | [] => exact .nil
  | (place, r) :: rest =>
    obtain ⟨hfirst, hrest⟩ := List.pairwise_cons.1 h
    -- What is left is what differs from the first reference.
    have hothers := pairwise_eraseDups_map_snd (rest.filter fun other ↦ !other.2 == r)
      (hrest.filter _)
    have hne : ∀ b ∈ ((rest.filter fun other ↦ !other.2 == r).map Prod.snd).eraseDups, b ≠ r := by
      intro b hb
      obtain ⟨other, hother, rfl⟩ := List.mem_map.1 (List.mem_eraseDups.1 hb)
      simpa using (List.mem_filter.1 hother).2
    have hlater : ∀ {place' b}, b ≠ r → (place', b) ∈ (place, r) :: rest → (place', b) ∈ rest := by
      intro place' b hb hmem
      exact (List.mem_cons.1 hmem).resolve_left fun heq ↦ hb (Prod.mk.inj heq).2
    rw [List.map_cons, List.eraseDups_cons, List.filter_map]
    refine List.pairwise_cons.2 ⟨fun b hb ↦ ?_, hothers.imp_of_mem ?_⟩
    · exact ⟨place, .head _, fun place' hmem ↦ hfirst _ (hlater (hne b hb) hmem)⟩
    · rintro a b - hb ⟨place', hmem, hbefore⟩
      refine ⟨place', .tail _ (List.mem_filter.1 hmem).1, fun place'' hmem' ↦ hbefore place'' ?_⟩
      exact List.mem_filter.2 ⟨hlater (hne b hb) hmem', by simpa using hne b hb⟩
termination_by found.length
decreasing_by exact Nat.lt_succ_of_le (List.length_filter_le _ _)

/-- Without repetitions, references stand in the order of their first places. -/
theorem InPlaceOrder.pairwise_eraseDups {P : Place → String → Prop} {refs : List String}
    (h : InPlaceOrder P refs) : refs.eraseDups.Pairwise fun a b ↦
      ∃ place, P place a ∧ ∀ place', P place' b → place < place' := by
  obtain ⟨found, rfl, hplaces, hfound⟩ := h
  simpa only [hfound] using pairwise_eraseDups_map_snd found hplaces

/-- The references are those that stand at some place. -/
theorem InPlaceOrder.mem_iff {P : Place → String → Prop} {refs : List String}
    (h : InPlaceOrder P refs) {r : String} : r ∈ refs ↔ ∃ place, P place r := by
  obtain ⟨found, rfl, -, hfound⟩ := h
  simp [hfound]

/-! ### Patches -/

/-- All that the nodes of a snapshot are set to, as one value: of each node its config, and then its
stored inputs. -/
def GraphState.settings (s : GraphState) : Value :=
  .list (s.nodes.map fun n ↦ .list [.map n.config, .map n.inputValues])

theorem Value.orderedItems_iff {items : List Value} :
    OrderedItems items ↔ ∀ v ∈ items, v.Ordered := by
  induction items with
  | nil => simp [OrderedItems]
  | cons item rest ih => rw [OrderedItems, ih, List.forall_mem_cons]

theorem GraphState.ordered_settings {s : GraphState}
    (h : ∀ n ∈ s.nodes, ValueMap.Ordered n.config ∧ ValueMap.Ordered n.inputValues) :
    s.settings.Ordered := by
  refine Value.orderedItems_iff.2 (List.forall_mem_map.2 fun n hn ↦ ?_)
  exact ⟨(h n hn).1, (h n hn).2, trivial⟩

/-- The references of a graph are those of its settings, each once. -/
theorem assetRefsOf_eq (s : GraphState) : assetRefsOf s.nodes = s.settings.refs.eraseDups := by
  rw [assetRefsOf, GraphState.settings, Value.refs_list, List.flatMap_map]
  refine congrArg List.eraseDups (List.flatMap_congr fun n _ ↦ ?_)
  rw [Value.refs_list, List.flatMap_cons, List.flatMap_singleton, Value.refs_map, Value.refs_map,
    List.flatMap_append, KeyMap.values, KeyMap.values, List.flatMap_map, List.flatMap_map]
  rfl

section

variable {s : GraphState} {catalog : Catalog} {policy : PartitionPolicy} {roots : List NodeId}
  {p : PatchExport}

/-- The references of a patch are those of its own nodes, and these are nodes of the snapshot
without their outputs. -/
theorem assetRefs_of_exportPatch (h : exportPatch s catalog roots policy = .ok p) :
    p.assetRefs = assetRefsOf p.graph.nodes ∧
      ∀ n ∈ p.graph.nodes, ∃ m ∈ s.nodes, n = m.withoutOutputs := by
  obtain ⟨-, starts, -, hconclude⟩ := (Graph.exportPatch_eq_ok_iff (g := s.graphIn catalog)).1 h
  obtain ⟨-, -, rfl⟩ := Graph.concludeWalk_eq_ok.1 hconclude
  refine ⟨(assetRefsOf_map_withoutOutputs _).symm, fun n hn ↦ ?_⟩
  obtain ⟨m, hm, rfl⟩ := List.mem_map.1 hn
  obtain ⟨i, -, hi⟩ := List.mem_filterMap.1 hm
  exact ⟨m, List.mem_of_getElem? hi, rfl⟩

/-- **No reference is lost.** A patch lists the references that have a place in what its nodes are
set to, each once, and one before another if its first place comes before all places of the other.
A place is that of a match, and each text has one list of matches. -/
theorem assetRefs_exhaustive
    (hs : ∀ n ∈ s.nodes, ValueMap.Ordered n.config ∧ ValueMap.Ordered n.inputValues)
    (h : exportPatch s catalog roots policy = .ok p) :
    p.assetRefs.Nodup ∧
    (∀ r, r ∈ p.assetRefs ↔ ∃ place, p.graph.settings.RefAt place r) ∧
    p.assetRefs.Pairwise (fun a b ↦ ∃ place, p.graph.settings.RefAt place a ∧
      ∀ place', p.graph.settings.RefAt place' b → place < place') ∧
    ∀ text : String, ∃! found, AssetRef.Matches 0 text.toList found := by
  obtain ⟨hrefs, hnodes⟩ := assetRefs_of_exportPatch h
  have hordered : p.graph.settings.Ordered := by
    refine GraphState.ordered_settings fun n hn ↦ ?_
    obtain ⟨m, hm, rfl⟩ := hnodes n hn
    exact hs m hm
  have horder := Value.inPlaceOrder_refs hordered
  rw [hrefs, assetRefsOf_eq]
  refine ⟨nodup_eraseDups _, fun r ↦ ?_, horder.pairwise_eraseDups, fun text ↦ ?_⟩
  · rw [List.mem_eraseDups, horder.mem_iff]
  · obtain ⟨found, hmatches, -⟩ := AssetRef.exists_matches 0 text.toList
    exact ⟨found, hmatches, fun found' hmatches' ↦ hmatches'.unique hmatches⟩

end

/-- A mixer with references at several depths feeds a speaker. -/
def nestedState : GraphState where
  nodes := [{ id := "s", type := "audio-out" },
    { id := "x", type := "math",
      config := [("kit", .list [.text "asasset:kick asset:asset:snare"]),
        ("top", .map [("hat", .text "asset:hat.wav")])],
      inputValues := [("in", .text "again asset:kick, then asset:rim/1")] }]
  connections := [⟨"xs", "x", "out", "s", "level"⟩]

/-- Overlapping references are read from the left, and the kick is listed once. -/
theorem assetRefs_exhaustive_nested : ∃ p,
    exportPatch nestedState Graph.speakerGraph.catalog ["s"] .standard = .ok p ∧
    p.assetRefs = ["asset:kick", "asset:asset", "asset:hat.wav", "asset:rim/1"] ∧
    p.assetRefs.Nodup ∧ ∃ place, p.graph.settings.RefAt place "asset:hat.wav" := by
  have hexport : ∃ p,
      exportPatch nestedState Graph.speakerGraph.catalog ["s"] .standard = .ok p ∧
        p.assetRefs = ["asset:kick", "asset:asset", "asset:hat.wav", "asset:rim/1"] :=
    ⟨_, rfl, rfl⟩
  have hordered : ∀ n ∈ nestedState.nodes,
      ValueMap.Ordered n.config ∧ ValueMap.Ordered n.inputValues := by
    refine List.forall_mem_cons.2 ⟨⟨⟨.nil, trivial⟩, .nil, trivial⟩,
      List.forall_mem_singleton.2 ⟨⟨?_, ⟨trivial, trivial⟩, ⟨?_, trivial, trivial⟩, trivial⟩,
        List.pairwise_singleton _ _, trivial, trivial⟩⟩
    · exact List.pairwise_pair.2 (by decide)
    · exact List.pairwise_singleton _ _
  obtain ⟨p, hp, hrefs⟩ := hexport
  obtain ⟨hnodup, hplaces, -⟩ := assetRefs_exhaustive hordered hp
  exact ⟨p, hp, hrefs, hnodup, (hplaces _).1 (by simp [hrefs])⟩

end CueFlow
