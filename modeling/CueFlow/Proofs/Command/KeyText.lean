import CueFlow.Proofs.Command.Change
import CueFlow.Proofs.KeyMap
/-!
# What changed, told by written keys

The members of a bundle can be told apart by texts: the second `flash` is `flash#1`. Such texts come
from one running counter for each discriminant (`keyTexts`), and what changed is told by looking
them up in a table of the bundle before (`changedItems`). A discriminant may look like a key itself,
but digits hold no `#`, so a text is cut at its last `#` in one way only
(`MemberKey.text_injective`). Hence texts do what keys do (`changedItems_eq`).

What changed is also said without keys and tables: an item has changed unless an equal one stands in
the same place among the items of its discriminant (`isUnchanged`). `changed_exactly` puts the three
together.
-/

namespace CueFlow

/-! ### Values that hold a command -/

/-- A command stands somewhere in the value: the value is one, or it is a list with an item in which
one stands. -/
inductive Value.HoldsCommand : Value → Prop
  | command {fields : ValueMap} {action : String} :
      fields.get? "action" = some (.text action) → HoldsCommand (.map fields)
  | item {items : List Value} {v : Value} : v ∈ items → v.HoldsCommand → HoldsCommand (.list items)

variable {items before after : List Value}

theorem commandsIn_map_ne_nil_iff {fields : ValueMap} :
    commandsIn (.map fields) ≠ [] ↔ ∃ action, fields.get? "action" = some (.text action) := by
  rw [commandsIn, Command.ofValue?]
  cases fields.get? "action" with
  | none => simp
  | some v => cases v <;> simp

mutual

theorem holdsCommand_of_ne_nil : ∀ {v : Value}, commandsIn v ≠ [] → v.HoldsCommand
  | .list items, h => by
    have hsome : commandsInItems items ≠ [] := h
    obtain ⟨v, hv, hholds⟩ := exists_holdsCommand_of_ne_nil hsome
    exact .item hv hholds
  | .map fields, h => by
    obtain ⟨action, haction⟩ := commandsIn_map_ne_nil_iff.1 h
    exact .command haction
  | .null, h | .bool _, h | .number _, h | .text _, h => absurd rfl h

theorem exists_holdsCommand_of_ne_nil : ∀ {items : List Value}, commandsInItems items ≠ [] →
    ∃ v ∈ items, v.HoldsCommand
  | [], h => absurd rfl h
  | item :: rest, h => by
    rw [commandsInItems] at h
    by_cases hitem : commandsIn item = []
    · rw [hitem, List.nil_append] at h
      obtain ⟨v, hv, hholds⟩ := exists_holdsCommand_of_ne_nil h
      exact ⟨v, List.mem_cons_of_mem _ hv, hholds⟩
    · exact ⟨item, List.mem_cons_self, holdsCommand_of_ne_nil hitem⟩

end

/-- **A value carries commands exactly if one stands somewhere in it.** -/
theorem carriesCommands_iff {v : Value} : carriesCommands v = true ↔ v.HoldsCommand := by
  rw [carriesCommands, Bool.not_eq_true', List.isEmpty_eq_false_iff]
  refine ⟨holdsCommand_of_ne_nil, fun h ↦ ?_⟩
  induction h with
  | command haction => exact commandsIn_map_ne_nil_iff.2 ⟨_, haction⟩
  | item hv _ ih =>
    rw [Value.commandsIn_list, Ne, List.flatMap_eq_nil_iff]
    exact fun hnone ↦ ih (hnone _ hv)

/-! ### Keys as texts -/

/-- A discriminant is the action if that is a text; for want of any action, the type if that is a
text. -/
theorem discriminant_eq (v : Value) : discriminant v =
    match v.get? "action", v.get? "type" with
    | some (.text action), _ => action
    | none, some (.text type) => type
    | _, _ => "_" := by
  rw [discriminant]
  cases v.get? "action" with
  | some action => cases action <;> rfl
  | none =>
    cases v.get? "type" with
    | some type => cases type <;> rfl
    | none => rfl

/-- The text of a key: the second `flash` is `flash#1`. -/
def MemberKey.text (k : MemberKey) : String := k.discriminant ++ "#" ++ toString k.occurrence

/-- The texts of the keys of a bundle, given how often each discriminant has occurred before. -/
def keyTextsFrom (counters : KeyMap Nat) : List Value → List String
  | [] => []
  | item :: rest =>
    let n := (counters.get? (discriminant item)).getD 0
    (discriminant item ++ "#" ++ toString n) ::
      keyTextsFrom (counters.insert (discriminant item) (n + 1)) rest

/-- The texts of the keys of a bundle. -/
def keyTexts (items : List Value) : List String := keyTextsFrom [] items

/-- The items of a bundle under the texts of their keys. -/
def keyedItems (items : List Value) : List (String × Value) := (keyTexts items).zip items

/-- The items of `after`, under the texts of their keys, that differ from what a table of `before`
has there. -/
def changedItems (before after : List Value) : List (String × Value) :=
  (keyedItems after).filter fun entry ↦
    !((KeyMap.ofEntries (keyedItems before)).get? entry.1 == some entry.2)

/-- Numbers are written without `#`. -/
theorem hash_not_mem_digits (n : Nat) : '#' ∉ Nat.toDigits 10 n := fun h ↦ by
  have hdigit := Nat.isDigit_of_mem_toDigits (by decide) (by decide) h
  exact absurd hdigit (by decide)

/-- No `#` stands between two ways to cut a text at its last `#`. -/
theorem eq_nil_of_hash {cs ds between : List Char} (hcs : '#' ∉ cs)
    (h : '#' :: cs = between ++ '#' :: ds) : between = [] := by
  cases between with
  | nil => rfl
  | cons c between =>
    obtain ⟨-, rfl⟩ := List.cons.inj h
    simp at hcs

/-- **The text of a key tells the key**, whatever the discriminant looks like. -/
theorem MemberKey.text_injective : Function.Injective MemberKey.text := by
  rintro ⟨d, m⟩ ⟨e, n⟩ h
  have hchars : d.toList ++ '#' :: Nat.toDigits 10 m = e.toList ++ '#' :: Nat.toDigits 10 n := by
    simpa [MemberKey.text, Nat.toString_eq_repr, Nat.toList_repr] using congrArg String.toList h
  have hsame : d.toList = e.toList := by
    obtain ⟨between, he, hrest⟩ | ⟨between, hd, hrest⟩ := List.append_eq_append_iff.1 hchars
    · rw [he, eq_nil_of_hash (hash_not_mem_digits m) hrest, List.append_nil]
    · rw [hd, eq_nil_of_hash (hash_not_mem_digits n) hrest, List.append_nil]
  rw [hsame] at hchars
  have hdigits := (List.cons.inj (List.append_cancel_left hchars)).2
  rw [← Nat.toList_repr, ← Nat.toList_repr, String.toList_inj, Nat.repr_inj] at hdigits
  rw [String.toList_inj.1 hsame, hdigits]

/-- A running counter counts what has gone before. -/
theorem keyTextsFrom_eq {counters : KeyMap Nat} {seen : List String}
    (h : ∀ d, (counters.get? d).getD 0 = seen.count d) (items : List Value) :
    keyTextsFrom counters items = (memberKeysAfter seen items).map MemberKey.text := by
  induction items generalizing counters seen with
  | nil => rfl
  | cons item rest ih =>
    rw [keyTextsFrom, memberKeysAfter, List.map_cons, h, MemberKey.text]
    refine congrArg _ (ih fun d ↦ ?_)
    rw [KeyMap.get?_insert, List.count_cons]
    by_cases hd : discriminant item = d
    · simp [hd]
    · simp [hd, h]

theorem keyTexts_eq (items : List Value) :
    keyTexts items = (memberKeys items).map MemberKey.text :=
  keyTextsFrom_eq (fun _ ↦ rfl) items

/-- **No two items of a bundle have the same text.** -/
theorem nodup_keyTexts (items : List Value) : (keyTexts items).Nodup := by
  rw [keyTexts_eq]
  exact (nodup_memberKeys items).map MemberKey.text_injective

theorem keyedItems_eq (items : List Value) :
    keyedItems items = (members items).map (Prod.map MemberKey.text id) := by
  rw [keyedItems, keyTexts_eq, members, List.zip_map_left]

theorem nodup_fst_keyedItems (items : List Value) : ((keyedItems items).map Prod.fst).Nodup := by
  rw [keyedItems_eq, List.map_map, Prod.map_fst', ← List.map_map, map_fst_members, ← keyTexts_eq]
  exact nodup_keyTexts items

/-- A table of a bundle has its members under the texts of their keys. -/
theorem get?_keyedItems (items : List Value) (key : MemberKey) :
    (KeyMap.ofEntries (keyedItems items)).get? key.text = member? items key := by
  have hnodup := nodup_fst_keyedItems items
  refine Option.ext fun v ↦ ?_
  rw [KeyMap.get?_ofEntries_of_nodup hnodup, KeyMap.get?_eq_some_iff_of_nodup hnodup,
    member?_eq_some_iff, keyedItems_eq, List.mem_map]
  constructor
  · rintro ⟨⟨key', w⟩, hmem, heq⟩
    obtain ⟨htext, rfl⟩ := Prod.mk.inj heq
    rwa [MemberKey.text_injective htext] at hmem
  · intro hmem
    exact ⟨(key, v), hmem, rfl⟩

/-- **Texts do what keys do.** -/
theorem changedItems_eq (before after : List Value) :
    changedItems before after = (changedMembers before after).map (Prod.map MemberKey.text id) := by
  rw [changedItems, keyedItems_eq after, List.filter_map, changedMembers]
  refine congrArg _ (List.filter_congr fun entry _ ↦ ?_)
  rw [Function.comp_apply, Prod.map_fst, get?_keyedItems]
  rfl

theorem map_snd_changedItems (before after : List Value) :
    (changedItems before after).map Prod.snd = (changedMembers before after).map Prod.snd := by
  rw [changedItems_eq, List.map_map, Prod.map_snd', Function.id_comp]

theorem changedItems_sublist (before after : List Value) :
    (changedItems before after).Sublist (keyedItems after) :=
  List.filter_sublist

/-- **What changed makes the old bundle the new one**: laid over a table of `before`, it has under
every text of `after` what `after` has there, or else `before` has something equal there. -/
theorem get?_overlay_changedItems {key : String} {v : Value} (h : (key, v) ∈ keyedItems after) :
    ∃ w, ((KeyMap.ofEntries (keyedItems before)).overlay (changedItems before after)).get? key =
      some w ∧ (w = v ∨ w == v) := by
  have hnodup := nodup_fst_keyedItems after
  have hchanged : ((changedItems before after).map Prod.fst).Nodup :=
    ((changedItems_sublist before after).map Prod.fst).nodup hnodup
  rw [KeyMap.get?_overlay_of_nodup hchanged]
  by_cases hmem : (key, v) ∈ changedItems before after
  · rw [(KeyMap.get?_eq_some_iff_of_nodup hchanged).2 hmem]
    exact ⟨v, rfl, .inl rfl⟩
  · -- Nothing else in `after` has this text, so the table shows through.
    have hnone : KeyMap.get? (changedItems before after) key = none := by
      refine Option.eq_none_iff_forall_ne_some.2 fun w hw ↦ ?_
      rw [KeyMap.get?_eq_some_iff_of_nodup hchanged] at hw
      have hsame := (KeyMap.get?_eq_some_iff_of_nodup hnodup).2
        ((changedItems_sublist before after).subset hw)
      rw [(KeyMap.get?_eq_some_iff_of_nodup hnodup).2 h] at hsame
      exact hmem (Option.some.inj hsame ▸ hw)
    have hkept : (KeyMap.ofEntries (keyedItems before)).get? key == some v := by
      by_contra hdiffers
      exact hmem (List.mem_filter.2 ⟨h, by simpa using hdiffers⟩)
    rw [hnone, Option.none_or]
    cases hw : (KeyMap.ofEntries (keyedItems before)).get? key with
    | none =>
      rw [hw] at hkept
      cases hkept
    | some w =>
      rw [hw] at hkept
      exact ⟨w, rfl, .inr hkept⟩

/-! ### What changed, place by place -/

/-- What identifies an item, given with its place: its discriminant, and how many items before it
share that. -/
def keyAt (items : List Value) (item : Value × Nat) : MemberKey :=
  ⟨discriminant item.1, ((items.take item.2).map discriminant).count (discriminant item.1)⟩

/-- Whether an item of `before` that equals this one of `after` is identified in the same way. -/
def isUnchanged (before after : List Value) (item : Value × Nat) : Bool :=
  before.zipIdx.any fun old ↦ keyAt before old == keyAt after item && old.1 == item.1

theorem members_eq_map_zipIdx (items : List Value) :
    members items = items.zipIdx.map fun item ↦ (keyAt items item, item.1) := by
  refine List.ext_getElem? fun i ↦ ?_
  rw [List.getElem?_map, List.getElem?_zipIdx]
  cases hv : items[i]? with
  | none =>
    rw [List.getElem?_eq_none_iff] at hv
    rw [Option.map_none, Option.map_none, List.getElem?_eq_none_iff, members, List.length_zip]
    omega
  | some v =>
    have hkey := getElem?_memberKeysAfter [] hv
    rw [List.count_nil, Nat.add_zero] at hkey
    exact List.getElem?_zip_eq_some.2 ⟨by rw [Nat.zero_add]; exact hkey, hv⟩

/-- An item is unchanged if its match equals it. -/
theorem isUnchanged_eq (before after : List Value) (item : Value × Nat) :
    isUnchanged before after item = (member? before (keyAt after item) == some item.1) := by
  rw [Bool.eq_iff_iff, isUnchanged, List.any_eq_true]
  constructor
  · rintro ⟨old, hold, hsame⟩
    rw [Bool.and_eq_true, beq_iff_eq] at hsame
    have hmember : member? before (keyAt after item) = some old.1 := by
      rw [member?_eq_some_iff, members_eq_map_zipIdx, ← hsame.1]
      exact List.mem_map.2 ⟨old, hold, rfl⟩
    rw [hmember]
    exact hsame.2
  · intro hsame
    cases hmember : member? before (keyAt after item) with
    | none =>
      rw [hmember] at hsame
      cases hsame
    | some w =>
      rw [hmember] at hsame
      rw [member?_eq_some_iff, members_eq_map_zipIdx, List.mem_map] at hmember
      obtain ⟨old, hold, heq⟩ := hmember
      obtain ⟨hkey, rfl⟩ := Prod.mk.inj heq
      exact ⟨old, hold, by rw [hkey, BEq.rfl, Bool.true_and]; exact hsame⟩

/-- The changes, place by place. -/
theorem map_snd_changedMembers (before after : List Value) :
    (changedMembers before after).map Prod.snd =
      (after.zipIdx.filter fun item ↦ !isUnchanged before after item).map Prod.fst := by
  rw [changedMembers, members_eq_map_zipIdx after, List.filter_map, List.map_map]
  refine congrArg _ (List.filter_congr fun item _ ↦ ?_)
  rw [isUnchanged_eq]
  rfl

/-! ### The result -/

theorem changedCommands?_list (before after : List Value) :
    changedCommands? (.list before) (.list after) =
      if carriesCommands (.list after) then some ((changedItems before after).map Prod.snd)
      else none := by
  rw [changedCommands?, changedMembers?, map_snd_changedItems]
  split <;> rfl

/-- **What changed is exactly what differs.** There is an answer exactly if both values are lists
and a command stands somewhere in the new one. The texts of a list are all different, however the
discriminants look. The answer has, in their order, the items of the new list to which the old list
has no equal with the same discriminant and as many items of that discriminant before it. So nothing
changes between a list without NaN and itself; and what changed, laid over the old items under the
texts of the new ones, gives every item of the new list. -/
theorem changed_exactly :
    (∀ prev next, (∃ changed, changedCommands? prev next = some changed) ↔
      (∃ before after, prev = .list before ∧ next = .list after) ∧ next.HoldsCommand) ∧
    (∀ v, discriminant v =
      match v.get? "action", v.get? "type" with
      | some (.text action), _ => action
      | none, some (.text type) => type
      | _, _ => "_") ∧
    (∀ items, (keyTexts items).Nodup) ∧
    (∀ before after changed, changedCommands? (.list before) (.list after) = some changed →
      changed = (after.zipIdx.filter fun item ↦ !isUnchanged before after item).map Prod.fst ∧
      changed = (changedItems before after).map Prod.snd ∧
      ∀ key v, (key, v) ∈ keyedItems after → ∃ w,
        ((KeyMap.ofEntries (keyedItems before)).overlay (changedItems before after)).get? key =
          some w ∧ (w = v ∨ w == v)) ∧
    ∀ items changed, Value.itemsNaNFree items →
      changedCommands? (.list items) (.list items) = some changed → changed = [] := by
  have hanswer : ∀ {before after changed},
      changedCommands? (.list before) (.list after) = some changed →
        changed = (changedItems before after).map Prod.snd := by
    intro before after changed h
    rw [changedCommands?_list] at h
    split at h
    · exact (Option.some.inj h).symm
    · cases h
  refine ⟨fun prev next ↦ ?_, discriminant_eq, nodup_keyTexts, fun before after changed h ↦ ?_,
    fun items changed hnan h ↦ ?_⟩
  · rw [← carriesCommands_iff]
    constructor
    · rintro ⟨changed, h⟩
      cases prev with
      | list before =>
        cases next with
        | list after =>
          refine ⟨⟨before, after, rfl, rfl⟩, ?_⟩
          by_contra hnone
          rw [changedCommands?_list, if_neg hnone] at h
          cases h
        | _ => cases h
      | _ => cases h
    · rintro ⟨⟨before, after, rfl, rfl⟩, hcarries⟩
      exact ⟨_, by rw [changedCommands?_list, if_pos hcarries]⟩
  · refine ⟨?_, hanswer h, fun key v ↦ get?_overlay_changedItems⟩
    rw [hanswer h, map_snd_changedItems, map_snd_changedMembers]
  · rw [hanswer h, map_snd_changedItems, changedMembers_of_beqItems (Value.beqItems_self hnan)]
    rfl

/-- A cue for a device. -/
def cue (action mode : String) : Value := .map [("action", .text action), ("mode", .text mode)]

/-- The second flash changes, and is not taken for the cue that is called like its key. -/
theorem changed_exactly_flash :
    let before := [cue "flash" "on", cue "flash#1" "on", cue "flash" "off"]
    let after := [cue "flash" "on", cue "flash" "on", cue "flash#1" "on"]
    keyTexts after = ["flash#0", "flash#1", "flash#1#0"] ∧
    changedCommands? (.list before) (.list after) = some [cue "flash" "on"] ∧
    [cue "flash" "on"] =
      (after.zipIdx.filter fun item ↦ !isUnchanged before after item).map Prod.fst ∧
    (∃ w, ((KeyMap.ofEntries (keyedItems before)).overlay (changedItems before after)).get?
      "flash#1" = some w ∧ (w = cue "flash" "on" ∨ w == cue "flash" "on")) ∧
    Value.itemsNaNFree after ∧
    ∃ changed, changedCommands? (.list after) (.list after) = some changed ∧ changed = [] := by
  intro before after
  obtain ⟨hasked, -, -, hchanged, hself⟩ := changed_exactly
  have hanswer : changedCommands? (.list before) (.list after) = some [cue "flash" "on"] := rfl
  have hcue : (cue "flash" "on").HoldsCommand := .command rfl
  have hcommand : Value.HoldsCommand (.list after) := .item List.mem_cons_self hcue
  obtain ⟨hplaces, -, hover⟩ := hchanged before after _ hanswer
  obtain ⟨changed, hsame⟩ :=
    (hasked (.list after) (.list after)).2 ⟨⟨after, after, rfl, rfl⟩, hcommand⟩
  have hmem : ("flash#1", cue "flash" "on") ∈ keyedItems after :=
    List.mem_of_getElem? (i := 1) rfl
  exact ⟨rfl, hanswer, hplaces, hover _ _ hmem, rfl, changed, hsame, hself _ _ rfl hsame⟩

end CueFlow
