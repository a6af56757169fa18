import CueFlow.Proofs.Command.Discrete
import CueFlow.Proofs.Decimal
/-!
# What a signature tells

A signature is meant to stand for what changes in steps: the action of a command, the texts of its
signature fields, and for a blink its measurements in whole steps (`DiscreteState`). It is a
function of this, for commands (`Command.toList_signatureText`) and for whole values.

The other way, a signature is read like a line of words: it has a `;` between two commands, and each
text after the action stands behind the mark of its field. Nothing is escaped. A text in which a `;`
or a mark occurs looks like several, and then different commands have one signature
(`valueSignature?_of_marks`). Without such texts (`HasClearTexts`), signatures tell states apart. A
mark has its bar at the front and nowhere else, so none can begin in one text and end behind it;
hence the action and every text end where the next mark begins (`append_marked_inj`), and the fields
of a command are read one after the other (`eq_of_flatMap_markedText`). The numbers among the texts
are clear anyway.

Which marks may follow depends on whether the action is a blink. Of two actions that one signature
may begin with, one is the beginning of the other, and a blink is not lost by going on
(`labelsOf_subset`).
-/

namespace CueFlow

/-! ### States -/

/-- What the watchdog is to tell of a command. A field is without a text if it is absent, or if it
is a list, a map or null. -/
@[ext]
structure DiscreteState where
  action : String
  /-- The signature fields with their texts. -/
  fields : List (String × Option String)
  /-- The frequency and the duty of a blink in steps; nothing for another action. -/
  blink : List (String × Option Int)
deriving DecidableEq

namespace Command

variable (c : Command)

/-- A measurement in steps. -/
def steps? (key : String) (step : Float) : Option Int :=
  ((c.field? key).bind Value.asNumber?).map (quantize · step)

/-- The state of a command. -/
def state : DiscreteState where
  action := c.action
  fields := signatureFields.map fun key ↦ (key, (c.field? key).bind scalarText?)
  blink :=
    if isBlinkAction c.action then
      [("f", c.steps? "frequency" frequencyStep), ("d", c.steps? "duty" dutyStep)]
    else []

/-- The signature of a command of no continuous action. -/
def signatureText : String := c.action ++ String.join c.fieldParts ++ String.join c.blinkParts

end Command

/-- The states of the discrete commands in a value, in their order. -/
def discreteStates (continuous : List String) (v : Value) : List DiscreteState :=
  (discreteCommands continuous v).map Command.state

/-! ### The text of a state -/

/-- What stands in front of the text of a field. -/
def mark (label : String) : List Char := '|' :: (label.toList ++ ['='])

/-- A text behind its mark; nothing for a field without a text. -/
def markedText (part : String × Option String) : List Char :=
  part.2.elim [] fun s ↦ mark part.1 ++ s.toList

namespace DiscreteState

variable (s : DiscreteState)

/-- All that follows the action, the measurements as texts. -/
def parts : List (String × Option String) :=
  s.fields ++ s.blink.map (Prod.map id (Option.map toString))

/-- The text of a state. -/
def text : List Char := s.action.toList ++ s.parts.flatMap markedText

end DiscreteState

/-- **A signature is a function of the state.** -/
theorem Command.toList_signatureText (c : Command) : c.signatureText.toList = c.state.text := by
  have hmark : ∀ label : String, ("|" ++ label ++ "=").toList = mark label := by
    intro label
    rw [String.toList_append, String.toList_append, mark]
    rfl
  have hfields : (String.join c.fieldParts).toList = c.state.fields.flatMap markedText := by
    rw [String.toList_join, fieldParts, List.filterMap_eq_flatMap_toList, List.flatMap_assoc, state,
      List.flatMap_map]
    refine List.flatMap_congr fun key _ ↦ ?_
    rw [markedText]
    cases (c.field? key).bind scalarText? with
    | none => rfl
    | some s => simp [hmark]
  have hpart : ∀ label key step, (c.blinkPart label key step).toList.flatMap String.toList =
      markedText (label, (c.steps? key step).map toString) := by
    intro label key step
    rw [blinkPart, steps?, markedText]
    cases (c.field? key).bind Value.asNumber? with
    | none => rfl
    | some x => simp [hmark]
  have hblink : (String.join c.blinkParts).toList =
      (c.state.blink.map (Prod.map id (Option.map toString))).flatMap markedText := by
    rw [String.toList_join, blinkParts, state]
    split
    · rw [List.filterMap_eq_flatMap_toList, List.flatMap_assoc]
      simp only [List.flatMap_cons, List.flatMap_nil, List.map_cons, List.map_nil, id_eq, hpart,
        Prod.map_apply]
    · rfl
  rw [signatureText, String.toList_append, String.toList_append, hfields, hblink,
    DiscreteState.text, DiscreteState.parts, List.flatMap_append, List.append_assoc]
  rfl

/-! ### Marks -/

/-- The labels that may stand in the signature of a command with this action. -/
def labelsOf (action : String) : List String :=
  signatureFields ++ if isBlinkAction action then ["f", "d"] else []

theorem Command.map_fst_parts (c : Command) : c.state.parts.map Prod.fst = labelsOf c.action := by
  have hfields : c.state.fields.map Prod.fst = signatureFields := by
    rw [state, List.map_map]
    exact List.map_id _
  rw [DiscreteState.parts, List.map_append, hfields, labelsOf, state]
  split <;> rfl

theorem subset_of_labelsOf (action : String) : labelsOf action ⊆ signatureFields ++ ["f", "d"] := by
  rw [labelsOf]
  split
  · exact fun _ h ↦ h
  · rw [List.append_nil]
    exact List.subset_append_left _ _

theorem nodup_labelsOf (action : String) : (labelsOf action).Nodup := by
  rw [labelsOf]
  split <;> decide

/-- No mark is the beginning of another one. -/
theorem eq_of_mark_isPrefix {action label label' : String} (h : label ∈ labelsOf action)
    (h' : label' ∈ labelsOf action) (hmark : mark label <+: mark label') : label = label' := by
  have hfree : ∀ label ∈ signatureFields ++ ["f", "d"], ∀ label' ∈ signatureFields ++ ["f", "d"],
      mark label <+: mark label' → label = label' := by decide
  exact hfree _ (subset_of_labelsOf action h) _ (subset_of_labelsOf action h') hmark

/-- A label has neither a bar nor a semicolon in it. -/
theorem not_mem_label {action label : String} (h : label ∈ labelsOf action) :
    '|' ∉ label.toList ∧ ';' ∉ label.toList := by
  have hlabels : ∀ label ∈ signatureFields ++ ["f", "d"],
      '|' ∉ label.toList ∧ ';' ∉ label.toList := by decide
  exact hlabels _ (subset_of_labelsOf action h)

theorem occursIn_iff {pattern cs : List Char} : occursIn pattern cs = true ↔ pattern <:+: cs := by
  induction cs with
  | nil => rw [occursIn, List.isEmpty_iff, List.infix_nil]
  | cons c rest ih =>
    rw [occursIn, Bool.or_eq_true, ih, List.isPrefixOf_iff_prefix, List.infix_cons_iff]

/-- **A blink goes on being one.** -/
theorem labelsOf_subset {a b : String} (h : a.toList <+: b.toList) : labelsOf a ⊆ labelsOf b := by
  have hblink : isBlinkAction a = true → isBlinkAction b = true := by
    have hlower := (h.map Char.toLower).isInfix
    simp only [isBlinkAction, Bool.or_eq_true, occursIn_iff]
    exact Or.imp (·.trans hlower) (·.trans hlower)
  rw [labelsOf, labelsOf]
  by_cases ha : isBlinkAction a = true
  · rw [if_pos ha, if_pos (hblink ha)]
    exact fun _ h ↦ h
  · rw [if_neg ha, List.append_nil]
    exact List.subset_append_left _ _

/-! ### Clear texts -/

/-- The text has no semicolon and none of these marks in it. -/
def IsClear (labels : List String) (s : String) : Prop :=
  ';' ∉ s.toList ∧ ∀ label ∈ labels, ¬ mark label <:+: s.toList

instance (labels : List String) (s : String) : Decidable (IsClear labels s) :=
  inferInstanceAs (Decidable (_ ∧ _))

/-- The texts of a command that its signature is made of: the action, and the signature fields that
hold a text. -/
def Command.ownTexts (c : Command) : List String :=
  c.action :: signatureFields.filterMap fun key ↦ (c.field? key).bind Value.asText?

/-- The texts of the discrete commands in a value are clear. -/
def HasClearTexts (continuous : List String) (v : Value) : Prop :=
  ∀ c ∈ discreteCommands continuous v, ∀ s ∈ c.ownTexts, IsClear (labelsOf c.action) s

instance (continuous : List String) (v : Value) : Decidable (HasClearTexts continuous v) :=
  inferInstanceAs (Decidable (∀ c ∈ discreteCommands continuous v, ∀ s ∈ c.ownTexts, _))

/-- A text without bars and semicolons is clear. -/
theorem isClear_of_forall_mem {s : String} {p : Char → Prop} (h : ∀ c ∈ s.toList, p c)
    (hbar : ¬ p '|') (hsemicolon : ¬ p ';') (labels : List String) : IsClear labels s :=
  ⟨fun hmem ↦ hsemicolon (h _ hmem), fun _ _ hmark ↦ hbar (h _ (hmark.subset List.mem_cons_self))⟩

/-- The texts of numbers are clear. -/
theorem isClear_of_isNumeric {s : String} (h : ∀ c ∈ s.toList, Decimal.IsNumeric c)
    (labels : List String) : IsClear labels s :=
  isClear_of_forall_mem h (by decide) (by decide) labels

/-- **All texts in the signature of a command are clear** if its own are. -/
theorem isClear_of_mem_parts {c : Command} (h : ∀ s ∈ c.ownTexts, IsClear (labelsOf c.action) s)
    {label s : String} (hmem : (label, some s) ∈ c.state.parts) :
    IsClear (labelsOf c.action) s := by
  obtain hmem | hmem := List.mem_append.1 hmem
  · obtain ⟨key, hkey, heq⟩ := List.mem_map.1 hmem
    obtain ⟨v, hv, htext⟩ := Option.bind_eq_some_iff.1 (Prod.mk.inj heq).2
    cases v with
    | text s =>
      obtain rfl := Option.some.inj htext
      exact h _ (.tail _ (List.mem_filterMap.2 ⟨key, hkey, by rw [hv]; rfl⟩))
    | number x =>
      obtain rfl := Option.some.inj htext
      exact isClear_of_isNumeric (fun _ ↦ Decimal.isNumeric_of_mem_plainText) _
    | bool flag =>
      cases flag with
      | true =>
        obtain rfl := Option.some.inj htext
        exact isClear_of_forall_mem (p := (· ∈ "true".toList)) (fun _ ↦ id) (by decide)
          (by decide) _
      | false =>
        obtain rfl := Option.some.inj htext
        exact isClear_of_forall_mem (p := (· ∈ "false".toList)) (fun _ ↦ id) (by decide)
          (by decide) _
    | null | list | map => cases htext
  · obtain ⟨⟨key, n?⟩, -, heq⟩ := List.mem_map.1 hmem
    obtain ⟨n, -, rfl⟩ := Option.map_eq_some_iff.1 (Prod.mk.inj heq).2
    exact isClear_of_isNumeric (fun _ ↦ Decimal.isNumeric_of_mem_toString) _

/-! ### Reading a signature -/

/-- What comes next, if anything does, is one of these marks. -/
def Follows (labels : List String) (rest : List Char) : Prop :=
  rest = [] ∨ ∃ label ∈ labels, mark label <+: rest

theorem follows_flatMap (parts : List (String × Option String)) :
    Follows (parts.map Prod.fst) (parts.flatMap markedText) := by
  induction parts with
  | nil => exact .inl rfl
  | cons part rest ih =>
    obtain ⟨label, s?⟩ := part
    cases s? with
    | none => exact ih.imp id fun ⟨l, hl, hmark⟩ ↦ ⟨l, .tail _ hl, hmark⟩
    | some s =>
      refine .inr ⟨label, .head _, ?_⟩
      rw [List.flatMap_cons, markedText, Option.elim_some, List.append_assoc]
      exact List.prefix_append _ _

theorem Follows.mono {labels labels' : List String} {rest : List Char} (h : Follows labels rest)
    (hsub : labels ⊆ labels') : Follows labels' rest :=
  h.imp id fun ⟨label, hlabel, hmark⟩ ↦ ⟨label, hsub hlabel, hmark⟩

/-- Nothing stands between two places where the next mark may begin. -/
theorem eq_nil_of_follows {action action' : String} {between rest : List Char}
    (h : Follows (labelsOf action) (between ++ rest)) (hrest : Follows (labelsOf action') rest)
    (hclear : ∀ label ∈ labelsOf action, ¬ mark label <:+: between) : between = [] := by
  obtain hnil | ⟨label, hlabel, hmark⟩ := h
  · exact (List.append_eq_nil_iff.1 hnil).1
  obtain hinside | ⟨tail, htail⟩ :=
    List.prefix_or_prefix_of_prefix hmark (List.prefix_append between rest)
  · exact absurd hinside.isInfix (hclear label hlabel)
  cases tail with
  | nil => exact absurd (by rw [← htail, List.append_nil]) (hclear label hlabel)
  | cons c tail =>
    -- The mark would go on with another bar.
    rw [← htail, List.prefix_append_right_inj] at hmark
    obtain ⟨more, rfl⟩ := hmark
    obtain hnil | ⟨label', -, hmark'⟩ := hrest
    · cases hnil
    obtain ⟨rfl, -⟩ := List.cons_prefix_cons.1 hmark'
    cases between with
    | nil => rfl
    | cons d between =>
      have hbar : '|' ∈ label.toList ++ ['='] := by
        rw [← (List.cons.inj htail).2]
        simp
      simp [(not_mem_label hlabel).1] at hbar

/-- **A text ends where the next mark begins.** -/
theorem append_marked_inj {action action' : String} {a b rest rest' : List Char}
    (ha : ∀ label ∈ labelsOf action, ¬ mark label <:+: a)
    (hb : ∀ label ∈ labelsOf action', ¬ mark label <:+: b)
    (hrest : Follows (labelsOf action) rest) (hrest' : Follows (labelsOf action') rest')
    (hsub : a <+: b → labelsOf action ⊆ labelsOf action')
    (hsub' : b <+: a → labelsOf action' ⊆ labelsOf action) (h : a ++ rest = b ++ rest') :
    a = b ∧ rest = rest' := by
  have hsame : a = b := by
    -- What the one text has more than the other begins with a mark, unless it is nothing.
    obtain ⟨between, rfl, rfl⟩ | ⟨between, rfl, rfl⟩ := List.append_eq_append_iff.1 h
    · have hclear : ∀ label ∈ labelsOf action, ¬ mark label <:+: between := by
        intro label hlabel hmark
        exact hb label (hsub (List.prefix_append _ _) hlabel)
          (hmark.trans (List.suffix_append _ _).isInfix)
      rw [eq_nil_of_follows hrest hrest' hclear, List.append_nil]
    · have hclear : ∀ label ∈ labelsOf action', ¬ mark label <:+: between := by
        intro label hlabel hmark
        exact ha label (hsub' (List.prefix_append _ _) hlabel)
          (hmark.trans (List.suffix_append _ _).isInfix)
      rw [eq_nil_of_follows hrest' hrest hclear, List.append_nil]
  subst hsame
  exact ⟨rfl, List.append_cancel_left h⟩

/-- The mark of another field does not come next. -/
theorem Follows.not_mark {action label : String} {labels : List String} {rest : List Char}
    (h : Follows labels rest) (hsub : labels ⊆ labelsOf action) (hlabel : label ∈ labelsOf action)
    (hnew : label ∉ labels) : ¬ mark label <+: rest := by
  intro hmark
  obtain rfl | ⟨next, hnext, hmark'⟩ := h
  · cases List.prefix_nil.1 hmark
  obtain hpre | hpre := List.prefix_or_prefix_of_prefix hmark hmark'
  · exact hnew (eq_of_mark_isPrefix hlabel (hsub hnext) hpre ▸ hnext)
  · exact hnew (eq_of_mark_isPrefix (hsub hnext) hlabel hpre ▸ hnext)

/-- **Fields are read one after the other**, under the same labels. -/
theorem eq_of_flatMap_markedText {action : String} {parts parts' : List (String × Option String)}
    (hlabels : parts.map Prod.fst = parts'.map Prod.fst)
    (hsub : parts.map Prod.fst ⊆ labelsOf action) (hnodup : (parts.map Prod.fst).Nodup)
    (hclear : ∀ label s, (label, some s) ∈ parts → IsClear (labelsOf action) s)
    (hclear' : ∀ label s, (label, some s) ∈ parts' → IsClear (labelsOf action) s)
    (h : parts.flatMap markedText = parts'.flatMap markedText) : parts = parts' := by
  induction parts generalizing parts' with
  | nil => exact (List.map_eq_nil_iff.1 hlabels.symm).symm
  | cons part rest ih =>
    obtain ⟨⟨label, s'?⟩, rest', rfl, rfl, hsame⟩ := List.map_eq_cons_iff.1 hlabels.symm
    obtain ⟨label, s?⟩ := part
    obtain ⟨hnew, hnodup⟩ := List.nodup_cons.1 hnodup
    obtain ⟨hlabel, hothers⟩ := List.cons_subset.1 hsub
    have hrest := follows_flatMap rest
    have hrest' := follows_flatMap rest'
    rw [hsame] at hrest'
    have hnext : rest.flatMap markedText = rest'.flatMap markedText → rest = rest' :=
      ih hsame.symm hothers hnodup (fun l s hmem ↦ hclear l s (.tail _ hmem))
        (fun l s hmem ↦ hclear' l s (.tail _ hmem))
    rw [List.flatMap_cons, List.flatMap_cons] at h
    cases s? with
    | none =>
      cases s'? with
      | none => rw [hnext h]
      | some s' =>
        simp only [markedText, Option.elim_none, Option.elim_some, List.nil_append,
          List.append_assoc] at h
        exact absurd (h ▸ List.prefix_append _ _) (hrest.not_mark hothers hlabel hnew)
    | some s =>
      cases s'? with
      | none =>
        simp only [markedText, Option.elim_none, Option.elim_some, List.nil_append,
          List.append_assoc] at h
        exact absurd (h ▸ List.prefix_append _ _) (hrest'.not_mark hothers hlabel hnew)
      | some s' =>
        simp only [markedText, Option.elim_some, List.append_assoc] at h
        obtain ⟨hs, hrest⟩ := append_marked_inj (hclear _ _ (.head _)).2 (hclear' _ _ (.head _)).2
          (hrest.mono hothers) (hrest'.mono hothers) (fun _ _ h ↦ h) (fun _ _ h ↦ h)
          (List.append_cancel_left h)
        rw [String.toList_inj.1 hs, hnext hrest]

/-- **A signature with clear texts is of one state only.** -/
theorem Command.state_eq_of_signatureText {c d : Command}
    (hc : ∀ s ∈ c.ownTexts, IsClear (labelsOf c.action) s)
    (hd : ∀ s ∈ d.ownTexts, IsClear (labelsOf d.action) s)
    (h : c.signatureText = d.signatureText) : c.state = d.state := by
  have htext : c.action.toList ++ c.state.parts.flatMap markedText =
      d.action.toList ++ d.state.parts.flatMap markedText := by
    have htext := congrArg String.toList h
    rwa [toList_signatureText, toList_signatureText] at htext
  have hfollows := follows_flatMap c.state.parts
  have hfollows' := follows_flatMap d.state.parts
  rw [map_fst_parts] at hfollows hfollows'
  obtain ⟨haction, hparts⟩ := append_marked_inj (hc _ (.head _)).2 (hd _ (.head _)).2 hfollows
    hfollows' labelsOf_subset labelsOf_subset htext
  have haction : c.action = d.action := String.toList_inj.1 haction
  have hparts : c.state.parts = d.state.parts := by
    refine eq_of_flatMap_markedText ?_ ?_ ?_ (fun _ _ ↦ isClear_of_mem_parts hc)
      (fun _ _ hmem ↦ ?_) hparts
    · rw [map_fst_parts, map_fst_parts, haction]
    · rw [map_fst_parts]
      exact fun _ h ↦ h
    · rw [map_fst_parts]
      exact nodup_labelsOf c.action
    · rw [haction]
      exact isClear_of_mem_parts hd hmem
  -- Both states have as many fields, so that what follows them are the measurements.
  obtain ⟨hfields, hblink⟩ := List.append_inj hparts (by simp [state])
  have hinjective : Function.Injective (Option.map (toString : Int → String)) :=
    Option.map_injective fun m n hmn ↦ by
      rwa [Int.toString_eq_repr, Int.toString_eq_repr, Int.repr_inj] at hmn
  have hblink : c.state.blink = d.state.blink :=
    List.map_injective_iff.2 (Function.Injective.prodMap Function.injective_id hinjective) hblink
  exact DiscreteState.ext haction hfields hblink

/-- A clear command has no semicolon in its signature. -/
theorem Command.semicolon_not_mem {c : Command}
    (h : ∀ s ∈ c.ownTexts, IsClear (labelsOf c.action) s) : ';' ∉ c.signatureText.toList := by
  rw [toList_signatureText]
  intro hmem
  obtain hmem | hmem := List.mem_append.1 hmem
  · exact (h _ (.head _)).1 hmem
  obtain ⟨⟨label, s?⟩, hpart, hmem⟩ := List.mem_flatMap.1 hmem
  cases s? with
  | none => cases hmem
  | some s =>
    have hlabel : label ∈ labelsOf c.action := by
      rw [← map_fst_parts]
      exact List.mem_map_of_mem hpart
    have hclear := (isClear_of_mem_parts h hpart).1
    simp [markedText, mark, (not_mem_label hlabel).2, hclear] at hmem

/-! ### The signature of a value -/

variable {continuous : List String} {v w : Value}

/-- Signatures in a row; nothing for none. -/
def joined? : List String → Option String
  | [] => none
  | parts => some (";".intercalate parts)

theorem valueSignature?_eq_joined? (continuous : List String) (v : Value) :
    valueSignature? v continuous =
      joined? ((discreteCommands continuous v).map Command.signatureText) := by
  have hsignatures : (discreteCommands continuous v).filterMap (·.signature? continuous) =
      (discreteCommands continuous v).map Command.signatureText := by
    rw [← List.filterMap_eq_map]
    refine List.filterMap_congr fun c hc ↦ ?_
    exact if_neg (of_decide_eq_true (List.mem_filter.1 hc).2)
  rw [valueSignature?, filterMap_signature?, hsignatures]
  rfl

/-- Texts without semicolons are read back from a row. -/
theorem joined?_inj {parts parts' : List String} (h : ∀ s ∈ parts, ';' ∉ s.toList)
    (h' : ∀ s ∈ parts', ';' ∉ s.toList) (heq : joined? parts = joined? parts') :
    parts = parts' := by
  have hsplit : ∀ {parts : List String}, parts ≠ [] → (∀ s ∈ parts, ';' ∉ s.toList) →
      (";".intercalate parts).toList.splitOn ';' = parts.map String.toList := by
    intro parts hne h
    rw [String.toList_intercalate]
    refine List.splitOn_intercalate ';' (fun cs hcs ↦ ?_) (by simpa using hne)
    obtain ⟨s, hs, rfl⟩ := List.mem_map.1 hcs
    exact h s hs
  match parts, parts' with
  | [], [] => rfl
  | _ :: _, _ :: _ =>
    refine (List.map_injective_iff.2 fun _ _ ↦ String.toList_inj.1) ?_
    rw [← hsplit (List.cons_ne_nil _ _) h, ← hsplit (List.cons_ne_nil _ _) h', Option.some.inj heq]

/-- Commands with the same signatures, all clear, have the same states. -/
theorem map_state_eq {cs ds : List Command}
    (hcs : ∀ c ∈ cs, ∀ s ∈ c.ownTexts, IsClear (labelsOf c.action) s)
    (hds : ∀ d ∈ ds, ∀ s ∈ d.ownTexts, IsClear (labelsOf d.action) s)
    (h : cs.map Command.signatureText = ds.map Command.signatureText) :
    cs.map Command.state = ds.map Command.state := by
  induction cs generalizing ds with
  | nil => rw [List.map_eq_nil_iff.1 h.symm]
  | cons c cs ih =>
    obtain ⟨d, ds, rfl, hd, hrest⟩ := List.map_eq_cons_iff.1 h.symm
    rw [List.forall_mem_cons] at hcs hds
    rw [List.map_cons, List.map_cons, Command.state_eq_of_signatureText hcs.1 hds.1 hd.symm,
      ih hcs.2 hds.2 hrest.symm]

/-- **Signatures are canonical**, for any two values and any continuous actions: from the same
discrete states come the same signatures, and from the same signatures the same states, as long as
no text in them looks like more than one. -/
theorem valueSignature?_canonical (continuous : List String) (v w : Value) :
    (discreteStates continuous v = discreteStates continuous w →
      valueSignature? v continuous = valueSignature? w continuous) ∧
    (HasClearTexts continuous v → HasClearTexts continuous w →
      valueSignature? v continuous = valueSignature? w continuous →
        discreteStates continuous v = discreteStates continuous w) := by
  rw [valueSignature?_eq_joined?, valueSignature?_eq_joined?]
  constructor
  · intro h
    -- Signatures are functions of states.
    have htexts : ∀ cs : List Command, cs.map Command.signatureText =
        (cs.map Command.state).map (String.ofList ∘ DiscreteState.text) := by
      intro cs
      rw [List.map_map]
      refine List.map_congr_left fun c _ ↦ ?_
      rw [Function.comp_apply, Function.comp_apply, ← c.toList_signatureText, String.ofList_toList]
    rw [htexts, htexts]
    exact congrArg (fun states ↦ joined? (states.map (String.ofList ∘ DiscreteState.text))) h
  · intro hv hw h
    refine map_state_eq hv hw (joined?_inj (fun s hs ↦ ?_) (fun s hs ↦ ?_) h)
    · obtain ⟨c, hc, rfl⟩ := List.mem_map.1 hs
      exact Command.semicolon_not_mem (hv c hc)
    · obtain ⟨d, hd, rfl⟩ := List.mem_map.1 hs
      exact Command.semicolon_not_mem (hw d hd)

/-- A blink of a lamp. -/
def blinkAt (hertz : Float) : Value :=
  .map [("action", .text "blink"), ("frequency", .number hertz), ("mode", .text "dim")]

/-- Two blinks that differ by less than a step have one state, with a continuous command or
without. -/
theorem valueSignature?_canonical_blinkAt :
    let v := .list [blinkAt 2.0, .map [("action", .text "setColor")]]
    let w := blinkAt 2.1
    HasClearTexts ["setColor"] v ∧ HasClearTexts ["setColor"] w ∧
    valueSignature? v ["setColor"] = some "blink|mode=dim|f=4" ∧
    valueSignature? w ["setColor"] = some "blink|mode=dim|f=4" ∧
    discreteStates ["setColor"] v = discreteStates ["setColor"] w := by
  intro v w
  obtain ⟨hsame, hstates⟩ := valueSignature?_canonical ["setColor"] v w
  have hv : HasClearTexts ["setColor"] v := by decide +kernel
  have hw : HasClearTexts ["setColor"] w := by decide +kernel
  have hsignature : valueSignature? v ["setColor"] = some "blink|mode=dim|f=4" := by
    decide +kernel
  have hequal : valueSignature? v ["setColor"] = valueSignature? w ["setColor"] :=
    hsame (by decide +kernel)
  exact ⟨hv, hw, hsignature, hequal.symm.trans hsignature, hstates hv hw hequal⟩

/-- **Signatures are not canonical as such.** An action with a mark in it has the signature of
another action with a mode, and one with a semicolon in it has the signature of two commands. -/
theorem valueSignature?_of_marks :
    let marked := .map [("action", .text "flash|mode=dim")]
    let moded := .map [("action", .text "flash"), ("mode", .text "dim")]
    let single := .map [("action", .text "flash;fade")]
    let several := .list [.map [("action", .text "flash")], .map [("action", .text "fade")]]
    (valueSignature? marked [] = valueSignature? moded [] ∧
      discreteStates [] marked ≠ discreteStates [] moded) ∧
    valueSignature? single [] = valueSignature? several [] ∧
      discreteStates [] single ≠ discreteStates [] several := by
  decide +kernel

end CueFlow
