import CueFlow.Proofs.Engine.Receipt
/-!
# When a visit delivers

A visit delivers if it finds anything else than the visit before it. The engine finds this out in
two stages: maps that are equal as a whole need no closer look, and otherwise port is compared with
port, and bundle with bundle. What it comes to is said without stages: the compute inputs or the
config differ, or some port does (`PortDiffers`). The two stages agree because equal values are no
change on any port (`not_portDiffers_of_beq`); hence `delivery?_isSome_iff`.
-/

namespace CueFlow

/-- A bundle that brings nothing new: both values are lists, the later one carries commands, and
each of its items equals the item of the earlier one that has the same discriminant and as many
items before it that share it. -/
def RepeatsCommands (v w : Value) : Prop :=
  ∃ before after, v = .list before ∧ w = .list after ∧ carriesCommands w = true ∧
    ∀ i y, after[i]? = some y → ∃ j x, before[j]? = some x ∧ discriminant x = discriminant y ∧
      ((before.take j).map discriminant).count (discriminant x) =
        ((after.take i).map discriminant).count (discriminant y) ∧ x == y

/-- What is gathered on a port differs from what was: the port gained or lost its value, or has
another one that does not merely repeat commands. -/
def PortDiffers : Option Value → Option Value → Prop
  | none, none => False
  | some v, some w => ¬ v == w ∧ ¬ RepeatsCommands v w
  | _, _ => True

/-- What a visit of a node finds: its compute inputs, its config, and what is gathered on every
port. -/
structure Sight where
  inputs : ValueMap
  config : ValueMap
  gathered : String → Option Value

/-- A visit finds another setting than the one before it. -/
def Sight.NewSetting (before now : Sight) : Prop :=
  ¬ before.inputs == now.inputs ∨ ¬ before.config == now.config

/-- A visit finds another setting than the one before it, or something else on some port. -/
def Sight.Differs (before now : Sight) : Prop :=
  before.NewSetting now ∨ ∃ port, PortDiffers (before.gathered port) (now.gathered port)

/-- What a snapshot shows. -/
def SinkSnapshot.shown (snapshot : SinkSnapshot) : Sight :=
  ⟨snapshot.computeInputs, snapshot.config, snapshot.sinkValues.get?⟩

variable {v w : Value} {previous next : ValueMap}

/-! ### One port -/

/-- A bundle repeats commands exactly if none of its members has changed. -/
theorem repeatsCommands_iff : RepeatsCommands v w ↔ changedMembers? v w = some [] := by
  rw [changedMembers?_eq_some_iff]
  constructor
  · rintro ⟨before, after, rfl, rfl, hcarries, hsame⟩
    refine ⟨before, after, rfl, rfl, hcarries, changedMembers_eq_nil_iff.2 fun key y hy ↦ ?_⟩
    obtain ⟨i, hi, rfl⟩ := exists_getElem?_of_member? hy
    obtain ⟨j, x, hj, hdiscriminant, hcount, heq⟩ := hsame i y hi
    refine ⟨x, ?_, heq⟩
    have hx := member?_of_getElem? hj
    rw [hcount, hdiscriminant] at hx
    exact hx
  · rintro ⟨before, after, rfl, rfl, hbundle, hnone⟩
    refine ⟨before, after, rfl, rfl, hbundle, fun i y hi ↦ ?_⟩
    obtain ⟨x, hx, heq⟩ := changedMembers_eq_nil_iff.1 hnone _ y (member?_of_getElem? hi)
    obtain ⟨j, hj, hkey⟩ := exists_getElem?_of_member? hx
    obtain ⟨hdiscriminant, hcount⟩ := MemberKey.mk.inj hkey
    exact ⟨j, x, hj, hdiscriminant.symm, hcount.symm, heq⟩

/-- A bundle that equals the one before it has no member that changed. -/
theorem changedMembers?_of_beq (h : v == w) :
    changedMembers? v w = none ∨ changedMembers? v w = some [] := by
  cases hchanged : changedMembers? v w with
  | none => exact .inl rfl
  | some changed =>
    obtain ⟨before, after, rfl, rfl, -, rfl⟩ := changedMembers?_eq_some_iff.1 hchanged
    exact .inr (congrArg some (changedMembers_of_beqItems h))

/-- **A port does not call for a delivery exactly if it does not differ.** -/
theorem isChanged_eq_false_iff :
    (portChange (some v) w).isChanged = false ↔ ¬ PortDiffers (some v) (some w) := by
  rw [PortDiffers, not_and_or, not_not, not_not, repeatsCommands_iff]
  constructor
  · intro hsame
    cases hchanged : changedMembers? v w with
    | none => exact .inl ((portChange_of_none hchanged).2 hsame)
    | some changed => exact .inr (congrArg some ((portChange_of_some hchanged).2 hsame))
  · intro hsame
    have hrepeats : changedMembers? v w = some [] → (portChange (some v) w).isChanged = false := by
      intro hnone
      rw [portChange, changedCommands?, hnone]
      rfl
    rcases hsame with hequal | hnone
    · rcases changedMembers?_of_beq hequal with hnone | hnone
      · rw [portChange, changedCommands?, hnone]
        dsimp only [Option.map_none]
        rw [if_pos hequal]
        rfl
      · exact hrepeats hnone
    · exact hrepeats hnone

/-! ### All ports -/

theorem not_portDiffers_of_rel {before now : Option Value}
    (h : Option.Rel (fun v w ↦ v == w) before now) : ¬ PortDiffers before now := by
  cases h with
  | none => exact id
  | some hequal => exact fun hdiffers ↦ hdiffers.1 hequal

/-- **The comparison by ports** delivers exactly if some port differs. -/
theorem sinkDelta?_isSome_iff (hsorted : next.Sorted) : (sinkDelta? previous next).isSome ↔
    ∃ port, PortDiffers (previous.get? port) (next.get? port) := by
  constructor
  · intro hdelivers
    by_contra hsame
    rw [not_exists] at hsame
    refine absurd hdelivers ?_
    rw [sinkDelta?, if_neg ?_]
    · exact Bool.false_ne_true
    rw [Bool.or_eq_true, not_or, List.any_map, List.any_eq_true, List.any_eq_true]
    constructor
    · rintro ⟨⟨port, w⟩, hmem, hchanged⟩
      have hdiffers := hsame port
      rw [(hsorted.get?_eq_some_iff).2 hmem] at hdiffers
      cases hbefore : previous.get? port with
      | none =>
        rw [hbefore] at hdiffers
        exact hdiffers trivial
      | some v =>
        rw [hbefore, ← isChanged_eq_false_iff] at hdiffers
        have hchanged' : (portChange (previous.get? port) w).isChanged = true := hchanged
        rw [hbefore, hdiffers] at hchanged'
        cases hchanged'
    · rintro ⟨⟨port, v⟩, hmem, hlost⟩
      have hdiffers := hsame port
      obtain ⟨v', hbefore⟩ := KeyMap.exists_get?_of_mem hmem
      have hnow : next.get? port = none := by simpa [KeyMap.contains] using hlost
      rw [hbefore, hnow] at hdiffers
      exact hdiffers trivial
  · rintro ⟨port, hdiffers⟩
    by_contra hnone
    rw [Option.not_isSome_iff_eq_none] at hnone
    obtain ⟨hlost, hkept⟩ := exists_of_sinkDelta?_eq_none hnone port
    cases hnow : next.get? port with
    | none =>
      rw [hnow, hlost hnow] at hdiffers
      exact hdiffers
    | some w =>
      obtain ⟨v, hbefore, hsame⟩ := hkept w hnow
      rw [hnow, hbefore] at hdiffers
      exact isChanged_eq_false_iff.1 hsame hdiffers

/-- **A visit delivers exactly if it finds anything else than the visit before it**, if there was
one. -/
theorem delivery?_isSome_iff {before : Option SinkSnapshot} {now : SinkSnapshot}
    (hsorted : now.sinkValues.Sorted) : (delivery? before now).isSome ↔
      ∀ last, before = some last → last.shown.Differs now.shown := by
  cases before with
  | none => exact iff_of_true rfl fun last hlast ↦ absurd hlast.symm (Option.some_ne_none last)
  | some last =>
    have hsetting : ¬ last.sameSetting now = true ↔ last.shown.NewSetting now.shown := by
      rw [SinkSnapshot.sameSetting, Bool.and_eq_true, not_and_or]
      exact Iff.rfl
    rw [delivery?]
    split
    next hsame =>
      have hdiffers : last.shown.Differs now.shown ↔
          ∃ port, PortDiffers (last.sinkValues.get? port) (now.sinkValues.get? port) :=
        or_iff_right fun hnew ↦ hsetting.2 hnew hsame
      split
      next hequal =>
        -- Maps that are equal as a whole do not differ on any port.
        refine iff_of_false Bool.false_ne_true fun h ↦ ?_
        obtain ⟨port, hport⟩ := hdiffers.1 (h last rfl)
        exact not_portDiffers_of_rel (Value.rel_get? hequal port) hport
      next =>
        rw [sinkDelta?_isSome_iff hsorted, ← hdiffers]
        exact ⟨fun h _ heq ↦ Option.some.inj heq ▸ h, fun h ↦ h last rfl⟩
    next hother =>
      exact ⟨fun _ _ heq ↦ Option.some.inj heq ▸ .inl (hsetting.1 hother), fun _ ↦ rfl⟩

/-- A first visit and one that finds another setting deliver all that they gathered. -/
theorem delivery?_of_newSetting {before : Option SinkSnapshot} {now : SinkSnapshot}
    (h : ∀ last, before = some last → last.shown.NewSetting now.shown) :
    delivery? before now = some now.sinkValues := by
  cases before with
  | none => rfl
  | some last =>
    have hsetting : last.sameSetting now = false := by
      rw [SinkSnapshot.sameSetting, Bool.and_eq_false_iff, ← Bool.not_eq_true, ← Bool.not_eq_true]
      exact h last rfl
    rw [delivery?, hsetting]
    rfl

end CueFlow
