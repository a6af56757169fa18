import CueFlow.Engine.Deliver
import CueFlow.Proofs.Value
import CueFlow.Proofs.Watchdog
/-!
# The discrete commands of a value

The watchdog takes no notice of commands of continuous actions: the signature of a value is made of
its discrete commands alone (`discreteCommands`, `valueSignature?_congr`). Values with the same ones
go on to have the same ones when they are gathered (`SameDiscrete.gatherValue`), so that the
oscillation check cannot tell them apart.
-/

namespace CueFlow

variable {continuous : List String} {x x' : Value}

/-- The commands in a value that are not of a continuous action, in their order. -/
def discreteCommands (continuous : List String) (v : Value) : List Command :=
  (commandsIn v).filter fun c ↦ decide (c.action ∉ continuous)

/-- The values have the same discrete commands in the same order. -/
def SameDiscrete (continuous : List String) (x' x : Value) : Prop :=
  discreteCommands continuous x' = discreteCommands continuous x

/-- The maps have the same keys, and the values under a key have the same discrete commands. -/
def SameDiscreteMap (continuous : List String) (m' m : ValueMap) : Prop :=
  List.Forall₂ (fun a' a ↦ a'.1 = a.1 ∧ SameDiscrete continuous a'.2 a.2) m' m

/-- Some value of the map has discrete commands. -/
def HasDiscrete (continuous : List String) (m : ValueMap) : Prop :=
  ∃ entry ∈ m, discreteCommands continuous entry.2 ≠ []

/-! ### Members of a bundle -/

theorem discreteCommands_list (continuous : List String) (items : List Value) :
    discreteCommands continuous (.list items) = items.flatMap (discreteCommands continuous) := by
  rw [discreteCommands, Value.commandsIn_list, List.filter_flatMap]
  rfl

/-- Further members without discrete commands make no difference. -/
theorem sameDiscrete_append (items : List Value) {more : List Value}
    (h : ∀ x ∈ more, discreteCommands continuous x = []) :
    SameDiscrete continuous (.list (items ++ more)) (.list items) := by
  have hmore : more.flatMap (discreteCommands continuous) = [] := List.flatMap_eq_nil_iff.2 h
  rw [SameDiscrete, discreteCommands_list, List.flatMap_append, hmore, List.append_nil,
    discreteCommands_list]

/-- A command of a continuous action is not discrete. -/
theorem discreteCommands_map_of_mem {fields : ValueMap} {action : String}
    (haction : fields.get? "action" = some (.text action)) (hmem : action ∈ continuous) :
    discreteCommands continuous (.map fields) = [] := by
  have hcommand : commandsIn (.map fields) = [⟨action, fields⟩] := by
    rw [commandsIn, Command.ofValue?, haction]
    rfl
  rw [discreteCommands, hcommand, List.filter_cons_of_neg (by simp [hmem]), List.filter_nil]

/-- **One more producer** adds its commands to those that have been gathered. -/
theorem commandsIn_gatherValue (first v : Value) :
    commandsIn (gatherValue (some first) v) = commandsIn first ++ commandsIn v := by
  cases first with
  | list items =>
    rw [gatherValue, Value.commandsIn_list, List.flatMap_append, ← Value.commandsIn_list,
      List.flatMap_singleton]
  | null | bool | number | text | map =>
    rw [gatherValue, Value.commandsIn_list, List.flatMap_cons, List.flatMap_singleton]
    exact nofun

/-- What is gathered has the discrete commands of its parts. -/
theorem discreteCommands_gatherValue (continuous : List String) (first v : Value) :
    discreteCommands continuous (gatherValue (some first) v) =
      discreteCommands continuous first ++ discreteCommands continuous v := by
  rw [discreteCommands, commandsIn_gatherValue, List.filter_append]
  rfl

theorem SameDiscrete.gatherValue {first first' : Option Value} (h : SameDiscrete continuous x' x)
    (hfirst : Option.Rel (SameDiscrete continuous) first' first) :
    SameDiscrete continuous (gatherValue first' x') (gatherValue first x) := by
  cases hfirst with
  | none => exact h
  | some hfirst =>
    rw [SameDiscrete, discreteCommands_gatherValue, discreteCommands_gatherValue, hfirst, h]

theorem SameDiscreteMap.insert {m m' : ValueMap} (h : SameDiscreteMap continuous m' m)
    (key : String) (hx : SameDiscrete continuous x' x) :
    SameDiscreteMap continuous (m'.insert key x') (m.insert key x) := by
  induction h with
  | nil => exact .cons ⟨rfl, hx⟩ .nil
  | @cons a' a rest' rest hentry hrest ih =>
    rw [KeyMap.insert, hentry.1, KeyMap.insert]
    split
    · exact .cons ⟨rfl, hx⟩ (.cons hentry hrest)
    · split
      · exact .cons ⟨rfl, hx⟩ hrest
      · exact .cons hentry ih

/-! ### Signatures -/

/-- The signatures in a value are those of its discrete commands. -/
theorem filterMap_signature? (continuous : List String) (v : Value) :
    (commandsIn v).filterMap (·.signature? continuous) =
      (discreteCommands continuous v).filterMap (·.signature? continuous) := by
  rw [discreteCommands, List.filterMap_filter]
  refine congrArg (List.filterMap · (commandsIn v)) (funext fun c ↦ ?_)
  rw [Command.signature?]
  split
  next hmem => simp [hmem]
  next hmem => simp [hmem]

/-- **The signature of a value** is made of its discrete commands. -/
theorem valueSignature?_congr (h : SameDiscrete continuous x' x) :
    valueSignature? x' continuous = valueSignature? x continuous := by
  rw [valueSignature?, filterMap_signature?, h, ← filterMap_signature?, valueSignature?]

theorem valueSignature?_of_no_discrete (h : discreteCommands continuous x = []) :
    valueSignature? x continuous = none := by
  rw [valueSignature?, filterMap_signature?, h]
  rfl

theorem SameDiscreteMap.hasDiscrete_iff {m m' : ValueMap} (h : SameDiscreteMap continuous m' m) :
    HasDiscrete continuous m' ↔ HasDiscrete continuous m := by
  induction h with
  | nil => rfl
  | cons hentry _ ih =>
    rw [HasDiscrete, HasDiscrete] at ih ⊢
    rw [List.exists_mem_cons_iff, List.exists_mem_cons_iff, hentry.2, ih]

theorem SameDiscreteMap.sameSignatures {m m' : ValueMap} (h : SameDiscreteMap continuous m' m) :
    Watchdog.SameSignatures continuous m' m :=
  h.imp fun _ _ hentry ↦ ⟨hentry.1, valueSignature?_congr hentry.2⟩

end CueFlow
