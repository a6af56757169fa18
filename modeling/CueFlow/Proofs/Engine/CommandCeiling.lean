import CueFlow.Proofs.Engine.FailClosed
import CueFlow.Proofs.Value
import Mathlib.Algebra.Order.BigOperators.Group.List
import Mathlib.Algebra.Order.Ring.Nat
/-!
# What the burst ceiling says about commands

The burst ceiling bounds deliveries, and a list counts by its length. So it bounds how many *items*
carry commands (`commandItems`), and a list that is an item of another list is one item, however
many commands it holds: that is how the bundle of a second producer is gathered. Commands themselves
are bounded as long as they are spread out, no two of them in one item (`IsSpread`).
`items_within_ceiling` says both, and `commands_exceed_ceiling` shows two bundles on one port that
bring more commands than the ceiling.
-/

namespace CueFlow

/-! ### Items and the commands in them -/

/-- The items of a sink value. A value that is no list is its only item. -/
def Value.itemsOf : Value → List Value
  | .list items => items
  | v => [v]

/-- How many items of a sink value carry commands. -/
def commandItems (v : Value) : Nat := v.itemsOf.countP carriesCommands

/-- No item of the value holds two commands or more. -/
def Value.IsSpread (v : Value) : Prop := ∀ item ∈ v.itemsOf, (commandsIn item).length ≤ 1

instance (v : Value) : Decidable v.IsSpread :=
  inferInstanceAs (Decidable (∀ item ∈ v.itemsOf, (commandsIn item).length ≤ 1))

/-- Whatever carries a command counts as a delivery. -/
theorem commandItems_le_deliveryCount (v : Value) : commandItems v ≤ v.deliveryCount := by
  cases v with
  | null => exact Nat.le_refl 0
  | list items => exact List.countP_le_length
  | bool | number | text | map => exact List.countP_le_length

theorem length_commandsIn_list (items : List Value) :
    (commandsIn (.list items)).length = (items.map fun item ↦ (commandsIn item).length).sum := by
  rw [Value.commandsIn_list, List.length_flatMap]

/-- The commands of a value are those of its items. -/
theorem length_commandsIn_eq_sum (v : Value) :
    (commandsIn v).length = (v.itemsOf.map fun item ↦ (commandsIn item).length).sum := by
  cases v with
  | list items => exact length_commandsIn_list items
  | null | bool | number | text | map => exact (Nat.add_zero _).symm

/-- Spread out, as many items carry commands as there are commands. -/
theorem length_commandsIn_of_isSpread {v : Value} (h : v.IsSpread) :
    (commandsIn v).length = commandItems v := by
  rw [length_commandsIn_eq_sum, commandItems]
  rw [Value.IsSpread] at h
  generalize v.itemsOf = items at h ⊢
  induction items with
  | nil => rfl
  | cons item rest ih =>
    have hitem := h item List.mem_cons_self
    rw [List.map_cons, List.sum_cons, ih fun other hother ↦ h other (List.mem_cons_of_mem _ hother),
      List.countP_cons, Nat.add_comm]
    congr 1
    cases hcommands : commandsIn item with
    | nil => simp [carriesCommands, hcommands]
    | cons c others =>
      obtain rfl : others = [] := by simpa [hcommands] using hitem
      simp [carriesCommands, hcommands]

/-! ### In one tick -/

/-- The sum of a measure over the gathered values that the sink hooks called in some events are
given. -/
def handedTotal (measure : Value → Nat) (g : Graph) (events : List Event) : Nat :=
  ((sinkCalls events).map fun call ↦ ((handed g call).values.map measure).sum).sum

/-- What is handed over is counted by deliveries. -/
theorem handedOver_eq_handedTotal (g : Graph) (events : List Event) :
    handedOver g events = handedTotal Value.deliveryCount g events := by
  simp only [handedOver, handedTotal, Watchdog.deliveries, List.sum_eq_foldr]

theorem handedTotal_le {measure measure' : Value → Nat} {g : Graph} {events : List Event}
    (h : ∀ call ∈ sinkCalls events, ∀ v ∈ (handed g call).values, measure v ≤ measure' v) :
    handedTotal measure g events ≤ handedTotal measure' g events :=
  List.sum_le_sum fun call hcall ↦ List.sum_le_sum fun v hv ↦ h call hcall v hv

namespace Engine

variable {e : Engine}

/-- **The ceiling bounds the items that carry commands**, in every tick, completed or halted, and
whatever the shape of the values. It bounds the commands themselves in every tick in which they are
spread out: single commands, bundles, and single commands of several producers on one port. -/
theorem items_within_ceiling (h : e.Reachable) (now : Float) :
    handedTotal commandItems (e.graphBetween now) (e.tickAt now).2.2 ≤
      e.config.watchdog.burstCeiling ∧
    ((∀ call ∈ sinkCalls (e.tickAt now).2.2,
        ∀ v ∈ (handed (e.graphBetween now) call).values, v.IsSpread) →
      handedTotal (fun v ↦ (commandsIn v).length) (e.graphBetween now) (e.tickAt now).2.2 ≤
        e.config.watchdog.burstCeiling) := by
  have hdeliveries := handedOver_tickAt h now
  rw [handedOver_eq_handedTotal] at hdeliveries
  have hitems : handedTotal commandItems (e.graphBetween now) (e.tickAt now).2.2 ≤
      e.config.watchdog.burstCeiling :=
    (handedTotal_le fun _ _ v _ ↦ commandItems_le_deliveryCount v).trans hdeliveries
  refine ⟨hitems, fun hspread ↦ le_trans (handedTotal_le fun call hcall v hv ↦ ?_) hitems⟩
  exact (length_commandsIn_of_isSpread (hspread call hcall v hv)).le

/-- A command without a payload. -/
def plainCommand (action : String) : Value := .map [("action", .text action)]

/-- A ceiling of two values for each tick. -/
def duetConfig : EngineConfig where
  watchdog := { WatchdogConfig.default with burstCeiling := 2 }

/-- A lamp with two producers: the first gives a bundle with one flash, the second what is said. -/
def duetGraph (second : Value) : Graph where
  catalog := .ofDefinitions [
    { type := "cue"
      outputs := [{ id := "out", type := .command }]
      process := fun _ _ _ ↦ .ok [("out", .list [plainCommand "flash"])] },
    { type := "chord"
      outputs := [{ id := "out", type := .command }]
      process := fun _ _ _ ↦ .ok [("out", second)] },
    { type := "lamp"
      inputs := [{ id := "in", type := .command, kind := .sink }]
      sink := some fun _ _ _ ↦ .ok () }]
  nodes := [{ id := "a", type := "cue" }, { id := "b", type := "chord" },
    { id := "c", type := "lamp" }]
  connections := [⟨"ac", "a", "out", "c", "in"⟩, ⟨"bc", "b", "out", "c", "in"⟩]

/-- The engine around the three under that ceiling, started. -/
def duet (second : Value) : Engine :=
  (call { graph := duetGraph second
          config := duetConfig
          watchdog := { config := duetConfig.watchdog } } .start).1

theorem reachable_duet (second : Value) : (duet second).Reachable := by
  have hload : Graph.load (duetGraph second).catalog (duetGraph second).snapshot .strict =
      .ok (duetGraph second, {}) := rfl
  have hnew : ∃ e, Engine.new (duetGraph second) duetConfig = .ok e ∧ (e.call .start).1 =
      duet second := ⟨_, rfl, rfl⟩
  obtain ⟨e, hnew, hstart⟩ := hnew
  rw [← hstart]
  exact (Reachable.new (.load hload) hnew).call .start

/-- With a single tone in second place, two commands are handed over, and the ceiling is two. -/
theorem items_within_ceiling_duet :
    ∃ e : Engine, e = duet (plainCommand "tone") ∧
      handedTotal (fun v ↦ (commandsIn v).length) (e.graphBetween 0.0) (e.tickAt 0.0).2.2 = 2 ∧
      handedTotal (fun v ↦ (commandsIn v).length) (e.graphBetween 0.0) (e.tickAt 0.0).2.2 ≤
        e.config.watchdog.burstCeiling := by
  have hspread : ∀ call ∈ sinkCalls ((duet (plainCommand "tone")).tickAt 0.0).2.2,
      ∀ v ∈ (handed ((duet (plainCommand "tone")).graphBetween 0.0) call).values, v.IsSpread := by
    decide +kernel
  exact ⟨_, rfl, by decide +kernel, (items_within_ceiling (reachable_duet _) 0.0).2 hspread⟩

/-- **The ceiling does not bound commands.** A bundle in second place passes as one delivery: three
commands are handed over in a tick that completes under a ceiling of two. -/
theorem commands_exceed_ceiling :
    ∃ e : Engine, e = duet (.list [plainCommand "flash", plainCommand "tone"]) ∧ e.Reachable ∧
      (e.tickAt 0.0).2.1 = .completed { tick := 0, timeMs := 0.0, computed := 3, sinkCalls := 1 } ∧
      e.config.watchdog.burstCeiling <
        handedTotal (fun v ↦ (commandsIn v).length) (e.graphBetween 0.0) (e.tickAt 0.0).2.2 :=
  ⟨_, rfl, reachable_duet _, rfl, by decide +kernel⟩

end Engine

end CueFlow
