import CueFlow.Proofs.Engine.HeldOverrides
import CueFlow.Proofs.Engine.Record
import Mathlib.Data.List.Induction
/-!
# What an engine keeps under the ids of nodes

An engine keeps three stores by the id of a node: the overrides, what it remembers from tick to
tick, and what the watchdog observed. An entry of any of them (`EntryKey`) belongs to the node under
whose id it is kept, and no call leaves it behind when the node goes: a removed node takes its
entries along, a load drops all entries, and a tick enters nothing but what the steps of its plan
do, which are steps of nodes of the graph (`Reachable.tidy`).

So nothing is kept under an id when a call brings a node with that id into the graph
(`not_carries_of_brings`), and an entry that is there later has been made since
(`enteredSince_of_carries`).
-/

namespace CueFlow

/-- Where an engine keeps something under the id of a node: an override of an input or of a config
entry, what it remembers from tick to tick, and what the watchdog observed at a sink port. -/
inductive EntryKey where
  | override (node : NodeId) (kind : OverrideKind) (key : String)
  | memory (node : NodeId)
  | history (node : NodeId) (port : String)

/-- The node to which an entry belongs. -/
def EntryKey.node : EntryKey → NodeId
  | .override node _ _ | .memory node | .history node _ => node

namespace Engine

/-- There is an entry. -/
def Carries (e : Engine) : EntryKey → Prop
  | .override node kind key => (e.overrides.get? node kind key).isSome
  | .memory node => (e.memory.get? node).isSome
  | .history node port => (((e.watchdog.history.get? node).getD []).get? port).isSome

/-- Every entry belongs to a node of the graph. -/
def Tidy (e : Engine) : Prop := ∀ k, e.Carries k → (e.graph.node? k.node).isSome

variable {e e' : Engine} {k : EntryKey} {v : NodeId}

/-! ### What operations do with entries -/

/-- What drops overrides, and beyond that clears whole stores at most, makes no entry. -/
theorem Carries.of_dropped (h : e'.Carries k)
    (hoverrides : ∀ node kind key, (e'.overrides.get? node kind key).isSome →
      (e.overrides.get? node kind key).isSome)
    (hmemory : e'.memory = e.memory ∨ e'.memory = [])
    (hhistory : e'.watchdog.history = e.watchdog.history ∨ e'.watchdog.history = []) :
    e.Carries k := by
  cases k with
  | override node kind key => exact hoverrides node kind key h
  | memory node =>
    obtain hsame | hnone := hmemory
    · rwa [Carries, hsame] at h
    · rw [Carries, hnone] at h
      cases h
  | history node port =>
    obtain hsame | hnone := hhistory
    · rwa [Carries, hsame] at h
    · rw [Carries, hnone] at h
      cases h

/-- An edit forgets the entries of the node that it removes, and no others. -/
theorem carries_forgetRemoved_iff (e : Engine) (edit : GraphEdit) (k : EntryKey) :
    (e.forgetRemoved edit).Carries k ↔ edit.removedNode? ≠ some k.node ∧ e.Carries k := by
  rw [forgetRemoved]
  cases edit.removedNode? with
  | none => simp
  | some node =>
    rw [Ne, Option.some_inj]
    cases k with
    | override v kind key =>
      show ((e.overrides.clearNode node).get? v kind key).isSome ↔ ¬ node = v ∧ _
      rw [OverrideStore.get?_clearNode]
      split
      next hnode => simp [hnode]
      next hnode => simp [hnode, Carries]
    | memory v =>
      show ((e.memory.erase node).get? v).isSome ↔ ¬ node = v ∧ _
      rw [KeyMap.get?_erase]
      split
      next hnode => simp [hnode]
      next hnode => simp [hnode, Carries]
    | history v port =>
      show ((((e.watchdog.history.erase node).get? v).getD []).get? port).isSome ↔ ¬ node = v ∧ _
      rw [KeyMap.get?_erase]
      split
      next hnode => simp [hnode]
      next hnode => simp [hnode, Carries]

/-- The passes of a tick leave alone what is kept under an id that no node has. -/
theorem get?_passes (hv : e.graph.node? v = none) (now : Float) :
    (e.passes now).1.memory.get? v = e.memory.get? v ∧
      (e.passes now).1.watchdog.history.get? v = e.watchdog.history.get? v := by
  rw [passes]
  cases hcompile : e.graph.compile with
  | error error => exact ⟨rfl, rfl⟩
  | ok plan =>
    have hother : v ∉ plan.steps.map PlanStep.node := by
      refine not_mem_steps hcompile ?_
      rw [← Graph.node?_isSome_iff, hv]
      exact Bool.false_ne_true
    have hcompute := Tick.Touches.computePass
      ((e.readied plan now).beginTick now (e.sinceLast now)) plan.steps
    have hsink := Tick.Touches.sinkPass (e.underway plan now plan.steps) plan.steps
    exact ⟨(hsink.entry v hother).trans (hcompute.entry v hother),
      (hsink.history v hother).trans (hcompute.history v hother)⟩

/-- So does the tick as a whole, unless it clears both stores. -/
theorem get?_tickAt (he : e.Reachable) (hv : e.graph.node? v = none) (now : Float) :
    ((e.tickAt now).1.memory = [] ∧ (e.tickAt now).1.watchdog.history = []) ∨
      (e.tickAt now).1.memory.get? v = e.memory.get? v ∧
        (e.tickAt now).1.watchdog.history.get? v = e.watchdog.history.get? v := by
  cases hrunning : e.running with
  | false =>
    rw [tickAt_of_not_running hrunning]
    exact .inr ⟨rfl, rfl⟩
  | true =>
    obtain ⟨report, heq⟩ | ⟨plan, info, -, heq⟩ := tickAt_eq_passes he.planSound hrunning now
    · rw [heq, stop, if_pos ((e.passes_fst now).2.trans hrunning)]
      exact .inl ⟨rfl, rfl⟩
    · rw [heq]
      exact .inr (get?_passes hv now)

/-! ### No entry without its node -/

namespace Tidy

theorem of_empty (hoverrides : e.overrides = {}) (hmemory : e.memory = [])
    (hhistory : e.watchdog.history = []) : e.Tidy := by
  intro k hk
  cases k with
  | override =>
    rw [Carries, hoverrides] at hk
    cases hk
  | memory =>
    rw [Carries, hmemory] at hk
    cases hk
  | history =>
    rw [Carries, hhistory] at hk
    cases hk

/-- The skeleton decides which nodes there are. -/
theorem of_dropped (h : e.Tidy) (hskel : e'.graph.skeleton = e.graph.skeleton)
    (hoverrides : ∀ node kind key, (e'.overrides.get? node kind key).isSome →
      (e.overrides.get? node kind key).isSome)
    (hmemory : e'.memory = e.memory ∨ e'.memory = [])
    (hhistory : e'.watchdog.history = e.watchdog.history ∨ e'.watchdog.history = []) :
    e'.Tidy := by
  intro k hk
  rw [Graph.isSome_node?_congr hskel]
  exact h k (hk.of_dropped hoverrides hmemory hhistory)

theorem setOverride (h : e.Tidy) {node : NodeId} {kind : OverrideKind} {key : String}
    {value : Value} {lifetime : Option Float} {now : Float}
    (hset : e.setOverride node kind key value lifetime now = .ok e') : e'.Tidy := by
  have hnode := node_of_setOverride hset
  obtain rfl := of_setOverride hset
  intro k hk
  cases k with
  | override v kind' key' =>
    rw [Carries, OverrideStore.get?_set] at hk
    split at hk
    next heq => exact heq.1 ▸ hnode
    next => exact h (.override v kind' key') hk
  | memory v => exact h (.memory v) hk
  | history v port => exact h (.history v port) hk

theorem edit (h : e.Tidy) (he : e.Reachable) {edit : GraphEdit} {g : Graph}
    (happly : e.graph.apply edit = .ok g) (plan : Option Plan) :
    (forgetRemoved { e with graph := g, plan } edit).Tidy := by
  intro k hk
  obtain ⟨hkept, hcarried⟩ := (carries_forgetRemoved_iff { e with graph := g, plan } edit k).1 hk
  rw [(forgetRemoved_eq { e with graph := g, plan } edit).1]
  exact (he.sound.definitionOf?_edit happly hkept (h k hcarried)).1

theorem tick (h : e.Tidy) (he : e.Reachable) (now : Float) : (e.tickAt now).1.Tidy := by
  intro k hk
  rw [Graph.isSome_node?_congr (e.skeleton_tickAt now)]
  by_contra hnone
  rw [Option.not_isSome_iff_eq_none] at hnone
  refine absurd (h k ?_) (by rw [hnone]; exact Bool.false_ne_true)
  cases k with
  | override v kind key =>
    cases hrunning : e.running with
    | false => rwa [tickAt_of_not_running hrunning] at hk
    | true =>
      rw [Carries, overrides_tickAt hrunning, he.holdsOverrides.valid.get?_expire] at hk
      obtain ⟨o, ho⟩ := Option.isSome_iff_exists.1 hk
      exact Option.isSome_iff_exists.2 ⟨o, (Option.filter_eq_some_iff.1 ho).1⟩
  | memory v =>
    obtain ⟨hcleared, -⟩ | ⟨hsame, -⟩ := get?_tickAt (v := v) he hnone now
    · rw [Carries, hcleared] at hk
      cases hk
    · rwa [Carries, hsame] at hk
  | history v port =>
    obtain ⟨-, hcleared⟩ | ⟨-, hsame⟩ := get?_tickAt (v := v) he hnone now
    · rw [Carries, hcleared] at hk
      cases hk
    · rwa [Carries, hsame] at hk

theorem stop (h : e.Tidy) : e.stop.1.Tidy := by
  refine h.of_dropped e.stop_fst.1 (fun node kind key hkey ↦ ?_) ?_ ?_
  · rwa [e.overrides_stop] at hkey
  · rw [Engine.stop]
    split
    · exact .inr rfl
    · exact .inl rfl
  · rw [Engine.stop]
    split
    · exact .inr rfl
    · exact .inl rfl

theorem clearOverride (h : e.Tidy) (node : NodeId) (kind : OverrideKind) (key : String) :
    (e.clearOverride node kind key).1.Tidy := by
  refine h.of_dropped rfl (fun v kind' key' hkey ↦ ?_) (.inl rfl) (.inl rfl)
  have hheld : ((e.overrides.clear node kind key).get? v kind' key').isSome := hkey
  rw [OverrideStore.get?_clear] at hheld
  split at hheld
  · cases hheld
  · exact hheld

end Tidy

/-- **A reachable engine keeps nothing under an id that no node has.** -/
theorem Reachable.tidy (h : e.Reachable) : e.Tidy := by
  induction h with
  | new _ hnew =>
    rw [new_eq hnew]
    exact .of_empty rfl rfl rfl
  | @call e c he ih =>
    cases c with
    | load state =>
      refine orStay_of ih fun e' h ↦ ?_
      obtain ⟨g, report, -, rfl⟩ := of_load h
      exact .of_empty rfl rfl rfl
    | compile =>
      refine orStay_of ih fun e' h ↦ ?_
      obtain ⟨plan, -, rfl⟩ := of_compileNow h
      exact ih
    | applyEdit edit =>
      refine orStay_of ih fun e' h ↦ ?_
      obtain ⟨g, happly, rfl⟩ := of_applyEdit h
      exact ih.edit he happly e.plan
    | tryEdit edit =>
      refine orStay_of ih fun e' h ↦ ?_
      obtain ⟨g, happly, ⟨-, plan, -, rfl⟩ | ⟨-, rfl⟩⟩ := of_tryEdit h
      · exact ih.edit he happly (some plan)
      · exact ih.edit he happly e.plan
    | setOverride => exact orStay_of ih fun e' h ↦ ih.setOverride h
    | clearOverride node kind key => exact ih.clearOverride node kind key
    | setPolicy => exact ih
    | start =>
      refine orStay_of ih fun e' h ↦ ?_
      obtain ⟨plan, -, rfl⟩ := of_start h
      exact ih.of_dropped rfl (fun _ _ _ hkey ↦ hkey) (.inl rfl) (.inr rfl)
    | stop => exact ih.stop
    | tick now => exact ih.tick he now

/-! ### Entries are younger than their nodes -/

/-- The call brings a node into the graph: it is added by an edit, or loaded. -/
inductive Brings (e : Engine) : NodeId → HostCall → Prop
  | load {state : GraphState} {report : LoadReport} {e' : Engine} {v : NodeId}
      (hload : e.load state = .ok (e', report)) (hv : (e'.graph.node? v).isSome) :
      Brings e v (.load state)
  | applyEdit {n : Node} {e' : Engine} (hedit : e.applyEdit (.addNode n) = .ok e') :
      Brings e n.id (.applyEdit (.addNode n))
  | tryEdit {n : Node} {e' : Engine} (hedit : e.tryEdit (.addNode n) = .ok e') :
      Brings e n.id (.tryEdit (.addNode n))

/-- A node that is added was not there. -/
theorem node?_of_apply_addNode {n : Node} {g : Graph}
    (happly : e.graph.apply (.addNode n) = .ok g) : e.graph.node? n.id = none := by
  cases Graph.editMove_of_apply happly with
  | addNode hcheck => exact Graph.node?_of_checkNode hcheck

/-- An edit that adds a node makes no entry. -/
theorem not_carries_addNode (he : e.Reachable) {n : Node} {g : Graph}
    (happly : e.graph.apply (.addNode n) = .ok g) (plan : Option Plan) (hk : k.node = n.id) :
    ¬ (forgetRemoved { e with graph := g, plan } (.addNode n)).Carries k := by
  rw [carries_forgetRemoved_iff]
  rintro ⟨-, hcarried⟩
  have hnode := he.tidy k hcarried
  rw [hk, node?_of_apply_addNode happly] at hnode
  cases hnode

/-- **A node that comes into the graph finds nothing under its id.** -/
theorem not_carries_of_brings (he : e.Reachable) {c : HostCall} (h : e.Brings v c)
    (hk : k.node = v) : ¬ (e.call c).1.Carries k := by
  cases h with
  | @load state report e' _ hload hv =>
    rw [call, hload]
    obtain ⟨g, -, rfl⟩ := of_load_eq hload
    cases k with
    | override => exact Bool.false_ne_true
    | memory => exact Bool.false_ne_true
    | history => exact Bool.false_ne_true
  | @applyEdit n e' hedit =>
    obtain ⟨g, happly, rfl⟩ := of_applyEdit hedit
    rw [call, hedit]
    exact not_carries_addNode he happly e.plan hk
  | @tryEdit n e' hedit =>
    rw [call, hedit]
    obtain ⟨g, happly, ⟨-, plan, -, rfl⟩ | ⟨-, rfl⟩⟩ := of_tryEdit hedit
    · exact not_carries_addNode he happly (some plan) hk
    · exact not_carries_addNode he happly e.plan hk

/-- An entry was made by one of these calls and has been there ever since, and neither that call nor
one after it brought the node of the entry into the graph. -/
def EnteredSince (e : Engine) (calls : List HostCall) (k : EntryKey) : Prop :=
  ∃ before c after, calls = before ++ c :: after ∧ ¬ (e.run before).1.Carries k ∧
    (∀ mid, mid <+: after → (e.run (before ++ c :: mid)).1.Carries k) ∧
    (e.run before).1.Never (fun e' ↦ e'.Brings k.node) (c :: after)

/-- **An entry that a run leaves behind is younger than its node**, if the run began without it. -/
theorem enteredSince_of_carries (he : e.Reachable) (hnone : ¬ e.Carries k) {calls : List HostCall}
    (h : (e.run calls).1.Carries k) : e.EnteredSince calls k := by
  induction calls using List.reverseRecOn with
  | nil => exact absurd h hnone
  | append_singleton calls c ih =>
    rw [run_concat] at h
    have hbrings : ¬ (e.run calls).1.Brings k.node c := fun hbrings ↦
      not_carries_of_brings (he.run calls) hbrings rfl h
    by_cases hbefore : (e.run calls).1.Carries k
    · -- It was made earlier, and the last call has not touched it.
      obtain ⟨before, c', after, rfl, hmade, hkept, hnever⟩ := ih hbefore
      refine ⟨before, c', after ++ [c], by simp, hmade, fun mid hmid ↦ ?_, ?_⟩
      · obtain rfl | hmid := List.prefix_concat_iff.1 hmid
        · rw [← List.cons_append, ← List.append_assoc, run_concat]
          exact h
        · exact hkept mid hmid
      · rw [← List.cons_append]
        refine hnever.concat ?_
        rw [run_append] at hbrings
        exact hbrings
    · -- It is made by the last call.
      refine ⟨calls, c, [], rfl, hbefore, fun mid hmid ↦ ?_, ?_⟩
      · rw [List.prefix_nil.1 hmid, run_concat]
        exact h
      · exact Never.nil.concat hbrings

end Engine

end CueFlow
