import CueFlow.Proofs.Engine.Calls
import CueFlow.Proofs.Override
/-!
# The overrides that an engine holds

The store of a reachable engine is valid, and it holds overrides of existing nodes only: an override
of an unknown node is refused, a node that is removed takes its overrides along, and a load drops
them all (`Reachable.holdsOverrides`). A tick does nothing to the store but drop what has expired
(`overrides_tickAt`).
-/

namespace CueFlow

namespace Engine

variable {e : Engine}

/-- The store is valid and holds overrides of existing nodes only. -/
structure HoldsOverrides (e : Engine) : Prop where
  valid : e.overrides.Valid
  node : ∀ v kind key o, e.overrides.get? v kind key = some o → (e.graph.node? v).isSome

/-! ### Ticks -/

/-- A stop keeps the overrides. -/
theorem overrides_stop (e : Engine) : e.stop.1.overrides = e.overrides := by
  rw [stop]
  split
  · rfl
  · rfl

/-- **A tick of a running engine drops what has expired**, however it ends. -/
theorem overrides_tickAt (hrunning : e.running = true) (now : Float) :
    (e.tickAt now).1.overrides = e.overrides.expire now := by
  obtain ⟨error, -, heq⟩ | ⟨plan, -, heq⟩ := tickAt_cases hrunning now
  · rw [heq, halt_eq]
    exact (e.atTime now).overrides_stop
  · have hkeeps := ((e.atTime now).keepPlan plan).keeps_passes plan now (e.sinceLast now)
    obtain ⟨t, report, hpass, hrun⟩ | ⟨t, hpass, hrun⟩ :=
      ((e.atTime now).keepPlan plan).runPlan_cases plan now (e.sinceLast now)
    · rw [hpass] at hkeeps
      rw [heq, hrun]
      exact t.engine.overrides_stop.trans hkeeps.overrides
    · rw [hpass] at hkeeps
      rw [heq, hrun]
      exact hkeeps.overrides

namespace HoldsOverrides

/-- An engine without overrides holds none for a node that is not there. -/
theorem of_empty (hnone : e.overrides = {}) : e.HoldsOverrides := by
  refine ⟨hnone ▸ OverrideStore.valid_empty, fun v kind key o ho ↦ ?_⟩
  rw [hnone] at ho
  cases ho

/-- The skeleton decides which nodes exist. -/
theorem congr {e' : Engine} (h : e.HoldsOverrides) (hskel : e'.graph.skeleton = e.graph.skeleton)
    (hsame : e'.overrides = e.overrides) : e'.HoldsOverrides := by
  refine ⟨hsame ▸ h.valid, fun v kind key o ho ↦ ?_⟩
  rw [Graph.isSome_node?_congr hskel]
  exact h.node v kind key o (hsame ▸ ho)

/-- An override is set for a node of the graph. -/
theorem setOverride (h : e.HoldsOverrides) {node : NodeId} {kind : OverrideKind} {key : String}
    {value : Value} {lifetime : Option Float} {now : Float} {e' : Engine}
    (hset : e.setOverride node kind key value lifetime now = .ok e') : e'.HoldsOverrides := by
  have hnode := node_of_setOverride hset
  obtain rfl := of_setOverride hset
  refine ⟨h.valid.set node kind key value lifetime now, fun v kind' key' o ho ↦ ?_⟩
  rw [OverrideStore.get?_set] at ho
  split at ho
  next heq => exact heq.1 ▸ hnode
  next => exact h.node v kind' key' o ho

/-- Clearing leaves the overrides of other nodes and keys where they are. -/
theorem clearOverride (h : e.HoldsOverrides) (node : NodeId) (kind : OverrideKind) (key : String) :
    (e.clearOverride node kind key).1.HoldsOverrides := by
  refine ⟨h.valid.clear node kind key, fun v kind' key' o ho ↦ ?_⟩
  have hheld : (e.overrides.clear node kind key).get? v kind' key' = some o := ho
  rw [OverrideStore.get?_clear] at hheld
  split at hheld
  · cases hheld
  · exact h.node v kind' key' o hheld

/-- An edit takes the overrides of a removed node with it, and removes no other node. -/
theorem edit (h : e.HoldsOverrides) (hsound : e.graph.Sound) {edit : GraphEdit} {g : Graph}
    (happly : e.graph.apply edit = .ok g) (plan : Option Plan) :
    (Engine.forgetRemoved { e with graph := g, plan } edit).HoldsOverrides := by
  -- All nodes but the one that is removed stay.
  have hkept : ∀ v kind key o, e.overrides.get? v kind key = some o →
      edit.removedNode? ≠ some v → (g.node? v).isSome := by
    intro v kind key o ho hne
    exact (hsound.definitionOf?_edit happly hne (h.node v kind key o ho)).1
  rw [forgetRemoved]
  cases hremoved : edit.removedNode? with
  | none =>
    refine ⟨h.valid, fun v kind key o ho ↦ hkept v kind key o ho ?_⟩
    rw [hremoved]
    exact (Option.some_ne_none v).symm
  | some node =>
    refine ⟨h.valid.clearNode node, fun v kind key o ho ↦ ?_⟩
    have hheld : (e.overrides.clearNode node).get? v kind key = some o := ho
    rw [OverrideStore.get?_clearNode] at hheld
    split at hheld
    next => cases hheld
    next hne => exact hkept v kind key o hheld (hremoved ▸ fun heq ↦ hne (Option.some.inj heq))

/-- A tick can only let overrides expire. -/
theorem tick (h : e.HoldsOverrides) (now : Float) : (e.tickAt now).1.HoldsOverrides := by
  cases hrunning : e.running with
  | false => rwa [tickAt_of_not_running hrunning]
  | true =>
    have hskel := e.skeleton_tickAt now
    have hexpired := overrides_tickAt hrunning now
    refine ⟨hexpired ▸ h.valid.expire now, fun v kind key o ho ↦ ?_⟩
    rw [hexpired, h.valid.get?_expire, Option.filter_eq_some_iff] at ho
    rw [Graph.isSome_node?_congr hskel]
    exact h.node v kind key o ho.1

end HoldsOverrides

/-- **A reachable engine holds overrides of existing nodes only**, in a valid store. -/
theorem Reachable.holdsOverrides (h : e.Reachable) : e.HoldsOverrides := by
  induction h with
  | new _ hnew =>
    rw [new_eq hnew]
    exact .of_empty rfl
  | @call e c he ih =>
    cases c with
    | load state =>
      refine orStay_of ih fun e' h ↦ ?_
      obtain ⟨g, report, -, rfl⟩ := of_load h
      exact .of_empty rfl
    | compile =>
      refine orStay_of ih fun e' h ↦ ?_
      obtain ⟨plan, -, rfl⟩ := of_compileNow h
      exact ih.congr rfl rfl
    | applyEdit edit =>
      refine orStay_of ih fun e' h ↦ ?_
      obtain ⟨g, happly, rfl⟩ := of_applyEdit h
      exact ih.edit he.sound happly e.plan
    | tryEdit edit =>
      refine orStay_of ih fun e' h ↦ ?_
      obtain ⟨g, happly, ⟨-, plan, -, rfl⟩ | ⟨-, rfl⟩⟩ := of_tryEdit h
      · exact ih.edit he.sound happly (some plan)
      · exact ih.edit he.sound happly e.plan
    | setOverride => exact orStay_of ih fun e' h ↦ ih.setOverride h
    | clearOverride node kind key => exact ih.clearOverride node kind key
    | setPolicy => exact ih.congr rfl rfl
    | start =>
      refine orStay_of ih fun e' h ↦ ?_
      obtain ⟨plan, -, rfl⟩ := of_start h
      exact ih.congr rfl rfl
    | stop => exact ih.congr e.stop_fst.1 e.overrides_stop
    | tick now => exact ih.tick now

end Engine

end CueFlow
