import CueFlow.Proofs.Command.Discrete
import CueFlow.Proofs.Engine.Dataflow
import CueFlow.Proofs.Engine.Gather
import CueFlow.Proofs.Graph.Recast
import CueFlow.Proofs.Graph.Setting
/-!
# Bundles padded with continuous commands

A `Padding` changes the values that computations produce and keeps their discrete commands, as it is
the case when a bundle is given further commands of continuous actions. Hooks that produce padded
values are other hooks on the same nodes (`Padding.recasting`).

A graph is a padded version of another (`Graph.Padded`) if both have the same nodes with the same
settings, the same connections, and outputs with the same discrete commands. Outputs that the
padding spares are the same altogether. Edits cannot tell the graphs apart (`Padded.apply`), and
every point of delivery gathers the same discrete commands in both
(`Padded.sameDiscreteMap_gather`).
-/

namespace CueFlow

/-- A change of the values that computations produce, which keeps their discrete commands. -/
structure Padding (continuous : List String) where
  /-- What a call of `process` produces on an output, in place of a value. -/
  pad : HookCall → String → Value → Value
  sameDiscrete : ∀ call port x, SameDiscrete continuous (pad call port x) x

namespace Padding

variable {continuous : List String} (pad : Padding continuous)

/-- Every bundle is given further commands of continuous actions. -/
def appending (more : HookCall → String → List ValueMap)
    (hmore : ∀ call port, ∀ fields ∈ more call port,
      ∃ action ∈ continuous, fields.get? "action" = some (.text action)) : Padding continuous where
  pad call port x :=
    match x with
    | .list items => .list (items ++ (more call port).map .map)
    | x => x
  sameDiscrete call port x := by
    cases x with
    | list items =>
      refine sameDiscrete_append items fun y hy ↦ ?_
      obtain ⟨fields, hfields, rfl⟩ := List.mem_map.1 hy
      obtain ⟨action, hmem, haction⟩ := hmore call port fields hfields
      exact discreteCommands_map_of_mem haction hmem
    | null | bool | number | text | map => rfl

/-- The outputs of a call, padded. -/
def outputs (call : HookCall) (outputs : ValueMap) : ValueMap :=
  outputs.map fun entry ↦ (entry.1, pad.pad call entry.1 entry.2)

/-- The hooks that produce padded values. Whether a computation fails does not change. -/
def recasting : Recasting where
  toFun d := { d with
    process := fun inputs config context ↦
      (d.process inputs config context).map (pad.outputs ⟨.process, inputs, config, context⟩) }
  type_eq _ := rfl
  inputs_eq _ := rfl
  outputs_eq _ := rfl
  sink_isSome _ := rfl
  disable_isSome _ := rfl

/-- The padding leaves an output of a node as it is. -/
def Spares (v : NodeId) (port : String) : Prop :=
  ∀ call x, call.context.node = v → pad.pad call port x = x

/-- What an output may hold in place of a value. -/
structure Pads (v : NodeId) (port : String) (x' x : Value) : Prop where
  sameDiscrete : SameDiscrete continuous x' x
  spared : pad.Spares v port → x' = x

/-- What a padded call puts out for its node. -/
theorem rel_outputs (call : HookCall) (outputs : ValueMap) (port : String) :
    Option.Rel (pad.Pads call.context.node port) ((pad.outputs call outputs).get? port)
      (outputs.get? port) := by
  have hget : (pad.outputs call outputs).get? port = (outputs.get? port).map (pad.pad call port) :=
    KeyMap.get?_map_snd outputs (fun entry ↦ pad.pad call entry.1 entry.2) port
  rw [hget]
  cases outputs.get? port with
  | none => exact .none
  | some x => exact .some ⟨pad.sameDiscrete call port x, fun hspared ↦ hspared call x rfl⟩

variable {pad} {v : NodeId} {port : String}

theorem Pads.refl (x : Value) : pad.Pads v port x x := ⟨rfl, fun _ ↦ rfl⟩

theorem rel_refl (o : Option Value) : Option.Rel (pad.Pads v port) o o := by
  cases o with
  | none => exact .none
  | some x => exact .some (.refl x)

variable {o o' : Option Value} (h : Option.Rel (pad.Pads v port) o' o)

include h

theorem sameDiscrete_of_rel : Option.Rel (SameDiscrete continuous) o' o := by
  cases h with
  | none => exact .none
  | some hpads => exact .some hpads.sameDiscrete

theorem eq_of_rel (hspared : pad.Spares v port) : o' = o := by
  cases h with
  | none => rfl
  | some hpads => exact congrArg some (hpads.spared hspared)

end Padding

namespace Graph

variable {continuous : List String} {pad : Padding continuous} {g g' h h' : Graph}

/-- What is gathered from values with the same discrete commands has the same ones again. -/
theorem rel_gatherAll {values values' : List Value}
    (hvalues : List.Forall₂ (SameDiscrete continuous) values' values) :
    Option.Rel (SameDiscrete continuous) (gatherAll values') (gatherAll values) :=
  List.rel_foldl (fun _ _ hfirst _ _ hx ↦ .some (hx.gatherValue hfirst)) .none hvalues

/-- The graph `h` is the graph `g` with padded outputs, over hooks that pad. -/
structure Padded (pad : Padding continuous) (h g : Graph) : Prop where
  resembles : h.Resembles (g.recast pad.recasting)
  outputs : ∀ v port, Option.Rel (pad.Pads v port) (h.outputOf? v port) (g.outputOf? v port)

/-- What a node has on its outputs after an edit: a new node what it brings, a removed one nothing,
and any other what it had. -/
theorem outputOf?_of_apply {edit : GraphEdit} (happly : g.apply edit = .ok g') (v : NodeId)
    (port : String) : g'.outputOf? v port =
      match edit with
      | .addNode n => if n.id = v then n.outputValues.get? port else g.outputOf? v port
      | .removeNode id => if v = id then none else g.outputOf? v port
      | _ => g.outputOf? v port := by
  have hcontent : ∀ (id : NodeId) (f : Node → Node), (∀ n, (f n).id = n.id) →
      (∀ n, (f n).outputValues = n.outputValues) →
      (g.modifyNode id f).outputOf? v port = g.outputOf? v port := by
    intro id f hid hout
    rw [outputOf?, node?_modifyNode g id hid, outputOf?, Option.bind_map]
    refine congrArg (Option.bind (g.node? v)) (funext fun n ↦ ?_)
    rw [Function.comp_apply]
    split
    · rw [hout]
    · rfl
  cases editMove_of_apply happly with
  | @addNode n hcheck =>
    show (g.appendNode n).outputOf? v port = if _ then _ else _
    rw [outputOf?, node?_appendNode]
    split
    next hid =>
      rw [← hid, node?_of_checkNode hcheck]
      rfl
    next hid => rw [Option.or_none, outputOf?]
  | @removeNode id =>
    show ({ g with nodes := g.nodes.filter _ } : Graph).outputOf? v port = if _ then _ else _
    rw [outputOf?, node?_filter_nodes]
    split
    · rfl
    · rfl
  | addConnection | removeConnection => rfl
  | setConfig | setInputValue => exact hcontent _ _ (fun _ ↦ rfl) fun _ ↦ rfl

namespace Padded

/-- Padding the computations pads nothing by itself. -/
theorem recast (pad : Padding continuous) (g : Graph) : (g.recast pad.recasting).Padded pad g :=
  ⟨.refl _, fun _ _ ↦ Padding.rel_refl _⟩

variable (hp : h.Padded pad g)

include hp

/-! ### What does not look at outputs -/

theorem isSome_node? (v : NodeId) : (h.node? v).isSome = (g.node? v).isSome :=
  isSome_node?_congr hp.resembles.skeleton v

theorem compile_eq : h.compile = g.compile.map (Plan.recast pad.recasting) :=
  (compile_congr hp.resembles.skeleton).trans (g.compile_recast pad.recasting)

theorem clearOutputs : h.clearOutputs.Padded pad g.clearOutputs where
  resembles := (Resembles.clearOutputs h).trans
    (hp.resembles.trans (Resembles.clearOutputs (g.recast pad.recasting)).symm)
  outputs v port := by
    have hnone : ∀ k : Graph, k.clearOutputs.outputOf? v port = none := by
      intro k
      rw [outputOf?, node?_clearOutputs]
      cases k.node? v <;> rfl
    rw [hnone, hnone]
    exact .none

/-- **Edits cannot tell them apart**: both refuse the same ones, and the others keep them so. -/
theorem apply (edit : GraphEdit) : Agree (Padded pad) (h.apply edit) (g.apply edit) := by
  have hsame := hp.resembles.apply edit
  rw [apply_recast] at hsame
  refine hsame.of_map.imp_of_ok fun h' g' happly' happly hresembles ↦ ⟨hresembles, fun v port ↦ ?_⟩
  rw [outputOf?_of_apply happly', outputOf?_of_apply happly]
  cases edit with
  | addNode n =>
    dsimp only
    split
    · exact Padding.rel_refl _
    · exact hp.outputs v port
  | removeNode id =>
    dsimp only
    split
    · exact .none
    · exact hp.outputs v port
  | addConnection | removeConnection | setConfig | setInputValue => exact hp.outputs v port

/-! ### What does look at them -/

variable (hh : h.UniqueIds) (hg : g.UniqueIds)

include hh hg

/-- Outputs by place. -/
theorem rel_outputAt? (i : Nat) (port : String) :
    Option.Rel (SameDiscrete continuous) (h.outputAt? i port) (g.outputAt? i port) := by
  have hplace : (h.nodes[i]?).map Node.bare = (g.nodes[i]?).map Node.bare := by
    rw [← List.getElem?_map, ← List.getElem?_map]
    exact congrArg (·[i]?) hp.resembles.nodes_bare
  rw [outputAt?, outputAt?]
  cases hn : g.nodes[i]? with
  | none =>
    rw [hn, Option.map_none, Option.map_eq_none_iff] at hplace
    rw [hplace]
    exact .none
  | some n =>
    rw [hn, Option.map_some, Option.map_eq_some_iff] at hplace
    obtain ⟨m, hm, hbare⟩ := hplace
    have hid : m.id = n.id := by simpa using congrArg Node.id hbare
    have houtputs := hp.outputs n.id port
    rw [outputOf?, outputOf?, node?_of_getElem? hg hn, ← hid, node?_of_getElem? hh hm] at houtputs
    rw [hm]
    exact Padding.sameDiscrete_of_rel houtputs

/-- **Every point of delivery gathers the same discrete commands.** -/
theorem sameDiscreteMap_gather (s : PlanStep) :
    SameDiscreteMap continuous (s.gather h) (s.gather g) := by
  have hproduced : ∀ r : SinkRoute,
      List.Forall₂ (SameDiscrete continuous) (r.produced h) (r.produced g) := by
    intro r
    refine List.rel_filterMap (R := Eq) ?_ (List.forall₂_refl r.sources)
    rintro source _ rfl
    exact hp.rel_outputAt? hh hg source.1 source.2
  have hroute : ∀ r : SinkRoute, Option.Rel (SameDiscrete continuous) (r.gather? h) (r.gather? g) :=
    fun r ↦ rel_gatherAll (hproduced r)
  have htake : ∀ (r : SinkRoute) {m' m : ValueMap}, SameDiscreteMap continuous m' m →
      SameDiscreteMap continuous (h.takeIn m' r) (g.takeIn m r) := by
    intro r m' m hm
    have hr := hroute r
    rw [takeIn, takeIn]
    generalize r.gather? h = o', r.gather? g = o at hr
    cases hr with
    | none => exact hm
    | some hx => exact hm.insert r.port hx
  show SameDiscreteMap continuous (s.sinkRoutes.foldl h.takeIn []) (s.sinkRoutes.foldl g.takeIn [])
  exact List.foldl_rel (r := SameDiscreteMap continuous) .nil fun r _ m' m hm ↦ htake r hm

end Padded

end Graph

end CueFlow
