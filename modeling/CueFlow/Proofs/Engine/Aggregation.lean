import CueFlow.Proofs.Command.Discrete
import CueFlow.Proofs.Engine.Gather
import CueFlow.Proofs.Plan.Routing
/-!
# Gathering loses no command

A point of delivery gathers the values of its producers one after the other, and what it makes of
one more value depends on what it has so far: the first value stands as it is, and a list is
extended whether gathering has made it or the first producer has. So the shape of what is gathered
does not tell its parts. Its commands do: they are those of the parts, in their order
(`commandsIn_gatherAll`), because a list has the commands of its items however it is nested.

`gather_loses_nothing` says so of every step of a plan, whatever the nodes hold: the parts are the
values at the sources of the connections, in the order of the connections.
-/

namespace CueFlow

namespace Graph

/-- The same graph with these outputs on its nodes. -/
def withOutputs (g : Graph) (outputs : NodeId → ValueMap) : Graph :=
  { g with nodes := g.nodes.map fun n ↦ { n with outputValues := outputs n.id } }

variable {g : Graph} {plan : Plan} {s : PlanStep}

/-! ### Any number of producers -/

/-- What has been gathered so far keeps its commands, and every further value adds its own. -/
theorem exists_gatherAll_cons (first : Value) (values : List Value) :
    ∃ v, gatherAll (first :: values) = some v ∧
      commandsIn v = commandsIn first ++ values.flatMap commandsIn := by
  induction values generalizing first with
  | nil => exact ⟨first, rfl, by simp⟩
  | cons v rest ih =>
    obtain ⟨w, hw, hcommands⟩ := ih (gatherValue (some first) v)
    refine ⟨w, hw, ?_⟩
    rw [hcommands, commandsIn_gatherValue, List.flatMap_cons, List.append_assoc]

/-- **What is gathered has the commands of its parts**, in their order. -/
theorem commandsIn_gatherAll (values : List Value) :
    (gatherAll values).toList.flatMap commandsIn = values.flatMap commandsIn := by
  cases values with
  | nil => rfl
  | cons first rest =>
    obtain ⟨v, hv, hcommands⟩ := exists_gatherAll_cons first rest
    rw [hv, Option.toList_some, List.flatMap_singleton, hcommands, List.flatMap_cons]

/-- Only no values at all gather nothing. -/
theorem gatherAll_eq_none_iff (values : List Value) : gatherAll values = none ↔ values = [] := by
  cases values with
  | nil => simp [gatherAll]
  | cons first rest =>
    obtain ⟨v, hv, -⟩ := exists_gatherAll_cons first rest
    simp [hv]

/-! ### Any outputs -/

theorem skeleton_withOutputs (g : Graph) (outputs : NodeId → ValueMap) :
    (g.withOutputs outputs).skeleton = g.skeleton := by
  rw [skeleton, skeleton, withOutputs, List.map_map]
  rfl

theorem node?_withOutputs (g : Graph) (outputs : NodeId → ValueMap) (v : NodeId) :
    (g.withOutputs outputs).node? v =
      (g.node? v).map fun n ↦ { n with outputValues := outputs n.id } := by
  rw [node?, withOutputs, List.find?_map]
  rfl

/-- The producers of a point of delivery are those of the connections into it. -/
theorem produced_withOutputs (hg : g.Sound) (outputs : NodeId → ValueMap) (v : NodeId)
    (port : String) : (g.withOutputs outputs).produced v port =
      (g.deliveriesInto v port).filterMap fun c ↦ (outputs c.source).get? c.sourcePort := by
  rw [produced, ← skeleton_connectionsInto, skeleton_withOutputs, skeleton_connectionsInto,
    hg.connectionsInto_eq, List.filter_filter, deliveriesInto]
  have hsame : (g.connections.filter fun c ↦ (c.target == v && c.targetPort == port) &&
      (g.targetPort? c).any fun p ↦ p.kind == .sink) =
        g.connections.filter fun c ↦ c.target == v && c.targetPort == port &&
          g.isSinkConnection c := rfl
  rw [hsame]
  refine List.filterMap_congr fun c hc ↦ ?_
  obtain ⟨i, hi⟩ := hg.exists_source (List.mem_filter.1 hc).1
  obtain ⟨n, hn⟩ : ∃ n, g.node? c.source = some n := by
    rw [← Option.isSome_iff_exists, ← isSome_indexOf?, hi]
    rfl
  rw [node?_withOutputs, hn, Option.map_some, Option.bind_some, id_of_node? hn]

/-- **Gathering loses nothing.** Whatever outputs the nodes have, a step of the plan of a valid
graph finds at a point of delivery the commands of the values at the sources of the connections into
it, in the order of the connections: none is lost, repeated or moved, whatever the values are. It
finds no value there exactly if none of the sources has one. -/
theorem gather_loses_nothing {catalog : Catalog} (hg : g.Valid catalog)
    (h : g.compile = .ok plan) (hs : s ∈ plan.steps) (outputs : NodeId → ValueMap)
    (port : String) :
    ((s.gather (g.withOutputs outputs)).get? port).toList.flatMap commandsIn =
      ((g.deliveriesInto s.node port).filterMap fun c ↦
        (outputs c.source).get? c.sourcePort).flatMap commandsIn ∧
    ((s.gather (g.withOutputs outputs)).get? port = none ↔
      ∀ c ∈ g.deliveriesInto s.node port, (outputs c.source).get? c.sourcePort = none) := by
  obtain ⟨n, d, hmade⟩ := exists_madeFrom h hs
  have hskel := g.skeleton_withOutputs outputs
  obtain ⟨n', hmade', hid⟩ := hmade.congr hskel
  have hgather : (s.gather (g.withOutputs outputs)).get? port =
      gatherAll ((g.deliveriesInto s.node port).filterMap fun c ↦
        (outputs c.source).get? c.sourcePort) := by
    rw [get?_gather (hg.uniqueIds.congr hskel) hmade', gathered?, hid, ← hmade.node_eq,
      produced_withOutputs hg.sound]
  rw [hgather]
  exact ⟨commandsIn_gatherAll _, by rw [gatherAll_eq_none_iff, List.filterMap_eq_nil_iff]⟩

/-- One dial has a command, the other one a list that is nested, with a text in it. -/
def cueOutputs (v : NodeId) : ValueMap :=
  if v = "a" then
    [("out", .list [.text "noise", .list [.map [("action", .text "tone")]]])]
  else [("out", .map [("action", .text "flash")])]

/-- The dial that is connected twice is heard twice. -/
theorem gather_loses_nothing_desk : ∃ plan s, deskGraph.Valid deskGraph.catalog ∧
    deskGraph.compile = .ok plan ∧ s ∈ plan.steps ∧ s.node = "c" ∧
    (((s.gather (deskGraph.withOutputs cueOutputs)).get? "in").toList.flatMap commandsIn).map
      Command.action = ["flash", "tone", "flash"] ∧
    (s.gather (deskGraph.withOutputs cueOutputs)).get? "spare" = none := by
  have hcompile : ∃ plan, deskGraph.compile = .ok plan ∧ ∃ s ∈ plan.steps, s.node = "c" :=
    ⟨_, rfl, _, List.mem_of_getElem? (i := 2) rfl, rfl⟩
  obtain ⟨plan, hplan, s, hs, hnode⟩ := hcompile
  obtain ⟨hcommands, -⟩ := gather_loses_nothing valid_deskGraph hplan hs cueOutputs "in"
  obtain ⟨-, hnone⟩ := gather_loses_nothing valid_deskGraph hplan hs cueOutputs "spare"
  rw [hnode] at hcommands hnone
  refine ⟨plan, s, valid_deskGraph, hplan, hs, hnode, ?_, hnone.2 (by decide)⟩
  rw [hcommands]
  rfl

end Graph

end CueFlow
