import CueFlow.Proofs.Graph.Wired
/-!
# Reloading a snapshot

A load checks every node and every connection against what it has taken over so far. In a graph with
unique ids that is sound and wired, each of them passes its check against those in front of it
(`checkNode_of_split`, `checkConnection_of_split`). So the snapshot of such a graph loads as it is,
with nothing left out, whether the load is strict or lenient (`load_snapshot`).
-/

namespace CueFlow

variable {g : Graph} {policy : LoadPolicy}

namespace Graph

/-- The graph as a load makes it: no change has been counted yet. -/
def reloaded (g : Graph) : Graph := { g with generation := 0 }

/-- Every node passes its check against those in front of it. -/
theorem checkNode_of_split (hids : g.UniqueIds) (hsound : g.Sound) {before after : List Node}
    {n : Node} (hsplit : g.nodes = before ++ n :: after) :
    ({ g with nodes := before, connections := [] } : Graph).checkNode n = .ok () := by
  have hknown : g.catalog.contains n.type = true := hsound.types n (by simp [hsplit])
  have hnew : ¬ (({ g with nodes := before, connections := [] } : Graph).node? n.id).isSome := by
    rw [node?_isSome_iff]
    intro hmem
    rw [UniqueIds, hsplit, List.map_append, List.map_cons] at hids
    exact List.disjoint_of_nodup_append hids hmem List.mem_cons_self
  rw [checkNode, if_neg (by simp [hknown]), if_neg hnew]

/-- A compute input is free as long as only connections in front of its own are there. -/
theorem checkVacant_of_split (hwired : g.Wired) {before after : List Connection} {c : Connection}
    (hsplit : g.connections = before ++ c :: after) {p : Port} (hp : g.targetPort? c = some p) :
    ({ g with connections := before } : Graph).checkVacant c p = .ok () := by
  rw [checkVacant]
  cases hsink : p.isSink with
  | true => rfl
  | false =>
    have hfree : before.find? (fun other ↦
        other.target == c.target && other.targetPort == c.targetPort) = none := by
      rw [List.find?_eq_none]
      intro other hother hends
      rw [Bool.and_eq_true, beq_iff_eq, beq_iff_eq] at hends
      have hapart := hwired.apart
      rw [hsplit, List.pairwise_append] at hapart
      have hdelivery := hapart.2.2 other hother c List.mem_cons_self hends.1 hends.2
      have hsame : g.targetPort? other = some p := by
        rw [targetPort?, hends.1, hends.2]
        exact hp
      rw [isSinkConnection, hsame, Option.any_some, hsink] at hdelivery
      cases hdelivery
    dsimp only
    rw [if_neg Bool.false_ne_true, hfree]

/-- Every connection passes its check against those in front of it. -/
theorem checkConnection_of_split (hsound : g.Sound) (hwired : g.Wired)
    {before after : List Connection} {c : Connection}
    (hsplit : g.connections = before ++ c :: after) :
    ({ g with connections := before } : Graph).checkConnection c = .ok () := by
  obtain ⟨source, target, output, input, hsource, htarget, houtput, hinput, hcompatible⟩ :=
    hsound.fits c (by simp [hsplit])
  have hnew : ({ g with connections := before } : Graph).connection? c.id = none := by
    rw [connection?_eq_none_iff]
    intro hmem
    have hnodup := hwired.nodup
    rw [hsplit, List.map_append, List.map_cons] at hnodup
    exact List.disjoint_of_nodup_append hnodup hmem List.mem_cons_self
  have hport : g.targetPort? c = some input := by
    rw [targetPort?, htarget, Option.bind_some, hinput]
  have hsource' : ({ g with connections := before } : Graph).definitionOf? c.source =
      some source := hsource
  have htarget' : ({ g with connections := before } : Graph).definitionOf? c.target =
      some target := htarget
  rw [checkConnection, hnew, if_neg (by simp), hsource', htarget']
  dsimp only
  rw [houtput, hinput]
  dsimp only
  rw [if_neg (by simp [hcompatible])]
  exact checkVacant_of_split hwired hsplit hport

end Graph

namespace Loading

theorem takeNode_of_checkNode {l : Loading} {n : Node} (h : l.graph.checkNode n = .ok ()) :
    l.takeNode policy n = .ok { l with graph := l.graph.appendNode n } := by
  simp only [takeNode, h]

theorem takeConnection_of_checkConnection {l : Loading} {c : Connection}
    (h : l.graph.checkConnection c = .ok ()) :
    l.takeConnection policy c = .ok { l with graph := l.graph.appendConnection c } := by
  simp only [takeConnection, h]

/-- The nodes are taken over one after the other. -/
theorem foldlM_takeNode (hids : g.UniqueIds) (hsound : g.Sound) (report : LoadReport)
    {before after : List Node} (hsplit : g.nodes = before ++ after) :
    after.foldlM (fun l n ↦ l.takeNode policy n)
        (⟨{ g with nodes := before, connections := [] }, report⟩ : Loading) =
      .ok ⟨{ g with connections := [] }, report⟩ := by
  induction after generalizing before with
  | nil =>
    obtain rfl : g.nodes = before := by rw [hsplit, List.append_nil]
    rfl
  | cons n rest ih =>
    rw [List.foldlM_cons, takeNode_of_checkNode (Graph.checkNode_of_split hids hsound hsplit)]
    exact ih (by rw [hsplit, List.append_assoc, List.singleton_append])

/-- The connections are taken over one after the other. -/
theorem foldlM_takeConnection (hsound : g.Sound) (hwired : g.Wired) (report : LoadReport)
    {before after : List Connection} (hsplit : g.connections = before ++ after) :
    after.foldlM (fun l c ↦ l.takeConnection policy c)
        (⟨{ g with connections := before }, report⟩ : Loading) = .ok ⟨g, report⟩ := by
  induction after generalizing before with
  | nil =>
    obtain rfl : g.connections = before := by rw [hsplit, List.append_nil]
    rfl
  | cons c rest ih =>
    rw [List.foldlM_cons,
      takeConnection_of_checkConnection (Graph.checkConnection_of_split hsound hwired hsplit)]
    exact ih (by rw [hsplit, List.append_assoc, List.singleton_append])

end Loading

namespace Graph

/-- **A snapshot loads as it is** if its ids are unique and it is sound and wired. -/
theorem load_snapshot (hids : g.UniqueIds) (hsound : g.Sound) (hwired : g.Wired)
    (policy : LoadPolicy) : Graph.load g.catalog g.snapshot policy = .ok (g.reloaded, {}) := by
  have hsound' : g.reloaded.Sound := ⟨hsound.types, hsound.fits⟩
  have hnodes : g.nodes.foldlM (fun l n ↦ l.takeNode policy n)
      (⟨{ g.reloaded with nodes := [], connections := [] }, {}⟩ : Loading) =
        .ok ⟨{ g.reloaded with connections := [] }, {}⟩ :=
    Loading.foldlM_takeNode (g := g.reloaded) hids hsound' {} (List.nil_append g.nodes).symm
  have hconnections : g.connections.foldlM (fun l c ↦ l.takeConnection policy c)
      (⟨{ g.reloaded with connections := [] }, {}⟩ : Loading) = .ok ⟨g.reloaded, {}⟩ :=
    Loading.foldlM_takeConnection (g := g.reloaded) hsound' ⟨hwired.nodup, hwired.apart⟩ {}
      (List.nil_append g.connections).symm
  exact bind_eq_ok_iff.2 ⟨_, hnodes, bind_eq_ok_iff.2 ⟨_, hconnections, rfl⟩⟩

end Graph

end CueFlow
