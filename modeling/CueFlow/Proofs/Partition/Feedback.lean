import CueFlow.Proofs.Partition.SelfContained
/-!
# Feedback is delivered

The order of a plan looks at connections into compute inputs only, the detection of local loops at
all connections. What the two have in common is the walk along connections (`IsWalk`): a relation of
nodes by connections has a cycle exactly if there is a walk along them that comes back to where it
began (`transGen_iff_exists_walk`). In a sound graph, to feed a node is to have a connection to it
that leads into no point of delivery (`Sound.feeds_iff_not_sink`). So a graph compiles exactly if
every walk that comes back passes a point of delivery (`exists_compile_iff_delivered`).

A local loop is a class in which one can go round (`GraphState.cyclic_iff`), so it has a connection
that delivers; and without such connections there is no local loop (`feedback_is_delivered`).
-/

namespace CueFlow

/-! ### Walks along connections -/

/-- The connections lead from the node `u` to the node `w`, each from where the one before it
ended. -/
def IsWalk (u : NodeId) : List Connection → NodeId → Prop
  | [], w => u = w
  | c :: cs, w => c.source = u ∧ IsWalk c.target cs w

/-- A connection of a kind leads from the one node to the other. -/
def JoinedBy (P : Connection → Prop) (u w : NodeId) : Prop := ∃ c, P c ∧ c.source = u ∧ c.target = w

section

variable {P : Connection → Prop} {u w : NodeId}

theorem IsWalk.reflTransGen {walk : List Connection} (h : IsWalk u walk w)
    (hwalk : ∀ c ∈ walk, P c) : Relation.ReflTransGen (JoinedBy P) u w := by
  induction walk generalizing u with
  | nil =>
    obtain rfl : u = w := h
    exact .refl
  | cons c cs ih =>
    obtain ⟨hsource, hrest⟩ := h
    obtain ⟨hc, hcs⟩ := List.forall_mem_cons.1 hwalk
    exact (ih hrest hcs).head ⟨c, hc, hsource, rfl⟩

/-- Nodes are related by connections of a kind exactly if a walk along such connections leads from
the one to the other. -/
theorem transGen_iff_exists_walk : Relation.TransGen (JoinedBy P) u w ↔
    ∃ walk, walk ≠ [] ∧ IsWalk u walk w ∧ ∀ c ∈ walk, P c := by
  constructor
  · intro h
    induction h using Relation.TransGen.head_induction_on with
    | single hjoined =>
      obtain ⟨c, hc, hsource, htarget⟩ := hjoined
      exact ⟨[c], List.cons_ne_nil _ _, ⟨hsource, htarget⟩, List.forall_mem_singleton.2 hc⟩
    | head hjoined _ ih =>
      obtain ⟨c, hc, hsource, rfl⟩ := hjoined
      obtain ⟨walk, -, hwalk, hall⟩ := ih
      exact ⟨c :: walk, List.cons_ne_nil _ _, ⟨hsource, hwalk⟩, List.forall_mem_cons.2 ⟨hc, hall⟩⟩
  · rintro ⟨_ | ⟨c, cs⟩, hne, hwalk, hall⟩
    · exact absurd rfl hne
    · obtain ⟨hc, hcs⟩ := List.forall_mem_cons.1 hall
      exact .head' ⟨c, hc, hwalk.1, rfl⟩ (hwalk.2.reflTransGen hcs)

end

namespace Graph

variable {g : Graph} {catalog : Catalog} {policy : PartitionPolicy} {loop : LocalLoop}

/-! ### Feeding and delivering -/

/-- A connection that a plan is ordered by. -/
def IsPlanned (g : Graph) (c : Connection) : Prop :=
  c ∈ g.connections ∧ g.isSinkConnection c = false

/-- In a sound graph, what does not deliver feeds. -/
theorem Sound.feeds_iff_not_sink (hg : g.Sound) : g.Feeds = JoinedBy g.IsPlanned := by
  funext u w
  refine propext ⟨?_, ?_⟩
  · rintro ⟨c, hc, hsource, htarget, p, hp, hkind⟩
    refine ⟨c, ⟨hc, ?_⟩, hsource, htarget⟩
    rw [isSinkConnection, hp, Option.any_some, Port.isSink, hkind]
    rfl
  · rintro ⟨c, ⟨hc, hsink⟩, hsource, htarget⟩
    obtain ⟨_, target, _, input, -, hdefinition, -, hinput, -⟩ := hg.fits c hc
    have hport : g.targetPort? c = some input := by
      rw [targetPort?, hdefinition, Option.bind_some, hinput]
    refine ⟨c, hc, hsource, htarget, input, hport, ?_⟩
    rw [isSinkConnection, hport, Option.any_some, Port.isSink] at hsink
    cases hkind : input.kind with
    | compute => rfl
    | sink => simp [hkind] at hsink

/-- **A sound graph compiles exactly if every walk that comes back passes a point of delivery.** -/
theorem exists_compile_iff_delivered (hg : g.Sound) : (∃ plan, g.compile = .ok plan) ↔
    ∀ v walk, walk ≠ [] → IsWalk v walk v → (∀ c ∈ walk, c ∈ g.connections) →
      ∃ c ∈ walk, g.isSinkConnection c = true := by
  rw [exists_compile_iff hg, hg.feeds_iff_not_sink]
  simp only [transGen_iff_exists_walk]
  constructor
  · intro hacyclic v walk hne hwalk hmem
    by_contra hnone
    push Not at hnone
    exact hacyclic v ⟨walk, hne, hwalk, fun c hc ↦ ⟨hmem c hc, by simpa using hnone c hc⟩⟩
  · rintro hdelivered v ⟨walk, hne, hwalk, hall⟩
    obtain ⟨c, hc, hsink⟩ := hdelivered v walk hne hwalk fun c hc ↦ (hall c hc).1
    rw [(hall c hc).2] at hsink
    cases hsink

/-! ### Loops -/

/-- The snapshot without the connections into points of delivery. -/
def withoutDeliveries (g : Graph) : GraphState :=
  { g.snapshot with connections := g.connections.filter fun c ↦ !g.isSinkConnection c }

/-- A loop is a class in which one can go round. -/
theorem exists_cycle_of_mem {s : GraphState} (hs : s.ids.Nodup)
    (hloop : loop ∈ detectLocalLoops s policy) : ∃ v, Relation.TransGen
      (fun x y ↦ s.Linked x y ∧ x ∈ loop.nodes ∧ y ∈ loop.nodes) v v := by
  obtain ⟨u, -, hcyclic, -, hisOf⟩ := (mem_detectLocalLoops hs).1 hloop
  obtain ⟨v, hcycle⟩ := GraphState.cyclic_iff.1 hcyclic
  refine ⟨v, hcycle.lift id ?_⟩
  rintro x y ⟨hlinked, hx, hy⟩
  obtain ⟨-, -, -, -, hxs, hys⟩ := id hlinked
  exact ⟨hlinked, (hisOf.mem_nodes x).2 ⟨hxs, hx⟩, (hisOf.mem_nodes y).2 ⟨hys, hy⟩⟩

/-- **Feedback is delivered.** A valid graph compiles exactly if every walk along its connections
that comes back to where it began passes a point of delivery. If it compiles, every local loop has a
connection between two of its members, or from a member to itself, into a point of delivery; and
without the connections into points of delivery there is no local loop left. -/
theorem feedback_is_delivered (hg : g.Valid catalog) (policy : PartitionPolicy) :
    ((∃ plan, g.compile = .ok plan) ↔
      ∀ v walk, walk ≠ [] → IsWalk v walk v → (∀ c ∈ walk, c ∈ g.connections) →
        ∃ c ∈ walk, g.isSinkConnection c = true) ∧
    ((∃ plan, g.compile = .ok plan) →
      (∀ loop ∈ detectLocalLoops g.snapshot policy, ∃ c ∈ g.connections,
        c.source ∈ loop.nodes ∧ c.target ∈ loop.nodes ∧ g.isSinkConnection c = true) ∧
      detectLocalLoops g.withoutDeliveries policy = []) := by
  refine ⟨exists_compile_iff_delivered hg.sound, fun hcompile ↦ ?_⟩
  have hacyclic : ∀ v, ¬ Relation.TransGen (JoinedBy g.IsPlanned) v v := by
    rw [← hg.sound.feeds_iff_not_sink]
    exact (exists_compile_iff hg.sound).1 hcompile
  constructor
  · intro loop hloop
    obtain ⟨v, hcycle⟩ := exists_cycle_of_mem hg.uniqueIds.nodup_ids hloop
    by_contra hnone
    push Not at hnone
    refine hacyclic v (hcycle.lift id ?_)
    rintro _ _ ⟨⟨c, hc, rfl, rfl, -, -⟩, hsource, htarget⟩
    exact ⟨c, ⟨hc, by simpa using hnone c hc hsource htarget⟩, rfl, rfl⟩
  · have hids : g.withoutDeliveries.ids.Nodup := hg.uniqueIds.nodup_ids
    refine List.eq_nil_iff_forall_not_mem.2 fun loop hloop ↦ ?_
    obtain ⟨v, hcycle⟩ := exists_cycle_of_mem hids hloop
    refine hacyclic v (hcycle.lift id ?_)
    rintro _ _ ⟨⟨c, hc, rfl, rfl, -, -⟩, -, -⟩
    obtain ⟨hc, hsink⟩ := List.mem_filter.1 hc
    exact ⟨c, ⟨hc, by simpa using hsink⟩, rfl, rfl⟩

/-- The torch sets its phone by a delivery, which closes the loop of the phone and its sensors, and
without which there is none. -/
theorem feedback_is_delivered_torch : torchGraph.Valid torchGraph.catalog ∧
    (∃ plan, torchGraph.compile = .ok plan) ∧
    (∃ loop ∈ detectLocalLoops torchGraph.snapshot .standard, ∃ c ∈ torchGraph.connections,
      c.source ∈ loop.nodes ∧ c.target ∈ loop.nodes ∧ torchGraph.isSinkConnection c = true) ∧
    detectLocalLoops torchGraph.withoutDeliveries .standard = [] := by
  have hload : Graph.load torchGraph.catalog torchGraph.snapshot .strict =
      .ok (torchGraph, {}) := rfl
  have hvalid : torchGraph.Valid torchGraph.catalog := (Buildable.load hload).valid
  have hcompile : ∃ plan, torchGraph.compile = .ok plan := ⟨_, rfl⟩
  obtain ⟨hdelivered, hnone⟩ := (feedback_is_delivered hvalid .standard).2 hcompile
  have hloop : ∃ loop, LocalLoop.ofMembers? .standard
      (torchGraph.snapshot.members [3, 2, 0]) = some loop := ⟨_, rfl⟩
  obtain ⟨loop, hloop⟩ := hloop
  have hmem : loop ∈ detectLocalLoops torchGraph.snapshot .standard :=
    mem_detectLocalLoops_iff_group.2 ⟨[3, 2, 0], by decide, rfl, hloop⟩
  exact ⟨hvalid, hcompile, ⟨loop, hmem, hdelivered loop hmem⟩, hnone⟩

end Graph

end CueFlow
