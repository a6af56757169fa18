import CueFlow.Proofs.Engine.Alike
import CueFlow.Proofs.Engine.Questions
import CueFlow.Proofs.Graph.ClosedPart
import Mathlib.Algebra.Order.BigOperators.Group.List
import Mathlib.Algebra.Order.Ring.Nat
/-!
# An engine on a closed part mirrors the engine on the whole

Two engines run side by side, one on a graph and one on a closed part of it, under one policy that
gives them the same answers. `Engine.Mirrors` says what they share: the same time, the same
thresholds and overrides, and for every node of the part the same content, the same memory and the
same observations. They have different plans, different traffic and different counts of deliveries,
but none of that matters to a node.

A tick keeps this, as long as the whole completes it (`Mirrors.tick`). In the compute pass a node
depends on what feeds it, which lies in the part; so the contents agree by induction along the plan
of the part (`content_graphBetween`). The steps of the sink pass then look alike (`alike`), hence
make the same offers. The part makes no more offers than the whole, so they stay within the ceiling
(`sum_offered_le`), and the passes do the same to the nodes of the part. Over a run this holds for
as many ticks as the whole completes (`Mirrors.run_concat`).
-/

namespace CueFlow

/-- A measure of some entries is no more than that of all entries. -/
theorem sum_map_snd_le {α : Type} {xs ys : List (α × Nat)} (hnodup : (xs.map Prod.fst).Nodup)
    (hsub : xs ⊆ ys) : (xs.map Prod.snd).sum ≤ (ys.map Prod.snd).sum := by
  obtain ⟨zs, hperm, hsublist⟩ := List.subperm_of_subset (List.Nodup.of_map _ hnodup) hsub
  rw [← (hperm.map Prod.snd).sum_eq]
  exact (hsublist.map Prod.snd).sum_le_sum fun _ _ ↦ Nat.zero_le _

namespace Engine

/-- The engine `f` runs a closed part of the graph that `e` runs, at the same point of time and
under the same policy; the nodes of the part have the same content in both, and what is remembered
and observed of them is the same. -/
structure Mirrors (f e : Engine) : Prop where
  part : f.graph.IsClosedIn e.graph
  content : ∀ v, (f.graph.node? v).isSome → f.graph.node? v = e.graph.node? v
  running : f.running = e.running
  policy : f.policy = e.policy
  /-- The compute gate goes on giving the same answers. -/
  answers : ∀ v, (f.graph.node? v).isSome → ∀ k,
    e.policy.compute v (f.askedOf v + k) = e.policy.compute v (e.askedOf v + k)
  overrides : f.overrides = e.overrides
  thresholds : f.watchdog.config = e.watchdog.config
  tick_eq : f.tick = e.tick
  lastTickMs : f.lastTickMs = e.lastTickMs
  memory : ∀ v, (f.graph.node? v).isSome → f.sinkMemoryOf v = e.sinkMemoryOf v
  lastInputs : ∀ v, (f.graph.node? v).isSome →
    (f.memoryOf v).lastInputs = (e.memoryOf v).lastInputs
  observed : ∀ v, (f.graph.node? v).isSome →
    ∀ port, f.watchdog.observed v port = e.watchdog.observed v port

variable {e e' f f' : Engine} {now : Float} {plan plan' : Plan} {v : NodeId} {n : Node}
  {d : NodeDefinition} {s s' : PlanStep} {before after : List PlanStep}

/-! ### What the sink pass finds -/

section Finds

variable (hids : e.graph.UniqueIds) (hcompile : e.graph.compile = .ok plan)
  (hsplit : plan.steps = before ++ s :: after) (hmade : e.graph.MadeFrom s n d) (now : Float)

include hids hcompile hsplit hmade

/-- The sink pass attends to the nodes that the gates admit, as the compute pass has left them. -/
theorem attended?_underway : (e.underway plan now plan.steps).attended? s =
    if d.hasSinkInputs && e.admits n.id then some (e.nodeIn now (e.graphBetween now) n d)
    else none := by
  have hallowed : ((e.underway plan now plan.steps).sinkAllowed s).1 = e.admits n.id :=
    sinkAllowed_eq_admits (e.keeps_underway plan now plan.steps).policy hmade.node_eq
      fun henabled ↦ (sinkMemoryOf_underway hids hcompile hsplit hmade now henabled).2
  rw [Tick.attended?, hmade.definition_eq, hallowed,
    nodes_underway hids hcompile hsplit hmade, graphBetween_of_compile hcompile]

/-- A visit of a node finds its inputs as resolved in this tick, if its computation runs. -/
theorem sight_underway (m : Node) : (e.underway plan now plan.steps).sight s m =
    ⟨visitInputs d m { lastInputs :=
        (if e.computes n.id then some ((e.atTime now).inputsOf (e.graphBetween now) n d)
        else (e.memoryOf n.id).lastInputs) },
      s.gather (e.graphBetween now), (e.atTime now).effectiveConfig m⟩ := by
  have hinputs := lastInputs_underway hids hcompile hsplit hmade now
  rw [← graphBetween_of_compile hcompile] at hinputs
  rw [Tick.sight, hmade.definition_eq, hmade.node_eq, visitInputs, hinputs, visitInputs,
    graphBetween_of_compile hcompile, effectiveConfig,
    (e.keeps_underway plan now plan.steps).overrides]
  rfl

end Finds

namespace Mirrors

/-! ### The compute pass -/

section Compute

variable (h : f.Mirrors e)

include h

theorem sinceLast_eq (now : Float) : f.sinceLast now = e.sinceLast now := by
  rw [sinceLast, h.lastTickMs, sinceLast]

theorem overrides_atTime (now : Float) : (f.atTime now).overrides = (e.atTime now).overrides := by
  show f.overrides.expire now = e.overrides.expire now
  rw [h.overrides]

/-- **The engines compute alike at the nodes of the part.** -/
theorem computesAlike (hv : (f.graph.node? v).isSome) (now : Float) :
    f.ComputesAlike e now v where
  node := by rw [h.policy]
  compute := by
    rw [h.policy]
    exact h.answers v hv 0
  overrides := by rw [h.overrides_atTime]
  tick_eq := h.tick_eq
  sinceLast := h.sinceLast_eq now

/-- The gates admit the same nodes. -/
theorem admits_eq (hv : (f.graph.node? v).isSome) : f.admits v = e.admits v := by
  rw [admits, h.policy, h.answers v hv 1, admits]

/-- The nodes of the part are nodes of the whole. -/
theorem mem_nodes (hf : f.Reachable) (hn : n ∈ f.graph.nodes) : n ∈ e.graph.nodes := by
  have hfound := Graph.node?_of_mem hf.uniqueIds hn
  have hsome : (f.graph.node? n.id).isSome := by rw [hfound]; rfl
  exact List.mem_of_find?_eq_some ((h.content n.id hsome).symm.trans hfound)

theorem closed_graphBetween (now : Float) : (f.graphBetween now).IsClosedIn (e.graphBetween now) :=
  h.part.congr (f.skeleton_graphBetween now) (e.skeleton_graphBetween now)

variable (he : e.Reachable) (hf : f.Reachable) (hcompile : e.graph.compile = .ok plan)
  (hcompile' : f.graph.compile = .ok plan')

include he hf hcompile hcompile'

/-- **The compute passes leave the nodes of the part with the same content**, by induction along the
plan of the part: what feeds a node is in the part and has its content already. -/
theorem content_graphBetween (now : Float) (hv : (f.graph.node? v).isSome) :
    (f.graphBetween now).node? v = (e.graphBetween now).node? v := by
  have hclosed := h.closed_graphBetween now
  have hskel := f.skeleton_graphBetween now
  have hsome := Graph.isSome_node?_congr hskel
  rw [← hsome] at hv
  refine Graph.induction_on_feeds (hf.uniqueIds.congr hskel) (hf.sound.congr hskel)
    ((Graph.compile_congr hskel).trans hcompile')
    (P := fun v ↦ (f.graphBetween now).node? v = (e.graphBetween now).node? v)
    (fun v hv hsources ↦ ?_) hv
  have hupstream : ∀ port, (f.graphBetween now).upstream? v port =
      (e.graphBetween now).upstream? v port :=
    fun port ↦ hclosed.upstream?_eq hv fun u hfeeds _ ↦ hsources u hfeeds
  rw [hsome] at hv
  obtain ⟨n, hn, rfl⟩ := List.mem_map.1 (Graph.node?_isSome_iff.1 hv)
  obtain ⟨d, hd, hleft⟩ := node?_underway he.uniqueIds hcompile now (h.mem_nodes hf hn)
  obtain ⟨d', hd', hleft'⟩ := node?_underway hf.uniqueIds hcompile' now hn
  obtain rfl : d' = d := by
    rw [h.part.catalog, hd] at hd'
    exact (Option.some.inj hd').symm
  rw [← graphBetween_of_compile hcompile] at hleft
  rw [← graphBetween_of_compile hcompile'] at hleft'
  rw [hleft, hleft', (h.computesAlike hv now).nodeIn_eq hupstream]

/-- What arrives at the nodes of the part after the compute pass is the same. -/
theorem arrivals_graphBetween (now : Float) (hv : (f.graph.node? v).isSome) (port : String) :
    (f.graphBetween now).upstream? v port = (e.graphBetween now).upstream? v port ∧
      (f.graphBetween now).gathered? v port = (e.graphBetween now).gathered? v port := by
  have hclosed := h.closed_graphBetween now
  have hsome := Graph.isSome_node?_congr (f.skeleton_graphBetween now)
  have hcontent : ∀ u, ((f.graphBetween now).node? u).isSome →
      (f.graphBetween now).node? u = (e.graphBetween now).node? u :=
    fun u hu ↦ h.content_graphBetween he hf hcompile hcompile' now (hsome u ▸ hu)
  rw [← hsome] at hv
  exact ⟨hclosed.upstream?_eq hv fun u _ hu ↦ hcontent u hu, hclosed.gathered?_eq hv hcontent port⟩

/-! ### The sink pass -/

/-- Steps of a node of the part gather the same. -/
theorem gather_graphBetween (now : Float) (hmade : e.graph.MadeFrom s n d)
    (hmade' : f.graph.MadeFrom s' n d) (hv : (f.graph.node? n.id).isSome) :
    s'.gather (f.graphBetween now) = s.gather (e.graphBetween now) := by
  refine KeyMap.Sorted.ext (Graph.sorted_gather _ _) (Graph.sorted_gather _ _) fun port ↦ ?_
  obtain ⟨m, hmade, hm⟩ := hmade.congr (e.skeleton_graphBetween now)
  obtain ⟨m', hmade', hm'⟩ := hmade'.congr (f.skeleton_graphBetween now)
  rw [Graph.get?_gather (hf.uniqueIds.congr (f.skeleton_graphBetween now)) hmade',
    Graph.get?_gather (he.uniqueIds.congr (e.skeleton_graphBetween now)) hmade, hm, hm',
    (h.arrivals_graphBetween he hf hcompile hcompile' now hv port).2]

/-- **The steps of a node of the part look alike.** -/
theorem alike (now : Float) (hs : s ∈ plan.steps) (hs' : s' ∈ plan'.steps)
    (hmade : e.graph.MadeFrom s n d) (hmade' : f.graph.MadeFrom s' n d) :
    Tick.Alike (e.underway plan now plan.steps) s (f.underway plan' now plan'.steps) s' := by
  have hids := he.uniqueIds
  have hids' := hf.uniqueIds
  obtain ⟨before, after, hsplit⟩ := List.append_of_mem hs
  obtain ⟨before', after', hsplit'⟩ := List.append_of_mem hs'
  have hv : (f.graph.node? n.id).isSome := by
    rw [Graph.node?_of_getElem? hids' hmade'.1]
    rfl
  have hupstream := fun port ↦ (h.arrivals_graphBetween he hf hcompile hcompile' now hv port).1
  have halike := h.computesAlike hv now
  exact {
    node := hmade'.node_eq.trans hmade.node_eq.symm
    definition := hmade'.definition_eq.trans hmade.definition_eq.symm
    count := by
      rw [Graph.sinkConnectionCount_eq_zero_iff hids' hmade',
        Graph.sinkConnectionCount_eq_zero_iff hids hmade, h.part.isWired_eq hv]
    attended := by
      rw [attended?_underway hids' hcompile' hsplit' hmade',
        attended?_underway hids hcompile hsplit hmade, h.admits_eq hv,
        halike.nodeIn_eq hupstream]
    sight := fun m _ ↦ by
      rw [sight_underway hids' hcompile' hsplit' hmade' now,
        sight_underway hids hcompile hsplit hmade now, halike.computes_eq, h.lastInputs _ hv,
        halike.inputsOf_eq hupstream,
        h.gather_graphBetween he hf hcompile hcompile' now hmade hmade' hv, effectiveConfig,
        h.overrides_atTime, ← effectiveConfig]
    memory := by
      rw [hmade.node_eq, sinkMemoryOf_underway_eq hids' hcompile' hsplit' hmade',
        sinkMemoryOf_underway_eq hids hcompile hsplit hmade, h.policy, h.memory _ hv]
    context := by rw [context_underway, context_underway, h.tick_eq, h.sinceLast_eq]
    thresholds := by
      rw [watchdog_underway, watchdog_underway]
      exact h.thresholds
    observed := fun port ↦ by
      rw [hmade.node_eq, watchdog_underway, watchdog_underway]
      exact h.observed _ hv port }

/-- Every step of the part has its like in the whole. -/
theorem exists_alike (now : Float) (hs' : s' ∈ plan'.steps) : ∃ s ∈ plan.steps,
    Tick.Alike (e.underway plan now plan.steps) s (f.underway plan' now plan'.steps) s' := by
  obtain ⟨n, d, hmade'⟩ := Graph.exists_madeFrom hcompile' hs'
  obtain ⟨s, hs, d', hmade⟩ :=
    Graph.exists_madeFrom_of_mem hcompile (h.mem_nodes hf (List.mem_of_getElem? hmade'.1))
  obtain rfl : d' = d := by
    have hd := hmade'.2.1
    rw [h.part.catalog, hmade.2.1] at hd
    exact Option.some.inj hd
  exact ⟨s, hs, h.alike he hf hcompile hcompile' now hs hs' hmade hmade'⟩

/-- The part makes no more offers than the whole. -/
theorem sum_offered_le (now : Float) :
    (plan'.steps.map (f.underway plan' now plan'.steps).offered).sum ≤
      (plan.steps.map (e.underway plan now plan.steps).offered).sum := by
  have hnodup : ((plan'.steps.map fun s ↦
      (s.node, (f.underway plan' now plan'.steps).offered s)).map Prod.fst).Nodup := by
    rw [List.map_map]
    exact Graph.nodup_node_steps hf.uniqueIds hcompile'
  have hsub : (plan'.steps.map fun s ↦ (s.node, (f.underway plan' now plan'.steps).offered s)) ⊆
      plan.steps.map fun s ↦ (s.node, (e.underway plan now plan.steps).offered s) := by
    intro entry hentry
    obtain ⟨s', hs', rfl⟩ := List.mem_map.1 hentry
    obtain ⟨s, hs, halike⟩ := h.exists_alike he hf hcompile hcompile' now hs'
    rw [halike.node, halike.offered_eq]
    exact List.mem_map_of_mem hs
  have hle := sum_map_snd_le hnodup hsub
  rwa [List.map_map, List.map_map] at hle

/-- **If the sink pass of the whole is let through, so is that of the part.** -/
theorem exists_sinkPass {t : Tick}
    (hpass : (e.underway plan now plan.steps).sinkPass plan.steps = (t, none)) :
    ∃ t', (f.underway plan' now plan'.steps).sinkPass plan'.steps = (t', none) := by
  obtain ⟨hcount, -⟩ := he.watchdog_underway plan now plan.steps
  obtain ⟨hcount', -⟩ := hf.watchdog_underway plan' now plan'.steps
  have hthresholds : (f.underway plan' now plan'.steps).engine.watchdog.config =
      (e.underway plan now plan.steps).engine.watchdog.config := by
    rw [(f.keeps_underway plan' now plan'.steps).thresholds,
      (e.keeps_underway plan now plan.steps).thresholds]
    exact h.thresholds
  have hlet := (Tick.sinkPass_snd_eq_none_iff (Graph.nodup_node_steps he.uniqueIds hcompile)
    (by rw [hcount]; exact Nat.zero_le _)).1 (congrArg Prod.snd hpass)
  have hlet' := (Tick.sinkPass_snd_eq_none_iff (t := f.underway plan' now plan'.steps)
    (Graph.nodup_node_steps hf.uniqueIds hcompile') (by rw [hcount']; exact Nat.zero_le _)).2
  have hle := h.sum_offered_le he hf hcompile hcompile' now
  refine ⟨_, Prod.ext rfl (hlet' ⟨?_, fun s' hs' ↦ ?_⟩)⟩
  · rw [hcount] at hlet
    rw [hcount', hthresholds]
    omega
  · obtain ⟨s, hs, halike⟩ := h.exists_alike he hf hcompile hcompile' now hs'
    rw [halike.flicker?_eq, hlet.2 s hs]

/-- **Once both are let through, the same has come of the nodes of the part.** -/
theorem sinkPass {t t' : Tick}
    (hpass : (e.underway plan now plan.steps).sinkPass plan.steps = (t, none))
    (hpass' : (f.underway plan' now plan'.steps).sinkPass plan'.steps = (t', none))
    (hv : (f.graph.node? v).isSome) : t'.engine.sinkMemoryOf v = t.engine.sinkMemoryOf v ∧
      (∀ port, t'.engine.watchdog.observed v port = t.engine.watchdog.observed v port) ∧
      sinkCallsFor t'.events v = sinkCallsFor t.events v := by
  obtain ⟨n, hn, rfl⟩ := List.mem_map.1 (Graph.node?_isSome_iff.1 hv)
  obtain ⟨s', hs', d, hmade'⟩ := Graph.exists_madeFrom_of_mem hcompile' hn
  obtain ⟨s, hs, halike⟩ := h.exists_alike he hf hcompile hcompile' now hs'
  have hcalls : sinkCallsFor (f.underway plan' now plan'.steps).events s.node =
      sinkCallsFor (e.underway plan now plan.steps).events s.node := by
    rw [sinkCallsFor_of_sinkCalls (f.events_underway plan' now plan'.steps).1,
      sinkCallsFor_of_sinkCalls (e.events_underway plan now plan.steps).1]
  rw [← hmade'.node_eq, halike.node]
  exact halike.sinkPass (Graph.nodup_node_steps he.uniqueIds hcompile) hs hpass
    (Graph.nodup_node_steps hf.uniqueIds hcompile') hs' hpass' hcalls

end Compute

/-! ### Ticks -/

/-- **A tick that the whole completes is completed by the part**, which then mirrors the whole as
before. In this tick the sink hooks of its nodes have the same calls in both. -/
theorem tick (h : f.Mirrors e) (he : e.Reachable) (hf : f.Reachable) {info : TickInfo}
    {events : List Event} (htick : e.tickAt now = (e', .completed info, events)) :
    ∃ f' info' events', f.tickAt now = (f', .completed info', events') ∧ f'.Mirrors e' ∧
      f'.graph.skeleton = f.graph.skeleton ∧
      ∀ v, (f.graph.node? v).isSome → sinkCallsFor events' v = sinkCallsFor events v := by
  obtain ⟨plan, t, hcompile, hpass, rfl, rfl⟩ := exists_of_completed he.planSound htick
  obtain ⟨plan', hcompile'⟩ :=
    h.part.isPartIn.exists_compile hf.uniqueIds he.sound ⟨plan, hcompile⟩
  obtain ⟨t', hpass'⟩ := h.exists_sinkPass he hf hcompile hcompile' hpass
  obtain ⟨hkeeps, hgraph⟩ := keeps_sinkPass hpass
  obtain ⟨hkeeps', hgraph'⟩ := keeps_sinkPass hpass'
  rw [← graphBetween_of_compile hcompile] at hgraph
  rw [← graphBetween_of_compile hcompile'] at hgraph'
  have hsome : ∀ v, (t'.engine.graph.node? v).isSome → (f.graph.node? v).isSome := by
    intro v hv
    rwa [Graph.isSome_node?_congr hkeeps'.skeleton] at hv
  have hsame := fun v hv ↦ h.sinkPass he hf hcompile hcompile' hpass hpass' (v := v) hv
  have htick' := tickAt_eq_of_sinkPass hf.planSound
    (h.running.trans (running_of_completed htick)) hcompile' hpass'
  have hfound : ∀ v, (f.graph.node? v).isSome → ∃ n ∈ f.graph.nodes, n ∈ e.graph.nodes ∧ n.id = v ∧
      ∃ d, f.graph.catalog.get? n.type = some d ∧ e.graph.catalog.get? n.type = some d := by
    intro v hv
    obtain ⟨n, hn, rfl⟩ := List.mem_map.1 (Graph.node?_isSome_iff.1 hv)
    obtain ⟨d, hd⟩ := Option.isSome_iff_exists.1 (hf.sound.types n hn)
    exact ⟨n, hn, h.mem_nodes hf hn, rfl, d, hd, h.part.catalog ▸ hd⟩
  refine ⟨_, _, _, htick', ?_, hkeeps'.skeleton, fun v hv ↦ ?_⟩
  · exact {
      part := h.part.congr hkeeps'.skeleton hkeeps.skeleton
      content := fun v hv ↦ by
        show t'.engine.graph.node? v = t.engine.graph.node? v
        rw [hgraph, hgraph', h.content_graphBetween he hf hcompile hcompile' now (hsome v hv)]
      running := hkeeps'.running.trans (h.running.trans hkeeps.running.symm)
      policy := hkeeps'.policy.trans (h.policy.trans hkeeps.policy.symm)
      answers := fun v hv k ↦ by
        obtain ⟨n, hn', hn, rfl, d, hd', hd⟩ := hfound v (hsome v hv)
        have hasks : f.asks n.id d = e.asks n.id d := by rw [asks, h.policy, asks]
        rw [askedOf_of_completed hf htick' hn' hd', askedOf_of_completed he htick hn hd, hasks,
          Nat.add_assoc, Nat.add_assoc]
        exact hkeeps.policy.symm ▸ h.answers _ (hsome _ hv) _
      overrides := hkeeps'.overrides.trans ((h.overrides_atTime now).trans hkeeps.overrides.symm)
      thresholds := hkeeps'.thresholds.trans (h.thresholds.trans hkeeps.thresholds.symm)
      tick_eq := congrArg (· + 1) (hkeeps'.tick.trans (h.tick_eq.trans hkeeps.tick.symm))
      lastTickMs := hkeeps'.lastTickMs.trans hkeeps.lastTickMs.symm
      memory := fun v hv ↦ (hsame v (hsome v hv)).1
      lastInputs := fun v hv ↦ by
        obtain ⟨n, hn', hn, rfl, d, hd', hd⟩ := hfound v (hsome v hv)
        have harrivals := fun port ↦ (h.arrivals_graphBetween he hf hcompile hcompile' now
          (hsome _ hv) port).1
        have halike := h.computesAlike (hsome _ hv) now
        rw [lastInputs_of_completed hf htick' hn' hd', lastInputs_of_completed he htick hn hd,
          halike.computes_eq, h.lastInputs _ (hsome _ hv)]
        dsimp only
        rw [hgraph, hgraph', halike.inputsOf_eq harrivals]
      observed := fun v hv ↦ (hsame v (hsome v hv)).2.1 }
  · rw [sinkCallsFor_append, (hsame v hv).2.2, sinkCallsFor_append]
    rfl

end Mirrors

/-! ### Runs -/

/-- The engine after ticks at these times. -/
def afterTicks (e : Engine) (times : List Float) : Engine := (e.run (times.map .tick)).1

/-- The engine completes its ticks at these times. -/
def Completes (e : Engine) : List Float → Prop
  | [] => True
  | now :: rest => (∃ info, (e.tickAt now).2.1 = .completed info) ∧ (e.tickAt now).1.Completes rest

theorem afterTicks_cons (e : Engine) (now : Float) (rest : List Float) :
    e.afterTicks (now :: rest) = (e.tickAt now).1.afterTicks rest :=
  rfl

theorem completes_concat_iff {times : List Float} : e.Completes (times ++ [now]) ↔
    e.Completes times ∧ ∃ info, ((e.afterTicks times).tickAt now).2.1 = .completed info := by
  induction times generalizing e with
  | nil => exact and_comm
  | cons first rest ih =>
    rw [List.cons_append, Completes, Completes, ih, and_assoc, afterTicks_cons]

theorem Reachable.afterTicks (h : e.Reachable) (times : List Float) :
    (e.afterTicks times).Reachable :=
  h.run _

/-- Ticks that the whole completes are completed by the part, which goes on mirroring the whole. -/
theorem Mirrors.run (h : f.Mirrors e) (he : e.Reachable) (hf : f.Reachable) {times : List Float}
    (hcompletes : e.Completes times) : f.Completes times ∧
      (f.afterTicks times).Mirrors (e.afterTicks times) ∧
      (f.afterTicks times).graph.skeleton = f.graph.skeleton := by
  induction times generalizing e f with
  | nil => exact ⟨trivial, h, rfl⟩
  | cons now rest ih =>
    obtain ⟨⟨info, hcompleted⟩, hrest⟩ := hcompletes
    obtain ⟨f', info', events', htick', hmirrors, hskel, -⟩ :=
      h.tick he hf (tickAt_eq_of_outcome hcompleted)
    have hnext : (f.tickAt now).1 = f' := by rw [htick']
    have hf' : f'.Reachable := hnext ▸ hf.call (.tick now)
    obtain ⟨hcompletes', hmirrors', hskel'⟩ := ih hmirrors (he.call (.tick now)) hf' hrest
    rw [afterTicks_cons, afterTicks_cons, hnext]
    exact ⟨⟨⟨info', by rw [htick']⟩, hnext.symm ▸ hcompletes'⟩, hmirrors', hskel'.trans hskel⟩

/-- **As long as the whole completes its ticks, so does the part**, and after each of them the nodes
of the part are the same in both, and their sink hooks have had the same calls in it. -/
theorem Mirrors.run_concat (h : f.Mirrors e) (he : e.Reachable) (hf : f.Reachable)
    {times : List Float} (hcompletes : e.Completes (times ++ [now])) :
    f.Completes (times ++ [now]) ∧ ∀ v, (f.graph.node? v).isSome → ∃ n,
      ((e.afterTicks times).tickAt now).1.graph.node? v = some n ∧
      ((f.afterTicks times).tickAt now).1.graph.node? v = some n ∧
      sinkCallsFor ((f.afterTicks times).tickAt now).2.2 v =
        sinkCallsFor ((e.afterTicks times).tickAt now).2.2 v := by
  rw [completes_concat_iff] at hcompletes ⊢
  obtain ⟨htimes, info, hcompleted⟩ := hcompletes
  obtain ⟨htimes', hmirrors, hskel⟩ := h.run he hf htimes
  obtain ⟨f', info', events', htick', hmirrors', hskel', hcalls⟩ :=
    hmirrors.tick (he.afterTicks times) (hf.afterTicks times) (tickAt_eq_of_outcome hcompleted)
  rw [htick']
  refine ⟨⟨htimes', info', rfl⟩, fun v hv ↦ ?_⟩
  rw [← Graph.isSome_node?_congr hskel] at hv
  have hlater : (f'.graph.node? v).isSome := by rwa [Graph.isSome_node?_congr hskel']
  obtain ⟨n, hn⟩ := Option.isSome_iff_exists.1 hlater
  exact ⟨n, (hmirrors'.content v hlater).symm.trans hn, hn, hcalls v hv⟩

end Engine

end CueFlow
