import CueFlow.Engine.Deliver
import CueFlow.Proofs.KeyMap
import CueFlow.Proofs.Plan
/-!
# What is gathered at a point of delivery

A step of a plan gathers along its routes, by places in the graph. In terms of the graph, a point of
delivery gathers the values at the sources of the connections into it, in their order
(`Graph.produced`, `Graph.gathered?`); `get?_gather` says that this is the same. Ports that share an
id share what is gathered, because only the first of them has routes.
-/

namespace CueFlow

namespace Graph

/-- The values at the sources of the connections into a point of delivery, in their order. -/
def produced (g : Graph) (v : NodeId) (port : String) : List Value :=
  ((g.connectionsInto .sink).filter fun c ↦ c.target == v && c.targetPort == port).filterMap
    fun c ↦ (g.node? c.source).bind fun n ↦ n.outputValues.get? c.sourcePort

/-- Values gathered one after the other; nothing if there are none. -/
def gatherAll (values : List Value) : Option Value :=
  values.foldl (fun acc v ↦ some (gatherValue acc v)) none

/-- What a point of delivery gathers. -/
def gathered? (g : Graph) (v : NodeId) (port : String) : Option Value :=
  gatherAll (g.produced v port)

variable {g : Graph} {s : PlanStep} {n : Node} {d : NodeDefinition}

/-- The values of the producers that a route names. -/
def valuesAt (g : Graph) (sources : List (Nat × String)) : List Value :=
  sources.filterMap fun source ↦ (g.nodes[source.1]?).bind fun n ↦ n.outputValues.get? source.2

/-- The producers of a point of delivery, by place and by connection. -/
theorem valuesAt_sinkSources (hg : g.UniqueIds) (hmade : g.MadeFrom s n d) (port : String) :
    g.valuesAt (g.sinkSources d (g.connections.filter fun c ↦ c.target == n.id) port) =
      g.produced n.id port := by
  rw [valuesAt, sinkSources, List.filterMap_filterMap, List.filterMap_filter, produced,
    connectionsInto, List.filterMap_filter, List.filterMap_filter]
  refine congrArg (List.filterMap · g.connections) (funext fun c ↦ ?_)
  by_cases htarget : c.target = n.id
  · rw [endpoints?, hmade.indexOf?_target hg htarget, hmade.targetPort?_eq hg htarget,
      ← indexOf?_bind_getElem?]
    cases g.indexOf? c.source with
    | none => simp
    | some source =>
      by_cases hport : c.targetPort = port
      · have hsink : (d.input? c.targetPort).any Port.isSink =
            (d.input? c.targetPort).any fun p ↦ p.kind == .sink := rfl
        rw [hsink]
        simp only [htarget, hport, beq_self_eq_true, Bool.true_and, Bool.and_true, if_true,
          Option.isSome_some, Option.map_some]
        split <;> rfl
      · simp [hport]
  · simp [htarget]

/-- Take in what one route gathers. -/
def takeIn (g : Graph) (values : ValueMap) (r : SinkRoute) : ValueMap :=
  match r.gather? g with
  | some v => values.insert r.port v
  | none => values

/-- What a point of delivery gathers is entered under its port and under no other. -/
theorem get?_takeIn (g : Graph) (values : ValueMap) (r : SinkRoute) (port : String) :
    (g.takeIn values r).get? port =
      if r.port = port then (r.gather? g).or (values.get? port) else values.get? port := by
  rw [takeIn]
  cases r.gather? g with
  | none => simp
  | some v => simp [KeyMap.get?_insert]

theorem sorted_takeIn {values : ValueMap} (h : values.Sorted) (r : SinkRoute) :
    (g.takeIn values r).Sorted := by
  rw [takeIn]
  split
  · exact KeyMap.sorted_insert h _ _
  · exact h

/-- Of the ports that share an id, the first one gathers for all of them. -/
theorem get?_foldl_takeIn (incoming : List Connection) (seen : List String) (ports : List Port)
    (values : ValueMap) (port : String) :
    ((g.sinkRoutes d incoming seen ports).foldl g.takeIn values).get? port =
      if port ∈ ports.map Port.id ∧ port ∉ seen then
        (gatherAll (g.valuesAt (g.sinkSources d incoming port))).or (values.get? port)
      else values.get? port := by
  induction ports generalizing seen values with
  | nil => simp [sinkRoutes]
  | cons p rest ih =>
    rw [sinkRoutes, List.foldl_cons, ih, get?_takeIn]
    by_cases hp : p.id = port
    · subst hp
      by_cases hseen : p.id ∈ seen
      · -- The routes of an id that was seen are those of an earlier port, so this one has none.
        have hnone : SinkRoute.gather? ⟨p.id, []⟩ g = none := rfl
        simp [hseen, hnone]
      · simp [hseen]
        rfl
    · simp [hp, Ne.symm hp]

/-- What lies outside the points of delivery of a node gathers nothing. -/
theorem produced_eq_nil (hg : g.UniqueIds) (hmade : g.MadeFrom s n d) {port : String}
    (hport : port ∉ d.sinkInputs.map Port.id) : g.produced n.id port = [] := by
  have hnone : ((g.connectionsInto .sink).filter fun c ↦
      c.target == n.id && c.targetPort == port) = [] := by
    rw [List.filter_eq_nil_iff]
    intro c hc hends
    rw [Bool.and_eq_true, beq_iff_eq, beq_iff_eq] at hends
    have hinto := (List.mem_filter.1 hc).2
    rw [Bool.and_eq_true, hmade.targetPort?_eq hg hends.1, Option.any_eq_true] at hinto
    obtain ⟨-, p, hp, hkind⟩ := hinto
    have hid : p.id = c.targetPort := by simpa using List.find?_some hp
    refine hport (List.mem_map.2 ⟨p, List.mem_filter.2 ⟨List.mem_of_find?_eq_some hp, hkind⟩, ?_⟩)
    rw [hid, hends.2]
  rw [produced, hnone]
  rfl

/-- **A step gathers at each point of delivery what the sources of its connections hold.** -/
theorem get?_gather (hg : g.UniqueIds) (hmade : g.MadeFrom s n d) (port : String) :
    (s.gather g).get? port = g.gathered? n.id port := by
  have hgather : s.gather g = s.sinkRoutes.foldl g.takeIn [] := rfl
  rw [hgather, hmade.sinkRoutes_eq, get?_foldl_takeIn, valuesAt_sinkSources hg hmade, gathered?]
  by_cases hport : port ∈ d.sinkInputs.map Port.id
  · simp [hport]
  · rw [produced_eq_nil hg hmade hport]
    simp [hport]
    rfl

/-! ### Whether anything is connected -/

/-- Whether anything is connected to the points of delivery of a node. -/
def isWired (g : Graph) (v : NodeId) : Bool :=
  (g.connectionsInto .sink).any fun c ↦ c.target == v

theorem isWired_congr {h : Graph} (hskel : h.skeleton = g.skeleton) (v : NodeId) :
    h.isWired v = g.isWired v := by
  rw [isWired, ← skeleton_connectionsInto, hskel, skeleton_connectionsInto, isWired]

/-- Every port that was not seen before is routed once, from all of its sources. -/
theorem mem_flatMap_sources_iff {incoming : List Connection} {seen : List String}
    {ports : List Port} {source : Nat × String} :
    source ∈ (g.sinkRoutes d incoming seen ports).flatMap SinkRoute.sources ↔
      ∃ port ∈ ports.map Port.id, port ∉ seen ∧ source ∈ g.sinkSources d incoming port := by
  induction ports generalizing seen with
  | nil => simp [sinkRoutes]
  | cons p rest ih =>
    rw [sinkRoutes, List.flatMap_cons, List.mem_append, ih]
    constructor
    · rintro (hsource | ⟨port, hport, hseen, hsource⟩)
      · dsimp only at hsource
        split at hsource
        · cases hsource
        next hseen => exact ⟨p.id, List.mem_cons_self, hseen, hsource⟩
      · exact ⟨port, List.mem_cons_of_mem _ hport, fun h ↦ hseen (List.mem_cons_of_mem _ h),
          hsource⟩
    · rintro ⟨port, hport, hseen, hsource⟩
      by_cases hp : port = p.id
      · subst hp
        exact .inl (by simpa [hseen] using hsource)
      · refine .inr ⟨port, ?_, ?_, hsource⟩
        · exact (List.mem_cons.1 hport).resolve_left hp
        · exact fun h ↦ (List.mem_cons.1 h).elim hp hseen

/-- **A step counts connections exactly if its node is wired.** -/
theorem sinkConnectionCount_eq_zero_iff (hg : g.UniqueIds) (hmade : g.MadeFrom s n d) :
    s.sinkConnectionCount = 0 ↔ g.isWired n.id = false := by
  rw [PlanStep.sinkConnectionCount, List.length_eq_zero_iff, hmade.sinkRoutes_eq,
    List.eq_nil_iff_forall_not_mem, isWired, List.any_eq_false]
  simp only [mem_flatMap_sources_iff, mem_sinkSources_iff]
  constructor
  · intro hnone c hc htarget
    rw [beq_iff_eq] at htarget
    obtain ⟨hmem, hinto⟩ := List.mem_filter.1 hc
    rw [Bool.and_eq_true, hmade.targetPort?_eq hg htarget, Option.any_eq_true] at hinto
    obtain ⟨hends, p, hp, hkind⟩ := hinto
    obtain ⟨source, hsource⟩ : ∃ source, g.indexOf? c.source = some source := by
      rw [endpoints?] at hends
      cases hsource : g.indexOf? c.source with
      | none => simp [hsource] at hends
      | some source => exact ⟨source, rfl⟩
    have hid : p.id = c.targetPort := by simpa using List.find?_some hp
    refine hnone (source, c.sourcePort) ⟨c.targetPort, ?_, by simp, c, ?_, rfl, ?_, hsource, rfl⟩
    · exact hid ▸ List.mem_map_of_mem (List.mem_filter.2 ⟨List.mem_of_find?_eq_some hp, hkind⟩)
    · exact List.mem_filter.2 ⟨hmem, by simpa using htarget⟩
    · rw [hp]
      exact hkind
  · rintro hnone source ⟨port, -, -, c, hc, -, hsink, hsource, -⟩
    obtain ⟨hmem, htarget⟩ := List.mem_filter.1 hc
    rw [beq_iff_eq] at htarget
    refine hnone c (List.mem_filter.2 ⟨hmem, ?_⟩) (by simpa using htarget)
    rw [endpoints?, hsource, hmade.indexOf?_target hg htarget, hmade.targetPort?_eq hg htarget]
    exact hsink

/-- What is gathered is in the order of the ports. -/
theorem sorted_gather (s : PlanStep) (g : Graph) : (s.gather g).Sorted := by
  show (s.sinkRoutes.foldl g.takeIn []).Sorted
  have hstart : KeyMap.Sorted ([] : ValueMap) := List.Pairwise.nil
  generalize ([] : ValueMap) = values at hstart ⊢
  induction s.sinkRoutes generalizing values with
  | nil => exact hstart
  | cons r rest ih => exact ih _ (sorted_takeIn hstart r)

end Graph

end CueFlow
