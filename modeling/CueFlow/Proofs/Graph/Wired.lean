import CueFlow.Proofs.Graph.Sound
/-!
# Wired graphs

A graph is wired if no connection id occurs twice and a compute input takes one connection at most.
Every check of a connection is against all connections that are there already, so whatever passes
its check keeps a graph wired (`Wired.appendConnection`), and a removal only takes connections away;
so every graph that a host can build is wired (`Buildable.wired`).
-/

namespace CueFlow

namespace Graph

/-- Two connections lead into different inputs, or into one point of delivery. -/
def Apart (g : Graph) (c c' : Connection) : Prop :=
  c.target = c'.target → c.targetPort = c'.targetPort → g.isSinkConnection c = true

/-- No connection id occurs twice, and a compute input takes one connection at most. -/
structure Wired (g : Graph) : Prop where
  nodup : (g.connections.map Connection.id).Nodup
  apart : g.connections.Pairwise g.Apart

variable {g g' : Graph}

/-! ### What passes its check -/

theorem connection?_eq_none_iff {id : ConnectionId} :
    g.connection? id = none ↔ id ∉ g.connections.map Connection.id := by
  simp [connection?, List.find?_eq_none]

/-- A connection that passes its check is new, and apart from all that are there. -/
theorem apart_of_checkConnection {c : Connection} (h : g.checkConnection c = .ok ()) :
    g.connection? c.id = none ∧ ∀ other ∈ g.connections, g.Apart other c := by
  rw [checkConnection] at h
  split at h
  · cases h
  next hnew =>
    refine ⟨by simpa using hnew, fun other hother htarget hport ↦ ?_⟩
    split at h
    · cases h
    · cases h
    next source target _ htype =>
      split at h
      · cases h
      · cases h
      next output input _ hinput =>
        split at h
        · cases h
        have hsink : g.isSinkConnection other = input.isSink := by
          rw [isSinkConnection, targetPort?, htarget, hport, htype, Option.bind_some, hinput]
          rfl
        rw [checkVacant] at h
        split at h
        next hinput => rw [hsink, hinput]
        split at h
        · cases h
        next hvacant =>
          have hfree := List.find?_eq_none.1 hvacant other hother
          simp [htarget, hport] at hfree

/-- A point of delivery stays one as long as its node keeps its definition. -/
theorem isSinkConnection_mono {c : Connection}
    (hkept : ∀ d, g.definitionOf? c.target = some d → g'.definitionOf? c.target = some d)
    (h : g.isSinkConnection c = true) : g'.isSinkConnection c = true := by
  obtain ⟨p, hp, hsink⟩ := Option.any_eq_true _ _ |>.1 h
  obtain ⟨d, hd, hinput⟩ := Option.bind_eq_some_iff.1 hp
  rw [isSinkConnection, targetPort?, hkept d hd, Option.bind_some, hinput]
  exact hsink

/-- Fewer connections to nodes that keep their definitions stay wired. -/
theorem Wired.mono (h : g.Wired) (hsub : g'.connections.Sublist g.connections)
    (hkept : ∀ c ∈ g'.connections, ∀ d, g.definitionOf? c.target = some d →
      g'.definitionOf? c.target = some d) : g'.Wired := by
  refine ⟨(hsub.map Connection.id).nodup h.nodup, ?_⟩
  refine (h.apart.sublist hsub).imp_of_mem fun {c c'} hc _ hapart htarget hport ↦ ?_
  exact isSinkConnection_mono (hkept c hc) (hapart htarget hport)

theorem Wired.appendNode {n : Node} (h : g.Wired) : (g.appendNode n).Wired :=
  h.mono (.refl _) fun _ _ _ ↦ definitionOf?_appendNode

theorem Wired.appendConnection {c : Connection} (h : g.Wired)
    (hcheck : g.checkConnection c = .ok ()) : (g.appendConnection c).Wired := by
  obtain ⟨hnew, hapart⟩ := apart_of_checkConnection hcheck
  constructor
  · show ((g.connections ++ [c]).map Connection.id).Nodup
    rw [List.map_append, List.map_singleton]
    exact h.nodup.append (List.nodup_singleton _)
      (List.disjoint_singleton.2 (connection?_eq_none_iff.1 hnew))
  · refine List.pairwise_append.2 ⟨h.apart, List.pairwise_singleton _ _, fun other hother _ hc ↦ ?_⟩
    rw [List.mem_singleton.1 hc]
    exact hapart other hother

theorem Wired.congr (h : g.Wired) (hskel : g'.skeleton = g.skeleton) : g'.Wired := by
  refine h.mono (connections_congr hskel ▸ .refl _) fun c _ d hd ↦ ?_
  rw [definitionOf?_congr hskel]
  exact hd

/-- An edit keeps a graph wired. -/
theorem Wired.edit {edit : GraphEdit} (h : g.Wired) (happly : g.apply edit = .ok g') :
    g'.Wired := by
  cases editMove_of_apply happly with
  | addNode => exact h.appendNode.mono (.refl _) fun _ _ _ hd ↦ hd
  | @removeNode id =>
    refine h.mono List.filter_sublist fun c hc d hd ↦ definitionOf?_of_apply happly ?_ hd
    -- Connections that touch the node have gone with it.
    obtain ⟨-, huntouched⟩ := List.mem_filter.1 hc
    intro hid
    obtain rfl : id = c.target := Option.some.inj hid
    simp [Connection.touches] at huntouched
  | addConnection hcheck =>
    exact (h.appendConnection hcheck).mono (.refl _) fun _ _ _ hd ↦ hd
  | removeConnection => exact h.mono List.filter_sublist fun _ _ _ hd ↦ hd
  | setConfig | setInputValue => exact h.congr (skeleton_of_apply rfl happly)

/-- A load makes a wired graph, whatever the snapshot holds. -/
theorem wired_of_load {catalog : Catalog} {state : GraphState} {policy : LoadPolicy}
    {report : LoadReport} (h : Graph.load catalog state policy = .ok (g, report)) : g.Wired :=
  load_induction h ⟨List.nodup_nil, List.Pairwise.nil⟩ (fun _ _ hg _ ↦ hg.appendNode)
    fun _ _ hg hcheck ↦ hg.appendConnection hcheck

/-- **A graph that a host can build is wired.** -/
theorem Buildable.wired (h : g.Buildable) : g.Wired := by
  induction h with
  | empty => exact ⟨List.nodup_nil, List.Pairwise.nil⟩
  | load hload => exact wired_of_load hload
  | edit _ happly ih => exact ih.edit happly
  | clearOutputs _ ih => exact ih.congr skeleton_clearOutputs

end Graph

end CueFlow
