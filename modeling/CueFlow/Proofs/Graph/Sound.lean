import CueFlow.Proofs.Graph.Unique
/-!
# Sound graphs

A graph is sound if the type of every node is known and every connection fits: both its ends exist,
declare its ports, and the types of these go together. Whatever passes its check keeps a graph sound
(`Sound.appendNode`, `Sound.appendConnection`), and a removal takes the connections of a node with
it; so every graph that a host can build is sound (`Buildable.sound`).
-/

namespace CueFlow

namespace Graph

/-- Both ends of a connection exist and declare its ports, and the types of these go together. -/
def Fits (g : Graph) (c : Connection) : Prop :=
  ∃ source target output input, g.definitionOf? c.source = some source ∧
    g.definitionOf? c.target = some target ∧ source.output? c.sourcePort = some output ∧
    target.input? c.targetPort = some input ∧ output.type.compatible input.type = true

/-- The type of every node is known, and every connection fits. -/
structure Sound (g : Graph) : Prop where
  types : ∀ n ∈ g.nodes, g.catalog.contains n.type = true
  fits : ∀ c ∈ g.connections, g.Fits c

variable {g g' : Graph}

/-- Every node of a sound graph has a definition. -/
theorem Sound.exists_definition (h : g.Sound) {n : Node} (hn : n ∈ g.nodes) :
    ∃ d, g.catalog.get? n.type = some d :=
  Option.isSome_iff_exists.1 (h.types n hn)

/-! ### What passes its check -/

theorem contains_of_checkNode {n : Node} (h : g.checkNode n = .ok ()) :
    g.catalog.contains n.type = true := by
  rw [checkNode] at h
  split at h
  · cases h
  next hknown => simpa using hknown

theorem fits_of_checkConnection {c : Connection} (h : g.checkConnection c = .ok ()) :
    g.Fits c := by
  rw [checkConnection] at h
  split at h
  · cases h
  split at h
  · cases h
  · cases h
  next source target hsource htarget =>
    split at h
    · cases h
    · cases h
    next output input houtput hinput =>
      split at h
      · cases h
      next hcompatible =>
        exact ⟨source, target, output, input, hsource, htarget, houtput, hinput,
          by simpa using hcompatible⟩

/-- A connection still fits if its ends keep their definitions. -/
theorem Fits.mono {c : Connection} (h : g.Fits c)
    (hkept : ∀ v, c.touches v = true → ∀ d, g.definitionOf? v = some d →
      g'.definitionOf? v = some d) : g'.Fits c := by
  obtain ⟨source, target, output, input, hsource, htarget, hports⟩ := h
  exact ⟨source, target, output, input, hkept _ (by simp [Connection.touches]) _ hsource,
    hkept _ (by simp [Connection.touches]) _ htarget, hports⟩

theorem Sound.appendNode {n : Node} (h : g.Sound) (hcheck : g.checkNode n = .ok ()) :
    (g.appendNode n).Sound := by
  refine ⟨fun other hother ↦ ?_, fun c hc ↦ ?_⟩
  · rcases List.mem_append.1 hother with hother | hother
    · exact h.types other hother
    · rw [List.mem_singleton.1 hother]
      exact contains_of_checkNode (g := g) hcheck
  · exact (h.fits c hc).mono fun _ _ _ ↦ definitionOf?_appendNode

theorem Sound.appendConnection {c : Connection} (h : g.Sound)
    (hcheck : g.checkConnection c = .ok ()) : (g.appendConnection c).Sound := by
  refine ⟨h.types, fun other hother ↦ ?_⟩
  rcases List.mem_append.1 hother with hother | hother
  · exact h.fits other hother
  · rw [List.mem_singleton.1 hother]
    exact fits_of_checkConnection (g := g) hcheck

/-- Soundness does not hang on the content of nodes. -/
theorem Sound.congr (h : g.Sound) (hskel : g'.skeleton = g.skeleton) : g'.Sound := by
  refine ⟨fun n hn ↦ ?_, fun c hc ↦ ?_⟩
  · have hbare : n.bare ∈ g.nodes.map Node.bare := by
      rw [← skeleton_nodes, ← hskel]
      exact List.mem_map_of_mem hn
    obtain ⟨other, hother, heq⟩ := List.mem_map.1 hbare
    rw [catalog_congr hskel, ← Node.bare_type, ← heq]
    exact h.types other hother
  · rw [connections_congr hskel] at hc
    refine (h.fits c hc).mono fun v _ d hd ↦ ?_
    rw [definitionOf?_congr hskel]
    exact hd

/-! ### The graphs that a host can build -/

/-- An edit keeps a graph sound. -/
theorem Sound.edit {edit : GraphEdit} (h : g.Sound) (happly : g.apply edit = .ok g') :
    g'.Sound := by
  cases editMove_of_apply happly with
  | addNode hcheck => exact ⟨(h.appendNode hcheck).types, (h.appendNode hcheck).fits⟩
  | @removeNode id =>
    refine ⟨fun n hn ↦ h.types n (List.mem_of_mem_filter hn), fun c hc ↦ ?_⟩
    obtain ⟨hmem, huntouched⟩ := List.mem_filter.1 hc
    -- Connections that touch the node go with it; the others keep the definitions of their ends.
    refine (h.fits c hmem).mono fun v hv d hd ↦ definitionOf?_of_apply happly ?_ hd
    intro hid
    obtain rfl : id = v := Option.some.inj hid
    simp [hv] at huntouched
  | addConnection hcheck =>
    exact ⟨(h.appendConnection hcheck).types, (h.appendConnection hcheck).fits⟩
  | removeConnection =>
    exact ⟨h.types, fun c hc ↦ h.fits c (List.mem_of_mem_filter hc)⟩
  | setConfig | setInputValue => exact h.congr (skeleton_of_apply rfl happly)

/-- An edit that does not remove a node leaves it in place, and its definition with it. -/
theorem Sound.definitionOf?_edit (h : g.Sound) {edit : GraphEdit} (happly : g.apply edit = .ok g')
    {v : NodeId} (hkept : edit.removedNode? ≠ some v) (hv : (g.node? v).isSome) :
    (g'.node? v).isSome ∧ g'.definitionOf? v = g.definitionOf? v := by
  obtain ⟨n, hn⟩ := Option.isSome_iff_exists.1 hv
  obtain ⟨d, hd⟩ := h.exists_definition (List.mem_of_find?_eq_some hn)
  have hbefore : g.definitionOf? v = some d := by
    rw [definitionOf?, hn]
    exact hd
  have hafter := definitionOf?_of_apply happly hkept hbefore
  obtain ⟨n', hn', -⟩ := Option.bind_eq_some_iff.1 hafter
  exact ⟨Option.isSome_iff_exists.2 ⟨n', hn'⟩, hafter.trans hbefore.symm⟩

/-- A load makes a sound graph, whatever the snapshot holds. -/
theorem sound_of_load {catalog : Catalog} {state : GraphState} {policy : LoadPolicy}
    {report : LoadReport} (h : Graph.load catalog state policy = .ok (g, report)) : g.Sound :=
  load_induction h ⟨nofun, nofun⟩ (fun _ _ hg hcheck ↦ hg.appendNode hcheck)
    fun _ _ hg hcheck ↦ hg.appendConnection hcheck

/-- **A graph that a host can build is sound.** -/
theorem Buildable.sound (h : g.Buildable) : g.Sound := by
  induction h with
  | empty => exact ⟨by simp [Graph.empty], by simp [Graph.empty]⟩
  | load hload => exact sound_of_load hload
  | edit _ happly ih => exact ih.edit happly
  | clearOutputs _ ih => exact ih.congr skeleton_clearOutputs

end Graph

end CueFlow
