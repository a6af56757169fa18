import CueFlow.Proofs.Graph.Skeleton
import CueFlow.Proofs.Refusal
/-!
# What an edit does to a graph

An edit that is carried out has passed its checks and makes one move (`Graph.EditMove`,
`editMove_of_apply`). From the moves it is read off what edits may change: an edit of content keeps
the skeleton (`skeleton_of_apply`), an edit of the topology moves the generation on
(`generation_of_apply`), and the definition of a node stays as it is unless the node is removed
(`definitionOf?_of_apply`).
-/

namespace CueFlow

namespace Graph

variable {g g' : Graph} {edit : GraphEdit}

/-- The move of an edit that has passed its checks. -/
inductive EditMove (g : Graph) : GraphEdit → Graph → Prop
  | addNode {n : Node} (hcheck : g.checkNode n = .ok ()) :
      EditMove g (.addNode n) (g.appendNode n).touchTopology
  | removeNode {id : NodeId} (hnode : (g.node? id).isSome) :
      EditMove g (.removeNode id) (touchTopology { g with
        nodes := g.nodes.filter fun other ↦ other.id != id
        connections := g.connections.filter fun c ↦ !c.touches id })
  | addConnection {c : Connection} (hcheck : g.checkConnection c = .ok ()) :
      EditMove g (.addConnection c) (g.appendConnection c).touchTopology
  | removeConnection {id : ConnectionId} (hconnection : (g.connection? id).isSome) :
      EditMove g (.removeConnection id) (touchTopology { g with
        connections := g.connections.filter fun other ↦ other.id != id })
  | setConfig {id : NodeId} {key : String} {value : Value} (hnode : (g.node? id).isSome) :
      EditMove g (.setConfig id key value) (g.modifyNode id fun n ↦
        { n with config := n.config.insert key value }).touchContent
  | setInputValue {id : NodeId} {port : String} {value : Value}
      (hport : ((g.definitionOf? id).bind fun d ↦ d.input? port).isSome) :
      EditMove g (.setInputValue id port value) (g.modifyNode id fun n ↦
        { n with inputValues := n.inputValues.insert port value }).touchContent

/-- **An edit that is carried out makes its move.** -/
theorem editMove_of_apply (h : g.apply edit = .ok g') : g.EditMove edit g' := by
  cases edit with
  | addNode n =>
    obtain ⟨_, hcheck, hok⟩ := bind_eq_ok_iff.1 h
    obtain rfl := Except.ok.inj hok
    exact .addNode hcheck
  | removeNode id =>
    obtain ⟨⟨n, removed⟩, hremove, rfl⟩ := map_eq_ok_iff.1 h
    rw [removeNode] at hremove
    split at hremove
    · cases hremove
    next hnode =>
      cases hremove
      exact .removeNode (by rw [hnode]; rfl)
  | addConnection c =>
    obtain ⟨_, hcheck, hok⟩ := bind_eq_ok_iff.1 h
    obtain rfl := Except.ok.inj hok
    exact .addConnection hcheck
  | removeConnection id =>
    obtain ⟨⟨c, removed⟩, hremove, rfl⟩ := map_eq_ok_iff.1 h
    rw [removeConnection] at hremove
    split at hremove
    · cases hremove
    next hconnection =>
      cases hremove
      exact .removeConnection (by rw [hconnection]; rfl)
  | setConfig id key value =>
    rw [apply, setConfig] at h
    split at h
    · cases h
    next hnode =>
      cases h
      exact .setConfig (by rw [hnode]; rfl)
  | setInputValue id port value =>
    rw [apply, setInputValue] at h
    split at h
    · cases h
    next d hd =>
      split at h
      · cases h
      next hport =>
        cases h
        exact .setInputValue (by simpa [hd, Option.isSome_iff_ne_none] using hport)

/-- An edit of content keeps the skeleton. -/
theorem skeleton_of_apply (hedit : edit.isTopology = false) (happly : g.apply edit = .ok g') :
    g'.skeleton = g.skeleton := by
  cases editMove_of_apply happly with
  | setConfig => exact skeleton_touchContent.trans (skeleton_modifyNode _ fun _ ↦ rfl)
  | setInputValue => exact skeleton_touchContent.trans (skeleton_modifyNode _ fun _ ↦ rfl)
  | addNode | removeNode | addConnection | removeConnection => cases hedit

/-- An edit of the topology moves the generation on by one. -/
theorem generation_of_apply (hedit : edit.isTopology = true) (happly : g.apply edit = .ok g') :
    g'.generation = g.generation + 1 := by
  cases editMove_of_apply happly with
  | addNode | removeNode | addConnection | removeConnection => rfl
  | setConfig | setInputValue => cases hedit

theorem definitionOf?_of_node? {v : NodeId} {d : NodeDefinition} (hcatalog : g'.catalog = g.catalog)
    (hnode : ∀ n, g.node? v = some n → g'.node? v = some n) (h : g.definitionOf? v = some d) :
    g'.definitionOf? v = some d := by
  obtain ⟨n, hn, hd⟩ := Option.bind_eq_some_iff.1 h
  rw [definitionOf?, hnode n hn, hcatalog]
  exact hd

/-- A new node comes after all others, so what was found before is still found first. -/
theorem definitionOf?_appendNode {n : Node} {v : NodeId} {d : NodeDefinition}
    (h : g.definitionOf? v = some d) : (g.appendNode n).definitionOf? v = some d := by
  refine definitionOf?_of_node? (g := g) rfl (fun n' hn' ↦ ?_) h
  have hfound : g.nodes.find? (fun other ↦ other.id == v) = some n' := hn'
  show (g.nodes ++ [n]).find? _ = _
  rw [List.find?_append, hfound]
  rfl

/-- An edit leaves alone the definition of every node but the one that it removes. -/
theorem definitionOf?_of_apply (happly : g.apply edit = .ok g') {v : NodeId}
    (hkept : edit.removedNode? ≠ some v) {d : NodeDefinition} (h : g.definitionOf? v = some d) :
    g'.definitionOf? v = some d := by
  cases editMove_of_apply happly with
  | addNode => exact definitionOf?_appendNode h
  | @removeNode id =>
    refine definitionOf?_of_node? (g := g) rfl (fun n' hn' ↦ ?_) h
    have hne : id ≠ v := fun heq ↦ hkept (congrArg some heq)
    show (g.nodes.filter _).find? _ = _
    rw [List.find?_filter, ← hn', node?]
    refine congrArg (List.find? · g.nodes) (funext fun other ↦ ?_)
    by_cases hv : other.id = v
    · simp [hv, hne.symm]
    · simp [hv]
  | addConnection => exact h
  | removeConnection => exact h
  | setConfig | setInputValue =>
    rw [definitionOf?_congr (skeleton_of_apply rfl happly)]
    exact h

/-! ### What the checks look at -/

theorem checkNode_congr (hcatalog : g'.catalog = g.catalog)
    (hnode : ∀ v, (g'.node? v).isSome = (g.node? v).isSome) (n : Node) :
    g'.checkNode n = g.checkNode n := by
  rw [checkNode, hnode, hcatalog, checkNode]

theorem connection?_congr (hconnections : g'.connections = g.connections) (id : ConnectionId) :
    g'.connection? id = g.connection? id := by
  rw [connection?, hconnections, connection?]

theorem checkConnection_congr (hconnections : g'.connections = g.connections)
    (hdefinition : ∀ v, g'.definitionOf? v = g.definitionOf? v) (c : Connection) :
    g'.checkConnection c = g.checkConnection c := by
  have hvacant : ∀ p, g'.checkVacant c p = g.checkVacant c p := by
    intro p
    rw [checkVacant, hconnections, checkVacant]
  simp only [checkConnection, connection?_congr hconnections, hdefinition, hvacant]

end Graph

end CueFlow
