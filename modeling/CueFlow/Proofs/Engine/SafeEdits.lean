import CueFlow.Proofs.Engine.Calls
import CueFlow.Proofs.Plan.Circle
/-!
# Tried edits are refused for a fault or a circle, and for nothing else

To try an edit is to edit a copy of the graph and to compile the copy as a whole. On an engine whose
graph compiles, the outcome can be told from the graph as it is: an edit that passes its checks is
accepted unless it closes a circle (`Graph.Closes`), which only a new connection can do. So no
removal and no new node is ever refused for the sake of the plan. What is accepted takes the place
of the graph, and brings its own plan along if it changes the topology (`tryEdit_accepts`).
-/

namespace CueFlow.Engine

variable {e e' : Engine} {edit : GraphEdit} {g : Graph}

/-! ### The two halves of a trial -/

/-- An edit of the content needs no plan. -/
theorem tryEdit_of_content (happly : e.graph.apply edit = .ok g) (hedit : edit.isTopology = false) :
    e.tryEdit edit = .ok (forgetRemoved { e with graph := g } edit) := by
  rw [tryEdit, happly]
  show (if edit.isTopology then _ else _) = _
  rw [hedit]
  rfl

/-- An edit of the topology goes through if the copy compiles. -/
theorem tryEdit_of_topology (happly : e.graph.apply edit = .ok g) (hedit : edit.isTopology = true) :
    e.tryEdit edit = g.compile.map fun plan ↦
      forgetRemoved { e with graph := g, plan := some plan } edit := by
  rw [tryEdit, happly]
  show (if edit.isTopology then _ else _) = _
  rw [hedit]
  cases g.compile <;> rfl

/-- **A trial is up to the compiler**, once the edit has passed its checks. -/
theorem exists_tryEdit_iff (happly : e.graph.apply edit = .ok g)
    (hcompile : ∃ plan, e.graph.compile = .ok plan) :
    (∃ e', e.tryEdit edit = .ok e') ↔ ∃ plan, g.compile = .ok plan := by
  cases hedit : edit.isTopology with
  | true =>
    rw [tryEdit_of_topology happly hedit]
    constructor
    · rintro ⟨e', h⟩
      obtain ⟨plan, hplan, -⟩ := map_eq_ok_iff.1 h
      exact ⟨plan, hplan⟩
    · rintro ⟨plan, hplan⟩
      exact ⟨_, map_eq_ok_iff.2 ⟨plan, hplan, rfl⟩⟩
  | false =>
    -- The graph has been compiled as it is, and its skeleton is all that counts.
    rw [Graph.compile_congr (Graph.skeleton_of_apply hedit happly)]
    exact iff_of_true ⟨_, tryEdit_of_content happly hedit⟩ hcompile

/-- What has been accepted is the edited graph, together with its plan if it needs a new one. -/
theorem graph_of_tryEdit (h : e.tryEdit edit = .ok e') :
    e.graph.apply edit = .ok e'.graph ∧ (edit.isTopology = true →
      ∃ plan, e'.plan = some plan ∧ e'.graph.compile = .ok plan) := by
  obtain ⟨g, happly, ⟨-, plan, hplan, rfl⟩ | ⟨hcontent, rfl⟩⟩ := of_tryEdit h
  · obtain ⟨hgraph, hkept, -⟩ := forgetRemoved_eq { e with graph := g, plan := some plan } edit
    rw [hgraph]
    exact ⟨happly, fun _ ↦ ⟨plan, hkept, hplan⟩⟩
  · rw [(forgetRemoved_eq { e with graph := g } edit).1]
    refine ⟨happly, fun htopology ↦ ?_⟩
    rw [hcontent] at htopology
    cases htopology

/-! ### The result -/

/-- **A tried edit is accepted exactly if it is safe.** On an engine whose graph compiles, an edit
goes through if it passes its checks and does not close a circle, that is, does not connect a node
to a compute input of itself or of a node from which it is reached. If it passes its checks and
closes a circle, it is refused for the cycle, and what is named is all that the new connection would
lead to. An accepted edit leaves the edited graph behind, and the plan compiled from it if the
topology has changed. In particular nothing but a new connection is ever refused after its
checks. -/
theorem tryEdit_accepts (he : e.Reachable) (hcompile : ∃ plan, e.graph.compile = .ok plan)
    (edit : GraphEdit) :
    ((∃ e', e.tryEdit edit = .ok e') ↔ (∃ g, e.graph.apply edit = .ok g) ∧
      ∀ c, edit = .addConnection c → ¬ e.graph.Closes c) ∧
    (∀ c g, edit = .addConnection c → e.graph.apply edit = .ok g → e.graph.Closes c →
      ∃ ids, e.tryEdit edit = .error (.cycle ids) ∧
        ∀ v, v ∈ ids ↔ Relation.ReflTransGen e.graph.Feeds c.target v) ∧
    (∀ e', e.tryEdit edit = .ok e' → e.graph.apply edit = .ok e'.graph ∧
      (edit.isTopology = true → ∃ plan, e'.plan = some plan ∧ e'.graph.compile = .ok plan)) ∧
    ((∀ c, edit ≠ .addConnection c) → ∀ g, e.graph.apply edit = .ok g →
      ∃ e', e.tryEdit edit = .ok e' ∧ e'.graph = g) := by
  have haccepts : ∀ g, e.graph.apply edit = .ok g →
      ((∃ e', e.tryEdit edit = .ok e') ↔ ∀ c, edit = .addConnection c → ¬ e.graph.Closes c) :=
    fun g happly ↦ (exists_tryEdit_iff happly hcompile).trans
      (Graph.exists_compile_apply_iff he.sound hcompile happly)
  refine ⟨⟨?_, ?_⟩, ?_, fun e' ↦ graph_of_tryEdit, ?_⟩
  · rintro ⟨e', h⟩
    have happly := (graph_of_tryEdit h).1
    exact ⟨⟨_, happly⟩, (haccepts _ happly).1 ⟨e', h⟩⟩
  · rintro ⟨⟨g, happly⟩, hopen⟩
    exact (haccepts g happly).2 hopen
  · rintro c g rfl happly hcloses
    obtain ⟨ids, hrefused, hids⟩ :=
      Graph.compile_of_closes he.uniqueIds he.sound hcompile happly hcloses
    exact ⟨ids, by rw [tryEdit_of_topology happly rfl, hrefused]; rfl, hids⟩
  · intro hadd g happly
    obtain ⟨e', h⟩ := (haccepts g happly).2 fun c hc ↦ absurd hc (hadd c)
    exact ⟨e', h, Except.ok.inj ((graph_of_tryEdit h).1.symm.trans happly)⟩

/-- An engine at rest with three wires, each of which feeds the next. -/
def chainEngine : Engine where
  graph := {
    catalog := sampleCatalog
    nodes := [{ id := "a", type := "wire" }, { id := "b", type := "wire" },
      { id := "c", type := "wire" }]
    connections := [⟨"ab", "a", "out", "b", "in"⟩, ⟨"bc", "b", "out", "c", "in"⟩] }
  config := {}
  watchdog := { config := .default }

/-- The last wire cannot feed the first. Once the wire between them has gone, it can. -/
theorem tryEdit_accepts_chainEngine :
    let closing := GraphEdit.addConnection ⟨"ca", "c", "out", "a", "in"⟩
    ∃ ids e', chainEngine.Reachable ∧ chainEngine.tryEdit closing = .error (.cycle ids) ∧
      "b" ∈ ids ∧ chainEngine.tryEdit (.removeNode "b") = .ok e' ∧
      ∃ e'', e'.tryEdit closing = .ok e'' := by
  intro closing
  have hload : Graph.load sampleCatalog chainEngine.graph.snapshot .strict =
      .ok (chainEngine.graph, {}) := rfl
  have hnew : Engine.new chainEngine.graph {} = .ok chainEngine := rfl
  have hreach : chainEngine.Reachable := .new (.load hload) hnew
  have hcompile : ∃ plan, chainEngine.graph.compile = .ok plan := ⟨_, rfl⟩
  have hab : chainEngine.graph.Feeds "a" "b" :=
    ⟨⟨"ab", "a", "out", "b", "in"⟩, by decide, rfl, rfl, _, rfl, rfl⟩
  have hbc : chainEngine.graph.Feeds "b" "c" :=
    ⟨⟨"bc", "b", "out", "c", "in"⟩, by decide, rfl, rfl, _, rfl, rfl⟩
  obtain ⟨ids, hrefused, hids⟩ := (tryEdit_accepts hreach hcompile closing).2.1 _ _ rfl rfl
    ⟨⟨_, rfl, rfl⟩, .tail (.single hab) hbc⟩
  obtain ⟨e', hremoved, hgraph⟩ :=
    (tryEdit_accepts hreach hcompile (.removeNode "b")).2.2.2 nofun _ rfl
  refine ⟨ids, e', hreach, hrefused, (hids "b").2 (.single hab), hremoved, ?_⟩
  obtain rfl := Except.ok.inj (hremoved.symm.trans rfl)
  exact ⟨_, rfl⟩

end CueFlow.Engine
