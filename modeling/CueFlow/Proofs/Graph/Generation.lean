import CueFlow.Proofs.Graph.Edit
import CueFlow.Proofs.Graph.Reload
/-!
# Where the count of changes began

The generation tells apart the states of one graph, one after the other. Where the count began makes
no difference: a graph whose count begins anew compiles to the same steps, or is refused for the
same reason (`content_compile_reloaded`), and it takes and refuses the same edits
(`apply_reloaded`).
-/

namespace CueFlow

/-- What a plan holds besides the generation it was compiled from. -/
def Plan.content (p : Plan) : List PlanStep × PlanStats := (p.steps, p.stats)

namespace Graph

/-- A load counts no changes. -/
theorem reloaded_of_load {g : Graph} {catalog : Catalog} {state : GraphState}
    {policy : LoadPolicy} {report : LoadReport}
    (h : Graph.load catalog state policy = .ok (g, report)) : g.reloaded = g := by
  have hgeneration : g.generation = 0 :=
    load_induction (P := fun g ↦ g.generation = 0) h rfl (fun _ _ hg _ ↦ hg) fun _ _ hg _ ↦ hg
  rw [reloaded, ← hgeneration]

variable (g : Graph)

theorem sinkRoutes_reloaded (d : NodeDefinition) (incoming : List Connection)
    (seen : List String) (ports : List Port) :
    g.reloaded.sinkRoutes d incoming seen ports = g.sinkRoutes d incoming seen ports := by
  have hsources : g.reloaded.sinkSources = g.sinkSources := rfl
  induction ports generalizing seen with
  | nil => rfl
  | cons p rest ih => rw [sinkRoutes, sinkRoutes, ih, hsources]

theorem planSteps_reloaded (order : List Nat) :
    g.reloaded.planSteps order = g.planSteps order := by
  have hstep : g.reloaded.planStep = g.planStep := by
    funext index n d
    rw [planStep, sinkRoutes_reloaded]
    rfl
  rw [planSteps, hstep, planSteps]
  rfl

/-- **The plan does not depend on the generation.** -/
theorem content_compile_reloaded :
    g.reloaded.compile.map Plan.content = g.compile.map Plan.content := by
  have hdependencies : g.reloaded.dependencies = g.dependencies := rfl
  rw [compile, compile, hdependencies]
  split
  · rw [planSteps_reloaded]
    cases g.planSteps g.dependencies.schedule with
    | ok steps => rfl
    | error error => rfl
  · rfl

/-- **Edits do not depend on the generation.** -/
theorem apply_reloaded (edit : GraphEdit) :
    (g.reloaded.apply edit).map reloaded = (g.apply edit).map reloaded := by
  cases edit with
  | addNode n =>
    have hcheck : g.reloaded.checkNode n = g.checkNode n := rfl
    rw [apply, apply, addNode, addNode, hcheck]
    cases g.checkNode n with
    | ok => rfl
    | error error => rfl
  | removeNode id =>
    have hnode : g.reloaded.node? id = g.node? id := rfl
    rw [apply, apply, removeNode, removeNode, hnode]
    cases g.node? id with
    | some n => rfl
    | none => rfl
  | addConnection c =>
    have hcheck : g.reloaded.checkConnection c = g.checkConnection c := rfl
    rw [apply, apply, addConnection, addConnection, hcheck]
    cases g.checkConnection c with
    | ok => rfl
    | error error => rfl
  | removeConnection id =>
    have hconnection : g.reloaded.connection? id = g.connection? id := rfl
    rw [apply, apply, removeConnection, removeConnection, hconnection]
    cases g.connection? id with
    | some c => rfl
    | none => rfl
  | setConfig id key value =>
    have hnode : g.reloaded.node? id = g.node? id := rfl
    rw [apply, apply, setConfig, setConfig, hnode]
    cases g.node? id with
    | some n => rfl
    | none => rfl
  | setInputValue id port value =>
    have hdefinition : g.reloaded.definitionOf? id = g.definitionOf? id := rfl
    rw [apply, apply, setInputValue, setInputValue, hdefinition]
    cases g.definitionOf? id with
    | some d =>
      dsimp only
      split
      · rfl
      · rfl
    | none => rfl

end Graph

end CueFlow
