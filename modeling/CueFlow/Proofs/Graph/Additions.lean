import CueFlow.Proofs.Graph.Reload
import CueFlow.Proofs.Graph.Valid
/-!
# Loading agrees with editing

A load and an edit check the same things in two places. A load looks at nodes and connections on its
own and decides by its policy what becomes of those that fail; an edit is refused and leaves the
graph as it is. Here a snapshot is read as a list of additions (`GraphState.additions`), to be tried
one after the other. `Graph.refusals` lists those that the graph refuses on the way, each with its
error.

Both ways go through the additions in step (`Loading.foldlM_take`): a load has the same nodes and
connections as the graph that is edited (`Graph.SameParts`), so that what one of them refuses, the
other refuses with the same error (`Loading.take_of_ok`, `Loading.take_of_error`). The result is
`load_agrees_with_edits`, for any snapshot whatsoever.
-/

namespace CueFlow

/-- A node or a connection that is to be added to a graph. -/
inductive Addition where
  | node (node : Node)
  | connection (connection : Connection)

/-- The edit that adds it. -/
def Addition.edit : Addition → GraphEdit
  | node n => .addNode n
  | connection c => .addConnection c

/-- What a snapshot is made of: its nodes in order, and then its connections in order. -/
def GraphState.additions (state : GraphState) : List Addition :=
  state.nodes.map .node ++ state.connections.map .connection

/-- An addition that was refused, and the error it was refused with. -/
structure Refusal where
  item : Addition
  error : EngineError

namespace Refusal

/-- The id of a node that was refused. -/
def node? : Refusal → Option NodeId
  | ⟨.node n, _⟩ => some n.id
  | ⟨.connection _, _⟩ => none

/-- The id of a connection that was refused. -/
def connection? : Refusal → Option ConnectionId
  | ⟨.node _, _⟩ => none
  | ⟨.connection c, _⟩ => some c.id

/-- Whether a connection was refused because a node or a port is not there. No node is stale. -/
def isStale : Refusal → Bool
  | ⟨.connection _, .unknownNode _⟩ | ⟨.connection _, .unknownPort ..⟩ => true
  | _ => false

end Refusal

/-- Try additions in order, and list those that are refused. A refused one leaves the graph as it
is, as in `Graph.afterEdits`. -/
def Graph.refusals (g : Graph) : List Addition → List Refusal
  | [] => []
  | item :: rest =>
    match g.apply item.edit with
    | .ok g' => g'.refusals rest
    | .error error => ⟨item, error⟩ :: g.refusals rest

/-- A report that lists some more of what was left out. -/
def LoadReport.leavingOut (report : LoadReport) (refused : List Refusal) : LoadReport where
  skippedNodes := report.skippedNodes ++ refused.filterMap Refusal.node?
  droppedConnections := report.droppedConnections ++ refused.filterMap Refusal.connection?

theorem LoadReport.leavingOut_nil (report : LoadReport) : report.leavingOut [] = report := by
  rw [leavingOut, List.filterMap_nil, List.filterMap_nil, List.append_nil, List.append_nil]

theorem LoadReport.leavingOut_cons (report : LoadReport) (r : Refusal) (rest : List Refusal) :
    report.leavingOut (r :: rest) = (report.leavingOut [r]).leavingOut rest := by
  simp only [leavingOut, List.append_assoc, ← List.filterMap_append, List.singleton_append]

/-! ### Graphs with the same parts -/

/-- The same catalog, nodes and connections. A load counts no changes, so generation and version of
the graph that it makes are its own. -/
structure Graph.SameParts (g t : Graph) : Prop where
  catalog_eq : g.catalog = t.catalog
  nodes_eq : g.nodes = t.nodes
  connections_eq : g.connections = t.connections

namespace Graph.SameParts

variable {g t : Graph}

theorem node? (h : g.SameParts t) (v : NodeId) : g.node? v = t.node? v := by
  rw [Graph.node?, h.nodes_eq, Graph.node?]

/-- Graphs with the same parts admit the same nodes. -/
theorem checkNode (h : g.SameParts t) (n : Node) : g.checkNode n = t.checkNode n :=
  checkNode_congr h.catalog_eq (fun v ↦ congrArg Option.isSome (h.node? v)) n

/-- Graphs with the same parts admit the same connections. -/
theorem checkConnection (h : g.SameParts t) (c : Connection) :
    g.checkConnection c = t.checkConnection c := by
  refine checkConnection_congr h.connections_eq (fun v ↦ ?_) c
  rw [definitionOf?, h.node?, h.catalog_eq, definitionOf?]

end Graph.SameParts

/-! ### Taking over one addition -/

namespace Loading

variable {l : Loading} {t t' : Graph} {item : Addition} {error : EngineError}

/-- Take over one addition. -/
def take (l : Loading) (policy : LoadPolicy) : Addition → Except EngineError Loading
  | .node n => l.takeNode policy n
  | .connection c => l.takeConnection policy c

/-- **What an edit adds, a load takes over**, under either policy. -/
theorem take_of_ok (hsame : l.graph.SameParts t) (happly : t.apply item.edit = .ok t') :
    ∃ g, g.SameParts t' ∧ ∀ policy, l.take policy item = .ok { l with graph := g } := by
  cases item with
  | node n =>
    obtain ⟨_, hcheck, hadded⟩ := bind_eq_ok_iff.1 happly
    obtain rfl := Except.ok.inj hadded
    refine ⟨l.graph.appendNode n, ⟨hsame.catalog_eq, ?_, hsame.connections_eq⟩, fun policy ↦ ?_⟩
    · exact congrArg (· ++ [n]) hsame.nodes_eq
    · exact takeNode_of_checkNode ((hsame.checkNode n).trans hcheck)
  | connection c =>
    obtain ⟨_, hcheck, hadded⟩ := bind_eq_ok_iff.1 happly
    obtain rfl := Except.ok.inj hadded
    refine ⟨l.graph.appendConnection c, ⟨hsame.catalog_eq, hsame.nodes_eq, ?_⟩, fun policy ↦ ?_⟩
    · exact congrArg (· ++ [c]) hsame.connections_eq
    · exact takeConnection_of_checkConnection ((hsame.checkConnection c).trans hcheck)

/-- Leave out an addition that was refused. -/
def leaveOut (l : Loading) (r : Refusal) : Loading :=
  { l with report := l.report.leavingOut [r] }

/-- To leave out a node is to report it as skipped. -/
theorem leaveOut_node (l : Loading) (n : Node) (error : EngineError) :
    l.leaveOut ⟨.node n, error⟩ = l.skipNode n.id := by
  simp [leaveOut, LoadReport.leavingOut, skipNode, Refusal.node?, Refusal.connection?]

/-- To leave out a connection is to report it as dropped. -/
theorem leaveOut_connection (l : Loading) (c : Connection) (error : EngineError) :
    l.leaveOut ⟨.connection c, error⟩ = l.dropConnection c.id := by
  simp [leaveOut, LoadReport.leavingOut, dropConnection, Refusal.node?, Refusal.connection?]

/-- **What an edit refuses, a load leaves out**, unless it is strict and the addition is not stale:
then the load fails with the error of the edit. -/
theorem take_of_error (hsame : l.graph.SameParts t) (happly : t.apply item.edit = .error error) :
    l.take .lenient item = .ok (l.leaveOut ⟨item, error⟩) ∧
      l.take .strict item =
        if (Refusal.mk item error).isStale then .ok (l.leaveOut ⟨item, error⟩)
        else .error error := by
  cases item with
  | node n =>
    have hcheck : t.checkNode n = .error error := eq_error_of_bind_pure happly
    rw [← hsame.checkNode] at hcheck
    simp only [take, takeNode, hcheck, leaveOut_node, Refusal.isStale]
    exact ⟨trivial, rfl⟩
  | connection c =>
    have hcheck : t.checkConnection c = .error error := eq_error_of_bind_pure happly
    rw [← hsame.checkConnection] at hcheck
    simp only [take, takeConnection, hcheck, leaveOut_connection, Refusal.isStale]
    cases error <;> exact ⟨rfl, rfl⟩

/-! ### Taking over all of them -/

/-- A lenient load and the edits go through any additions in step, and so does a strict load up to
the first refusal that is not stale. -/
theorem foldlM_take (hsame : l.graph.SameParts t) (items : List Addition) :
    ∃ loaded : Loading,
      items.foldlM (fun (l : Loading) item ↦ l.take .lenient item) l = .ok loaded ∧
      loaded.graph.SameParts (t.afterEdits (items.map Addition.edit)) ∧
      loaded.report = l.report.leavingOut (t.refusals items) ∧
      items.foldlM (fun (l : Loading) item ↦ l.take .strict item) l =
        match (t.refusals items).find? fun r ↦ !r.isStale with
        | none => .ok loaded
        | some r => .error r.error := by
  induction items generalizing l t with
  | nil => exact ⟨l, rfl, hsame, (l.report.leavingOut_nil).symm, rfl⟩
  | cons item rest ih =>
    cases happly : t.apply item.edit with
    | ok t' =>
      have hrefusals : t.refusals (item :: rest) = t'.refusals rest := by
        rw [Graph.refusals, happly]
      have hafter : t.afterEdits ((item :: rest).map Addition.edit) =
          t'.afterEdits (rest.map Addition.edit) := by
        rw [List.map_cons, Graph.afterEdits, List.foldl_cons, happly]
        rfl
      obtain ⟨g, hg, htake⟩ := take_of_ok hsame happly
      rw [List.foldlM_cons, List.foldlM_cons, htake, htake, hrefusals, hafter]
      exact ih (l := { l with graph := g }) hg
    | error error =>
      have hrefusals : t.refusals (item :: rest) = ⟨item, error⟩ :: t.refusals rest := by
        rw [Graph.refusals, happly]
      have hafter : t.afterEdits ((item :: rest).map Addition.edit) =
          t.afterEdits (rest.map Addition.edit) := by
        rw [List.map_cons, Graph.afterEdits, List.foldl_cons, happly]
        rfl
      obtain ⟨hlenient, hstrict⟩ := take_of_error hsame happly
      obtain ⟨loaded, hloaded, hparts, hreport, hrest⟩ := ih (l := l.leaveOut ⟨item, error⟩) hsame
      refine ⟨loaded, ?_, hafter ▸ hparts, ?_, ?_⟩
      · rw [List.foldlM_cons, hlenient]
        exact hloaded
      · rw [hreport, hrefusals, LoadReport.leavingOut_cons]
        rfl
      · rw [List.foldlM_cons, hstrict, hrefusals, List.find?_cons]
        cases (Refusal.mk item error).isStale with
        | true => exact hrest
        | false => rfl

end Loading

namespace Graph

/-- A load goes through the additions of its snapshot. -/
theorem load_eq_foldlM_take (catalog : Catalog) (state : GraphState) (policy : LoadPolicy) :
    Graph.load catalog state policy =
      (state.additions.foldlM (fun (l : Loading) item ↦ l.take policy item)
        (⟨{ Graph.empty catalog with version := state.version }, {}⟩ : Loading)).map
          fun l ↦ (l.graph, l.report) := by
  show _ = (fun l : Loading ↦ (l.graph, l.report)) <$> _
  simp only [GraphState.additions, List.foldlM_append, List.foldlM_map, ← bind_pure_comp,
    bind_assoc]
  rfl

/-- **Loading agrees with editing.** Whatever a snapshot holds, try its nodes and then its
connections on a graph without nodes, one after the other, and let `refused` be what is refused on
the way. A lenient load never fails. It has the nodes and connections of the graph that was edited,
in the same order, and reports just the ids of what was refused. A strict load goes through if and
only if all that was refused were connections that are stale, and then it comes to the same graph
and the same report. Otherwise it fails with the error of the first refusal that is not stale. -/
theorem load_agrees_with_edits (catalog : Catalog) (state : GraphState) :
    let tried := (Graph.empty catalog).afterEdits (state.additions.map Addition.edit)
    let refused := (Graph.empty catalog).refusals state.additions
    ∃ g report, Graph.load catalog state .lenient = .ok (g, report) ∧
      g.nodes = tried.nodes ∧ g.connections = tried.connections ∧
      report.skippedNodes = refused.filterMap Refusal.node? ∧
      report.droppedConnections = refused.filterMap Refusal.connection? ∧
      ((∃ loaded, Graph.load catalog state .strict = .ok loaded) ↔ ∀ r ∈ refused, r.isStale) ∧
      ((∀ r ∈ refused, r.isStale) → Graph.load catalog state .strict = .ok (g, report)) ∧
      ∀ r, refused.find? (fun r ↦ !r.isStale) = some r →
        Graph.load catalog state .strict = .error r.error := by
  intro tried refused
  have hstart : ({ Graph.empty catalog with version := state.version } : Graph).SameParts
      (Graph.empty catalog) := ⟨rfl, rfl, rfl⟩
  obtain ⟨loaded, hlenient, hparts, hreport, hstrict⟩ :=
    Loading.foldlM_take (l := ⟨_, {}⟩) hstart state.additions
  have hload : Graph.load catalog state .strict =
      match refused.find? fun r ↦ !r.isStale with
      | none => .ok (loaded.graph, loaded.report)
      | some r => .error r.error := by
    rw [load_eq_foldlM_take, hstrict]
    cases refused.find? fun r ↦ !r.isStale with
    | none => rfl
    | some r => rfl
  have hstale : refused.find? (fun r ↦ !r.isStale) = none ↔ ∀ r ∈ refused, r.isStale := by
    simp [List.find?_eq_none]
  refine ⟨loaded.graph, loaded.report, ?_, hparts.nodes_eq, hparts.connections_eq, ?_, ?_, ?_, ?_,
    ?_⟩
  · rw [load_eq_foldlM_take, hlenient]
    rfl
  · rw [hreport]
    exact List.nil_append _
  · rw [hreport]
    exact List.nil_append _
  · rw [← hstale, hload]
    cases refused.find? fun r ↦ !r.isStale with
    | none => exact iff_of_true ⟨_, rfl⟩ rfl
    | some r => exact iff_of_false nofun nofun
  · intro hall
    rw [hload, hstale.2 hall]
  · intro r hr
    rw [hload, hr]

/-- Of what is refused of the untidy snapshot, only the connection to the bell is stale, since there
is no bell. -/
example : ((Graph.empty sampleCatalog).refusals untidySnapshot.additions).map Refusal.isStale =
    [false, false, false, true, false] :=
  rfl

end Graph

end CueFlow
