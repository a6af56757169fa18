import CueFlow.Proofs.Graph.Reload
import CueFlow.Proofs.Graph.Valid
/-!
# Stale connections in a strict load

A connection is stale if a node or a port that it names is not there (`Graph.isStale`). A strict
load drops such a connection, but not before it has looked at its id: a stale connection whose id
has been taken fails the load all the same (`Loading.takeConnection_of_taken`). So it makes a
difference to a strict load whether stale connections are there at all, namely if one of them comes
after a connection with the same id that is not stale (`stale_repeat_is_refused`). That is the only
difference that they make (`strict_load_iff_current`).

A load of all connections and a load of those that are not stale go along the list in step
(`Loading.foldlM_takeConnection_strict`): their graphs are the same all the way, and only the first
of them reports anything.
-/

namespace CueFlow

/-! ### Staleness -/

namespace Graph

/-- Whether a node or a port that a connection names is not there. -/
def isStale (g : Graph) (c : Connection) : Bool :=
  ((g.definitionOf? c.source).bind fun d ↦ d.output? c.sourcePort).isNone ||
    (g.targetPort? c).isNone

variable {g : Graph} {c : Connection}

theorem checkConnection_of_taken (htaken : (g.connection? c.id).isSome) :
    g.checkConnection c = .error (.duplicateConnection c.id) := by
  rw [checkConnection, if_pos htaken]

/-- A stale connection with a new id fails its check for what is missing. -/
theorem checkConnection_of_isStale (hstale : g.isStale c) (hnew : g.connection? c.id = none) :
    (∃ v, g.checkConnection c = .error (.unknownNode v)) ∨
      ∃ v p direction, g.checkConnection c = .error (.unknownPort v p direction) := by
  rw [checkConnection, hnew, if_neg (by simp)]
  cases hsource : g.definitionOf? c.source with
  | none => exact .inl ⟨_, rfl⟩
  | some source =>
    cases htarget : g.definitionOf? c.target with
    | none => exact .inl ⟨_, rfl⟩
    | some target =>
      cases houtput : source.output? c.sourcePort with
      | none => exact .inr ⟨c.source, c.sourcePort, .output, by simp [houtput]⟩
      | some output =>
        cases hinput : target.input? c.targetPort with
        | none => exact .inr ⟨c.target, c.targetPort, .input, by simp [houtput, hinput]⟩
        | some input =>
          simp [isStale, targetPort?, hsource, htarget, houtput, hinput] at hstale

/-- A connection that is not stale does not fail its check for want of a node or a port. -/
theorem checkConnection_of_not_isStale (hcurrent : g.isStale c = false) :
    (∀ v, g.checkConnection c ≠ .error (.unknownNode v)) ∧
      ∀ v p direction, g.checkConnection c ≠ .error (.unknownPort v p direction) := by
  rw [isStale, Bool.or_eq_false_iff, Option.isNone_eq_false_iff, Option.isNone_eq_false_iff,
    Option.isSome_iff_exists, Option.isSome_iff_exists] at hcurrent
  obtain ⟨⟨output, houtput⟩, input, hinput⟩ := hcurrent
  obtain ⟨source, hsource, houtput⟩ := Option.bind_eq_some_iff.1 houtput
  obtain ⟨target, htarget, hinput⟩ := Option.bind_eq_some_iff.1 hinput
  rw [checkConnection, hsource, htarget]
  dsimp only
  rw [houtput, hinput]
  dsimp only
  split
  · simp
  split
  · simp
  rw [checkVacant]
  split
  · simp
  split <;> simp

end Graph

/-! ### Taking over one connection -/

namespace Loading

variable {l l' : Loading} {c : Connection}

theorem takeConnection_of_taken (htaken : (l.graph.connection? c.id).isSome) :
    l.takeConnection .strict c = .error (.duplicateConnection c.id) := by
  simp only [takeConnection, Graph.checkConnection_of_taken htaken]

theorem takeConnection_of_isStale (hstale : l.graph.isStale c)
    (hnew : l.graph.connection? c.id = none) :
    l.takeConnection .strict c = .ok (l.dropConnection c.id) := by
  obtain ⟨v, hcheck⟩ | ⟨v, p, direction, hcheck⟩ :=
    Graph.checkConnection_of_isStale hstale hnew
  · simp only [takeConnection, hcheck]
  · simp only [takeConnection, hcheck]

/-- A strict load takes over a connection that is not stale, or fails; it does not drop it. -/
theorem takeConnection_of_not_isStale (hcurrent : l.graph.isStale c = false) :
    l.takeConnection .strict c =
      (l.graph.checkConnection c).map fun _ ↦ { l with graph := l.graph.appendConnection c } := by
  obtain ⟨hnode, hport⟩ := Graph.checkConnection_of_not_isStale hcurrent
  cases hcheck : l.graph.checkConnection c with
  | ok _ => exact takeConnection_of_checkConnection hcheck
  | error error =>
    cases error with
    | unknownNode v => exact absurd hcheck (hnode v)
    | unknownPort v p direction => exact absurd hcheck (hport v p direction)
    | _ =>
      simp only [takeConnection, hcheck]
      rfl

/-! ### Taking over all of them -/

/-- No stale connection has an id that has been taken when it comes to it: none of the graph, and
none of a connection that stands before it and is not stale. -/
structure StaleApart (g : Graph) (connections : List Connection) : Prop where
  new : ∀ c ∈ connections, g.isStale c → g.connection? c.id = none
  apart : connections.Pairwise fun c c' ↦ g.isStale c' → c.id = c'.id → g.isStale c

theorem isSome_connection?_appendConnection {g : Graph} {id : ConnectionId} :
    ((g.appendConnection c).connection? id).isSome ↔ (g.connection? id).isSome ∨ c.id = id := by
  simp [Graph.connection?, Graph.appendConnection, List.find?_append, Option.isSome_or]

variable {g : Graph} {connections : List Connection}

theorem staleApart_cons_of_isStale (hstale : g.isStale c) :
    StaleApart g (c :: connections) ↔ g.connection? c.id = none ∧ StaleApart g connections := by
  constructor
  · rintro ⟨hnew, hapart⟩
    exact ⟨hnew c List.mem_cons_self hstale,
      fun c' hc' ↦ hnew c' (List.mem_cons_of_mem c hc'), hapart.tail⟩
  · rintro ⟨hc, hnew, hapart⟩
    exact ⟨List.forall_mem_cons.2 ⟨fun _ ↦ hc, hnew⟩,
      List.pairwise_cons.2 ⟨fun _ _ _ _ ↦ hstale, hapart⟩⟩

theorem staleApart_cons_of_not_isStale (hcurrent : g.isStale c = false) :
    StaleApart g (c :: connections) ↔ StaleApart (g.appendConnection c) connections := by
  have hfree : ∀ c' : Connection, (g.appendConnection c).connection? c'.id = none ↔
      g.connection? c'.id = none ∧ c.id ≠ c'.id := by
    intro c'
    rw [← not_iff_not, ← Ne, ← Option.isSome_iff_ne_none, isSome_connection?_appendConnection,
      Option.isSome_iff_ne_none]
    tauto
  constructor
  · rintro ⟨hnew, hapart⟩
    obtain ⟨hfirst, hrest⟩ := List.pairwise_cons.1 hapart
    refine ⟨fun c' hc' hstale ↦ (hfree c').2
      ⟨hnew c' (List.mem_cons_of_mem c hc') hstale, fun hid ↦ ?_⟩, hrest⟩
    rw [hfirst c' hc' hstale hid] at hcurrent
    cases hcurrent
  · rintro ⟨hnew, hapart⟩
    refine ⟨List.forall_mem_cons.2 ⟨fun hstale ↦ ?_, fun c' hc' hstale ↦ ?_⟩,
      List.pairwise_cons.2 ⟨fun c' hc' hstale hid ↦ ?_, hapart⟩⟩
    · rw [hcurrent] at hstale
      cases hstale
    · exact ((hfree c').1 (hnew c' hc' hstale)).1
    · exact absurd hid ((hfree c').1 (hnew c' hc' hstale)).2

/-- **Side by side with the connections that are not stale**, under whatever report, a strict load
takes over all of them: the graph is the same, and the ids of the others are reported. -/
theorem foldlM_takeConnection_strict (hapart : StaleApart l.graph connections)
    (report : LoadReport) :
    connections.foldlM (fun l c ↦ l.takeConnection .strict c) l =
      ((connections.filter fun c ↦ !l.graph.isStale c).foldlM
        (fun (l : Loading) c ↦ l.takeConnection .strict c) ⟨l.graph, report⟩).map fun l' ↦
          ⟨l'.graph, { l.report with
            droppedConnections := l.report.droppedConnections ++
              (connections.filter l.graph.isStale).map Connection.id }⟩ := by
  induction connections generalizing l report with
  | nil =>
    show Except.ok l = .ok ⟨l.graph, _⟩
    rw [List.filter_nil, List.map_nil, List.append_nil]
  | cons c rest ih =>
    cases hstale : l.graph.isStale c with
    | true =>
      obtain ⟨hnew, hrest⟩ := (staleApart_cons_of_isStale hstale).1 hapart
      have hcurrent : (c :: rest).filter (fun c ↦ !l.graph.isStale c) =
          rest.filter fun c ↦ !l.graph.isStale c := by simp [hstale]
      have hdropped : (c :: rest).filter l.graph.isStale = c :: rest.filter l.graph.isStale := by
        simp [hstale]
      rw [List.foldlM_cons, takeConnection_of_isStale hstale hnew, hcurrent, hdropped,
        List.map_cons]
      refine (ih (l := l.dropConnection c.id) hrest report).trans ?_
      simp only [dropConnection, List.append_assoc, List.singleton_append]
    | false =>
      have hrest := (staleApart_cons_of_not_isStale hstale).1 hapart
      have hcurrent : (c :: rest).filter (fun c ↦ !l.graph.isStale c) =
          c :: rest.filter fun c ↦ !l.graph.isStale c := by simp [hstale]
      have hdropped : (c :: rest).filter l.graph.isStale = rest.filter l.graph.isStale := by
        simp [hstale]
      rw [List.foldlM_cons, takeConnection_of_not_isStale hstale, hcurrent, hdropped,
        List.foldlM_cons, takeConnection_of_not_isStale (l := ⟨l.graph, report⟩) hstale]
      cases l.graph.checkConnection c with
      | ok _ => exact ih (l := { l with graph := l.graph.appendConnection c }) hrest report
      | error error => rfl

/-- A strict load that goes through has not come to a stale connection with an id that was taken. -/
theorem staleApart_of_foldlM
    (h : connections.foldlM (fun l c ↦ l.takeConnection .strict c) l = .ok l') :
    StaleApart l.graph connections := by
  induction connections generalizing l with
  | nil => exact ⟨nofun, .nil⟩
  | cons c rest ih =>
    obtain ⟨next, htake, hrest⟩ := bind_eq_ok_iff.1 h
    beta_reduce at htake
    cases hstale : l.graph.isStale c with
    | true =>
      have hnew : l.graph.connection? c.id = none := by
        rw [← Option.not_isSome_iff_eq_none]
        intro htaken
        rw [takeConnection_of_taken htaken] at htake
        cases htake
      rw [takeConnection_of_isStale hstale hnew] at htake
      obtain rfl := Except.ok.inj htake
      exact (staleApart_cons_of_isStale hstale).2 ⟨hnew, ih (l := l.dropConnection c.id) hrest⟩
    | false =>
      rw [takeConnection_of_not_isStale hstale] at htake
      obtain ⟨_, -, rfl⟩ := map_eq_ok_iff.1 htake
      exact (staleApart_cons_of_not_isStale hstale).2 (ih hrest)

/-- A strict load takes over all nodes, or fails. -/
theorem graph_of_foldlM_takeNode {nodes : List Node}
    (h : nodes.foldlM (fun l n ↦ l.takeNode .strict n) l = .ok l') :
    l' = { l with graph := { l.graph with nodes := l.graph.nodes ++ nodes } } := by
  induction nodes generalizing l with
  | nil =>
    rw [List.append_nil]
    exact (Except.ok.inj h).symm
  | cons n rest ih =>
    obtain ⟨next, htake, hrest⟩ := bind_eq_ok_iff.1 h
    simp only [takeNode] at htake
    cases hcheck : l.graph.checkNode n with
    | ok _ =>
      rw [hcheck] at htake
      obtain rfl := Except.ok.inj htake
      rw [ih hrest]
      simp [Graph.appendNode]
    | error error =>
      rw [hcheck] at htake
      cases htake

end Loading

/-! ### The whole load -/

namespace GraphState

variable (catalog : Catalog) (state : GraphState)

/-- The graph of a strict load when all nodes have been taken over, and no connection yet. -/
def stage : Graph := { Graph.empty catalog with version := state.version, nodes := state.nodes }

/-- The snapshot without its stale connections. -/
def current : GraphState :=
  { state with
    connections := state.connections.filter fun c ↦ !(state.stage catalog).isStale c }

/-- The ids of the stale connections. -/
def staleIds : List ConnectionId :=
  (state.connections.filter (state.stage catalog).isStale).map Connection.id

/-- No stale connection comes after one with the same id that is not stale. -/
def StaleFirst : Prop :=
  state.connections.Pairwise fun c c' ↦
    (state.stage catalog).isStale c' → c.id = c'.id → (state.stage catalog).isStale c

variable {catalog state}

theorem staleApart_stage :
    Loading.StaleApart (state.stage catalog) state.connections ↔ state.StaleFirst catalog :=
  ⟨Loading.StaleApart.apart, fun hfirst ↦ ⟨fun _ _ _ ↦ rfl, hfirst⟩⟩

variable (catalog state) in
/-- The nodes of a snapshot, taken over by a strict load. -/
def takeNodes : Except EngineError Loading :=
  state.nodes.foldlM (fun (l : Loading) n ↦ l.takeNode .strict n)
    ⟨{ Graph.empty catalog with version := state.version }, {}⟩

/-- Once a strict load has taken over the nodes it goes on from their stage. -/
theorem load_strict_eq : Graph.load catalog state .strict =
    (state.takeNodes catalog).bind fun _ ↦
      (state.connections.foldlM (fun (l : Loading) c ↦ l.takeConnection .strict c)
        ⟨state.stage catalog, {}⟩).map fun l ↦ (l.graph, l.report) := by
  rw [takeNodes, Graph.load]
  cases hnodes : state.nodes.foldlM (fun (l : Loading) n ↦ l.takeNode .strict n)
      ⟨{ Graph.empty catalog with version := state.version }, {}⟩ with
  | error error => rfl
  | ok withNodes =>
    obtain rfl := Loading.graph_of_foldlM_takeNode hnodes
    rfl

/-- As long as no stale connection repeats an id that has been taken, a strict load is one of the
current connections, and reports the others. -/
theorem load_strict_of_staleFirst (hfirst : state.StaleFirst catalog) :
    Graph.load catalog state .strict =
      (Graph.load catalog (state.current catalog) .strict).map fun loaded ↦
        (loaded.1, ⟨[], state.staleIds catalog⟩) := by
  have hcurrent : Graph.load catalog (state.current catalog) .strict =
      (state.takeNodes catalog).bind fun _ ↦
        ((state.connections.filter fun c ↦ !(state.stage catalog).isStale c).foldlM
          (fun (l : Loading) c ↦ l.takeConnection .strict c)
          ⟨state.stage catalog, {}⟩).map fun l ↦ (l.graph, l.report) := load_strict_eq
  rw [load_strict_eq, hcurrent, Loading.foldlM_takeConnection_strict
    (l := ⟨state.stage catalog, {}⟩) (staleApart_stage.2 hfirst) {}]
  generalize state.takeNodes catalog = nodes
  generalize List.foldlM (m := Except EngineError) _ _
    (state.connections.filter fun c ↦ !(state.stage catalog).isStale c) = connections
  cases nodes with
  | error error => rfl
  | ok withNodes =>
    cases connections with
    | error error => rfl
    | ok l => rfl

theorem staleFirst_of_load {loaded : Graph × LoadReport}
    (h : Graph.load catalog state .strict = .ok loaded) : state.StaleFirst catalog := by
  rw [load_strict_eq] at h
  obtain ⟨_, -, h⟩ := bind_eq_ok_iff.1 h
  obtain ⟨l, hconnections, -⟩ := map_eq_ok_iff.1 h
  exact staleApart_stage.1 (Loading.staleApart_of_foldlM hconnections)

/-- Nothing is stale in what is current. -/
theorem isStale_of_mem_current {c : Connection} (hc : c ∈ (state.current catalog).connections) :
    ((state.current catalog).stage catalog).isStale c = false := by
  show (state.stage catalog).isStale c = false
  simpa using (List.mem_filter.1 hc).2

theorem staleFirst_current : (state.current catalog).StaleFirst catalog :=
  List.Pairwise.imp_of_mem (fun _ hc' _ hstale _ ↦
    absurd hstale (Bool.eq_false_iff.1 (isStale_of_mem_current hc')))
    (List.pairwise_of_forall fun _ _ ↦ trivial)

theorem staleIds_current : (state.current catalog).staleIds catalog = [] := by
  rw [staleIds, List.filter_eq_nil_iff.2, List.map_nil]
  intro c hc
  exact Bool.eq_false_iff.1 (isStale_of_mem_current hc)

/-- A strict load of the current connections leaves nothing out. -/
theorem report_of_load_current {g : Graph} {report : LoadReport}
    (h : Graph.load catalog (state.current catalog) .strict = .ok (g, report)) : report = {} := by
  rw [load_strict_of_staleFirst staleFirst_current, staleIds_current] at h
  obtain ⟨loaded, -, hloaded⟩ := map_eq_ok_iff.1 h
  exact (congrArg Prod.snd hloaded).symm

end GraphState

/-- **Stale connections in a strict load.** A snapshot loads if and only if it does without its
stale connections, and none of these repeats the id of a connection in front of it that is not
stale. Then the graph is the same, and the stale connections are all that was left out. -/
theorem strict_load_iff_current (catalog : Catalog) (state : GraphState) :
    ((∃ loaded, Graph.load catalog state .strict = .ok loaded) ↔
      (∃ loaded, Graph.load catalog (state.current catalog) .strict = .ok loaded) ∧
        state.StaleFirst catalog) ∧
    ∀ g report, Graph.load catalog state .strict = .ok (g, report) →
      Graph.load catalog (state.current catalog) .strict = .ok (g, {}) ∧
        report = ⟨[], state.staleIds catalog⟩ := by
  refine ⟨⟨fun ⟨loaded, hload⟩ ↦ ?_, fun ⟨⟨loaded, hcurrent⟩, hfirst⟩ ↦ ?_⟩,
    fun g report hload ↦ ?_⟩
  · have hfirst := GraphState.staleFirst_of_load hload
    rw [GraphState.load_strict_of_staleFirst hfirst] at hload
    obtain ⟨current, hcurrent, -⟩ := map_eq_ok_iff.1 hload
    exact ⟨⟨current, hcurrent⟩, hfirst⟩
  · rw [GraphState.load_strict_of_staleFirst hfirst, hcurrent]
    exact ⟨_, rfl⟩
  · rw [GraphState.load_strict_of_staleFirst (GraphState.staleFirst_of_load hload)] at hload
    obtain ⟨⟨g', report'⟩, hcurrent, hloaded⟩ := map_eq_ok_iff.1 hload
    obtain rfl := congrArg Prod.fst hloaded
    rw [GraphState.report_of_load_current hcurrent] at hcurrent
    exact ⟨hcurrent, (congrArg Prod.snd hloaded).symm⟩

/-- **It makes a difference.** A connection to a node that is not there keeps the sample graph from
loading, if it comes last and repeats the id of the first one. -/
theorem stale_repeat_is_refused :
    let state : GraphState := { sampleGraph.snapshot with
      connections := sampleGraph.connections ++ [⟨"ab", "a", "gone", "b", "in"⟩] }
    state.current sampleCatalog = sampleGraph.snapshot ∧
      Graph.load sampleCatalog sampleGraph.snapshot .strict = .ok (sampleGraph, {}) ∧
      Graph.load sampleCatalog state .strict = .error (.duplicateConnection "ab") :=
  ⟨rfl, rfl, rfl⟩

end CueFlow
