import CueFlow.Proofs.Engine.CallResult
/-!
# Operations in place

The operations of an engine give back a new engine or are refused, and so a refused one has nothing
to show for it. A host that owns one engine has it changed step by step instead, and a refusal does
not take back the steps before it. Here the operations are spelled out in that form, with every
check and every assignment where it happens: an edit may take something out of the graph and only
then find that there was nothing to take, `tryEdit` works on a copy, and `start` compiles on the
way.

Both forms come to the same (`InPlace.settle`): the same result, and the new state left behind, or
the old one if there is none. This is shown for every edit of a graph
(`Graph.InPlace.outcome_apply`) and for every operation of an engine, hence for the calls of a host
(`Engine.InPlace.outcome_perform`). So a call that is refused leaves no trace, whichever check
refused it and whatever was done before (`Engine.InPlace.unchanged_of_refused`).
-/

namespace CueFlow

/-- An operation that changes a state in place and may be refused half-way. What was changed by
then stays changed. -/
abbrev InPlace (σ α : Type) := ExceptT EngineError (StateM σ) α

namespace InPlace

variable {σ α β : Type}

/-- The result of an operation, and the state that it leaves behind either way. -/
def outcome (op : InPlace σ α) (s : σ) : Except EngineError α × σ := op.run s

/-- Go on only if a check passes. -/
def check (result : Except EngineError α) : InPlace σ α := ExceptT.mk (pure result)

/-- What an operation comes to in place that gives back a new state or is refused: a refused one
leaves the old state behind. -/
def settle (s : σ) (state : β → σ) (value : β → α) : Except EngineError β → Except EngineError α × σ
  | .ok b => (.ok (value b), state b)
  | .error error => (.error error, s)

variable (s : σ)

/-- What is done after an operation starts from what the operation has left behind. If the operation
is refused, nothing more is done, and what it has left behind stays. -/
@[simp]
theorem outcome_bind (op : InPlace σ α) (rest : α → InPlace σ β) :
    (op >>= rest).outcome s =
      match op.outcome s with
      | (.ok a, s') => (rest a).outcome s'
      | (.error error, s') => (.error error, s') := by
  have hbind : (op >>= rest).outcome s =
      ExceptT.bindCont rest (op.outcome s).1 (op.outcome s).2 := rfl
  rw [hbind]
  rcases op.outcome s with ⟨error | a, s'⟩ <;> rfl

@[simp]
theorem outcome_map (f : α → β) (op : InPlace σ α) :
    (f <$> op).outcome s = ((op.outcome s).1.map f, (op.outcome s).2) := by
  rw [map_eq_pure_bind, outcome_bind]
  rcases op.outcome s with ⟨error | a, s'⟩ <;> rfl

/-- To pass over a result changes nothing about what is done. -/
@[simp]
theorem outcome_discard (op : InPlace σ α) :
    (discard op).outcome s = ((op.outcome s).1.map fun _ ↦ (), (op.outcome s).2) :=
  outcome_map s (fun _ ↦ ()) op

@[simp]
theorem outcome_pure (a : α) : (pure a : InPlace σ α).outcome s = (.ok a, s) := rfl

@[simp]
theorem outcome_throw (error : EngineError) :
    (throw error : InPlace σ α).outcome s = (.error error, s) := rfl

@[simp]
theorem outcome_get : (get : InPlace σ σ).outcome s = (.ok s, s) := rfl

@[simp]
theorem outcome_modify (f : σ → σ) : (modify f : InPlace σ PUnit).outcome s = (.ok (), f s) := rfl

@[simp]
theorem outcome_modifyGet (f : σ → α × σ) :
    (modifyGet f : InPlace σ α).outcome s = (.ok (f s).1, (f s).2) := rfl

@[simp]
theorem outcome_check (result : Except EngineError α) :
    (check result).outcome s = (result, s) :=
  rfl

end InPlace

/-- A result as that of an operation in place. -/
def CallResult.toExcept : CallResult → Except EngineError CallResult
  | .refused error => .error error
  | result => .ok result

/-- A call that ends with an error has been refused with it. -/
theorem CallResult.eq_refused_of_toExcept {result : CallResult} {error : EngineError}
    (h : result.toExcept = .error error) : result = .refused error := by
  cases result with
  | refused error' => exact congrArg refused (Except.error.inj h)
  | done | loaded | compiled | cleared | ticked => cases h

/-- An operation that is refused is so with the error of the call. -/
theorem CallResult.eq_error_of_ofExcept {α : Type} {shown : α → CallResult}
    (hshown : ∀ a, (shown a).verdict = .succeeded) {x : Except EngineError α} {error : EngineError}
    (h : ofExcept shown x = .refused error) : x = .error error := by
  cases x with
  | ok a =>
    have hverdict := hshown a
    rw [show shown a = .refused error from h] at hverdict
    cases hverdict
  | error error' => exact congrArg _ (CallResult.refused.inj h)

/-- A call that is refused changes nothing and tells of nothing. -/
theorem Engine.call_of_refused {e : Engine} {c : HostCall} {error : EngineError}
    (h : e.result c = .refused error) : e.call c = (e, []) := by
  cases c with
  | load | compile | applyEdit | tryEdit | setOverride | start =>
    rw [call, CallResult.eq_error_of_ofExcept (fun _ ↦ rfl) h]
    rfl
  | clearOverride | setPolicy | stop | tick => cases h

/-! ### Graphs -/

namespace Graph.InPlace

open CueFlow.InPlace

def addNode (n : Node) : InPlace Graph Unit := do
  check ((← get).checkNode n)
  modify fun g ↦ g.appendNode n
  modify touchTopology

/-- Take the node out, and its connections if there was such a node. -/
def removeNode (id : NodeId) : InPlace Graph Node := do
  let found := (← get).node? id
  modify fun g ↦ { g with nodes := g.nodes.filter fun other ↦ other.id != id }
  let some n := found | throw (.unknownNode id)
  modify fun g ↦ { g with connections := g.connections.filter fun c ↦ !c.touches n.id }
  modify touchTopology
  return n

def addConnection (c : Connection) : InPlace Graph Unit := do
  check ((← get).checkConnection c)
  modify fun g ↦ g.appendConnection c
  modify touchTopology

/-- Take the connection out, if there is one. -/
def removeConnection (id : ConnectionId) : InPlace Graph Connection := do
  let found := (← get).connection? id
  modify fun g ↦ { g with connections := g.connections.filter fun other ↦ other.id != id }
  let some c := found | throw (.noSuchConnection id)
  modify touchTopology
  return c

def setConfig (id : NodeId) (key : String) (value : Value) : InPlace Graph Unit := do
  let some _ := (← get).node? id | throw (.unknownNode id)
  modify fun g ↦ g.modifyNode id fun n ↦ { n with config := n.config.insert key value }
  modify touchContent

def setInputValue (id : NodeId) (port : String) (value : Value) : InPlace Graph Unit := do
  let some d := (← get).definitionOf? id | throw (.unknownNode id)
  if (d.input? port).isNone then throw (.unknownPort id port .input)
  modify fun g ↦ g.modifyNode id fun n ↦ { n with inputValues := n.inputValues.insert port value }
  modify touchContent

def apply (edit : GraphEdit) : InPlace Graph Unit :=
  match edit with
  | .addNode n => addNode n
  | .removeNode id => discard (removeNode id)
  | .addConnection c => addConnection c
  | .removeConnection id => discard (removeConnection id)
  | .setConfig id key value => setConfig id key value
  | .setInputValue id port value => setInputValue id port value

variable (g : Graph)

/-- A node is checked first and entered afterwards, so a refusal finds the graph as it was. -/
theorem outcome_addNode (n : Node) :
    (addNode n).outcome g = settle g (fun g' ↦ g') (fun _ ↦ ()) (g.addNode n) := by
  simp only [addNode, Graph.addNode, outcome_bind, outcome_get, outcome_check, outcome_modify]
  cases g.checkNode n <;> rfl

/-- Taking out a node that is not there changes nothing. -/
theorem outcome_removeNode (id : NodeId) :
    (removeNode id).outcome g = settle g Prod.snd Prod.fst (g.removeNode id) := by
  simp only [removeNode, Graph.removeNode, outcome_bind, outcome_get, outcome_modify]
  cases hfound : g.node? id with
  | none =>
    have hall : (g.nodes.filter fun other ↦ other.id != id) = g.nodes :=
      List.filter_eq_self.2 fun n hn ↦ by simpa using List.find?_eq_none.1 hfound n hn
    simp only [outcome_throw, settle, hall]
  | some n =>
    have hid : n.id = id := by simpa using List.find?_some hfound
    simp only [outcome_bind, outcome_modify, outcome_pure, settle, hid]

/-- So it is with a connection. -/
theorem outcome_addConnection (c : Connection) :
    (addConnection c).outcome g = settle g (fun g' ↦ g') (fun _ ↦ ()) (g.addConnection c) := by
  simp only [addConnection, Graph.addConnection, outcome_bind, outcome_get, outcome_check,
    outcome_modify]
  cases g.checkConnection c <;> rfl

/-- Nor does taking out a connection that is not there. -/
theorem outcome_removeConnection (id : ConnectionId) :
    (removeConnection id).outcome g = settle g Prod.snd Prod.fst (g.removeConnection id) := by
  simp only [removeConnection, Graph.removeConnection, outcome_bind, outcome_get, outcome_modify]
  cases hfound : g.connection? id with
  | none =>
    have hall : (g.connections.filter fun other ↦ other.id != id) = g.connections :=
      List.filter_eq_self.2 fun c hc ↦ by simpa using List.find?_eq_none.1 hfound c hc
    simp only [outcome_throw, settle, hall]
  | some c => simp only [outcome_bind, outcome_modify, outcome_pure, settle]

/-- A setting is made at a node that has been found, or not at all. -/
theorem outcome_setConfig (id : NodeId) (key : String) (value : Value) :
    (setConfig id key value).outcome g =
      settle g (fun g' ↦ g') (fun _ ↦ ()) (g.setConfig id key value) := by
  simp only [setConfig, Graph.setConfig, outcome_bind, outcome_get]
  cases g.node? id <;> rfl

/-- So it is with a stored input. -/
theorem outcome_setInputValue (id : NodeId) (port : String) (value : Value) :
    (setInputValue id port value).outcome g =
      settle g (fun g' ↦ g') (fun _ ↦ ()) (g.setInputValue id port value) := by
  simp only [setInputValue, Graph.setInputValue, outcome_bind, outcome_get]
  cases g.definitionOf? id with
  | none => rfl
  | some d => cases hport : (d.input? port).isNone <;> simp [hport, settle]

/-- **An edit in place** is carried out as a whole or not at all. -/
theorem outcome_apply (edit : GraphEdit) :
    (apply edit).outcome g = settle g (fun g' ↦ g') (fun _ ↦ ()) (g.apply edit) := by
  cases edit with
  | addNode n => exact outcome_addNode g n
  | removeNode id =>
    rw [apply, Graph.apply, outcome_discard, outcome_removeNode]
    cases g.removeNode id <;> rfl
  | addConnection c => exact outcome_addConnection g c
  | removeConnection id =>
    rw [apply, Graph.apply, outcome_discard, outcome_removeConnection]
    cases g.removeConnection id <;> rfl
  | setConfig id key value => exact outcome_setConfig g id key value
  | setInputValue id port value => exact outcome_setInputValue g id port value

end Graph.InPlace

/-! ### Engines -/

namespace Engine.InPlace

open CueFlow.InPlace

/-- Change the graph of an engine. -/
def onGraph {α : Type} (op : InPlace Graph α) : InPlace Engine α := do
  let (result, graph) := op.outcome (← get).graph
  modify fun e ↦ { e with graph }
  check result

def load (state : GraphState) : InPlace Engine LoadReport := do
  let e ← get
  let (graph, report) ← check (Graph.load e.graph.catalog state e.config.loadPolicy)
  modify fun e ↦ { e with graph }
  modify fun e ↦ { e with plan := none }
  modify fun e ↦ { e with overrides := {} }
  modify fun e ↦ { e with watchdog := e.watchdog.reset }
  modify fun e ↦ { e with memory := [] }
  return report

def compileNow : InPlace Engine Plan := do
  let plan ← check (← get).graph.compile
  modify fun e ↦ e.keepPlan plan
  return plan

def forgetNode (node : NodeId) : InPlace Engine Unit := do
  modify fun e ↦ { e with memory := e.memory.erase node }
  modify fun e ↦ { e with overrides := e.overrides.clearNode node }
  modify fun e ↦ { e with watchdog := e.watchdog.forget node }

def forgetRemoved (edit : GraphEdit) : InPlace Engine Unit := do
  if let some node := edit.removedNode? then forgetNode node

def applyEdit (edit : GraphEdit) : InPlace Engine Unit := do
  onGraph (Graph.InPlace.apply edit)
  forgetRemoved edit

/-- Try an edit on a copy of the graph, which takes the place of the graph only if it compiles. -/
def tryEdit (edit : GraphEdit) : InPlace Engine Unit := do
  let (applied, candidate) := (Graph.InPlace.apply edit).outcome (← get).graph
  check applied
  let plan? ← if edit.isTopology then some <$> check candidate.compile else pure none
  modify fun e ↦ { e with graph := candidate }
  if plan?.isSome then modify fun e ↦ { e with plan := plan? }
  forgetRemoved edit

def setOverride (node : NodeId) (kind : OverrideKind) (key : String) (value : Value)
    (lifetime : Option Float) (now : Float) : InPlace Engine Unit := do
  let some n := (← get).graph.node? node | throw (.unknownNode node)
  modify fun e ↦ { e with overrides := e.overrides.set n.id kind key value lifetime now }

def start : InPlace Engine Unit := do
  discard compileNow
  modify fun e ↦ { e with running := true }
  modify fun e ↦ { e with halted := none }
  modify fun e ↦ { e with tick := 0 }
  modify fun e ↦ { e with lastTickMs := none }
  modify fun e ↦ { e with watchdog := e.watchdog.reset }

/-- Carry out a call of a host. What is never refused is one step. -/
def perform (c : HostCall) : InPlace Engine CallResult :=
  match c with
  | .load state => .loaded <$> load state
  | .compile => (fun plan ↦ .compiled plan.steps plan.stats) <$> compileNow
  | .applyEdit edit => (fun _ ↦ .done) <$> applyEdit edit
  | .tryEdit edit => (fun _ ↦ .done) <$> tryEdit edit
  | .setOverride node kind key value lifetime now =>
    (fun _ ↦ .done) <$> setOverride node kind key value lifetime now
  | .start => (fun _ ↦ .done) <$> start
  | .clearOverride .. | .setPolicy _ | .stop | .tick _ =>
    modifyGet fun e ↦ (e.result c, (e.call c).1)

variable (e : Engine)

/-- An operation on the graph of an engine leaves the rest of the engine alone. -/
theorem outcome_onGraph {α : Type} (op : InPlace Graph α) :
    (onGraph op).outcome e =
      ((op.outcome e.graph).1, { e with graph := (op.outcome e.graph).2 }) := by
  simp only [onGraph, outcome_bind, outcome_get, outcome_modify, outcome_check]

/-- A load into an engine replaces the graph, or is refused and leaves the engine as it is. -/
theorem outcome_load (state : GraphState) :
    (load state).outcome e = settle e Prod.fst Prod.snd (e.load state) := by
  simp only [load, Engine.load, outcome_bind, outcome_get, outcome_check]
  cases Graph.load e.graph.catalog state e.config.loadPolicy <;> rfl

/-- Compiling keeps the plan that it makes, or none. -/
theorem outcome_compileNow :
    compileNow.outcome e = settle e Prod.fst Prod.snd e.compileNow := by
  simp only [compileNow, Engine.compileNow, outcome_bind, outcome_get, outcome_check]
  cases e.graph.compile <;> rfl

/-- Nothing can go wrong when entries of a removed node are taken out. -/
theorem outcome_forgetRemoved (edit : GraphEdit) :
    (forgetRemoved edit).outcome e = (.ok (), e.forgetRemoved edit) := by
  rw [forgetRemoved, Engine.forgetRemoved]
  cases edit.removedNode? <;> rfl

/-- An edit forgets the entries of a removed node once the graph has taken it. -/
theorem outcome_applyEdit (edit : GraphEdit) :
    (applyEdit edit).outcome e = settle e (fun e' ↦ e') (fun _ ↦ ()) (e.applyEdit edit) := by
  rw [applyEdit, Engine.applyEdit, outcome_bind, outcome_onGraph, Graph.InPlace.outcome_apply]
  cases e.graph.apply edit with
  | ok g => exact outcome_forgetRemoved { e with graph := g } edit
  | error error => rfl

/-- An edit that must keep the graph free of cycles is tried on a copy, which replaces the graph
only if it compiles. -/
theorem outcome_tryEdit (edit : GraphEdit) :
    (tryEdit edit).outcome e = settle e (fun e' ↦ e') (fun _ ↦ ()) (e.tryEdit edit) := by
  simp only [tryEdit, Engine.tryEdit, outcome_bind, outcome_get, Graph.InPlace.outcome_apply,
    outcome_check]
  cases e.graph.apply edit with
  | error error => rfl
  | ok g =>
    simp only [settle]
    cases htopology : edit.isTopology with
    | true =>
      show _ = settle e (fun e' ↦ e') (fun _ ↦ ()) (g.compile >>= fun plan ↦
        pure (Engine.forgetRemoved { e with graph := g, plan := some plan } edit))
      cases g.compile with
      | ok plan => exact outcome_forgetRemoved { e with graph := g, plan := some plan } edit
      | error error => rfl
    | false => exact outcome_forgetRemoved { e with graph := g } edit

/-- An override is entered for a node that has been found, or not at all. -/
theorem outcome_setOverride (node : NodeId) (kind : OverrideKind) (key : String) (value : Value)
    (lifetime : Option Float) (now : Float) :
    (setOverride node kind key value lifetime now).outcome e =
      settle e (fun e' ↦ e') (fun _ ↦ ()) (e.setOverride node kind key value lifetime now) := by
  simp only [setOverride, Engine.setOverride, outcome_bind, outcome_get]
  cases hfound : e.graph.node? node with
  | none => rfl
  | some n =>
    have hid : n.id = node := by simpa using List.find?_some hfound
    simp only [outcome_modify, settle, hid]

/-- A start compiles first, and sets the engine going only if that succeeds. -/
theorem outcome_start : start.outcome e = settle e (fun e' ↦ e') (fun _ ↦ ()) e.start := by
  rw [start, Engine.start, outcome_bind, outcome_discard, outcome_compileNow]
  cases e.compileNow <;> rfl

/-- **A call in place** comes to what the call comes to: it is refused with the same error, or it
gives the same result, and leaves the same engine behind. -/
theorem outcome_perform (c : HostCall) :
    (perform c).outcome e = ((e.result c).toExcept, (e.call c).1) := by
  cases c with
  | load state =>
    rw [perform, outcome_map, outcome_load, result, call]
    cases e.load state <;> rfl
  | compile =>
    rw [perform, outcome_map, outcome_compileNow, result, call]
    cases e.compileNow <;> rfl
  | applyEdit edit =>
    rw [perform, outcome_map, outcome_applyEdit, result, call]
    cases e.applyEdit edit <;> rfl
  | tryEdit edit =>
    rw [perform, outcome_map, outcome_tryEdit, result, call]
    cases e.tryEdit edit <;> rfl
  | setOverride node kind key value lifetime now =>
    rw [perform, outcome_map, outcome_setOverride, result, call]
    cases e.setOverride node kind key value lifetime now <;> rfl
  | start =>
    rw [perform, outcome_map, outcome_start, result, call]
    cases e.start <;> rfl
  | clearOverride | setPolicy | stop | tick => rfl

variable {e}

/-- **A refused call leaves no trace.** Whatever check refuses a call of a host that is carried out
in place, the engine is left as it was in every part, and no hook was called and no event told. -/
theorem unchanged_of_refused {c : HostCall} {e' : Engine} {error : EngineError}
    (h : (perform c).outcome e = (.error error, e')) :
    e' = e ∧ e.result c = .refused error ∧ e.call c = (e, []) := by
  rw [outcome_perform] at h
  obtain ⟨hresult, hleft⟩ := Prod.mk.inj h
  have hrefused := CallResult.eq_refused_of_toExcept hresult
  have hcall := call_of_refused hrefused
  exact ⟨hleft.symm.trans (congrArg Prod.fst hcall), hrefused, hcall⟩

/-- A running engine with two wires, the first of which feeds the second. -/
def twoWires : Engine where
  graph := {
    catalog := sampleCatalog
    nodes := [{ id := "a", type := "wire" }, { id := "b", type := "wire" }]
    connections := [⟨"ab", "a", "out", "b", "in"⟩] }
  config := {}
  watchdog := { config := .default }
  running := true

/-- They would feed each other, which is found only after the edit of a copy. -/
theorem unchanged_of_circle :
    let closing := HostCall.tryEdit (.addConnection ⟨"ba", "b", "out", "a", "in"⟩)
    ∃ e', (perform closing).outcome twoWires = (.error (.cycle ["a", "b"]), e') ∧ e' = twoWires ∧
      twoWires.result closing = .refused (.cycle ["a", "b"]) ∧
      twoWires.call closing = (twoWires, []) := by
  intro closing
  have hresult : twoWires.result closing = .refused (.cycle ["a", "b"]) := rfl
  have hrefused : (perform closing).outcome twoWires = (.error (.cycle ["a", "b"]), twoWires) := by
    rw [outcome_perform, hresult, call_of_refused hresult]
    rfl
  exact ⟨twoWires, hrefused, unchanged_of_refused hrefused⟩

end Engine.InPlace

end CueFlow
