import CueFlow.Proofs.Engine.Entries
import CueFlow.Proofs.Engine.Idempotence
import CueFlow.Proofs.Engine.Lifecycle
/-!
# A node that is new to its engine

A node that comes into the graph, by an edit or with a load, starts anew, even if there was a node
with its id before (`Engine.StartsAnew`): no override applies to it, the watchdog has observed
nothing at its ports, it is cleaned up the first time that it is disabled, and its sink hook is
handed all that is gathered on the first visit.

The first two are up to the entries that are kept under its id, of which there are none
(`not_carries_of_brings`). The other two are about a later tick. What happened to the node up to
then is written down by recorders: nothing is written of a node when it comes into the graph
(`Recorder.record_of_brings`), and a record in which the node was not seen disabled, or visited,
stays so until a completed tick in which it is (`Recorder.Retains.run`).
`no_entry_outlives_its_node` puts this together with what is known of the entries.
-/

namespace CueFlow

namespace Engine

/-- The call is a tick that is completed, of an engine of this kind. -/
def CompletesTick (Q : Engine → Prop) (e : Engine) (c : HostCall) : Prop :=
  Q e ∧ ∃ now info, c = .tick now ∧ (e.tickAt now).2.1 = .completed info

end Engine

/-! ### Records along a run -/

namespace Recorder

variable {α : Type}

/-- What the entries for a node keep true of its record, as long as no tick of an engine of this
kind is completed. -/
structure Retains (R : Recorder α) (P : α → Prop) (Q : Engine → Prop) (v : NodeId) : Prop where
  fresh : P R.fresh
  stopped : ∀ (e : Engine) (n : Node) (a : α), P a → P (R.stopped e n a)
  halted : ∀ (e : Engine) (now : Float) (n : Node) (a : α), P a → P (R.halted e now n a)
  completed : ∀ (e : Engine) (now : Float) (n : Node) (a : α), n.id = v → ¬ Q e → P a →
    P (R.completed e now n a)

variable {R : Recorder α} {P : α → Prop} {Q : Engine → Prop} {e : Engine} {r : NodeId → α}
  {v : NodeId} {c : HostCall}

theorem enter_of {entry : Node → α → α} (hr : P (r v))
    (hentry : ∀ n, n.id = v → P (entry n (r v))) : P (enter e entry r v) := by
  rw [enter]
  cases hn : e.graph.node? v with
  | none => exact hr
  | some n => exact hentry n (Graph.id_of_node? hn)

/-- What is retained is retained by a call. -/
theorem Retains.record (h : R.Retains P Q v) (hr : P (r v)) (hc : ¬ e.CompletesTick Q c) :
    P (R.record e c r v) := by
  have hforget : ∀ edit : GraphEdit, P (R.forgetRemoved edit r v) := by
    intro edit
    rw [forgetRemoved]
    split
    · exact h.fresh
    · exact hr
  cases c with
  | load state =>
    rw [Recorder.record]
    cases e.load state with
    | ok => exact h.fresh
    | error => exact hr
  | applyEdit edit =>
    rw [Recorder.record]
    cases e.applyEdit edit with
    | ok => exact hforget edit
    | error => exact hr
  | tryEdit edit =>
    rw [Recorder.record]
    cases e.tryEdit edit with
    | ok => exact hforget edit
    | error => exact hr
  | stop =>
    rw [Recorder.record]
    cases e.running with
    | true => exact enter_of hr fun n _ ↦ h.stopped e n (r v) hr
    | false => exact hr
  | tick now =>
    rw [Recorder.record]
    cases houtcome : (e.tickAt now).2.1 with
    | idle => exact hr
    | halted => exact enter_of hr fun n _ ↦ h.halted e now n (r v) hr
    | completed info =>
      refine enter_of hr fun n hid ↦ h.completed e now n (r v) hid (fun hQ ↦ ?_) hr
      exact hc ⟨hQ, now, info, rfl, houtcome⟩
  | compile | setOverride | clearOverride | setPolicy | start => exact hr

/-- **What is retained holds of the record after a run**, if it does before. -/
theorem Retains.run (h : R.Retains P Q v) (hkept : R.Kept e r) (hr : P (r v))
    {calls : List HostCall} (hnever : e.Never (Engine.CompletesTick Q) calls) :
    ∃ r', R.Kept (e.run calls).1 r' ∧ P (r' v) := by
  induction calls generalizing e r with
  | nil => exact ⟨r, hkept, hr⟩
  | cons c rest ih =>
    obtain ⟨hc, hrest⟩ := hnever.of_cons
    exact ih (hkept.call c) (h.record hr hc) hrest

/-- **Nothing is written of a node when it comes into the graph.** -/
theorem record_of_brings {I : Engine → NodeId → α → Prop} (h : R.Maintains I) (hkept : R.Kept e r)
    (hbrings : e.Brings v c) : R.record e c r v = R.fresh := by
  -- Nothing was written under the id of a node that is added.
  have hadded : ∀ {n : Node} {g : Graph}, e.graph.apply (.addNode n) = .ok g →
      R.forgetRemoved (.addNode n) r n.id = R.fresh := by
    intro n g happly
    have hadds : (GraphEdit.addNode n).removedNode? ≠ some n.id := nofun
    rw [forgetRemoved, if_neg hadds]
    exact ((hkept.holdsAt h n.id).2 (Engine.node?_of_apply_addNode happly)).2
  cases hbrings with
  | load hload hv => rw [record, hload]
  | applyEdit hedit =>
    obtain ⟨g, happly, -⟩ := Engine.of_applyEdit hedit
    rw [record, hedit]
    exact hadded happly
  | tryEdit hedit =>
    obtain ⟨g, happly, -⟩ := Engine.of_tryEdit hedit
    rw [record, hedit]
    exact hadded happly

/-- What is retained of a new record is true of a node from when it comes into the graph. -/
theorem Retains.run_of_brings {I : Engine → NodeId → α → Prop} (h : R.Retains P Q v)
    (hmaintains : R.Maintains I) (he : e.Reachable) (hbrings : e.Brings v c)
    {later : List HostCall} (hnever : (e.call c).1.Never (Engine.CompletesTick Q) later) :
    ∃ r, R.Kept ((e.call c).1.run later).1 r ∧ P (r v) := by
  obtain ⟨r, hkept⟩ := R.exists_kept he
  refine h.run (hkept.call c) ?_ hnever
  rw [record_of_brings hmaintains hkept hbrings]
  exact h.fresh

end Recorder

/-- A node was not disabled in the last compute pass, as long as it is not disabled in any. -/
theorem lifetimes_retains (v : NodeId) :
    lifetimes.Retains (fun life ↦ life.gate ≠ some false) (fun e ↦ e.policy.node v = false) v where
  fresh := nofun
  stopped _ _ _ _ := nofun
  halted _ _ _ _ _ := nofun
  completed := by
    rintro e now n life rfl henabled - hgate
    exact henabled (Option.some.inj hgate)

/-- There is no last visit of a node, as long as it is not visited. -/
theorem sightings_retains (v : NodeId) :
    sightings.Retains (fun past ↦ past.last = none) (fun e ↦ e.visits v = true) v where
  fresh := rfl
  stopped _ _ _ _ := rfl
  halted _ _ _ _ _ := rfl
  completed := by
    rintro e now n past rfl hnot hnone
    show (sightings.completed e now n past).last = none
    rw [sightings]
    dsimp only
    split
    · dsimp only
      rw [if_neg hnot, hnone]
      exact ite_self none
    · exact hnone

namespace Engine

variable {e : Engine} {v : NodeId} {now : Float}

/-! ### The tick after -/

/-- The passes of a tick clean up a disabled node once, unless the node is known to be disabled. -/
theorem length_cleanups_passes (he : e.Reachable) {plan : Plan}
    (hcompile : e.graph.compile = .ok plan) {n : Node} (hn : n ∈ e.graph.nodes)
    {d : NodeDefinition} (hd : e.graph.definitionOf? n.id = some d) (hhook : d.disable.isSome)
    (hnode : e.policy.node n.id = false) (hknown : (e.memoryOf n.id).disabled = false)
    (now : Float) : (cleanups (e.passes now).2 n.id).length = 1 := by
  obtain ⟨hsame, hcalls⟩ := (calls_underway he hcompile hn hd hhook now).2 hnode
  have hlength := length_cleanups_of_calls hcalls
  rw [hknown] at hlength
  rw [cleanups, hsame]
  exact hlength

/-- **A tick cleans up a disabled node once**, be it completed or halted, unless the node is known
to be disabled. -/
theorem length_cleanups_tickAt (he : e.Reachable) (hrunning : e.running = true) {n : Node}
    (hn : n ∈ e.graph.nodes) {d : NodeDefinition} (hd : e.graph.definitionOf? n.id = some d)
    (hhook : d.disable.isSome) (hnode : e.policy.node n.id = false)
    (hknown : (e.memoryOf n.id).disabled = false) (now : Float) :
    (cleanups (e.tickAt now).2.2 n.id).length = 1 := by
  obtain ⟨hskel, hruns⟩ := e.passes_fst now
  have hstop := length_cleanups_of_calls (calls_stop (he.uniqueIds.congr hskel)
    (hruns.trans hrunning) ((Graph.definitionOf?_congr hskel n.id).trans hd) hhook)
  obtain ⟨report, heq⟩ | ⟨plan, info, hcompile, heq⟩ := tickAt_eq_passes he.planSound hrunning now
  · have hreport : cleanups [.halted report] n.id = [] := rfl
    rw [heq, cleanups_append, cleanups_append, hreport, List.append_nil, List.length_append, hstop]
    cases hcompile : e.graph.compile with
    | ok plan =>
      rw [length_cleanups_passes he hcompile hn hd hhook hnode hknown,
        disabled_passes he hcompile hn, hnode]
      rfl
    | error error =>
      -- There are no passes, and the stop finds the node as the tick does.
      have hpasses : e.passes now = (e.atTime now, []) := by rw [passes, hcompile]
      have hmemory : ((e.passes now).1.memoryOf n.id).disabled = false := by
        rw [hpasses]
        exact hknown
      rw [hmemory, hpasses]
      rfl
  · have hinfo : cleanups [.ticked info] n.id = [] := rfl
    rw [heq, cleanups_append, hinfo, List.append_nil]
    exact length_cleanups_passes he hcompile hn hd hhook hnode hknown now

/-! ### The result -/

/-- If a node with a cleanup is disabled in the next tick, the tick cleans it up once. -/
def CleansUpNext (e : Engine) (v : NodeId) : Prop :=
  ∀ d now, e.running = true → e.graph.definitionOf? v = some d → d.disable.isSome →
    e.policy.node v = false → (cleanups (e.tickAt now).2.2 v).length = 1

/-- What was seen of a node that was not visited: its inputs, if they were resolved. -/
def unvisited (e : Engine) (v : NodeId) : Sightings := { resolved := (e.memoryOf v).lastInputs }

/-- If a node with a sink hook is visited in the next tick, with no watchdog tripping by then, the
hook is handed all that is gathered. -/
def DeliversInFull (e : Engine) (v : NodeId) : Prop :=
  ∀ n d plan now, e.running = true → e.graph.compile = .ok plan → e.graph.node? v = some n →
    e.graph.catalog.get? n.type = some d → d.sink.isSome → e.visits v = true →
    (∀ s after report, e.TripsAt now s after report → v ∉ (s :: after).map PlanStep.node) →
    ∃ call, sinkCallFor? (e.tickAt now).2.2 v = some call ∧
      call.HandsOver d (e.sightIn now n d (e.unvisited v))

/-- A node starts anew: no override applies to it, nothing is remembered of it, and nothing has been
observed at its ports. Whatever is called from now on, it is cleaned up when it is first disabled,
and delivered to in full when it is first visited. -/
structure StartsAnew (e : Engine) (v : NodeId) : Prop where
  override : ∀ kind key, e.overrides.get? v kind key = none
  memory : e.memoryOf v = {}
  history : ∀ port, e.watchdog.observed v port = []
  disabled : ∀ later, e.Never (CompletesTick fun e' ↦ e'.policy.node v = false) later →
    (e.run later).1.CleansUpNext v
  visited : ∀ later, e.Never (CompletesTick fun e' ↦ e'.visits v = true) later →
    (e.run later).1.DeliversInFull v

section Brings

variable {c : HostCall} {later : List HostCall}

/-- A node that comes into the graph is cleaned up when it is first disabled. -/
theorem cleansUpNext_of_brings (he : e.Reachable) (h : e.Brings v c)
    (hnever : (e.call c).1.Never (CompletesTick fun e' ↦ e'.policy.node v = false) later) :
    ((e.call c).1.run later).1.CleansUpNext v := by
  obtain ⟨l, hkept, hgate⟩ := (lifetimes_retains v).run_of_brings lifetimes_maintains he h hnever
  intro d now hrunning hd hhook hnode
  obtain ⟨n, hn, -⟩ := Option.bind_eq_some_iff.1 hd
  obtain rfl := Graph.id_of_node? hn
  have hmem := List.mem_of_find?_eq_some hn
  refine length_cleanups_tickAt hkept.reachable hrunning hmem hd hhook hnode ?_ now
  rw [← Bool.not_eq_true, (hkept.holds lifetimes_maintains hmem).disabled]
  exact hgate

/-- It is delivered to in full when it is first visited. -/
theorem deliversInFull_of_brings (he : e.Reachable) (h : e.Brings v c)
    (hnever : (e.call c).1.Never (CompletesTick fun e' ↦ e'.visits v = true) later) :
    ((e.call c).1.run later).1.DeliversInFull v := by
  obtain ⟨r, hkept, hnone⟩ := (sightings_retains v).run_of_brings sightings_maintains he h hnever
  intro n d plan now hrunning hcompile hn hd hsink hvisits hpassed
  obtain rfl := Graph.id_of_node? hn
  have hmem := List.mem_of_find?_eq_some hn
  have hpast := hkept.holds sightings_maintains hmem
  have hunvisited : r n.id = ((e.call c).1.run later).1.unvisited n.id := by
    rw [unvisited, hpast.resolved, ← hnone]
  obtain ⟨before, s, after, d', t, hfront⟩ := exists_front hcompile hmem hpassed
  obtain rfl : d' = d := Option.some.inj (hfront.made.2.1.symm.trans hd)
  rw [← hunvisited]
  exact hfront.exists_handsOver hkept.reachable hrunning hpast hsink hvisits (.inl hnone)

/-- **A node that comes into the graph starts anew.** -/
theorem startsAnew_of_brings (he : e.Reachable) (h : e.Brings v c) :
    (e.call c).1.StartsAnew v := by
  have hnothing : ∀ k : EntryKey, k.node = v → ¬ (e.call c).1.Carries k :=
    fun k hk ↦ not_carries_of_brings he h hk
  refine ⟨fun kind key ↦ ?_, ?_, fun port ↦ ?_, fun later ↦ cleansUpNext_of_brings he h,
    fun later ↦ deliversInFull_of_brings he h⟩
  · exact Option.not_isSome_iff_eq_none.1 (hnothing (.override v kind key) rfl)
  · rw [memoryOf, Option.not_isSome_iff_eq_none.1 (hnothing (.memory v) rfl)]
    rfl
  · rw [Watchdog.observed, Option.not_isSome_iff_eq_none.1 (hnothing (.history v port) rfl)]
    rfl

end Brings

/-- **No entry outlives its node.** After any run from a new engine, every override, all that is
remembered of a node, and all that was observed at a sink port belongs to a node of the graph, and
has been made since that node was last brought into the graph. A node that the next call brings into
the graph starts anew, whether or not there was a node with its id before. -/
theorem no_entry_outlives_its_node {g : Graph} {config : EngineConfig} (hg : g.Buildable)
    (hnew : Engine.new g config = .ok e) (calls : List HostCall) :
    (∀ k, (e.run calls).1.Carries k →
      ((e.run calls).1.graph.node? k.node).isSome ∧ e.EnteredSince calls k) ∧
    ∀ v c, (e.run calls).1.Brings v c → ((e.run calls).1.call c).1.StartsAnew v := by
  have he : e.Reachable := .new hg hnew
  refine ⟨fun k hk ↦ ⟨(he.run calls).tidy k hk, ?_⟩,
    fun v c hbrings ↦ startsAnew_of_brings (he.run calls) hbrings⟩
  refine enteredSince_of_carries he (fun hcarried ↦ ?_) hk
  rw [new_eq hnew] at hcarried
  cases k with
  | override | memory | history => cases hcarried

/-- A lamp, which is switched off when it is cleaned up. -/
def bulb : Node := { id := "b", type := "lamp" }

/-- The connection of a level to the lamp. -/
def socket : Connection := ⟨"ab", "a", "out", "b", "in"⟩

/-- A level that feeds the lamp. -/
def bulbGraph : Graph where
  catalog := .ofDefinitions [
    { type := "level"
      outputs := [{ id := "out", type := .number }]
      process := fun _ _ _ ↦ .ok [("out", .number 1.0)] },
    lampDefinition]
  nodes := [{ id := "a", type := "level" }, bulb]
  connections := [socket]

/-- The engine around the two, at rest. -/
def bulbEngine : Engine where
  graph := bulbGraph
  config := {}
  watchdog := { config := .default }

/-- The lamp is overridden and lit. -/
def lighting : List HostCall :=
  [.start, .setOverride "b" .config "dim" (.number 2.0) none 0.0, .tick 0.0]

/-- Then it is removed. -/
def unscrewing : List HostCall := lighting ++ [.applyEdit (.removeNode "b")]

/-- Another lamp takes its place. -/
def relampedEngine : Engine := ((bulbEngine.run unscrewing).1.call (.applyEdit (.addNode bulb))).1

/-- The override was there while the first lamp was, and it does not apply to the second. The next
tick cleans the second lamp up if that is disabled, and lights it if it is connected, although the
first one stood at the same level. -/
theorem no_entry_outlives_its_node_bulbEngine :
    bulbEngine.EnteredSince lighting (.override "b" .config "dim") ∧
      relampedEngine.overrides.get? "b" .config "dim" = none ∧
      (cleanups ((relampedEngine.run
        [.setPolicy { node := fun _ ↦ false }]).1.tickAt 40.0).2.2 "b").length = 1 ∧
      ∃ call, sinkCallFor? ((relampedEngine.run
        [.applyEdit (.addConnection socket)]).1.tickAt 40.0).2.2 "b" = some call := by
  have hload : Graph.load bulbGraph.catalog bulbGraph.snapshot .strict = .ok (bulbGraph, {}) := rfl
  have hnew : Engine.new bulbGraph {} = .ok bulbEngine := rfl
  have hedit : (bulbEngine.run unscrewing).1.applyEdit (.addNode bulb) = .ok relampedEngine := rfl
  obtain ⟨hentries, -⟩ := no_entry_outlives_its_node (.load hload) hnew lighting
  obtain ⟨-, hnewcomers⟩ := no_entry_outlives_its_node (.load hload) hnew unscrewing
  have hanew : relampedEngine.StartsAnew "b" := hnewcomers "b" _ (.applyEdit hedit)
  have hquiet : ∀ {Q : Engine → Prop} {c : HostCall}, (∀ now, c ≠ .tick now) →
      relampedEngine.Never (CompletesTick Q) [c] := by
    intro Q c hc
    refine Never.nil.concat ?_
    rintro ⟨-, now, info, htick, -⟩
    exact hc now htick
  refine ⟨(hentries (.override "b" .config "dim") rfl).2, hanew.override _ _, ?_, ?_⟩
  · exact hanew.disabled [.setPolicy { node := fun _ ↦ false }] (hquiet nofun) lampDefinition 40.0
      rfl rfl rfl rfl
  · have hreach : (relampedEngine.run [.applyEdit (.addConnection socket)]).1.Reachable :=
      (((Reachable.new (.load hload) hnew).run unscrewing).call _).run _
    have htick : (relampedEngine.run [.applyEdit (.addConnection socket)]).1.tickAt 40.0 =
        (_, .completed { tick := 1, timeMs := 40.0, computed := 2, sinkCalls := 1 }, _) := rfl
    obtain ⟨plan, hcompile⟩ : ∃ plan,
        (relampedEngine.run [.applyEdit (.addConnection socket)]).1.graph.compile = .ok plan :=
      ⟨_, rfl⟩
    obtain ⟨call, hcall, -⟩ := hanew.visited [.applyEdit (.addConnection socket)]
      (hquiet nofun) bulb lampDefinition plan 40.0 rfl hcompile rfl rfl rfl rfl
      fun s after report htrips ↦ absurd htrips (not_tripsAt_of_completed hreach htick)
    exact ⟨call, hcall⟩

end Engine

end CueFlow
