import CueFlow.Proofs.Engine.Receipt
import CueFlow.Proofs.Engine.Turn
/-!
# No update is lost

Most visits of a sink node deliver a part of what they gathered, or nothing. Still a device is never
out of date: after every completed tick in which a node is visited, what its sink hook has been
handed since the last cleanup amounts to what the visit gathered (`no_update_lost`).

The engine compares with the visit before and knows nothing of what it has delivered, so the proof
carries a record along that the engine does not keep: the receipts of all points of delivery
(`Engine.receive`). They are written from the inputs that sink hooks are called with. The items of a
list are noted under the keys that they have in the bundle they were taken from, and where a list
was gathered, the hook is given exactly the items whose keys are noted (`handedIn?_spec`). The
invariant `Engine.InStep` says that the receipts of a node are up to date with its last visit.
-/

namespace CueFlow

/-- The receipts of all points of delivery, by node and by port. -/
abbrev Receipts := NodeId → String → Receipt

namespace Receipts

/-- Nothing has been received. -/
def fresh : Receipts := fun _ _ ↦ {}

/-- Nothing has been received for the node that an edit removes. -/
def forgetRemoved (r : Receipts) (edit : GraphEdit) : Receipts :=
  fun v ↦ if edit.removedNode? = some v then fresh v else r v

end Receipts

/-- The receipts of a node are up to date with a visit, provided that there is a device and that the
ids of the inputs are distinct. -/
def NodeDefinition.UpToDate (d : NodeDefinition) (r : String → Receipt)
    (visit : Option SinkSnapshot) : Prop :=
  d.sink.isSome → (d.inputs.map Port.id).Nodup →
    ∀ p ∈ d.sinkInputs, (r p.id).UpToDate visit p.id p.default

namespace Engine

variable (e : Engine)

/-! ### What is received in the course of a call -/

/-- The members that a completed tick from `e` to `e'` picks for a node at a port, with the keys
that they have in the bundle that was gathered; none if nothing was gathered there. -/
def handedIn? (e e' : Engine) (v : NodeId) (port : String) : Option (List (MemberKey × Value)) :=
  (e'.memoryOf v).sinkSnapshot.bind fun found ↦ handedAt? (e.memoryOf v).sinkSnapshot found port

/-- What has been received after a completed tick from `e` to `e'`: at every port the input of the
call and its items, under the keys of the members that were picked. -/
def receiveTick (e e' : Engine) (events : List Event) (r : Receipts) : Receipts := fun v ↦
  if e.cleansUp v then Receipts.fresh v
  else
    match sinkCallFor? events v with
    | some call => fun port ↦
      (r v port).take (call.inputs.get? port)
        ((e.handedIn? e' v port).map fun handed ↦ handed.map Prod.fst)
    | none => r v

/-- What has been received after a call of the host. -/
def receive (c : HostCall) (r : Receipts) : Receipts :=
  match c with
  | .load state =>
    match e.load state with
    | .ok _ => .fresh
    | .error _ => r
  | .applyEdit edit =>
    match e.applyEdit edit with
    | .ok _ => r.forgetRemoved edit
    | .error _ => r
  | .tryEdit edit =>
    match e.tryEdit edit with
    | .ok _ => r.forgetRemoved edit
    | .error _ => r
  | .stop => if e.running then .fresh else r
  | .tick now =>
    match e.tickAt now with
    | (_, .idle, _) => r
    | (_, .halted _, _) => .fresh
    | (e', .completed _, events) => e.receiveTick e' events r
  | _ => r

/-- The engines that a host can bring about, with what has been received on the way. -/
inductive Received : Engine → Receipts → Prop
  | new {g : Graph} {config : EngineConfig} {e : Engine} :
      g.Buildable → Engine.new g config = .ok e → Received e .fresh
  | call {e : Engine} {r : Receipts} (c : HostCall) :
      Received e r → Received (e.call c).1 (e.receive c r)

variable {e} {e' : Engine} {r r' : Receipts}

theorem Received.reachable (h : e.Received r) : e.Reachable := by
  induction h with
  | new hg hnew => exact .new hg hnew
  | call c _ ih => exact ih.call c

/-- Keeping a record of what is received keeps no host from anything. -/
theorem Reachable.exists_received (h : e.Reachable) : ∃ r, e.Received r := by
  induction h with
  | new hg hnew => exact ⟨_, .new hg hnew⟩
  | call c _ ih =>
    obtain ⟨r, hr⟩ := ih
    exact ⟨_, hr.call c⟩

/-! ### The invariant -/

/-- The receipts of all nodes are up to date with their last visits, and what was visited is known
to have been connected. -/
def InStep (e : Engine) (r : Receipts) : Prop :=
  ∀ v, (e.sinkMemoryOf v).1.isSome → (e.sinkMemoryOf v).2 = true ∧
    ∃ d, e.graph.definitionOf? v = some d ∧ d.UpToDate (r v) (e.sinkMemoryOf v).1

/-- Without visits there is nothing to be out of date with. -/
theorem InStep.of_memory_eq_nil (h : e.memory = []) (r : Receipts) : e.InStep r := by
  intro v hsome
  have hnone : (e.sinkMemoryOf v).1 = none := by
    rw [sinkMemoryOf, memoryOf, h]
    rfl
  rw [hnone] at hsome
  cases hsome

theorem InStep.upToDate (h : e.InStep r) {v : NodeId} {d : NodeDefinition}
    (hd : e.graph.definitionOf? v = some d) : d.UpToDate (r v) (e.memoryOf v).sinkSnapshot := by
  intro hsink hports p hp found hfound
  obtain ⟨-, d', hd', huptodate⟩ := h v (Option.isSome_iff_exists.2 ⟨found, hfound⟩)
  obtain rfl : d = d' := Option.some.inj (hd.symm.trans hd')
  exact huptodate hsink hports p hp found hfound

/-- What leaves alone the memory, the definition and the receipts of every visited node keeps the
receipts up to date. -/
theorem InStep.congr (h : e.InStep r) (hkept : ∀ v, (e'.sinkMemoryOf v).1.isSome →
    e'.sinkMemoryOf v = e.sinkMemoryOf v ∧ r' v = r v ∧
      ∀ d, e.graph.definitionOf? v = some d → e'.graph.definitionOf? v = some d) :
    e'.InStep r' := by
  intro v hsome
  obtain ⟨hmemory, hreceipts, hdefinition⟩ := hkept v hsome
  rw [hmemory] at hsome ⊢
  obtain ⟨hconnected, d, hd, huptodate⟩ := h v hsome
  exact ⟨hconnected, d, hdefinition d hd, hreceipts ▸ huptodate⟩

/-- An edit forgets all about the node that it removes, and leaves the others alone. -/
theorem InStep.edit {g : Graph} {plan : Option Plan} {edit : GraphEdit} (h : e.InStep r)
    (happly : e.graph.apply edit = .ok g) :
    (forgetRemoved { e with graph := g, plan := plan } edit).InStep (r.forgetRemoved edit) := by
  refine h.congr fun v hsome ↦ ?_
  have hgraph := (forgetRemoved_eq { e with graph := g, plan := plan } edit).1
  rw [sinkMemoryOf, memoryOf_forgetRemoved] at hsome ⊢
  rw [Receipts.forgetRemoved, hgraph]
  split at hsome
  · cases hsome
  next hkept =>
    rw [if_neg hkept, if_neg hkept]
    exact ⟨rfl, rfl, fun d hd ↦ Graph.definitionOf?_of_apply happly hkept hd⟩

/-! ### The turn of a node -/

section Turn

variable {events : List Event} {v : NodeId} {s : PlanStep} {d : NodeDefinition} {t : Tick}

/-- **A visit** brings the receipts of the node up to date with what it finds. -/
theorem Turn.upToDate_of_visits (h : e.Turn e' events v s d t) (hvisits : e.visits v = true)
    {n : Node} (hvisited : t.visited? s = some n)
    (hbefore : d.UpToDate (r v) (e.memoryOf v).sinkSnapshot) :
    d.UpToDate (e.receiveTick e' events r v) (some (t.sight s n)) := by
  have hcleans := not_cleansUp_of_visits hvisits
  rw [visits, Bool.and_eq_true] at hvisits
  have hnode := enabled_of_admits hvisits.1
  intro hsink hports p hp
  have hfound : (e'.memoryOf v).sinkSnapshot = some (t.sight s n) :=
    congrArg Prod.fst (h.memory_of_visited hvisited)
  have hoffer := Tick.offer?_eq hvisited
  rw [h.snapshot_eq hnode] at hoffer
  rw [receiveTick, hcleans, if_neg Bool.false_ne_true, h.call]
  -- The receipts say what the comparison of the two visits says: nothing is new, or what is new is
  -- handed over.
  cases hdelivery : delivery? (e.memoryOf v).sinkSnapshot (t.sight s n) with
  | none =>
    rw [hdelivery] at hoffer
    rw [Tick.handOver?_of_offer? hoffer]
    exact (hbefore hsink hports p hp).quiet hdelivery
  | some delivered =>
    rw [hdelivery] at hoffer
    obtain ⟨hook, hhook⟩ := Option.isSome_iff_exists.1 hsink
    rw [Tick.handOver?, h.verdict, hoffer, h.definition_eq, hhook]
    show (Receipt.take _ ((sinkInputsFor d _ delivered).get? p.id) _).UpToDate _ _ _
    rw [get?_sinkInputsFor_of_nodup hports _ _ hp, handedIn?, hfound]
    exact (hbefore hsink hports p hp).deliver hdelivery

/-- The turn of a node that is not visited leaves no visit in memory, or the one that was there, and
in that case without a cleanup of a node with points of delivery. -/
theorem Turn.kept_of_not_visits (h : e.Turn e' events v s d t) (hids : e'.graph.UniqueIds)
    (hstep : e.InStep r) (hnot : e.visits v = false) (hsome : (e'.sinkMemoryOf v).1.isSome) :
    e'.sinkMemoryOf v = e.sinkMemoryOf v ∧ t.visited? s = none ∧
      (e.cleansUp v = true → d.hasSinkInputs = false) := by
  have hattended := h.attended?_isSome
  have hnode : e.policy.node v = true := by
    by_contra hdisabled
    rw [h.memory_of_disabled (Bool.eq_false_of_not_eq_true hdisabled)] at hsome
    cases hsome
  cases hfound : t.attended? s with
  | none =>
    rw [hfound] at hattended
    refine ⟨h.memory_of_not_attended hnode hfound, Tick.visited?_of_attended? hfound,
      fun hcleans ↦ ?_⟩
    rw [cleansUp, hnode, Bool.not_true, Bool.false_or, Bool.and_eq_true] at hcleans
    rw [hcleans.1, Bool.and_true] at hattended
    exact hattended.symm
  | some n =>
    -- The node is admitted, so nothing is connected, and it was cleaned up if anything was.
    rw [hfound, Option.isSome_some, eq_comm, Bool.and_eq_true] at hattended
    rw [visits, hattended.2, Bool.true_and] at hnot
    rw [h.memory_of_unplugged hids hnode hnot hfound] at hsome
    split at hsome
    · cases hsome
    next hconnected => exact absurd (hstep v hsome).1 hconnected

/-- **The turn of a node keeps its receipts up to date** with the visit in its memory. -/
theorem Turn.inStep (h : e.Turn e' events v s d t) (hids : e'.graph.UniqueIds)
    (hstep : e.InStep r) (hsome : (e'.sinkMemoryOf v).1.isSome) :
    (e'.sinkMemoryOf v).2 = true ∧
      d.UpToDate (e.receiveTick e' events r v) (e'.sinkMemoryOf v).1 := by
  have hbefore := hstep.upToDate h.definition
  cases hvisits : e.visits v with
  | true =>
    obtain ⟨n, hvisited⟩ := h.exists_visited hids hvisits
    rw [h.memory_of_visited hvisited]
    exact ⟨rfl, h.upToDate_of_visits hvisits hvisited hbefore⟩
  | false =>
    obtain ⟨hmemory, hnot, hcleans⟩ := h.kept_of_not_visits hids hstep hvisits hsome
    rw [hmemory] at hsome ⊢
    refine ⟨(hstep v hsome).1, ?_⟩
    rw [receiveTick, h.call_of_not_visited hnot]
    split
    next hclean =>
      -- A cleanup that leaves the visit in memory is one of a node without points of delivery.
      intro _ _ p hp
      have hpoint : d.hasSinkInputs = true := by
        rw [NodeDefinition.hasSinkInputs, List.any_eq_true]
        exact ⟨p, List.mem_filter.1 hp⟩
      rw [hcleans hclean] at hpoint
      cases hpoint
    next => exact hbefore

end Turn

/-! ### Runs -/

/-- A completed tick keeps the receipts up to date. -/
theorem InStep.completed (h : e.InStep r) (he : e.Reachable) {now : Float} {info : TickInfo}
    {events : List Event} (htick : e.tickAt now = (e', .completed info, events)) :
    e'.InStep (e.receiveTick e' events r) := by
  intro v hsome
  have hids : e'.graph.UniqueIds := by
    have hreachable := (he.call (.tick now)).uniqueIds
    rw [call, htick] at hreachable
    exact hreachable
  have hnode : v ∈ e.graph.nodes.map Node.id := by
    -- The memory of a node without a turn is as it was, and so it holds no visit.
    by_contra hnone
    rw [sinkMemoryOf_of_completed he htick hnone] at hsome
    obtain ⟨-, d, hd, -⟩ := h v hsome
    obtain ⟨n, hn, -⟩ := Option.bind_eq_some_iff.1 hd
    exact hnone (Graph.node?_isSome_iff.1 (Option.isSome_iff_exists.2 ⟨n, hn⟩))
  obtain ⟨n, hn, rfl⟩ := List.mem_map.1 hnode
  obtain ⟨s, d, t, hturn⟩ := exists_turn he htick hn
  obtain ⟨hconnected, huptodate⟩ := hturn.inStep hids h hsome
  refine ⟨hconnected, d, ?_, huptodate⟩
  rw [Graph.definitionOf?_congr hturn.skeleton]
  exact hturn.definition

/-- A tick keeps the receipts up to date, however it ends. -/
theorem InStep.tick (h : e.InStep r) (he : e.Reachable) (now : Float) :
    (e.call (.tick now)).1.InStep (e.receive (.tick now) r) := by
  rw [Engine.call, receive]
  cases hrunning : e.running with
  | false =>
    rw [tickAt_of_not_running hrunning]
    exact h
  | true =>
    cases htick : e.tickAt now with
    | mk e' rest =>
      obtain ⟨outcome, events⟩ := rest
      cases outcome with
      | idle =>
        have hidle : (e.tickAt now).2.1 = .idle := by rw [htick]
        exact absurd hidle (outcome_tickAt_ne_idle hrunning now)
      | halted report => exact .of_memory_eq_nil (memory_of_halted hrunning htick) _
      | completed info => exact h.completed he htick

/-- **A call of the host keeps the receipts up to date.** -/
theorem InStep.call (h : e.InStep r) (he : e.Reachable) (c : HostCall) :
    (e.call c).1.InStep (e.receive c r) := by
  cases c with
  | load state =>
    rw [Engine.call, receive]
    cases hload : e.load state with
    | error error => exact h
    | ok loaded =>
      have hloaded : (e.load state).map Prod.fst = .ok loaded.1 := by
        rw [hload]
        rfl
      obtain ⟨g, report, -, heq⟩ := of_load hloaded
      show loaded.1.InStep _
      rw [heq]
      exact .of_memory_eq_nil rfl _
  | compile =>
    refine orStay_of (P := fun e' ↦ e'.InStep r) h fun e' hok ↦ ?_
    obtain ⟨plan, -, rfl⟩ := of_compileNow hok
    exact h
  | applyEdit edit =>
    rw [Engine.call, receive]
    cases hedit : e.applyEdit edit with
    | error error => exact h
    | ok edited =>
      obtain ⟨g, happly, rfl⟩ := of_applyEdit hedit
      exact h.edit happly
  | tryEdit edit =>
    rw [Engine.call, receive]
    cases hedit : e.tryEdit edit with
    | error error => exact h
    | ok edited =>
      obtain ⟨g, happly, ⟨-, plan, -, rfl⟩ | ⟨-, rfl⟩⟩ := of_tryEdit hedit
      · exact h.edit happly
      · exact h.edit happly
  | setOverride =>
    refine orStay_of (P := fun e' ↦ e'.InStep r) h fun e' hok ↦ ?_
    obtain rfl := of_setOverride hok
    exact h
  | clearOverride => exact h
  | setPolicy => exact h
  | start =>
    refine orStay_of (P := fun e' ↦ e'.InStep r) h fun e' hok ↦ ?_
    obtain ⟨plan, -, rfl⟩ := of_start hok
    exact h
  | stop =>
    rw [Engine.call, receive]
    cases hrunning : e.running with
    | true => exact .of_memory_eq_nil (memory_stop_of_running hrunning) _
    | false =>
      rw [stop, hrunning]
      exact h
  | tick now => exact h.tick he now

/-- **What has been received is up to date with every visit in memory**, all along a run. -/
theorem Received.inStep (h : e.Received r) : e.InStep r := by
  induction h with
  | new _ hnew =>
    rw [new_eq hnew]
    exact .of_memory_eq_nil rfl _
  | call c h ih => exact ih.call h.reachable c

/-! ### The result -/

/-- **The record is true.** Whenever a completed tick calls the sink hook of a node for which a list
was gathered at a point of delivery, the hook is given the list of the items that were picked, and
these are members of the list that was gathered, each under its key there. -/
theorem handedIn?_spec (h : e.Reachable) {now : Float} {info : TickInfo} {events : List Event}
    (htick : e.tickAt now = (e', .completed info, events)) {v : Node} (hv : v ∈ e.graph.nodes)
    {d : NodeDefinition} (hd : e.graph.catalog.get? v.type = some d)
    (hports : (d.inputs.map Port.id).Nodup) {p : Port} (hp : p ∈ d.sinkInputs) {call : HookCall}
    (hcall : sinkCallFor? events v.id = some call) {items : List Value}
    (hitems : e'.graph.gathered? v.id p.id = some (.list items)) :
    ∃ handed, e.handedIn? e' v.id p.id = some handed ∧
      call.inputs.get? p.id = some (.list (handed.map Prod.snd)) ∧
      handed.Sublist (members items) := by
  obtain ⟨s, d', t, hturn⟩ := exists_turn h htick hv
  obtain rfl : d' = d := hturn.unique h.uniqueIds hv hd
  rw [hturn.call] at hcall
  obtain ⟨found, delivered, -, hoffer, rfl⟩ := Tick.exists_of_handOver? hcall
  obtain ⟨n, hvisited, rfl, hdelivery⟩ := Tick.exists_of_offer? hoffer
  rw [hturn.snapshot_eq (hturn.enabled_of_visited hvisited)] at hdelivery
  have hsight := hturn.get?_sight (h.uniqueIds.congr hturn.skeleton) n p.id
  rw [hitems] at hsight
  have hfound : (e'.memoryOf v.id).sinkSnapshot = some (t.sight s n) :=
    congrArg Prod.fst (hturn.memory_of_visited hvisited)
  -- Both the input of the call and the items that are noted come of comparing the list with what
  -- the visit before gathered on the port.
  obtain ⟨hvalue, hsublist⟩ := handedMembers_spec
    ((comparedWith (e.memoryOf v.id).sinkSnapshot (t.sight s n)).get? p.id) items
  refine ⟨_, ?_, ?_, hsublist⟩
  · rw [handedIn?, hfound]
    show handedAt? _ _ _ = _
    rw [handedAt?, hsight]
    rfl
  · dsimp only
    rw [hturn.definition_eq, get?_sinkInputsFor_of_nodup hports _ _ hp,
      delivery?_eq_some hdelivery, get?_changesSince, hsight, ← hvalue]
    rfl

/-- After a completed tick in which a node is visited, its receipts agree with what was gathered. -/
theorem Received.agrees_of_visits (h : e.Received r) {now : Float} {info : TickInfo}
    {events : List Event} (htick : e.tickAt now = (e', .completed info, events)) {v : Node}
    (hv : v ∈ e.graph.nodes) {d : NodeDefinition} (hd : e.graph.catalog.get? v.type = some d)
    (hsink : d.sink.isSome) (hports : (d.inputs.map Port.id).Nodup)
    (hvisits : e.visits v.id = true) {p : Port} (hp : p ∈ d.sinkInputs) :
    (e.receive (.tick now) r v.id p.id).Agrees (e'.graph.gathered? v.id p.id) p.default := by
  have hids := h.reachable.uniqueIds
  obtain ⟨s, d', t, hturn⟩ := exists_turn h.reachable htick hv
  obtain rfl : d' = d := hturn.unique hids hv hd
  have hids' : e'.graph.UniqueIds := hids.congr hturn.skeleton
  obtain ⟨n, hvisited⟩ := hturn.exists_visited hids' hvisits
  have huptodate :=
    hturn.upToDate_of_visits hvisits hvisited (h.inStep.upToDate hturn.definition)
  have hagrees := huptodate hsink hports p hp _ rfl
  rw [hturn.get?_sight hids'] at hagrees
  rw [receive, htick]
  exact hagrees

/-- **No update is lost.** Take any run, any completed tick and any node that is visited in it, with
a sink hook and distinct input ids. If a point of delivery has gathered a bundle, every item of it
equals the last item that was handed over under its key; if it has gathered anything else, that
equals the last value that was handed over; and if it has gathered nothing, the last value that was
handed over is the default. Values are taken to hold no NaN, which equals nothing. What counts as
handed over are the inputs of the calls: when the hook is called and a list was gathered, its input
at the port is the list of the items that are noted, under their keys in the list gathered. -/
theorem no_update_lost (h : e.Received r) {now : Float} {info : TickInfo} {events : List Event}
    (htick : e.tickAt now = (e', .completed info, events)) {v : Node} (hv : v ∈ e.graph.nodes)
    {d : NodeDefinition} (hd : e.graph.catalog.get? v.type = some d) (hsink : d.sink.isSome)
    (hports : (d.inputs.map Port.id).Nodup) (hvisits : e.visits v.id = true) {p : Port}
    (hp : p ∈ d.sinkInputs) :
    (e'.graph.gathered? v.id p.id = none →
      (e.receive (.tick now) r v.id p.id).last = some p.default) ∧
    (∀ x, e'.graph.gathered? v.id p.id = some x → x.isNaNFree →
      (∀ items, x = .list items → x.isBundle → ∀ i y, items[i]? = some y →
        ∃ z, (e.receive (.tick now) r v.id p.id).members ⟨discriminant y,
          ((items.take i).map discriminant).count (discriminant y)⟩ = some z ∧ z == y) ∧
      (x.isBundle = false → ∃ z, (e.receive (.tick now) r v.id p.id).last = some z ∧ z == x)) ∧
    ∀ call items, sinkCallFor? events v.id = some call →
      e'.graph.gathered? v.id p.id = some (.list items) →
      ∃ handed, e.handedIn? e' v.id p.id = some handed ∧
        call.inputs.get? p.id = some (.list (handed.map Prod.snd)) ∧
        handed.Sublist (members items) := by
  have hagrees := h.agrees_of_visits htick hv hd hsink hports hvisits hp
  refine ⟨fun hnone ↦ ?_, fun x hx hfree ↦ ?_,
    fun call items hcall hitems ↦ handedIn?_spec h.reachable htick hv hd hports hp hcall hitems⟩
  · rw [hnone] at hagrees
    exact hagrees
  · rw [hx] at hagrees
    refine ⟨?_, fun hbundle ↦ hagrees.2 hbundle (Value.beq_self hfree)⟩
    rintro items rfl - i y hy
    have hself : y == y := Value.beq_self (Value.isNaNFree_of_mem hfree (List.mem_of_getElem? hy))
    exact hagrees.1 items rfl _ y (member?_of_getElem? hy) hself

/-- A cue that flashes and fades, and a rack of lamps: the flash is the same in every tick, the fade
is not. -/
def cueCatalog : Catalog := .ofDefinitions [
  { type := "cue"
    outputs := [{ id := "out", type := .command }]
    process := fun _ _ context ↦ .ok [("out", .list [
      .map [("action", .text "flash")],
      .map [("action", .text "fade"), ("time", .number context.timeMs)]])] },
  { type := "rack"
    inputs := [{ id := "in", type := .command, kind := .sink }]
    sink := some fun _ _ _ ↦ .ok () }]

/-- The engine around the two, at rest. -/
def cueEngine : Engine where
  graph := {
    catalog := cueCatalog
    nodes := [{ id := "a", type := "cue" }, { id := "b", type := "rack" }]
    connections := [⟨"ab", "a", "out", "b", "in"⟩] }
  config := {}
  watchdog := { config := .default }

/-- The engine around the two after its first tick. -/
def cuedEngine : Engine := ((cueEngine.call .start).1.call (.tick 0.0)).1

/-- The second tick hands the fade over and not the flash, but the flash is known from the first. -/
theorem no_update_lost_cuedEngine :
    ((sinkCallFor? (cuedEngine.tickAt 40.0).2.2 "b").bind fun call ↦ call.inputs.get? "in") =
      some (.list [.map [("action", .text "fade"), ("time", .number 40.0)]]) ∧
    ∃ r, cuedEngine.Received r ∧
      ∃ z, (cuedEngine.receive (.tick 40.0) r "b" "in").members ⟨"flash", 0⟩ = some z ∧
        z == .map [("action", .text "flash")] := by
  refine ⟨rfl, (cueEngine.call .start).1.receive (.tick 0.0) .fresh, ?_⟩
  have hreceived : cuedEngine.Received
      ((cueEngine.call .start).1.receive (.tick 0.0) .fresh) := by
    have hload : Graph.load cueCatalog cueEngine.graph.snapshot .strict =
        .ok (cueEngine.graph, {}) := rfl
    have hnew : Engine.new cueEngine.graph {} = .ok cueEngine := rfl
    exact ((Received.new (.load hload) hnew).call .start).call (.tick 0.0)
  have htick : cuedEngine.tickAt 40.0 = ((cuedEngine.tickAt 40.0).1,
      .completed { tick := 1, timeMs := 40.0, computed := 2, sinkCalls := 1 },
      (cuedEngine.tickAt 40.0).2.2) := rfl
  obtain ⟨n, hn, hid, hd⟩ : ∃ n ∈ cuedEngine.graph.nodes, n.id = "b" ∧
      cuedEngine.graph.catalog.get? n.type = some
        { type := "rack"
          inputs := [{ id := "in", type := .command, kind := .sink }]
          sink := some fun _ _ _ ↦ .ok () } := ⟨_, .tail _ (.head _), rfl, rfl⟩
  have hrack := no_update_lost hreceived htick hn hd rfl (by simp) (hid ▸ rfl)
    (p := { id := "in", type := .command, kind := .sink }) (.head _)
  rw [hid] at hrack
  exact ⟨hreceived, (hrack.2.1 _ rfl rfl).1 _ rfl rfl 0 _ rfl⟩

end Engine

end CueFlow
