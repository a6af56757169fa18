import CueFlow.Proofs.Engine.Tick
/-!
# How a step of the sink pass goes

A step of the sink pass goes one of five ways (`Tick.SinkMove`, `sinkMove`): it is skipped, it finds
its node unplugged, its visit is quiet because nothing changed, it trips the watchdog, or it
delivers. What it is about to deliver is its *offer* (`Tick.offer?`), what the watchdog makes of
that is its *verdict* (`Tick.verdict?`), and all that the outside sees of the step follows from the
two: the report that ends the pass (`sinkStep_snd`), the count of deliveries
(`burstCount_sinkStep`) and the one call of a sink hook (`sinkCalls_sinkStep`).
-/

namespace CueFlow

/-! ### Calls of sink hooks -/

/-- The call of a sink hook that an event tells of. -/
def Event.sinkCall? : Event → Option HookCall
  | .called call => if call.hook = .sink then some call else none
  | _ => none

/-- The calls of sink hooks among some events. -/
def sinkCalls (events : List Event) : List HookCall := events.filterMap Event.sinkCall?

@[simp]
theorem sinkCalls_append (xs ys : List Event) :
    sinkCalls (xs ++ ys) = sinkCalls xs ++ sinkCalls ys :=
  List.filterMap_append

theorem mem_sinkCalls {events : List Event} {call : HookCall} :
    call ∈ sinkCalls events ↔ .called call ∈ events ∧ call.hook = .sink := by
  rw [sinkCalls, List.mem_filterMap]
  constructor
  · rintro ⟨event, hevent, h⟩
    cases event with
    | called call' =>
      rw [Event.sinkCall?] at h
      split at h
      next hsink =>
        obtain rfl := Option.some.inj h
        exact ⟨hevent, hsink⟩
      next => cases h
    | ticked info => cases h
    | halted report => cases h
  · rintro ⟨hmem, hsink⟩
    exact ⟨_, hmem, by rw [Event.sinkCall?, if_pos hsink]⟩

theorem sinkCalls_eq_nil {calls : List HookCall} (h : ∀ call ∈ calls, call.hook ≠ .sink) :
    sinkCalls (calls.map .called) = [] := by
  rw [List.eq_nil_iff_forall_not_mem]
  intro call hcall
  obtain ⟨hmem, hsink⟩ := mem_sinkCalls.1 hcall
  obtain ⟨call', hcall', heq⟩ := List.mem_map.1 hmem
  obtain rfl := Event.called.inj heq
  exact h call' hcall' hsink

namespace Tick

variable {t : Tick} {s : PlanStep} {n : Node}

/-! ### Visits, offers and verdicts -/

/-- The node that a step of the sink pass attends to: its own, if that has points of delivery and
the gates allow it. -/
def attended? (t : Tick) (s : PlanStep) : Option Node :=
  if s.definition.hasSinkInputs && (t.sinkAllowed s).1 then t.engine.graph.nodes[s.index]?
  else none

/-- The node that a step of the sink pass visits: one that it attends to, with anything connected.
-/
def visited? (t : Tick) (s : PlanStep) : Option Node :=
  if s.sinkConnectionCount = 0 then none else t.attended? s

/-- What a step is about to deliver, and what it found. -/
def offer? (t : Tick) (s : PlanStep) : Option (SinkSnapshot × ValueMap) :=
  (t.visited? s).bind fun n ↦
    (delivery? (t.engine.memoryOf s.node).sinkSnapshot (t.sight s n)).map fun delivered ↦
      (t.sight s n, delivered)

/-- What the watchdog makes of an offer: the report of the first check that trips. -/
def verdict? (t : Tick) (s : PlanStep) : Option HaltReport :=
  (t.offer? s).bind fun offer ↦
    (t.engine.watchdog.review s.node offer.2 offer.1.sinkValues t.nowMs).2

/-- One of the two checks trips on the offer of a step. -/
def Trips (t : Tick) (s : PlanStep) (report : HaltReport) : Prop :=
  ∃ found delivered, t.offer? s = some (found, delivered) ∧
    ((t.engine.watchdog.checkBurst s.node delivered).2 = some report ∨
      (t.engine.watchdog.checkBurst s.node delivered).2 = none ∧
        ((t.engine.watchdog.checkBurst s.node delivered).1.checkOscillation s.node
          found.sinkValues t.nowMs).2 = some report)

theorem verdict?_eq_some_iff {report : HaltReport} :
    t.verdict? s = some report ↔ t.Trips s report := by
  rw [verdict?, Trips, Option.bind_eq_some_iff]
  constructor
  · rintro ⟨⟨found, delivered⟩, hoffer, hreview⟩
    rw [Watchdog.review_snd, Option.or_eq_some_iff] at hreview
    exact ⟨found, delivered, hoffer, hreview⟩
  · rintro ⟨found, delivered, hoffer, htrips⟩
    refine ⟨⟨found, delivered⟩, hoffer, ?_⟩
    rw [Watchdog.review_snd, Option.or_eq_some_iff]
    exact htrips

/-- How many values a step is about to deliver. -/
def offered (t : Tick) (s : PlanStep) : Nat :=
  ((t.offer? s).map fun offer ↦ Watchdog.deliveries offer.2).getD 0

/-- The call of the sink hook that a step makes. -/
def handOver? (t : Tick) (s : PlanStep) : Option HookCall :=
  if (t.verdict? s).isSome then none
  else
    (t.offer? s).bind fun offer ↦ s.definition.sink.map fun _ ↦
      ⟨.sink, sinkInputsFor s.definition offer.1.computeInputs offer.2, offer.1.config,
        t.context s.node⟩

/-! ### The five ways of a step -/

/-- How a step of the sink pass goes. -/
inductive SinkMove (t : Tick) (s : PlanStep) : Tick × Option HaltReport → Prop
  | skipped {t' : Tick} (hnone : t.attended? s = none) (hsame : t' = t ∨ t' = t.noteAsked s.node) :
      SinkMove t s (t', none)
  | unplugged {n : Node} (hattended : t.attended? s = some n) (hcount : s.sinkConnectionCount = 0) :
      SinkMove t s ((t.noteAsked s.node).visitUnplugged s n, none)
  | quiet {n : Node} (hvisited : t.visited? s = some n)
      (hnone : delivery? (t.engine.memoryOf s.node).sinkSnapshot (t.sight s n) = none) :
      SinkMove t s (((t.noteAsked s.node).connect s).keepVisit s (t.sight s n), none)
  | tripped {n : Node} {delivered : ValueMap} {report : HaltReport}
      (hvisited : t.visited? s = some n)
      (hsome : delivery? (t.engine.memoryOf s.node).sinkSnapshot (t.sight s n) = some delivered)
      (hreview : (t.engine.watchdog.review s.node delivered (t.sight s n).sinkValues t.nowMs).2 =
        some report) :
      SinkMove t s ((((t.noteAsked s.node).connect s).guardDelivery s (t.sight s n) delivered).1,
        some report)
  | delivered {n : Node} {delivered : ValueMap} (hvisited : t.visited? s = some n)
      (hsome : delivery? (t.engine.memoryOf s.node).sinkSnapshot (t.sight s n) = some delivered)
      (hreview : (t.engine.watchdog.review s.node delivered (t.sight s n).sinkValues t.nowMs).2 =
        none) :
      SinkMove t s
        (((((t.noteAsked s.node).connect s).guardDelivery s (t.sight s n) delivered).1.deliver s
          (t.sight s n) delivered).keepVisit s (t.sight s n), none)

/-- Noting that something is connected does not change what a visit finds. -/
theorem sight_connect (t : Tick) (s : PlanStep) (n : Node) :
    (t.connect s).sight s n = t.sight s n := by
  rw [sight, connect, engine_mapEngine, Engine.memoryOf_remember_self]
  rfl

theorem sinkSnapshot_connect (t : Tick) (s : PlanStep) :
    ((t.connect s).engine.memoryOf s.node).sinkSnapshot =
      (t.engine.memoryOf s.node).sinkSnapshot := by
  rw [connect, engine_mapEngine, Engine.memoryOf_remember_self]

/-- A visit goes one of three ways. -/
theorem sinkMove_visit (hvisited : t.visited? s = some n) :
    SinkMove t s ((t.noteAsked s.node).visit s n) := by
  have hsight : ((t.noteAsked s.node).connect s).sight s n = t.sight s n :=
    sight_connect (t.noteAsked s.node) s n
  have hsnapshot : (((t.noteAsked s.node).connect s).engine.memoryOf s.node).sinkSnapshot =
      (t.engine.memoryOf s.node).sinkSnapshot :=
    sinkSnapshot_connect (t.noteAsked s.node) s
  rw [visit, hsight, hsnapshot]
  split
  next hnone => exact .quiet hvisited hnone
  next delivered hsome =>
    split
    next guarded report heq =>
      obtain ⟨rfl, hreview⟩ := Prod.mk.inj heq
      exact .tripped hvisited hsome hreview
    next guarded heq =>
      obtain ⟨rfl, hreview⟩ := Prod.mk.inj heq
      exact .delivered hvisited hsome hreview

/-- The gates of the sink pass ask the compute gate at most once. -/
theorem sinkAllowed_snd (t : Tick) (s : PlanStep) :
    (t.sinkAllowed s).2 = t ∧ (t.sinkAllowed s).1 = false ∨
      (t.sinkAllowed s).2 = t.noteAsked s.node := by
  rw [sinkAllowed]
  split
  · exact .inr rfl
  · exact .inl ⟨rfl, rfl⟩

/-- **A step of the sink pass goes one of five ways.** -/
theorem sinkMove (t : Tick) (s : PlanStep) : SinkMove t s (t.sinkStep s) := by
  have hgates := t.sinkAllowed_snd s
  rw [sinkStep]
  split
  next hsink =>
    cases hallowed : t.sinkAllowed s with
    | mk allowed asked =>
      rw [hallowed] at hgates
      dsimp only at hgates ⊢
      cases allowed with
      | false =>
        refine .skipped ?_ (hgates.imp_left And.left)
        rw [attended?, hallowed, Bool.and_false]
        rfl
      | true =>
        obtain rfl : asked = t.noteAsked s.node := by simpa using hgates
        have hattended : t.attended? s = t.engine.graph.nodes[s.index]? := by
          rw [attended?, hallowed, hsink]
          rfl
        rw [if_pos rfl, graph_noteAsked]
        split
        next hnone => exact .skipped (hattended.trans hnone) (.inr rfl)
        next n hn =>
          split
          next hcount => exact .unplugged (hattended.trans hn) hcount
          next hcount =>
            have hvisited : t.visited? s = some n := by
              rw [visited?, if_neg hcount, hattended, hn]
            exact sinkMove_visit hvisited
  next hsink =>
    refine .skipped ?_ (.inl rfl)
    simp [attended?, hsink]

/-! ### What follows from an offer -/

theorem visited?_of_attended? (h : t.attended? s = none) : t.visited? s = none := by
  rw [visited?, h]
  split <;> rfl

theorem attended?_of_visited? (h : t.visited? s = some n) : t.attended? s = some n := by
  rw [visited?] at h
  split at h
  · cases h
  · exact h

/-- The node that a step visits is the one at its place. -/
theorem nodes_of_visited? (h : t.visited? s = some n) :
    t.engine.graph.nodes[s.index]? = some n := by
  have hattended := attended?_of_visited? h
  rw [attended?] at hattended
  split at hattended
  · exact hattended
  · cases hattended

theorem visited?_of_count (h : s.sinkConnectionCount = 0) : t.visited? s = none := by
  rw [visited?, if_pos h]

theorem offer?_of_visited? (h : t.visited? s = none) : t.offer? s = none := by
  rw [offer?, h]
  rfl

theorem offer?_eq (h : t.visited? s = some n) : t.offer? s =
    (delivery? (t.engine.memoryOf s.node).sinkSnapshot (t.sight s n)).map fun delivered ↦
      (t.sight s n, delivered) := by
  rw [offer?, h]
  rfl

/-- An offer is made on a visit. -/
theorem exists_of_offer? {found : SinkSnapshot} {delivered : ValueMap}
    (h : t.offer? s = some (found, delivered)) : ∃ n, t.visited? s = some n ∧
      found = t.sight s n ∧
        delivery? (t.engine.memoryOf s.node).sinkSnapshot (t.sight s n) = some delivered := by
  obtain ⟨n, hvisited, h⟩ := Option.bind_eq_some_iff.1 h
  obtain ⟨delivered', hdelivery, heq⟩ := Option.map_eq_some_iff.1 h
  obtain ⟨rfl, rfl⟩ := Prod.mk.inj heq
  exact ⟨n, hvisited, rfl, hdelivery⟩

/-- What is handed over is an offer that passes the watchdog. -/
theorem exists_of_handOver? {call : HookCall} (h : t.handOver? s = some call) :
    ∃ found delivered, t.verdict? s = none ∧ t.offer? s = some (found, delivered) ∧
      call = ⟨.sink, sinkInputsFor s.definition found.computeInputs delivered, found.config,
        t.context s.node⟩ := by
  rw [handOver?] at h
  split at h
  · cases h
  next hverdict =>
    obtain ⟨⟨found, delivered⟩, hoffer, h⟩ := Option.bind_eq_some_iff.1 h
    obtain ⟨hook, -, rfl⟩ := Option.map_eq_some_iff.1 h
    exact ⟨found, delivered, by simpa using hverdict, hoffer, rfl⟩

/-- Unplugging is not the watchdog's business. -/
theorem watchdog_visitUnplugged (t : Tick) (s : PlanStep) (n : Node) :
    (t.visitUnplugged s n).engine.watchdog = t.engine.watchdog := by
  rw [visitUnplugged]
  split
  · rw [engine_mapEngine, engine_fireDisable]
    rfl
  · rfl

/-- **A step ends the pass exactly with its verdict.** -/
theorem sinkStep_snd (t : Tick) (s : PlanStep) : (t.sinkStep s).2 = t.verdict? s := by
  have hmove := t.sinkMove s
  generalize t.sinkStep s = r at hmove ⊢
  cases hmove with
  | skipped hnone _ => rw [verdict?, offer?_of_visited? (visited?_of_attended? hnone)]; rfl
  | unplugged _ hcount => rw [verdict?, offer?_of_visited? (visited?_of_count hcount)]; rfl
  | quiet hvisited hnone => rw [verdict?, offer?_eq hvisited, hnone]; rfl
  | tripped hvisited hsome hreview =>
    rw [verdict?, offer?_eq hvisited, hsome]
    exact hreview.symm
  | delivered hvisited hsome hreview =>
    rw [verdict?, offer?_eq hvisited, hsome]
    exact hreview.symm

/-- **The watchdog reviews every offer**, and nothing else of a step is its business. -/
theorem watchdog_sinkStep (t : Tick) (s : PlanStep) : (t.sinkStep s).1.engine.watchdog =
    match t.offer? s with
    | some offer =>
      (t.engine.watchdog.review s.node offer.2 offer.1.sinkValues t.nowMs).1
    | none => t.engine.watchdog := by
  have hmove := t.sinkMove s
  generalize t.sinkStep s = r at hmove ⊢
  cases hmove with
  | skipped hnone hsame =>
    rw [offer?_of_visited? (visited?_of_attended? hnone)]
    obtain rfl | rfl := hsame <;> rfl
  | unplugged _ hcount =>
    rw [offer?_of_visited? (visited?_of_count hcount), watchdog_visitUnplugged]
    rfl
  | quiet hvisited hnone =>
    rw [offer?_eq hvisited, hnone]
    rfl
  | tripped hvisited hsome =>
    rw [offer?_eq hvisited, hsome]
    rfl
  | @delivered n delivered hvisited hsome =>
    rw [offer?_eq hvisited, hsome]
    show (((_ : Tick).deliver s (t.sight s n) delivered).engine.watchdog) = _
    rw [engine_deliver]
    rfl

/-- A step that offers nothing is not the watchdog's business. -/
theorem watchdog_of_offer? (h : t.offer? s = none) :
    (t.sinkStep s).1.engine.watchdog = t.engine.watchdog := by
  rw [watchdog_sinkStep, h]

/-- **Every offer is counted**, whatever its verdict. -/
theorem burstCount_sinkStep (t : Tick) (s : PlanStep) :
    (t.sinkStep s).1.engine.watchdog.burstCount =
      t.engine.watchdog.burstCount + t.offered s := by
  rw [watchdog_sinkStep, offered]
  cases t.offer? s with
  | none => rfl
  | some offer => exact (Watchdog.review_fst _ s.node offer.2 offer.1.sinkValues t.nowMs).2

/-- A step touches what is observed of its own node only. -/
theorem observed_sinkStep_of_ne {v : NodeId} (hv : v ≠ s.node) (t : Tick) (port : String) :
    (t.sinkStep s).1.engine.watchdog.observed v port = t.engine.watchdog.observed v port := by
  rw [watchdog_sinkStep]
  cases t.offer? s with
  | none => rfl
  | some offer => exact Watchdog.observed_review (Ne.symm hv) offer.2 offer.1.sinkValues port

/-- What touches no sink hook calls none. -/
theorem Touches.sinkCalls_eq {steps : List PlanStep} {hooks : List HookKind} {t' : Tick}
    (h : Touches steps hooks t t') (hno : .sink ∉ hooks) :
    sinkCalls t'.events = sinkCalls t.events := by
  obtain ⟨calls, hevents, hcalls⟩ := h.events
  have hnone : ∀ call ∈ calls, call.hook ≠ .sink := by
    intro call hcall hsink
    exact hno (hsink ▸ (hcalls call hcall).2)
  rw [hevents, sinkCalls_append, sinkCalls_eq_nil hnone, List.append_nil]

/-- The calls of some steps are calls for their nodes. -/
theorem Touches.node_mem {steps : List PlanStep} {hooks : List HookKind} {t' : Tick}
    (h : Touches steps hooks t t') (hnone : sinkCalls t.events = []) {call : HookCall}
    (hcall : call ∈ sinkCalls t'.events) : call.context.node ∈ steps.map PlanStep.node := by
  obtain ⟨calls, hevents, hcalls⟩ := h.events
  rw [hevents, sinkCalls_append, hnone, List.nil_append] at hcall
  obtain ⟨call', hcall', heq⟩ := List.mem_map.1 (mem_sinkCalls.1 hcall).1
  obtain rfl := Event.called.inj heq
  exact (hcalls call' hcall').1

/-- Steps bring about calls and nothing else. -/
theorem Touches.exists_calls {steps : List PlanStep} {hooks : List HookKind} {t' : Tick}
    (h : Touches steps hooks t t')
    (hcalls : ∃ calls : List HookCall, t.events = calls.map .called) :
    ∃ calls : List HookCall, t'.events = calls.map .called := by
  obtain ⟨calls, hevents⟩ := hcalls
  obtain ⟨calls', hevents', -⟩ := h.events
  exact ⟨calls ++ calls', by rw [hevents', hevents, List.map_append]⟩

theorem sinkCalls_deliver (t : Tick) (s : PlanStep) (current : SinkSnapshot)
    (delivered : ValueMap) : sinkCalls (t.deliver s current delivered).events =
      sinkCalls t.events ++ (s.definition.sink.map fun _ ↦ (⟨.sink,
        sinkInputsFor s.definition current.computeInputs delivered, current.config,
        t.context s.node⟩ : HookCall)).toList := by
  rw [deliver]
  split
  next hnone => simp [hnone]
  next hook hsome =>
    rw [hsome]
    dsimp only
    split
    · simp [sinkCalls, Event.sinkCall?]
    · simp [sinkCalls, Event.sinkCall?]

/-- **A step calls a sink hook exactly to hand its offer over.** -/
theorem sinkCalls_sinkStep (t : Tick) (s : PlanStep) :
    sinkCalls (t.sinkStep s).1.events = sinkCalls t.events ++ (t.handOver? s).toList := by
  have hmove := t.sinkMove s
  generalize t.sinkStep s = r at hmove ⊢
  cases hmove with
  | skipped hnone hsame =>
    rw [handOver?, verdict?, offer?_of_visited? (visited?_of_attended? hnone)]
    obtain rfl | rfl := hsame <;> simp [noteAsked]
  | @unplugged n _ hcount =>
    have htouches : Touches [s] [.disable] (t.noteAsked s.node)
        ((t.noteAsked s.node).visitUnplugged s n) :=
      Touches.visitUnplugged (by simp) _ s n
    rw [handOver?, verdict?, offer?_of_visited? (visited?_of_count hcount)]
    rw [htouches.sinkCalls_eq (by simp)]
    simp [noteAsked]
  | quiet hvisited hnone =>
    rw [handOver?, verdict?, offer?_eq hvisited, hnone]
    simp [keepVisit, connect, noteAsked]
  | tripped hvisited hsome hreview =>
    rw [handOver?, verdict?, offer?_eq hvisited, hsome]
    simp [hreview, guardDelivery, connect, noteAsked]
  | delivered hvisited hsome hreview =>
    rw [handOver?, verdict?, offer?_eq hvisited, hsome]
    show sinkCalls (Tick.deliver _ s _ _).events = _
    rw [sinkCalls_deliver]
    simp [hreview]
    rfl

/-! ### The pass -/

/-- How many values the steps are about to deliver, up to the first report. -/
def offeredIn (t : Tick) : List PlanStep → Nat
  | [] => 0
  | s :: rest =>
    t.offered s +
      match t.sinkStep s with
      | (t', none) => t'.offeredIn rest
      | (_, some _) => 0

/-- A verdict ends the pass. -/
theorem sinkPass_of_verdict? {report : HaltReport} (h : t.verdict? s = some report)
    (rest : List PlanStep) : t.sinkPass (s :: rest) = ((t.sinkStep s).1, some report) := by
  rw [← sinkStep_snd] at h
  rw [sinkPass, ← h]
  split
  next heq => rw [heq]
  next heq =>
    rw [heq] at h
    cases h

theorem sinkPass_of_no_verdict? (h : t.verdict? s = none) (rest : List PlanStep) :
    t.sinkPass (s :: rest) = (t.sinkStep s).1.sinkPass rest := by
  rw [← sinkStep_snd] at h
  rw [sinkPass]
  split
  next heq =>
    rw [heq] at h
    cases h
  next heq => rw [heq]

/-- A pass over more steps goes on where the pass over the first of them has ended. -/
theorem sinkPass_append {before : List PlanStep} {t' : Tick}
    (h : t.sinkPass before = (t', none)) (rest : List PlanStep) :
    t.sinkPass (before ++ rest) = t'.sinkPass rest := by
  induction before generalizing t with
  | nil =>
    obtain ⟨rfl, -⟩ := Prod.mk.inj h
    rfl
  | cons s before ih =>
    rw [sinkPass] at h
    rw [List.cons_append, sinkPass]
    split at h
    next t₁ report heq => cases h
    next t₁ heq => exact ih h

/-- A pass touches what is observed of the nodes of its steps only. -/
theorem observed_sinkPass {steps : List PlanStep} {v : NodeId}
    (hv : v ∉ steps.map PlanStep.node) (t : Tick) (port : String) :
    (t.sinkPass steps).1.engine.watchdog.observed v port =
      t.engine.watchdog.observed v port := by
  induction steps generalizing t with
  | nil => rfl
  | cons s rest ih =>
    rw [List.map_cons, List.mem_cons, not_or] at hv
    have hstep := observed_sinkStep_of_ne hv.1 t port
    rw [sinkPass]
    split
    next t' report heq =>
      rw [heq] at hstep
      exact hstep
    next t' heq =>
      rw [heq] at hstep
      rw [ih hv.2, hstep]

theorem burstCount_sinkPass (t : Tick) (steps : List PlanStep) :
    (t.sinkPass steps).1.engine.watchdog.burstCount =
      t.engine.watchdog.burstCount + t.offeredIn steps := by
  induction steps generalizing t with
  | nil => rfl
  | cons s rest ih =>
    have hstep := t.burstCount_sinkStep s
    rw [sinkPass, offeredIn]
    split
    next t' report heq =>
      rw [heq] at hstep ⊢
      rw [hstep]
      rfl
    next t' heq =>
      rw [heq] at hstep ⊢
      rw [ih, hstep, Nat.add_assoc]

/-- A step that ends without a report stays within the ceiling. -/
theorem le_ceiling_of_verdict? (h : t.verdict? s = none)
    (hle : t.engine.watchdog.burstCount ≤ t.engine.watchdog.config.burstCeiling) :
    t.engine.watchdog.burstCount + t.offered s ≤ t.engine.watchdog.config.burstCeiling := by
  rw [verdict?] at h
  rw [offered]
  cases hoffer : t.offer? s with
  | none => exact hle
  | some offer =>
    rw [hoffer] at h
    exact Watchdog.le_ceiling_of_review _ h

/-- A pass that ends without a report stays within the ceiling. -/
theorem le_ceiling_of_sinkPass {steps : List PlanStep} (h : (t.sinkPass steps).2 = none)
    (hle : t.engine.watchdog.burstCount ≤ t.engine.watchdog.config.burstCeiling) :
    (t.sinkPass steps).1.engine.watchdog.burstCount ≤ t.engine.watchdog.config.burstCeiling := by
  induction steps generalizing t with
  | nil => exact hle
  | cons s rest ih =>
    have hverdict := t.sinkStep_snd s
    have hcount := t.burstCount_sinkStep s
    have hthresholds := (Touches.sinkStep t s).keeps.thresholds
    rw [sinkPass] at h ⊢
    split at h
    next t' report heq => cases h
    next t' heq =>
      rw [heq] at hverdict hcount hthresholds
      dsimp only at hverdict hcount hthresholds
      have hstep := le_ceiling_of_verdict? hverdict.symm hle
      rw [← hcount, ← hthresholds] at hstep
      rw [← hthresholds]
      exact ih h hstep

end Tick

end CueFlow
