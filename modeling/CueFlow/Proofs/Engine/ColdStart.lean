import CueFlow.Proofs.Engine.Halt
import CueFlow.Proofs.Engine.HeldOverrides
import CueFlow.Proofs.Engine.HostView
import CueFlow.Proofs.Partition.Deployment
/-!
# Stop and start is a cold start

An engine that has stopped, by itself or because of a halt, is cold: what it remembered of its nodes
and what its watchdog observed is gone (`Engine.Cold`). What is left is the graph without outputs,
the overrides that it holds, and some leftovers of the last run: a plan, the generation of the
graph, the report of the halt, and the number and the time of the last tick. A start does away with
the last three (`start_rested`), and the other two are under the veil. So a fresh engine around the
snapshot of the graph, into which the overrides are set again, cannot be told apart from it once
both have been started (`restart_is_cold_start`).
-/

namespace CueFlow

open Engine

/-- From now on the policy answers as that of the engine would. A stateless policy does so from
every engine in which it is installed (`HostPolicy.Steady.goesOn`). -/
structure HostPolicy.GoesOn (p : HostPolicy) (e : Engine) : Prop where
  node : p.node = e.policy.node
  sink : p.sink = e.policy.sink
  compute : ∀ v k, p.compute v k = e.policy.compute v (e.askedOf v + k)

theorem HostPolicy.Steady.goesOn {e : Engine} (h : e.policy.Steady) : e.policy.GoesOn e :=
  ⟨rfl, rfl, fun v k ↦ h v k _⟩

namespace Engine

/-- These calls set again the overrides that the engine holds, with their values, lifetimes and
times. -/
def Resets (e : Engine) (calls : List HostCall) : Prop :=
  ∀ c, c ∈ calls ↔ ∃ v kind key o, e.overrides.get? v kind key = some o ∧
    c = .setOverride v kind key o.value o.lifetime o.updatedAt

/-- The engine without what a start does away with. -/
def rested (e : Engine) : Engine := { e with halted := none, tick := 0, lastTickMs := none }

variable {e e' f : Engine}

theorem start_rested (e : Engine) : e.rested.start = e.start := by
  have hgraph : e.rested.graph = e.graph := rfl
  rw [start, compileNow, hgraph, start, compileNow]
  cases e.graph.compile with
  | ok plan => rfl
  | error error => rfl

/-! ### Making an engine again -/

/-- The config of a reachable engine is valid. -/
theorem Reachable.new_eq_ok (h : e.Reachable) (g : Graph) : Engine.new g e.config =
    .ok { graph := g, config := e.config, watchdog := { config := e.config.watchdog } } := by
  induction h with
  | new _ hnew =>
    have hmade := new_of_new hnew g
    rw [new_eq hnew] at hmade ⊢
    exact hmade
  | @call e c _ ih =>
    rw [(e.moves_call c).config]
    exact ih

/-- An engine is made around the snapshot of every reachable one. -/
theorem Reachable.ofState_snapshot (h : e.Reachable) :
    Engine.ofState e.graph.catalog e.graph.snapshot e.config = .ok ({
      graph := e.graph.reloaded
      config := e.config
      watchdog := { config := e.config.watchdog } }, {}) :=
  (ofState_snapshot_iff h.uniqueIds h.sound h.wired).2 ⟨h.new_eq_ok _, rfl⟩

/-! ### Setting overrides again -/

/-- Every engine that a host can bring about can have its overrides set again. -/
theorem Reachable.exists_resets (h : e.Reachable) : ∃ calls, e.Resets calls := by
  have hvalid := h.holdsOverrides.valid
  refine ⟨e.overrides.nodes.flatMap fun entry ↦ [.input, .config].flatMap fun kind ↦
    (entry.2.side kind).map fun (key, o) ↦
      .setOverride entry.1 kind key o.value o.lifetime o.updatedAt, fun c ↦ ?_⟩
  constructor
  · intro hc
    obtain ⟨⟨v, overrides⟩, hv, hc⟩ := List.mem_flatMap.1 hc
    obtain ⟨kind, -, hc⟩ := List.mem_flatMap.1 hc
    obtain ⟨⟨key, o⟩, ho, rfl⟩ := List.mem_map.1 hc
    have hnode := hvalid.sorted.get?_eq_some_iff.2 hv
    refine ⟨v, kind, key, o, ?_, rfl⟩
    rw [OverrideStore.get?, hnode]
    exact ((hvalid.node v overrides hnode).sorted kind).get?_eq_some_iff.2 ho
  · rintro ⟨v, kind, key, o, ho, rfl⟩
    obtain ⟨overrides, hnode, ho⟩ := Option.bind_eq_some_iff.1 ho
    refine List.mem_flatMap.2 ⟨(v, overrides), KeyMap.mem_of_get? hnode, ?_⟩
    refine List.mem_flatMap.2 ⟨kind, by cases kind <;> simp, ?_⟩
    exact List.mem_map.2 ⟨(key, o), KeyMap.mem_of_get? ho, rfl⟩

theorem call_setOverride {v : NodeId} (hv : (f.graph.node? v).isSome) (kind : OverrideKind)
    (key : String) (value : Value) (lifetime : Option Float) (now : Float) :
    (f.call (.setOverride v kind key value lifetime now)).1 =
      { f with overrides := f.overrides.set v kind key value lifetime now } := by
  obtain ⟨n, hn⟩ := Option.isSome_iff_exists.1 hv
  rw [call, setOverride, hn]
  rfl

/-- Setting overrides of a store again changes nothing but the overrides, and what has been set is
found as it is in the store. -/
theorem run_resets (store : OverrideStore Float) {calls : List HostCall}
    (hcalls : ∀ c ∈ calls, ∃ v kind key o, store.get? v kind key = some o ∧
      (f.graph.node? v).isSome ∧ c = .setOverride v kind key o.value o.lifetime o.updatedAt) :
    ∃ overrides, (f.run calls).1 = { f with overrides } ∧ ∀ v kind key,
      (f.overrides.get? v kind key = store.get? v kind key ∨ ∃ o, store.get? v kind key = some o ∧
        .setOverride v kind key o.value o.lifetime o.updatedAt ∈ calls) →
      overrides.get? v kind key = store.get? v kind key := by
  induction calls generalizing f with
  | nil =>
    refine ⟨f.overrides, rfl, fun v kind key hkey ↦ ?_⟩
    obtain hkey | ⟨_, -, hmem⟩ := hkey
    · exact hkey
    · cases hmem
  | cons c rest ih =>
    obtain ⟨v', kind', key', o', ho', hv', rfl⟩ := hcalls _ List.mem_cons_self
    have hcall := call_setOverride hv' kind' key' o'.value o'.lifetime o'.updatedAt
    obtain ⟨overrides, hrun, hfound⟩ := ih (f := { f with
      overrides := f.overrides.set v' kind' key' o'.value o'.lifetime o'.updatedAt })
      fun c hc ↦ hcalls c (List.mem_cons_of_mem _ hc)
    refine ⟨overrides, (congrArg (fun f' : Engine ↦ (f'.run rest).1) hcall).trans hrun,
      fun v kind key hkey ↦ hfound v kind key ?_⟩
    rw [OverrideStore.get?_set]
    split
    next hsame =>
      obtain ⟨rfl, rfl, rfl⟩ := hsame
      exact .inl ho'.symm
    next hother =>
      refine hkey.imp_right fun ⟨o, ho, hmem⟩ ↦ ⟨o, ho, ?_⟩
      refine (List.mem_cons.1 hmem).resolve_left fun heq ↦ hother ?_
      injection heq with hv hkind hkey
      exact ⟨hv.symm, hkind.symm, hkey.symm⟩

/-! ### The restart -/

/-- What has been stopped is cold, and around the same catalog and config. -/
theorem cold_of_stopped (he : e.Reachable) (hrunning : e.running = true)
    (hstopped : e' = e.stop.1 ∨ ∃ now report events, e.tickAt now = (e', .halted report, events)) :
    e'.Reachable ∧ e'.Cold ∧ e'.graph.catalog = e.graph.catalog ∧ e'.config = e.config := by
  obtain rfl | ⟨now, report, events, htick⟩ := hstopped
  · exact ⟨he.call .stop, cold_stop he hrunning, Graph.catalog_congr e.stop_fst.1,
      e.stop_fst.2.2.1⟩
  · have hskel := e.skeleton_tickAt now
    have hreach := he.call (.tick now)
    rw [htick] at hskel
    rw [call, htick] at hreach
    exact ⟨hreach, (haltedBy he htick).cold, Graph.catalog_congr hskel, (haltedBy he htick).config⟩

/-- **A cold engine cannot be told apart from a fresh one** around its snapshot that holds the same
overrides. -/
theorem Cold.veiled_rested (h : e.Cold) {policy : HostPolicy} (hpolicy : policy.GoesOn e) :
    ({ graph := e.graph.reloaded
       config := e.config
       watchdog := { config := e.config.watchdog }
       overrides := e.overrides
       policy } : Engine).veiled = e.rested.veiled := by
  have hresumed : policy.resumed [] = e.policy.resumed e.asked := by
    obtain ⟨node, compute, sink⟩ := policy
    obtain rfl : node = _ := hpolicy.node
    obtain rfl : sink = _ := hpolicy.sink
    refine congrArg (fun compute ↦ { e.policy with compute }) (funext fun v ↦ funext fun k ↦ ?_)
    exact (congrArg (compute v) (Nat.zero_add k)).trans (hpolicy.compute v k)
  obtain ⟨hrunning, hmemory, hwatchdog⟩ := h
  rw [veiled, veiled, rested, hrunning, hmemory, hwatchdog, ← hresumed]
  rfl

/-- **Stop and start is a cold start.** After a stop or a halt, a fresh engine around the snapshot,
in which a policy that goes on like the old one is installed and the overrides are set again, starts
if and only if the stopped engine does, and is refused with the same error otherwise. Once both have
started, they look the same in every sequence of calls. -/
theorem restart_is_cold_start (he : e.Reachable) (hrunning : e.running = true)
    (hstopped : e' = e.stop.1 ∨ ∃ now report events, e.tickAt now = (e', .halted report, events)) :
    ∃ fresh, Engine.ofState e.graph.catalog e'.graph.snapshot e.config = .ok (fresh, {}) ∧
      ∀ policy resets, policy.GoesOn e' → e'.Resets resets →
        ∀ f, f = ((fresh.setPolicy policy).run resets).1 →
          f.result .start = e'.result .start ∧
          ∀ f₁ e₁, f.start = .ok f₁ → e'.start = .ok e₁ →
            ∀ calls, f₁.views calls = e₁.views calls := by
  obtain ⟨hreach, hcold, hcatalog, hconfig⟩ := cold_of_stopped he hrunning hstopped
  have hfresh := hreach.ofState_snapshot
  rw [hcatalog, hconfig] at hfresh
  refine ⟨_, hfresh, fun policy resets hpolicy hresets f hf ↦ ?_⟩
  have hreachF : f.Reachable :=
    hf ▸ ((Reachable.ofState hfresh).call (.setPolicy policy)).run resets
  obtain ⟨overrides, hrun, hfound⟩ := run_resets e'.overrides (f := ({
      graph := e'.graph.reloaded
      config := e.config
      watchdog := { config := e.config.watchdog }
      policy } : Engine)) fun c (hc : c ∈ resets) ↦ by
    obtain ⟨v, kind, key, o, ho, rfl⟩ := (hresets c).1 hc
    exact ⟨v, kind, key, o, ho, hreach.holdsOverrides.node v kind key o ho, rfl⟩
  obtain rfl := hf.trans hrun
  -- Setting the overrides again brings back the whole store.
  obtain rfl : overrides = e'.overrides := by
    refine hreachF.holdsOverrides.valid.ext hreach.holdsOverrides.valid fun v kind key ↦
      hfound v kind key ?_
    cases ho : e'.overrides.get? v kind key with
    | none => exact .inl rfl
    | some o => exact .inr ⟨o, rfl, (hresets _).2 ⟨v, kind, key, o, ho, rfl⟩⟩
  rw [← hconfig] at hreachF ⊢
  have hstart := start_congr (hcold.veiled_rested hpolicy)
  rw [start_rested] at hstart
  refine ⟨CallResult.ofExcept_congr hstart fun _ _ _ ↦ rfl, fun f₁ e₁ hf₁ he₁ calls ↦ ?_⟩
  rw [hf₁, he₁] at hstart
  exact views_congr (Except.ok.inj hstart) (hreachF.start hf₁).planSound
    (hreach.start he₁).planSound calls

/-- An engine whose wire is overridden, after a tick. -/
def overriddenEngine : Engine :=
  (sampleEngine.run [.start, .setOverride "b" .input "in" (.number 0.5) none 0.0, .tick 0.0]).1

/-- The engine that is stopped and started, and a fresh one in which the wire is overridden again,
both start and look the same for ever. -/
theorem restart_is_cold_start_sample : ∃ fresh f₁ e₁,
    Engine.ofState sampleCatalog overriddenEngine.stop.1.graph.snapshot {} = .ok (fresh, {}) ∧
    (fresh.run [.setOverride "b" .input "in" (.number 0.5) none 0.0]).1.start = .ok f₁ ∧
    overriddenEngine.stop.1.start = .ok e₁ ∧ ∀ calls, f₁.views calls = e₁.views calls := by
  have hreach : overriddenEngine.Reachable := reachable_sampleEngine.run _
  obtain ⟨fresh, hfresh, hsame⟩ := restart_is_cold_start hreach rfl (.inl rfl)
  have hresets : overriddenEngine.stop.1.Resets
      [.setOverride "b" .input "in" (.number 0.5) none 0.0] := by
    have hheld : overriddenEngine.stop.1.overrides =
        OverrideStore.set {} "b" .input "in" (.number 0.5) none 0.0 := rfl
    intro c
    rw [List.mem_singleton]
    constructor
    · rintro rfl
      exact ⟨"b", .input, "in", ⟨.number 0.5, 0.0, none⟩, rfl, rfl⟩
    · rintro ⟨v, kind, key, o, ho, rfl⟩
      rw [hheld, OverrideStore.get?_set] at ho
      split at ho
      next hkey =>
        obtain ⟨rfl, rfl, rfl⟩ := hkey
        obtain rfl := Option.some.inj ho
        rfl
      next => cases ho
  have hsteady : overriddenEngine.stop.1.policy.Steady := HostPolicy.steady_allEnabled
  obtain ⟨-, hviews⟩ := hsame _ _ hsteady.goesOn hresets _ rfl
  obtain ⟨rfl, -⟩ := Prod.mk.inj (Except.ok.inj hfresh)
  exact ⟨_, _, _, rfl, rfl, rfl, hviews _ _ rfl rfl⟩

end Engine

end CueFlow
