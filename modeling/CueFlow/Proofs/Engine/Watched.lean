import CueFlow.Proofs.Command.Discrete
import CueFlow.Proofs.Engine.Alike
import CueFlow.Proofs.Engine.Questions
import CueFlow.Proofs.Graph.Recast
/-!
# Sink passes that the watchdog finds alike

The oscillation check looks at the discrete commands that a step gathers, and only if the step is
about to deliver anything (`verdict?_of_offer?`). Let two sink passes go over the same nodes, gather
the same discrete commands and, wherever there are any, be about to deliver in both or in neither.
Then they end with the same report or both with none, unless one of them exceeds the ceiling
(`WatchedAlike.sinkPass`): what else is gathered, what is cut out of a delivery and what is
remembered of the deliveries before makes no difference.
-/

namespace CueFlow

theorem Watchdog.reason_of_checkBurst {τ : Type} {w : Watchdog τ} {node : NodeId}
    {delivered : ValueMap} {report : HaltReport}
    (h : (w.checkBurst node delivered).2 = some report) : report.reason = .sinkBurst := by
  rw [checkBurst] at h
  dsimp only at h
  split at h
  · cases h
  · exact Option.some.inj h ▸ rfl

namespace Tick

variable {t t' : Tick} {s : PlanStep} {steps : List PlanStep} {F : Recasting}
  {continuous : List String}

/-! ### What the watchdog hears of a step -/

/-- What the oscillation check makes of all that a step gathers. -/
def heard (t : Tick) (s : PlanStep) : Watchdog Float × Option HaltReport :=
  t.engine.watchdog.checkOscillation s.node (s.gather t.engine.graph) t.nowMs

/-- **The watchdog hears of a step that is about to deliver anything**, unless the delivery exceeds
the ceiling. -/
theorem verdict?_of_offer? (hoffer : (t.offer? s).isSome)
    (hburst : ∀ report, t.verdict? s = some report → report.reason ≠ .sinkBurst) :
    t.verdict? s = (t.heard s).2 ∧ ∀ port,
      (t.sinkStep s).1.engine.watchdog.observed s.node port =
        (t.heard s).1.observed s.node port := by
  obtain ⟨⟨found, delivered⟩, hfound⟩ := Option.isSome_iff_exists.1 hoffer
  obtain ⟨n, -, hsight, -⟩ := exists_of_offer? hfound
  have hvalues : found.sinkValues = s.gather t.engine.graph := by rw [hsight, sight]
  have hverdict : t.verdict? s =
      (t.engine.watchdog.review s.node delivered (s.gather t.engine.graph) t.nowMs).2 := by
    rw [verdict?, hfound, Option.bind_some, hvalues]
  rw [hverdict, Watchdog.review_snd] at hburst
  have hwithin : (t.engine.watchdog.checkBurst s.node delivered).2 = none := by
    cases hcheck : (t.engine.watchdog.checkBurst s.node delivered).2 with
    | none => rfl
    | some report =>
      rw [hcheck] at hburst
      exact absurd (Watchdog.reason_of_checkBurst hcheck) (hburst report rfl)
  refine ⟨?_, fun port ↦ ?_⟩
  · rw [hverdict, Watchdog.review_snd, hwithin, Option.none_or, heard]
    exact (t.engine.watchdog.checkOscillation_checkBurst s.node delivered _ t.nowMs).1
  · rw [watchdog_sinkStep, hfound]
    dsimp only
    rw [hvalues, heard]
    exact Watchdog.observed_review_of_checkBurst hwithin _ port

theorem verdict?_of_not_offer? (hoffer : t.offer? s = none) : t.verdict? s = none := by
  rw [verdict?, hoffer]
  rfl

/-- Where nothing discrete is gathered, there is nothing to hear. -/
theorem heard_of_no_discrete (hcontinuous : t.engine.watchdog.config.continuousActions = continuous)
    (h : ¬HasDiscrete continuous (s.gather t.engine.graph)) :
    t.heard s = (t.engine.watchdog, none) := by
  refine Watchdog.checkOscillation_of_none (fun entry hentry ↦ ?_) t.nowMs
  have hnone : discreteCommands continuous entry.2 = [] := by
    by_contra hsome
    exact h ⟨entry, hentry, hsome⟩
  exact hcontinuous ▸ valueSignature?_of_no_discrete hnone

/-- Then it makes no difference whether anything is about to be delivered. -/
theorem verdict?_of_no_discrete
    (hcontinuous : t.engine.watchdog.config.continuousActions = continuous)
    (h : ¬HasDiscrete continuous (s.gather t.engine.graph))
    (hburst : ∀ report, t.verdict? s = some report → report.reason ≠ .sinkBurst) :
    t.verdict? s = none ∧ ∀ port, (t.sinkStep s).1.engine.watchdog.observed s.node port =
      t.engine.watchdog.observed s.node port := by
  have hheard := heard_of_no_discrete hcontinuous h
  cases hoffer : t.offer? s with
  | none =>
    refine ⟨verdict?_of_not_offer? hoffer, fun port ↦ ?_⟩
    rw [watchdog_of_offer? hoffer]
  | some offer =>
    obtain ⟨hverdict, hobserved⟩ := verdict?_of_offer? (by rw [hoffer]; rfl) hburst
    rw [hheard] at hverdict hobserved
    exact ⟨hverdict, hobserved⟩

/-! ### Two passes -/

/-- The same has been observed and asked in both ticks, by the same thresholds and of the same
gates. -/
structure WatchedAlike (t' t : Tick) : Prop where
  policy : t'.engine.policy = t.engine.policy
  asked : ∀ v, t'.engine.askedOf v = t.engine.askedOf v
  thresholds : t'.engine.watchdog.config = t.engine.watchdog.config
  observed : ∀ v port, t'.engine.watchdog.observed v port = t.engine.watchdog.observed v port
  nowMs : t'.nowMs = t.nowMs

/-- The step gathers the same discrete commands in both ticks, and if there are any, it is about to
deliver in both or in neither. -/
structure HeardAlike (F : Recasting) (continuous : List String) (t' t : Tick) (s : PlanStep) :
    Prop where
  gather : SameDiscreteMap continuous (s.gather t'.engine.graph) (s.gather t.engine.graph)
  offer : HasDiscrete continuous (s.gather t.engine.graph) →
    ((t'.offer? (s.recast F)).isSome ↔ (t.offer? s).isSome)

/-- What else a step does to two ticks that the watchdog finds alike. -/
theorem WatchedAlike.step (h : t'.WatchedAlike t)
    (hobserved : ∀ port, (t'.sinkStep (s.recast F)).1.engine.watchdog.observed s.node port =
      (t.sinkStep s).1.engine.watchdog.observed s.node port) :
    (t'.sinkStep (s.recast F)).1.WatchedAlike (t.sinkStep s).1 := by
  have htouches := Touches.sinkStep t s
  have htouches' := Touches.sinkStep t' (s.recast F)
  refine ⟨?_, fun v ↦ ?_, ?_, fun v port ↦ ?_, ?_⟩
  · rw [htouches'.keeps.policy, h.policy, htouches.keeps.policy]
  · by_cases hv : v = s.node
    · have hasked : (t'.sinkStep (s.recast F)).1.engine.askedOf s.node = _ :=
        t'.askedOf_sinkStep (s.recast F)
      have hsinks : (s.recast F).definition.hasSinkInputs = s.definition.hasSinkInputs :=
        s.definition.recast_hasSinkInputs F
      have hnode : (s.recast F).node = s.node := rfl
      rw [hv, hasked, t.askedOf_sinkStep, hsinks, hnode, h.policy, h.asked]
    · have hnot : v ∉ [s].map PlanStep.node := by simpa using hv
      have hnot' : v ∉ [s.recast F].map PlanStep.node := hnot
      rw [htouches'.asked v hnot', h.asked, htouches.asked v hnot]
  · rw [htouches'.keeps.thresholds, h.thresholds, htouches.keeps.thresholds]
  · by_cases hv : v = s.node
    · rw [hv, hobserved]
    · have hrecast : v ≠ (s.recast F).node := hv
      rw [observed_sinkStep_of_ne hrecast, h.observed, observed_sinkStep_of_ne hv]
  · rw [htouches'.nowMs, h.nowMs, htouches.nowMs]

/-- **One step**: the verdict is the same, and the watchdog goes on to find the ticks alike. -/
theorem WatchedAlike.sinkStep (h : t'.WatchedAlike t)
    (hcontinuous : t.engine.watchdog.config.continuousActions = continuous)
    (hheard : HeardAlike F continuous t' t s)
    (hburst : ∀ report, t.verdict? s = some report → report.reason ≠ .sinkBurst)
    (hburst' : ∀ report, t'.verdict? (s.recast F) = some report → report.reason ≠ .sinkBurst) :
    t'.verdict? (s.recast F) = t.verdict? s ∧
      (t'.sinkStep (s.recast F)).1.WatchedAlike (t.sinkStep s).1 := by
  have hcontinuous' : t'.engine.watchdog.config.continuousActions = continuous := by
    rw [h.thresholds, hcontinuous]
  have hsame : (t'.heard (s.recast F)).2 = (t.heard s).2 ∧ ∀ port,
      (t'.heard (s.recast F)).1.observed s.node port = (t.heard s).1.observed s.node port := by
    rw [heard, heard, h.nowMs]
    exact Watchdog.checkOscillation_congr_signatures h.thresholds (h.observed s.node) hcontinuous
      hheard.gather.sameSignatures t.nowMs
  -- Where nothing discrete is gathered, one tick may deliver and the other may not: either way
  -- there is nothing to hear. Elsewhere they have to go together.
  by_cases hdiscrete : HasDiscrete continuous (s.gather t.engine.graph)
  · have hoffers := hheard.offer hdiscrete
    cases hoffer : t.offer? s with
    | none =>
      rw [hoffer] at hoffers
      have hoffer' : t'.offer? (s.recast F) = none := by simpa using hoffers
      refine ⟨by rw [verdict?_of_not_offer? hoffer', verdict?_of_not_offer? hoffer],
        h.step fun port ↦ ?_⟩
      rw [watchdog_of_offer? hoffer', watchdog_of_offer? hoffer, h.observed]
    | some offer =>
      have hsome : (t.offer? s).isSome := by rw [hoffer]; rfl
      obtain ⟨hverdict, hobserved⟩ := verdict?_of_offer? hsome hburst
      obtain ⟨hverdict', hobserved'⟩ := verdict?_of_offer? (hoffers.2 hsome) hburst'
      refine ⟨by rw [hverdict', hsame.1, hverdict], h.step fun port ↦ ?_⟩
      exact (hobserved' port).trans ((hsame.2 port).trans (hobserved port).symm)
  · have hdiscrete' : ¬HasDiscrete continuous (s.gather t'.engine.graph) :=
      fun hsome ↦ hdiscrete (hheard.gather.hasDiscrete_iff.1 hsome)
    obtain ⟨hverdict, hobserved⟩ := verdict?_of_no_discrete hcontinuous hdiscrete hburst
    obtain ⟨hverdict', hobserved'⟩ :=
      verdict?_of_no_discrete (s := s.recast F) hcontinuous' hdiscrete' hburst'
    refine ⟨hverdict'.trans hverdict.symm, h.step fun port ↦ ?_⟩
    exact (hobserved' port).trans ((h.observed s.node port).trans (hobserved port).symm)

/-! ### Over a pass -/

/-- **A whole pass**, by induction along its steps: it ends with the same report or with none in
both ticks, and the watchdog goes on to find them alike. -/
theorem WatchedAlike.sinkPass (h : t'.WatchedAlike t)
    (hcontinuous : t.engine.watchdog.config.continuousActions = continuous)
    (hgather : ∀ s ∈ steps,
      SameDiscreteMap continuous (s.gather t'.engine.graph) (s.gather t.engine.graph))
    (hoffers : ∀ before s after u u', steps = before ++ s :: after →
      t.sinkPass before = (u, none) → t'.sinkPass (before.map (·.recast F)) = (u', none) →
      HasDiscrete continuous (s.gather u.engine.graph) →
        ((u'.offer? (s.recast F)).isSome ↔ (u.offer? s).isSome))
    (hburst : ∀ report, (t.sinkPass steps).2 = some report → report.reason ≠ .sinkBurst)
    (hburst' : ∀ report, (t'.sinkPass (steps.map (·.recast F))).2 = some report →
      report.reason ≠ .sinkBurst) :
    (t'.sinkPass (steps.map (·.recast F))).2 = (t.sinkPass steps).2 ∧
      (t'.sinkPass (steps.map (·.recast F))).1.WatchedAlike (t.sinkPass steps).1 := by
  induction steps generalizing t t' with
  | nil => exact ⟨rfl, h⟩
  | cons s rest ih =>
    have hheard : HeardAlike F continuous t' t s :=
      ⟨hgather s List.mem_cons_self, hoffers [] s rest t t' rfl rfl rfl⟩
    have hverdicts : ∀ report, t.verdict? s = some report → report.reason ≠ .sinkBurst :=
      fun report hreport ↦ hburst report (by rw [sinkPass_of_verdict? hreport])
    have hverdicts' : ∀ report, t'.verdict? (s.recast F) = some report →
        report.reason ≠ .sinkBurst :=
      fun report hreport ↦ hburst' report (by rw [List.map_cons, sinkPass_of_verdict? hreport])
    obtain ⟨hverdict, hnext⟩ := h.sinkStep hcontinuous hheard hverdicts hverdicts'
    rw [List.map_cons]
    cases hreport : t.verdict? s with
    | some report =>
      rw [sinkPass_of_verdict? hreport, sinkPass_of_verdict? (hverdict.trans hreport)]
      exact ⟨rfl, hnext⟩
    | none =>
      have hreport' := hverdict.trans hreport
      rw [List.map_cons, sinkPass_of_no_verdict? hreport'] at hburst'
      rw [sinkPass_of_no_verdict? hreport] at hburst
      rw [sinkPass_of_no_verdict? hreport, sinkPass_of_no_verdict? hreport']
      refine ih hnext ((congrArg _ (Touches.sinkStep t s).keeps.thresholds).trans hcontinuous)
        (fun s' hs' ↦ ?_) (fun before s' after u u' hrest hpass hpass' ↦ ?_) hburst hburst'
      · rw [graph_sinkStep, graph_sinkStep]
        exact hgather s' (List.mem_cons_of_mem s hs')
      · refine hoffers (s :: before) s' after u u' (congrArg (s :: ·) hrest) ?_ ?_
        · rw [sinkPass_of_no_verdict? hreport, hpass]
        · rw [List.map_cons, sinkPass_of_no_verdict? hreport', hpass']

end Tick

end CueFlow
