import CueFlow.Proofs.KeyMap
import CueFlow.Watchdog
import Mathlib.Data.List.Forall2
/-!
# What the checks of the watchdog leave alone

Neither check touches the thresholds, and only the burst check counts: after a review the counter
stands at what it was plus the values about to be delivered, whatever the verdict (`review_fst`).
The burst check trips when the counter has passed the ceiling (`checkBurst_snd_eq_none_iff`).

Only the oscillation check keeps a history, and it touches and looks at nothing but the histories of
the node at hand (`observed_checkOscillation`), and of the values to nothing but their signatures
(`checkOscillation_congr_signatures`).
-/

namespace CueFlow.Watchdog

variable {τ : Type} (w : Watchdog τ)

/-- The burst check passes exactly while the counter stays within the ceiling. -/
theorem checkBurst_snd_eq_none_iff (node : NodeId) (delivered : ValueMap) :
    (w.checkBurst node delivered).2 = none ↔
      w.burstCount + deliveries delivered ≤ w.config.burstCeiling := by
  rw [checkBurst]
  dsimp only
  split
  next hle => simp [hle]
  next hgt => simp [hgt]

variable [Sub τ] [LT τ] [DecidableLT τ]

theorem config_observe (node : NodeId) (now : τ) (port : String) (value : Value) :
    (w.observe node now port value).1.config = w.config := by
  rw [observe]
  split <;> rfl

theorem burstCount_observe (node : NodeId) (now : τ) (port : String) (value : Value) :
    (w.observe node now port value).1.burstCount = w.burstCount := by
  rw [observe]
  split <;> rfl

/-- The oscillation check keeps the thresholds and the counter. -/
theorem checkOscillation_fst (node : NodeId) (values : ValueMap) (now : τ) :
    (w.checkOscillation node values now).1.config = w.config ∧
      (w.checkOscillation node values now).1.burstCount = w.burstCount := by
  induction values generalizing w with
  | nil => exact ⟨rfl, rfl⟩
  | cons entry rest ih =>
    have hconfig := w.config_observe node now entry.1 entry.2
    have hcount := w.burstCount_observe node now entry.1 entry.2
    rw [checkOscillation]
    split
    next w' report heq =>
      rw [heq] at hconfig hcount
      exact ⟨hconfig, hcount⟩
    next w' heq =>
      rw [heq] at hconfig hcount
      exact ⟨(ih w').1.trans hconfig, (ih w').2.trans hcount⟩

/-- Reviewing a delivery keeps the thresholds and counts the delivery. -/
theorem review_fst (node : NodeId) (delivered gathered : ValueMap) (now : τ) :
    (w.review node delivered gathered now).1.config = w.config ∧
      (w.review node delivered gathered now).1.burstCount =
        w.burstCount + deliveries delivered := by
  rw [review]
  cases hburst : w.checkBurst node delivered with
  | mk w' report =>
    obtain ⟨rfl, -⟩ := Prod.mk.inj hburst
    cases report with
    | some report => exact ⟨rfl, rfl⟩
    | none => exact checkOscillation_fst _ node gathered now

/-- A review reports what the burst check reports, and failing that what the oscillation check
does. -/
theorem review_snd (node : NodeId) (delivered gathered : ValueMap) (now : τ) :
    (w.review node delivered gathered now).2 = (w.checkBurst node delivered).2.or
      ((w.checkBurst node delivered).1.checkOscillation node gathered now).2 := by
  rw [review]
  cases w.checkBurst node delivered with
  | mk w' report =>
    cases report with
    | some report => rfl
    | none => rfl

/-- What a review lets pass stays within the ceiling. -/
theorem le_ceiling_of_review {node : NodeId} {delivered gathered : ValueMap} {now : τ}
    (h : (w.review node delivered gathered now).2 = none) :
    w.burstCount + deliveries delivered ≤ w.config.burstCeiling := by
  rw [review_snd, Option.or_eq_none_iff] at h
  exact (w.checkBurst_snd_eq_none_iff node delivered).1 h.1

/-! ### What is observed -/

/-- The maps have the same keys, and the values under a key have the same signature. -/
def SameSignatures (continuous : List String) (m' m : ValueMap) : Prop :=
  List.Forall₂ (fun a' a ↦ a'.1 = a.1 ∧
    valueSignature? a'.2 continuous = valueSignature? a.2 continuous) m' m

theorem SameSignatures.refl (continuous : List String) (m : ValueMap) :
    SameSignatures continuous m m :=
  List.forall₂_same.2 fun _ _ ↦ ⟨rfl, rfl⟩

omit [Sub τ] [LT τ] [DecidableLT τ] in
theorem observed_keep (w : Watchdog τ) (node node' : NodeId) (port port' : String)
    (observations : List (Observation τ)) :
    (w.keep node port observations).observed node' port' =
      if node = node' ∧ port = port' then observations else w.observed node' port' := by
  rw [observed, keep, KeyMap.update, KeyMap.get?_insert]
  by_cases hnode : node = node'
  · subst hnode
    by_cases hport : port = port'
    · simp [hport]
    · simp [KeyMap.get?_insert, hport, observed]
  · simp [hnode, observed]

section

variable {w} {w' : Watchdog τ} {node : NodeId} {now : τ} {port : String} {value : Value}

theorem observe_of_none (h : valueSignature? value w.config.continuousActions = none) :
    w.observe node now port value = (w, none) := by
  rw [observe, h]

theorem observe_of_some {signature : String}
    (h : valueSignature? value w.config.continuousActions = some signature) :
    w.observe node now port value =
      (w.keep node port (extendHistory w.config now signature (w.observed node port)),
        alternationReport? w.config.oscillationMinAlternations node port
          (extendHistory w.config now signature (w.observed node port))) := by
  rw [observe, h]

/-- An observation touches the history of its own port only, and that only if it is heard. -/
theorem observed_observe {node' : NodeId} {port' : String}
    (h : node = node' → port = port' → valueSignature? value w.config.continuousActions = none) :
    (w.observe node now port value).1.observed node' port' = w.observed node' port' := by
  cases hsignature : valueSignature? value w.config.continuousActions with
  | none => rw [observe_of_none hsignature]
  | some signature =>
    rw [observe_of_some hsignature, observed_keep, if_neg]
    rintro ⟨hnode, hport⟩
    rw [h hnode hport] at hsignature
    cases hsignature

/-- A check touches the histories only of the ports at which it hears anything. -/
theorem observed_checkOscillation {values : ValueMap} {node' : NodeId} {port' : String}
    (h : node = node' → ∀ v, (port', v) ∈ values →
      valueSignature? v w.config.continuousActions = none) :
    (w.checkOscillation node values now).1.observed node' port' = w.observed node' port' := by
  induction values generalizing w with
  | nil => rfl
  | cons entry rest ih =>
    have hfirst : (w.observe node now entry.1 entry.2).1.observed node' port' =
        w.observed node' port' := by
      refine observed_observe fun hnode hport ↦ h hnode entry.2 ?_
      rw [← hport]
      exact List.mem_cons_self
    have hconfig := w.config_observe node now entry.1 entry.2
    rw [checkOscillation]
    split
    next w' report heq =>
      rw [heq] at hfirst
      exact hfirst
    next w' heq =>
      rw [heq] at hfirst hconfig
      rw [ih fun hnode v hv ↦ ?_]
      · exact hfirst
      · rw [hconfig]
        exact h hnode v (List.mem_cons_of_mem _ hv)

/-- An observation files nothing under other nodes. -/
theorem get?_history_observe {node' : NodeId} (hnode : node ≠ node') (port : String)
    (value : Value) :
    (w.observe node now port value).1.history.get? node' = w.history.get? node' := by
  cases hsignature : valueSignature? value w.config.continuousActions with
  | none => rw [observe_of_none hsignature]
  | some signature =>
    rw [observe_of_some hsignature, keep, KeyMap.update]
    exact (KeyMap.get?_insert _ _ _ _).trans (if_neg hnode)

theorem get?_history_checkOscillation {node' : NodeId} (hnode : node ≠ node')
    (values : ValueMap) :
    (w.checkOscillation node values now).1.history.get? node' = w.history.get? node' := by
  induction values generalizing w with
  | nil => rfl
  | cons entry rest ih =>
    have hfirst : (w.observe node now entry.1 entry.2).1.history.get? node' =
        w.history.get? node' :=
      get?_history_observe hnode entry.1 entry.2
    rw [checkOscillation]
    split
    next w' report heq =>
      rw [heq] at hfirst
      exact hfirst
    next w' heq =>
      rw [heq] at hfirst
      exact ih.trans hfirst

/-- Nor does a review, whatever its verdict. -/
theorem get?_history_review {node' : NodeId} (hnode : node ≠ node')
    (delivered gathered : ValueMap) :
    (w.review node delivered gathered now).1.history.get? node' = w.history.get? node' := by
  rw [review]
  cases hburst : w.checkBurst node delivered with
  | mk w' report =>
    obtain ⟨rfl, -⟩ := Prod.mk.inj hburst
    cases report with
    | some report => rfl
    | none => exact get?_history_checkOscillation hnode gathered

/-- A review touches the histories of its own node only. -/
theorem observed_review {node' : NodeId} (hnode : node ≠ node') (delivered gathered : ValueMap)
    (port : String) :
    (w.review node delivered gathered now).1.observed node' port = w.observed node' port := by
  rw [review]
  cases hburst : w.checkBurst node delivered with
  | mk w' report =>
    obtain ⟨rfl, -⟩ := Prod.mk.inj hburst
    cases report with
    | some report => rfl
    | none => exact observed_checkOscillation fun h ↦ absurd h hnode

/-- An observation goes by the thresholds, the histories of its node and the signature. -/
theorem observe_congr (hconfig : w'.config = w.config)
    (hsame : ∀ port, w'.observed node port = w.observed node port) {value' : Value}
    (hsignature : valueSignature? value' w.config.continuousActions =
      valueSignature? value w.config.continuousActions) (now : τ) (port : String) :
    (w'.observe node now port value').2 = (w.observe node now port value).2 ∧
      ∀ port', (w'.observe node now port value').1.observed node port' =
        (w.observe node now port value).1.observed node port' := by
  cases hfound : valueSignature? value w.config.continuousActions with
  | none =>
    rw [hfound, ← hconfig] at hsignature
    rw [observe_of_none hfound, observe_of_none hsignature]
    exact ⟨rfl, hsame⟩
  | some signature =>
    rw [hfound, ← hconfig] at hsignature
    rw [observe_of_some hfound, observe_of_some hsignature, hconfig, hsame]
    refine ⟨rfl, fun port' ↦ ?_⟩
    rw [observed_keep, observed_keep, hsame]

/-- **The oscillation check goes by the thresholds, the histories of its node and the signatures**,
not by what was counted, by what was observed of other nodes or by anything else in the values. -/
theorem checkOscillation_congr_signatures (hconfig : w'.config = w.config)
    (hsame : ∀ port, w'.observed node port = w.observed node port) {continuous : List String}
    (hcontinuous : w.config.continuousActions = continuous) {values values' : ValueMap}
    (hvalues : SameSignatures continuous values' values) (now : τ) :
    (w'.checkOscillation node values' now).2 = (w.checkOscillation node values now).2 ∧
      ∀ port, (w'.checkOscillation node values' now).1.observed node port =
        (w.checkOscillation node values now).1.observed node port := by
  induction hvalues generalizing w w' with
  | nil => exact ⟨rfl, hsame⟩
  | @cons entry' entry rest' rest hentry _ ih =>
    obtain ⟨hkey, hsignature⟩ := hentry
    obtain ⟨hreport, hobserved⟩ :=
      observe_congr hconfig hsame (hcontinuous ▸ hsignature) now entry.1
    have hkept := w.config_observe node now entry.1 entry.2
    have hthresholds := (w'.config_observe node now entry.1 entry'.2).trans
      (hconfig.trans hkept.symm)
    rw [checkOscillation, hkey, checkOscillation]
    cases hw : w.observe node now entry.1 entry.2 with
    | mk w₁ report =>
      cases hw' : w'.observe node now entry.1 entry'.2 with
      | mk w₁' report' =>
        rw [hw, hw'] at hreport hobserved hthresholds
        rw [hw] at hkept
        dsimp only at hreport hobserved hthresholds hkept
        subst hreport
        cases report' with
        | some report' => exact ⟨rfl, hobserved⟩
        | none => exact ih hthresholds hobserved (hkept ▸ hcontinuous)

theorem checkOscillation_congr (hconfig : w'.config = w.config)
    (hsame : ∀ port, w'.observed node port = w.observed node port) (values : ValueMap) (now : τ) :
    (w'.checkOscillation node values now).2 = (w.checkOscillation node values now).2 ∧
      ∀ port, (w'.checkOscillation node values now).1.observed node port =
        (w.checkOscillation node values now).1.observed node port :=
  checkOscillation_congr_signatures hconfig hsame rfl (.refl _ values) now

/-- Where no value has a signature, there is nothing to observe. -/
theorem checkOscillation_of_none {values : ValueMap} (h : ∀ entry ∈ values,
    valueSignature? entry.2 w.config.continuousActions = none) (now : τ) :
    w.checkOscillation node values now = (w, none) := by
  induction values with
  | nil => rfl
  | cons entry rest ih =>
    rw [checkOscillation, observe_of_none (h entry List.mem_cons_self)]
    exact ih fun entry hentry ↦ h entry (List.mem_cons_of_mem _ hentry)

/-- What was counted does not matter to it. -/
theorem checkOscillation_checkBurst (w : Watchdog τ) (node : NodeId) (delivered values : ValueMap)
    (now : τ) : ((w.checkBurst node delivered).1.checkOscillation node values now).2 =
        (w.checkOscillation node values now).2 ∧
      ∀ port, ((w.checkBurst node delivered).1.checkOscillation node values now).1.observed node
        port = (w.checkOscillation node values now).1.observed node port := by
  have hconfig : (w.checkBurst node delivered).1.config = w.config := rfl
  exact checkOscillation_congr hconfig (fun _ ↦ rfl) values now

/-- A review that stays within the ceiling is the oscillation check, as far as its node is
concerned. -/
theorem observed_review_of_checkBurst {delivered : ValueMap}
    (hburst : (w.checkBurst node delivered).2 = none) (gathered : ValueMap) (port : String) :
    (w.review node delivered gathered now).1.observed node port =
      (w.checkOscillation node gathered now).1.observed node port := by
  rw [review]
  cases hcheck : w.checkBurst node delivered with
  | mk w₁ report =>
    rw [hcheck] at hburst
    obtain ⟨rfl, -⟩ := Prod.mk.inj hcheck
    cases hburst
    exact (w.checkOscillation_checkBurst node delivered gathered now).2 port

/-- A review that lets a delivery pass goes by the same, as far as its node is concerned. -/
theorem observed_review_congr (hconfig : w'.config = w.config)
    (hsame : ∀ port, w'.observed node port = w.observed node port) {delivered gathered : ValueMap}
    (hpass : (w.review node delivered gathered now).2 = none)
    (hpass' : (w'.review node delivered gathered now).2 = none) (port : String) :
    (w'.review node delivered gathered now).1.observed node port =
      (w.review node delivered gathered now).1.observed node port := by
  rw [review_snd, Option.or_eq_none_iff] at hpass hpass'
  rw [observed_review_of_checkBurst hpass.1, observed_review_of_checkBurst hpass'.1]
  exact (checkOscillation_congr hconfig hsame gathered now).2 port

end

end CueFlow.Watchdog
