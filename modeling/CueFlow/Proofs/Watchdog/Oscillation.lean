import CueFlow.Proofs.KeyMap
import CueFlow.Proofs.Watchdog
import CueFlow.Proofs.Watchdog.Recent
import Mathlib.Algebra.Order.Ring.Int
import Mathlib.Data.List.Induction
import Mathlib.Data.String.Basic
/-!
# The oscillation check is exact

The calls of a watchdog let it hear observations at the sink ports (`heard`). Up to the first check
that trips (`Quiet`), what is kept of a port is the recent part of all that was heard there, and
that did not flicker when it was last observed (`Tracked`): a check keeps this for the ports that it
looks at (`checkOscillation_spec`), and so does every other call (`Quiet.tracked`).
`oscillation_exact` draws the conclusion: the next check trips on the first port, in the order of
ids, at which all that was heard flickers, and on none if there is none.

The sink values of a check are maps, and time does not run backwards (`Orderly`). Nothing is assumed
of the thresholds: a window of no entry or of one never trips, and neither does a negative span.
-/

namespace CueFlow.Watchdog

variable {τ : Type}

/-! ### Calls, and what they let the watchdog hear -/

/-- One call of the watchdog. -/
inductive Call (τ : Type) where
  | beginTick
  | reset
  | forget (node : NodeId)
  | checkBurst (node : NodeId) (delivered : ValueMap)
  | checkOscillation (node : NodeId) (values : ValueMap) (now : τ)

/-- The time of an oscillation check. -/
def Call.time? : Call τ → Option τ
  | .checkOscillation _ _ now => some now
  | _ => none

/-- The sink values of every oscillation check are a map, and time does not run backwards. -/
structure Orderly [LE τ] (calls : List (Call τ)) : Prop where
  sorted : ∀ node values now, .checkOscillation node values now ∈ calls → values.Sorted
  times : (calls.filterMap Call.time?).Pairwise (· ≤ ·)

/-- What a check hears at a port: the signature of the value there, if it has a discrete one. -/
def heardOn (continuous : List String) (values : ValueMap) (now : τ) (port : String) :
    List (Observation τ) :=
  (((values.get? port).bind fun v ↦ valueSignature? v continuous).map fun signature ↦
    ⟨now, signature⟩).toList

/-- All that has been heard at a port after one more call, since it was last forgotten. -/
def hear (continuous : List String) (node : NodeId) (port : String)
    (before : List (Observation τ)) : Call τ → List (Observation τ)
  | .reset => []
  | .forget other => if other = node then [] else before
  | .checkOscillation other values now =>
    if other = node then before ++ heardOn continuous values now port else before
  | .beginTick | .checkBurst .. => before

/-- All that was heard at a port since it was last forgotten. -/
def heard (continuous : List String) (node : NodeId) (port : String) (calls : List (Call τ)) :
    List (Observation τ) :=
  calls.foldl (hear continuous node port) []

section

variable [Sub τ] [LT τ] [DecidableLT τ]

/-- The watchdog after a call, and the report of the call. -/
def call (w : Watchdog τ) : Call τ → Watchdog τ × Option HaltReport
  | .beginTick => (w.beginTick, none)
  | .reset => (w.reset, none)
  | .forget node => (w.forget node, none)
  | .checkBurst node delivered => w.checkBurst node delivered
  | .checkOscillation node values now => w.checkOscillation node values now

/-- The watchdog after some calls, one after the other. -/
def after (w : Watchdog τ) (calls : List (Call τ)) : Watchdog τ :=
  calls.foldl (fun w c ↦ (w.call c).1) w

/-- Whether a call is anything but an oscillation check that trips. -/
def quiet (w : Watchdog τ) : Call τ → Bool
  | .checkOscillation node values now => (w.checkOscillation node values now).2.isNone
  | _ => true

/-- No oscillation check among the calls trips. -/
def Quiet (w : Watchdog τ) : List (Call τ) → Prop
  | [] => True
  | c :: rest => w.quiet c = true ∧ (w.call c).1.Quiet rest

/-- The oscillation check trips on a port, and its report says so. -/
def TripsOn (w : Watchdog τ) (node : NodeId) (values : ValueMap) (now : τ) (port : String) : Prop :=
  ∃ earlier later length,
    (w.checkOscillation node values now).2 = some (oscillationReport node port earlier later length)

/-- A quiet sequence of calls is quiet up to any point, and from there on. -/
theorem Quiet.of_append {w : Watchdog τ} {calls more : List (Call τ)}
    (h : w.Quiet (calls ++ more)) : w.Quiet calls ∧ (w.after calls).Quiet more := by
  induction calls generalizing w with
  | nil => exact ⟨trivial, h⟩
  | cons c rest ih =>
    obtain ⟨hc, hrest⟩ := h
    exact ⟨⟨hc, (ih hrest).1⟩, (ih hrest).2⟩

theorem after_append (w : Watchdog τ) (calls more : List (Call τ)) :
    w.after (calls ++ more) = (w.after calls).after more :=
  List.foldl_append

end

/-! ### What a check hears -/

/-- What is heard at a port of a map is heard of its first entry or of the others. -/
theorem heardOn_cons {entry : String × Value} {rest : ValueMap}
    (hsorted : KeyMap.Sorted (entry :: rest)) (continuous : List String) (now : τ)
    (port : String) : heardOn continuous (entry :: rest) now port =
      heardOn continuous [entry] now port ++ heardOn continuous rest now port := by
  rw [heardOn, heardOn, heardOn, KeyMap.get?_cons, KeyMap.get?_cons]
  by_cases hport : entry.1 = port
  · have hnone : KeyMap.get? rest port = none := by
      cases hget : KeyMap.get? rest port with
      | none => rfl
      | some v =>
        have hlt := (List.pairwise_cons.1 hsorted).1 _ (KeyMap.mem_of_get? hget)
        exact absurd (hport ▸ hlt) (String.lt_irrefl _)
    simp [hport, hnone]
  · simp [hport]

/-- A port whose value has no signature lets nothing be heard. -/
theorem heardOn_of_none {values : ValueMap} {continuous : List String} {now : τ} {port : String}
    (h : ∀ v, values.get? port = some v → valueSignature? v continuous = none) :
    heardOn continuous values now port = [] := by
  rw [heardOn]
  cases hget : KeyMap.get? values port with
  | none => rfl
  | some v => simp [h v hget]

/-- What is heard is heard call by call. -/
theorem heard_append (continuous : List String) (node : NodeId) (port : String)
    (calls : List (Call τ)) (c : Call τ) : heard continuous node port (calls ++ [c]) =
      hear continuous node port (heard continuous node port calls) c := by
  rw [heard, List.foldl_append]
  rfl

/-- A check adds what it hears to what was heard before. -/
theorem heard_check (continuous : List String) (node : NodeId) (port : String)
    (calls : List (Call τ)) (values : ValueMap) (now : τ) :
    heard continuous node port (calls ++ [.checkOscillation node values now]) =
      heard continuous node port calls ++ heardOn continuous values now port := by
  rw [heard_append, hear, if_pos rfl]

theorem Orderly.of_append [LE τ] {calls more : List (Call τ)} (h : Orderly (calls ++ more)) :
    Orderly calls := by
  refine ⟨fun node values now hmem ↦ h.sorted node values now (List.mem_append_left _ hmem), ?_⟩
  have htimes := h.times
  rw [List.filterMap_append] at htimes
  exact (List.pairwise_append.1 htimes).1

/-- In orderly calls nothing is heard later than now. -/
theorem Orderly.le_now [LE τ] {calls : List (Call τ)} {node : NodeId} {values : ValueMap} {now : τ}
    (h : Orderly (calls ++ [.checkOscillation node values now])) :
    ∀ t ∈ calls.filterMap Call.time?, t ≤ now := by
  have htimes := h.times
  rw [List.filterMap_append] at htimes
  exact fun t ht ↦ (List.pairwise_append.1 htimes).2.2 t ht now (List.mem_singleton_self now)

/-! ### What an observation does to the histories -/

/-- To forget a node is to forget what was observed at its ports, and at no others. -/
theorem observed_forget (w : Watchdog τ) (node node' : NodeId) (port : String) :
    (w.forget node).observed node' port = if node = node' then [] else w.observed node' port := by
  rw [observed, forget, KeyMap.get?_erase]
  split <;> rfl

/-- A report is made exactly of an alternation that is long enough, and names the port. -/
theorem alternationReport?_cases (minimum : Nat) (node : NodeId) (port : String)
    (observations : List (Observation τ)) :
    (max minimum 2 ≤ alternation (observations.map Observation.signature).reverse ∧
      ∃ earlier later length, alternationReport? minimum node port observations =
        some (oscillationReport node port earlier later length)) ∨
    ¬ max minimum 2 ≤ alternation (observations.map Observation.signature).reverse ∧
      alternationReport? minimum node port observations = none := by
  rw [alternationReport?]
  split
  next hlong =>
    refine .inl ⟨hlong, ?_⟩
    generalize (observations.map Observation.signature).reverse = signatures at hlong ⊢
    rcases signatures with _ | ⟨later, _ | ⟨earlier, rest⟩⟩
    · rw [alternation] at hlong
      omega
    · rw [alternation] at hlong
      omega
    · exact ⟨earlier, later, _, rfl⟩
  next hshort => exact .inr ⟨hshort, rfl⟩

section

variable [Sub τ] [LT τ] [DecidableLT τ] {w : Watchdog τ} {node : NodeId} {now : τ} {port : String}
  {value : Value}

/-- No call changes the thresholds. -/
theorem config_call (w : Watchdog τ) (c : Call τ) : (w.call c).1.config = w.config := by
  cases c with
  | checkOscillation node values now => exact (w.checkOscillation_fst node values now).1
  | beginTick | reset | forget | checkBurst => rfl

theorem config_after (w : Watchdog τ) (calls : List (Call τ)) :
    (w.after calls).config = w.config := by
  induction calls generalizing w with
  | nil => rfl
  | cons c rest ih => exact (ih _).trans (w.config_call c)

/-! ### No history outgrows the window -/

/-- No history is longer than the window. -/
def Bounded (w : Watchdog τ) : Prop :=
  ∀ node port, (w.observed node port).length ≤ w.config.oscillationWindow

/-- An observation keeps every history within the window. -/
theorem Bounded.observe (h : w.Bounded) : (w.observe node now port value).1.Bounded := by
  cases hsignature : valueSignature? value w.config.continuousActions with
  | none =>
    rw [observe_of_none hsignature]
    exact h
  | some signature =>
    rw [observe_of_some hsignature]
    intro node' port'
    rw [observed_keep]
    split
    · exact length_recent_le _
    · exact h node' port'

/-- A check makes its observations one after the other, each within the window. -/
theorem Bounded.checkOscillation (h : w.Bounded) (values : ValueMap) :
    (w.checkOscillation node values now).1.Bounded := by
  induction values generalizing w with
  | nil => exact h
  | cons entry rest ih =>
    have hfirst : (w.observe node now entry.1 entry.2).1.Bounded := h.observe
    rw [Watchdog.checkOscillation]
    split
    next w' report heq =>
      rw [heq] at hfirst
      exact hfirst
    next w' heq =>
      rw [heq] at hfirst
      exact ih hfirst

/-- Every call keeps the histories within the window. -/
theorem Bounded.call (h : w.Bounded) (c : Call τ) : (w.call c).1.Bounded := by
  cases c with
  | beginTick | checkBurst => exact h
  | reset => exact fun _ _ ↦ Nat.zero_le _
  | forget node =>
    intro node' port
    show ((w.forget node).observed node' port).length ≤ _
    rw [observed_forget]
    split
    · exact Nat.zero_le _
    · exact h node' port
  | checkOscillation node values now => exact h.checkOscillation values

/-- **No history is ever longer than the window**, whatever the calls. -/
theorem bounded_after (config : WatchdogConfig τ) (calls : List (Call τ)) :
    (after { config } calls).Bounded := by
  have hrun : ∀ w : Watchdog τ, w.Bounded → (w.after calls).Bounded := by
    induction calls with
    | nil => exact fun _ h ↦ h
    | cons c rest ih => exact fun w h ↦ ih _ (h.call c)
  exact hrun _ fun _ _ ↦ Nat.zero_le _

end

/-! ### The port that a check trips on -/

/-- A report names its port. -/
theorem oscillationReport_port {node : NodeId} {port port' earlier earlier' later later' : String}
    {length length' : Nat} (h : oscillationReport node port earlier later length =
      oscillationReport node port' earlier' later' length') : port = port' := by
  have hport := congrArg (fun report ↦ report.diagnostics.get? "portId") h
  simpa [oscillationReport, KeyMap.ofEntries, KeyMap.overlay, KeyMap.get?_insert] using hport

section

variable [Sub τ] [LinearOrder τ] {w : Watchdog τ} {config : WatchdogConfig τ} {node : NodeId}
  {values : ValueMap} {now : τ} {heardAt : String → List (Observation τ)}
  (hverdict : ((w.checkOscillation node values now).2 = none ∧
      ∀ port ∈ values.keys, ¬ Flickers config now (heardAt port)) ∨
    ∃ port ∈ values.keys, w.TripsOn node values now port ∧ Flickers config now (heardAt port) ∧
      ∀ port' ∈ values.keys, port' < port → ¬ Flickers config now (heardAt port'))

include hverdict

/-- Which port a check trips on, given that it trips on the first that flickers. -/
theorem tripsOn_iff (port : String) : w.TripsOn node values now port ↔
    port ∈ values.keys ∧ Flickers config now (heardAt port) ∧
      ∀ port' ∈ values.keys, port' < port → ¬ Flickers config now (heardAt port') := by
  obtain ⟨hpass, hnone⟩ | ⟨first, hfirst, ⟨_, _, _, hreport⟩, hflickers, hothers⟩ := hverdict
  · refine iff_of_false ?_ fun h ↦ hnone port h.1 h.2.1
    rintro ⟨_, _, _, hreport⟩
    rw [hpass] at hreport
    cases hreport
  · constructor
    · rintro ⟨_, _, _, hreport'⟩
      obtain rfl := oscillationReport_port (Option.some.inj (hreport.symm.trans hreport'))
      exact ⟨hfirst, hflickers, hothers⟩
    · rintro ⟨hport, hflickers', hothers'⟩
      rcases lt_trichotomy first port with hlt | rfl | hlt
      · exact absurd hflickers (hothers' first hfirst hlt)
      · exact ⟨_, _, _, hreport⟩
      · exact absurd hflickers' (hothers port hport hlt)

/-- When a check passes, given the same. -/
theorem checkOscillation_snd_eq_none_iff : (w.checkOscillation node values now).2 = none ↔
    ∀ port ∈ values.keys, ¬ Flickers config now (heardAt port) := by
  obtain ⟨hpass, hnone⟩ | ⟨first, hfirst, ⟨_, _, _, hreport⟩, hflickers, -⟩ := hverdict
  · exact iff_of_true hpass hnone
  · exact iff_of_false (by rw [hreport]; simp) fun h ↦ h first hfirst hflickers

end

/-! ### The invariant of a port -/

/-- What is kept of a port is the recent part of all that was heard there, as of some time, and at
that time it did not flicker. -/
structure Tracked [Sub τ] [LinearOrder τ] (config : WatchdogConfig τ) (now : τ)
    (all kept : List (Observation τ)) : Prop where
  inOrder : InOrder all
  le : ∀ o ∈ all, o.time ≤ now
  kept : ∃ t ≤ now, kept = recent config t all ∧ ¬ Flickers config t all

section

variable [AddCommGroup τ] [LinearOrder τ] {config : WatchdogConfig τ} {t now : τ}
  {all kept : List (Observation τ)}

theorem tracked_nil : Tracked config now [] [] :=
  ⟨.nil, by simp, now, le_rfl, recent_nil.symm, not_flickers_nil⟩

/-- What is tracked stays so as time goes on. -/
theorem Tracked.mono (h : Tracked config t all kept) (hle : t ≤ now) :
    Tracked config now all kept := by
  obtain ⟨s, hs, hkept⟩ := h.kept
  exact ⟨h.inOrder, fun o ho ↦ (h.le o ho).trans hle, s, hs.trans hle, hkept⟩

theorem Tracked.inOrder_append (h : Tracked config now all kept) (signature : String) :
    InOrder (all ++ [⟨now, signature⟩]) := by
  refine List.pairwise_append.2 ⟨h.inOrder, List.pairwise_singleton _ _, fun a ha b hb ↦ ?_⟩
  obtain rfl := List.mem_singleton.1 hb
  exact h.le a ha

variable [IsOrderedAddMonoid τ]

/-- A port that is tracked has not flickered. -/
theorem Tracked.not_flickers (h : Tracked config now all kept) : ¬ Flickers config now all := by
  obtain ⟨t, hle, -, hnot⟩ := h.kept
  exact fun hflickers ↦ hnot (hflickers.of_le hle)

/-- The history that is kept is what a full record would show of the recent past. -/
theorem Tracked.extendHistory_eq (h : Tracked config now all kept) (signature : String) :
    extendHistory config now signature kept = recent config now (all ++ [⟨now, signature⟩]) := by
  obtain ⟨t, hle, rfl, -⟩ := h.kept
  exact recent_recent hle all [⟨now, signature⟩]

/-- An observation after which the port does not flicker keeps the invariant. -/
theorem Tracked.extend (h : Tracked config now all kept) {signature : String}
    (hnot : ¬ Flickers config now (all ++ [⟨now, signature⟩])) :
    Tracked config now (all ++ [⟨now, signature⟩]) (extendHistory config now signature kept) := by
  refine ⟨h.inOrder_append signature, fun o ho ↦ ?_, now, le_rfl, h.extendHistory_eq signature,
    hnot⟩
  rcases List.mem_append.1 ho with ho | ho
  · exact h.le o ho
  · rw [List.mem_singleton.1 ho]

/-! ### One observation, one check, one run -/

variable {w : Watchdog τ} {node : NodeId} {heardAt : String → List (Observation τ)}

/-- One observation keeps the invariant of all ports of the node, or its port flickers and it says
so. -/
theorem observe_spec (entry : String × Value)
    (h : ∀ port, Tracked w.config now (heardAt port) (w.observed node port)) :
    ((w.observe node now entry.1 entry.2).2 = none ∧ ∀ port, Tracked w.config now
      (heardAt port ++ heardOn w.config.continuousActions [entry] now port)
      ((w.observe node now entry.1 entry.2).1.observed node port)) ∨
    (∃ earlier later length, (w.observe node now entry.1 entry.2).2 =
      some (oscillationReport node entry.1 earlier later length)) ∧
    Flickers w.config now
      (heardAt entry.1 ++ heardOn w.config.continuousActions [entry] now entry.1) := by
  cases hsignature : valueSignature? entry.2 w.config.continuousActions with
  | none =>
    rw [observe_of_none hsignature]
    refine .inl ⟨rfl, fun port ↦ ?_⟩
    rw [heardOn_of_none, List.append_nil]
    · exact h port
    · intro v hv
      rw [KeyMap.get?_cons] at hv
      split at hv
      · exact Option.some.inj hv ▸ hsignature
      · cases hv
  | some signature =>
    have hown : heardOn w.config.continuousActions [entry] now entry.1 = [⟨now, signature⟩] := by
      simp [heardOn, KeyMap.get?_cons, hsignature]
    have hextend := (h entry.1).extendHistory_eq signature
    have hdecides :
        max w.config.oscillationMinAlternations 2 ≤ alternation ((recent w.config now
          (heardAt entry.1 ++ [⟨now, signature⟩])).map Observation.signature).reverse ↔
        Flickers w.config now (heardAt entry.1 ++ [⟨now, signature⟩]) :=
      le_alternation_recent_iff ((h entry.1).inOrder_append signature)
    rw [observe_of_some hsignature, hown]
    obtain ⟨hlong, hreport⟩ | ⟨hshort, hreport⟩ := alternationReport?_cases
      w.config.oscillationMinAlternations node entry.1
      (extendHistory w.config now signature (w.observed node entry.1))
    · rw [hextend, hdecides] at hlong
      exact .inr ⟨hreport, hlong⟩
    · rw [hextend, hdecides] at hshort
      refine .inl ⟨hreport, fun port ↦ ?_⟩
      rw [observed_keep]
      by_cases hport : entry.1 = port
      · subst hport
        rw [if_pos ⟨rfl, rfl⟩, hown]
        exact (h entry.1).extend hshort
      · have hother : heardOn w.config.continuousActions [entry] now port = [] :=
          heardOn_of_none fun v hv ↦ by simp [KeyMap.get?_cons, hport] at hv
        rw [if_neg fun hboth ↦ hport hboth.2, hother, List.append_nil]
        exact h port

/-- **One check** keeps the invariant of all ports of the node, or it trips on the first port that
flickers. -/
theorem checkOscillation_spec {values : ValueMap} (hconfig : w.config = config)
    (hsorted : values.Sorted)
    (h : ∀ port, Tracked config now (heardAt port) (w.observed node port)) :
    ((w.checkOscillation node values now).2 = none ∧ ∀ port, Tracked config now
      (heardAt port ++ heardOn config.continuousActions values now port)
      ((w.checkOscillation node values now).1.observed node port)) ∨
    ∃ port ∈ values.keys, w.TripsOn node values now port ∧
      Flickers config now (heardAt port ++ heardOn config.continuousActions values now port) ∧
      ∀ port' ∈ values.keys, port' < port → ¬ Flickers config now
        (heardAt port' ++ heardOn config.continuousActions values now port') := by
  subst hconfig
  induction values generalizing w heardAt with
  | nil =>
    refine .inl ⟨rfl, fun port ↦ ?_⟩
    rw [heardOn_of_none (fun v hv ↦ by cases hv), List.append_nil]
    exact h port
  | cons entry rest ih =>
    obtain ⟨hfirst, hrest⟩ := List.pairwise_cons.1 hsorted
    have hleast : ∀ port ∈ KeyMap.keys rest, entry.1 < port := by
      intro port hport
      obtain ⟨other, hother, rfl⟩ := List.mem_map.1 hport
      exact hfirst other hother
    -- Keys increase, so nothing else is heard at the first port.
    have hunheard : heardOn w.config.continuousActions rest now entry.1 = [] := by
      refine heardOn_of_none fun v hv ↦ ?_
      exact absurd (hfirst _ (KeyMap.mem_of_get? hv)) (String.lt_irrefl _)
    have hconfig := w.config_observe node now entry.1 entry.2
    obtain ⟨hquiet, htracked⟩ | ⟨⟨earlier, later, length, hreport⟩, hflickers⟩ :=
      observe_spec entry h
    · have hcheck : w.checkOscillation node (entry :: rest) now =
          (w.observe node now entry.1 entry.2).1.checkOscillation node rest now := by
        rw [checkOscillation]
        split
        next heq => rw [heq] at hquiet; cases hquiet
        next heq => rw [heq]
      rw [← hconfig] at htracked
      have hwhole := ih hrest htracked
      simp only [hconfig, List.append_assoc, ← heardOn_cons hsorted] at hwhole
      rw [hcheck]
      refine hwhole.imp id ?_
      rintro ⟨port, hport, ⟨earlier, later, length, hreport⟩, hflickers, hothers⟩
      refine ⟨port, List.mem_cons_of_mem _ hport, ⟨earlier, later, length, hcheck ▸ hreport⟩,
        hflickers, fun port' hport' hlt ↦ ?_⟩
      rcases List.mem_cons.1 hport' with rfl | hport'
      · -- The first port was looked at, and did not flicker then.
        rw [heardOn_cons hsorted, hunheard, List.append_nil]
        have hnot := (htracked entry.1).not_flickers
        rwa [hconfig] at hnot
      · exact hothers port' hport' hlt
    · refine .inr ⟨entry.1, List.mem_cons_self, ⟨earlier, later, length, ?_⟩, ?_, ?_⟩
      · rw [checkOscillation]
        split
        next heq =>
          rw [heq] at hreport
          exact hreport
        next heq =>
          rw [heq] at hreport
          cases hreport
      · rwa [heardOn_cons hsorted, hunheard, List.append_nil]
      · intro port' hport' hlt
        rcases List.mem_cons.1 hport' with rfl | hport'
        · exact absurd hlt (String.lt_irrefl _)
        · exact absurd (String.lt_trans hlt (hleast port' hport')) (String.lt_irrefl _)

/-- **A run that does not trip** keeps the invariant of every port. -/
theorem Quiet.tracked {calls : List (Call τ)} (hquiet : Quiet { config } calls)
    (horderly : Orderly calls) (hnow : ∀ t ∈ calls.filterMap Call.time?, t ≤ now) (node : NodeId)
    (port : String) : Tracked config now (heard config.continuousActions node port calls)
      ((after { config } calls).observed node port) := by
  induction calls using List.reverseRecOn generalizing now node port with
  | nil => exact tracked_nil
  | append_singleton calls c ih =>
    obtain ⟨hbefore, hlast, -⟩ := hquiet.of_append
    have hcalls := fun t ht ↦ hnow t (by
      rw [List.filterMap_append]
      exact List.mem_append_left _ ht)
    have hkept := ih hbefore horderly.of_append hcalls node port
    rw [after_append, heard_append]
    cases c with
    | beginTick => exact hkept
    | checkBurst => exact hkept
    | reset => exact tracked_nil
    | forget other =>
      show Tracked config now _ (((after { config } calls).forget other).observed node port)
      rw [observed_forget, hear]
      split
      · exact tracked_nil
      · exact hkept
    | checkOscillation other values t =>
      show Tracked config now _
        (((after { config } calls).checkOscillation other values t).1.observed node port)
      rw [hear]
      split
      next hnode =>
        subst hnode
        -- The check itself carries the invariant over, since it does not trip.
        have ht : t ≤ now := hnow t (by simp [Call.time?])
        obtain ⟨-, htracked⟩ | ⟨port', -, ⟨_, _, _, htrips⟩, -⟩ :=
          checkOscillation_spec (config_after { config } calls)
            (horderly.sorted other values t (by simp))
            fun port ↦ ih hbefore horderly.of_append horderly.le_now other port
        · exact (htracked port).mono ht
        · rw [quiet, htrips] at hlast
          cases hlast
      next hnode =>
        rw [observed_checkOscillation fun h ↦ absurd h hnode]
        exact hkept

/-! ### The result -/

/-- A value has no discrete signature exactly if all its commands are continuous. -/
theorem valueSignature?_eq_none_iff {v : Value} {continuous : List String} :
    valueSignature? v continuous = none ↔ ∀ c ∈ commandsIn v, c.action ∈ continuous := by
  have hparts : (commandsIn v).filterMap (·.signature? continuous) = [] ↔
      ∀ c ∈ commandsIn v, c.action ∈ continuous := by
    simp [List.filterMap_eq_nil_iff, Command.signature?]
  rw [← hparts, valueSignature?]
  split
  next hnil => exact iff_of_true rfl hnil
  next hcons => exact iff_of_false (by simp) hcons

/-- **The oscillation check is exact.** After any calls of which none tripped, a check trips on a
port exactly if it is the first, in the order of ids, at which all that was heard since it was last
forgotten flickers; it passes if there is none. A value whose commands are all continuous is not
heard, leaves what is kept of its port as it was, and never trips; and no history is ever longer
than the window. -/
theorem oscillation_exact (config : WatchdogConfig τ) (calls : List (Call τ)) (node : NodeId)
    (values : ValueMap) (now : τ)
    (horderly : Orderly (calls ++ [.checkOscillation node values now]))
    (hquiet : Quiet { config } calls) :
    let w := after { config } calls
    let heardAt := fun port ↦ heard config.continuousActions node port
      (calls ++ [.checkOscillation node values now])
    (∀ port, w.TripsOn node values now port ↔
      port ∈ values.keys ∧ Flickers config now (heardAt port) ∧
        ∀ port' ∈ values.keys, port' < port → ¬ Flickers config now (heardAt port')) ∧
    ((w.checkOscillation node values now).2 = none ↔
      ∀ port ∈ values.keys, ¬ Flickers config now (heardAt port)) ∧
    (∀ port v, values.get? port = some v →
      (∀ c ∈ commandsIn v, c.action ∈ config.continuousActions) →
        ¬ w.TripsOn node values now port ∧
        heardAt port = heard config.continuousActions node port calls ∧
        (w.checkOscillation node values now).1.observed node port = w.observed node port) ∧
    ∀ node' port, (w.observed node' port).length ≤ config.oscillationWindow ∧
      ((w.checkOscillation node values now).1.observed node' port).length ≤
        config.oscillationWindow := by
  intro w heardAt
  have hconfig : w.config = config := config_after { config } calls
  have hbounded : w.Bounded := bounded_after config calls
  have htracked := fun port ↦
    hquiet.tracked horderly.of_append horderly.le_now node port
  have hverdict := checkOscillation_spec hconfig (horderly.sorted node values now (by simp))
    htracked
  simp only [← heard_check] at hverdict
  have hverdict := hverdict.imp_left <| And.imp_right fun h port (_ : port ∈ values.keys) ↦
    (h port).not_flickers
  have htrips := tripsOn_iff hverdict
  refine ⟨htrips, checkOscillation_snd_eq_none_iff hverdict, fun port v hv hcontinuous ↦ ?_,
    fun node' port ↦ ?_⟩
  · have hsignature := valueSignature?_eq_none_iff.2 hcontinuous
    have hunheard : heardAt port = heard config.continuousActions node port calls := by
      show heard _ _ _ (calls ++ _) = _
      rw [heard_check, heardOn_of_none, List.append_nil]
      intro v' hv'
      rw [hv] at hv'
      exact Option.some.inj hv' ▸ hsignature
    refine ⟨fun h ↦ ?_, hunheard, observed_checkOscillation fun _ v' hv' ↦ ?_⟩
    · have hflickers : Flickers config now (heardAt port) := ((htrips port).1 h).2.1
      rw [hunheard] at hflickers
      exact (htracked port).not_flickers hflickers
    · have hsorted := horderly.sorted node values now (by simp)
      obtain rfl := Option.some.inj (hv.symm.trans (hsorted.get?_eq_some_iff.2 hv'))
      rw [hconfig]
      exact hsignature
  · have hafter : (w.checkOscillation node values now).1.Bounded := hbounded.checkOscillation values
    rw [Bounded, (w.checkOscillation_fst node values now).1, hconfig] at hafter
    exact ⟨hconfig ▸ hbounded node' port, hafter node' port⟩

end

/-! ### A lamp that flickers -/

/-- Thresholds in milliseconds: three alternating observations trip. -/
def lampConfig : WatchdogConfig ℤ where
  burstCeiling := 10
  oscillationWindow := 3
  oscillationMinAlternations := 3
  oscillationSpan := 80
  continuousActions := ["dim"]

/-- One command for a lamp. -/
def lampValues (action : String) : ValueMap := [("in", .map [("action", .text action)])]

/-- The lamp is switched on and off again, and dimmed meanwhile. -/
def lampCalls : List (Call ℤ) :=
  [.beginTick, .checkOscillation "lamp" (lampValues "on") 0,
    .checkOscillation "lamp" (lampValues "dim") 20,
    .checkOscillation "lamp" (lampValues "off") 40]

/-- Switching it on once more trips the check. -/
theorem oscillation_exact_lamp :
    Orderly (lampCalls ++ [.checkOscillation "lamp" (lampValues "on") 80]) ∧
      Quiet { config := lampConfig } lampCalls ∧
      (after { config := lampConfig } lampCalls).TripsOn "lamp" (lampValues "on") 80 "in" := by
  have horderly : Orderly (lampCalls ++ [.checkOscillation "lamp" (lampValues "on") 80]) := by
    refine ⟨fun node values now hmem ↦ ?_, by decide⟩
    simp only [lampCalls, List.cons_append, List.nil_append, List.mem_cons, reduceCtorEq,
      Call.checkOscillation.injEq, List.not_mem_nil, or_false, false_or] at hmem
    obtain ⟨-, rfl, -⟩ | ⟨-, rfl, -⟩ | ⟨-, rfl, -⟩ | ⟨-, rfl, -⟩ := hmem <;>
      exact List.pairwise_singleton _ _
  have hquiet : Quiet { config := lampConfig } lampCalls :=
    ⟨rfl, by decide +kernel, by decide +kernel, by decide +kernel, trivial⟩
  refine ⟨horderly, hquiet, ((oscillation_exact lampConfig lampCalls "lamp" (lampValues "on") 80
    horderly hquiet).1 "in").2 ⟨List.mem_cons_self, ?_, fun port' hport' hlt ↦ ?_⟩⟩
  · have hheard : heard ["dim"] "lamp" "in"
        (lampCalls ++ [.checkOscillation "lamp" (lampValues "on") 80]) =
          [⟨0, "on"⟩, ⟨40, "off"⟩, ⟨80, "on"⟩] := by rfl
    show Flickers lampConfig 80 (heard ["dim"] "lamp" "in" _)
    rw [hheard]
    refine ⟨3, by decide, by decide, by decide, by decide, ?_⟩
    show Alternates ["on", "off", "on"]
    rw [alternates_cons_cons_cons, alternates_pair]
    decide
  · rw [List.mem_singleton.1 hport'] at hlt
    exact absurd hlt (String.lt_irrefl _)

end CueFlow.Watchdog
