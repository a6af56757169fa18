import CueFlow.Proofs.Watchdog.Alternation
import Mathlib.Algebra.Order.Group.Defs
import Mathlib.Algebra.Order.Group.Unbundled.Basic
import Mathlib.Data.List.DropRight
/-!
# A short history is enough to see a flicker

The watchdog drops observations beyond the window and those older than the span, and scans what is
left. What it ought to decide is about all that was observed, however long ago: whether the latest
observations *flicker* (`Flickers`). Two facts make the short history do. What is dropped once would
be dropped at any later time (`recent_recent`), so what is kept is the recent part of the whole. And
the recent part ends in a long alternation exactly if the whole flickers
(`le_alternation_recent_iff`).

Times are exact: they form a linearly ordered commutative group.
-/

namespace CueFlow.Watchdog

variable {τ : Type}

/-- The observations stand in the order of time. -/
def InOrder [LE τ] (all : List (Observation τ)) : Prop := all.Pairwise fun a b ↦ a.time ≤ b.time

/-- The latest observations flicker: at least the configured number of them, and two, but no more
than the window holds, are all within the span and alternate strictly between two signatures. -/
def Flickers [Sub τ] [LE τ] (config : WatchdogConfig τ) (now : τ) (all : List (Observation τ)) :
    Prop :=
  ∃ m, max config.oscillationMinAlternations 2 ≤ m ∧ m ≤ config.oscillationWindow ∧
    m ≤ all.length ∧ (∀ o ∈ all.rtake m, now - o.time ≤ config.oscillationSpan) ∧
    Alternates ((all.rtake m).map Observation.signature)

/-- The recent part of some observations: no more than the window holds, and of those none before
the first that is within the span. -/
def recent [Sub τ] [LT τ] [DecidableLT τ] (config : WatchdogConfig τ) (now : τ)
    (all : List (Observation τ)) : List (Observation τ) :=
  (all.drop (all.length - config.oscillationWindow)).dropWhile fun o ↦
    decide (config.oscillationSpan < now - o.time)

/-- The latest entries of a suffix are those of the whole. -/
theorem rtake_of_suffix {α : Type} {xs ys : List α} {m : Nat} (h : xs <:+ ys)
    (hm : m ≤ xs.length) : xs.rtake m = ys.rtake m := by
  obtain ⟨gone, rfl⟩ := h
  rw [List.rtake, List.rtake, List.length_append, Nat.add_sub_assoc hm, List.drop_append]
  simp

theorem rtake_cons {α : Type} {x : α} {xs : List α} {m : Nat} (hm : m ≤ xs.length) :
    (x :: xs).rtake m = xs.rtake m :=
  (rtake_of_suffix (List.suffix_cons x xs) hm).symm

section

variable [Sub τ] [LT τ] [DecidableLT τ] {config : WatchdogConfig τ} {now : τ}

theorem recent_nil : recent config now [] = [] := by simp [recent]

/-- An observation goes if there are as many after it as the window holds, or if it is too old. -/
theorem recent_cons (o : Observation τ) (rest : List (Observation τ)) :
    recent config now (o :: rest) =
      if config.oscillationWindow ≤ rest.length ∨ config.oscillationSpan < now - o.time then
        recent config now rest
      else o :: rest := by
  by_cases hfull : config.oscillationWindow ≤ rest.length
  · rw [if_pos (.inl hfull), recent, recent, List.length_cons, Nat.succ_sub hfull,
      List.drop_succ_cons]
  · have hall : (o :: rest).length - config.oscillationWindow = 0 := by
      rw [List.length_cons]
      omega
    have hrest : rest.length - config.oscillationWindow = 0 := by omega
    rw [recent, recent, hall, hrest, List.drop_zero, List.drop_zero, List.dropWhile_cons]
    simp [hfull]

theorem length_recent_le (all : List (Observation τ)) :
    (recent config now all).length ≤ config.oscillationWindow := by
  induction all with
  | nil =>
    rw [recent_nil]
    exact Nat.zero_le _
  | cons o rest ih =>
    rw [recent_cons]
    split
    · exact ih
    · rw [List.length_cons]
      omega

theorem recent_suffix (all : List (Observation τ)) : recent config now all <:+ all :=
  (List.dropWhile_suffix _).trans (List.drop_suffix _ _)

end

section

variable [AddCommGroup τ] [LinearOrder τ] {config : WatchdogConfig τ} {now : τ}

theorem not_flickers_nil : ¬ Flickers config now [] := by
  rintro ⟨m, hmin, -, hm, -⟩
  rw [List.length_nil] at hm
  omega

/-- Observations within the span stay, as many as the window holds. -/
theorem le_length_recent {all : List (Observation τ)} {m : Nat}
    (hwindow : m ≤ config.oscillationWindow) (hm : m ≤ all.length)
    (hrecent : ∀ o ∈ all.rtake m, now - o.time ≤ config.oscillationSpan) :
    m ≤ (recent config now all).length := by
  induction all with
  | nil =>
    rw [recent_nil]
    exact hm
  | cons o rest ih =>
    rw [recent_cons]
    by_cases hrest : m ≤ rest.length
    · rw [rtake_cons hrest] at hrecent
      split
      next => exact ih hrest hrecent
      next => exact hrest.trans (Nat.le_succ _)
    · -- The latest `m` are all there are, so the first is among them and stays.
      have hall : m = (o :: rest).length := by
        rw [List.length_cons] at hm ⊢
        omega
      rw [hall, List.rtake, Nat.sub_self, List.drop_zero] at hrecent
      have ho : ¬ config.oscillationSpan < now - o.time := not_lt.2 (hrecent o List.mem_cons_self)
      rw [if_neg (not_or.2 ⟨by omega, ho⟩)]
      exact hm

variable [IsOrderedAddMonoid τ] {t : τ} {all : List (Observation τ)}

/-- What does not flicker does not begin to by waiting. -/
theorem Flickers.of_le (h : Flickers config now all) (hle : t ≤ now) : Flickers config t all := by
  obtain ⟨m, hmin, hwindow, hm, hrecent, halternates⟩ := h
  exact ⟨m, hmin, hwindow, hm, fun o ho ↦ (sub_le_sub_right hle _).trans (hrecent o ho),
    halternates⟩

/-- **What is dropped once would be dropped at any later time.** -/
theorem recent_recent (hle : t ≤ now) (all more : List (Observation τ)) :
    recent config now (recent config t all ++ more) = recent config now (all ++ more) := by
  induction all with
  | nil => rw [recent_nil]
  | cons o rest ih =>
    rw [recent_cons]
    split
    next hgone =>
      -- With more behind it and at a later time, it goes all the more.
      have hgone' : config.oscillationWindow ≤ (rest ++ more).length ∨
          config.oscillationSpan < now - o.time := by
        refine hgone.imp (fun hfull ↦ ?_) (fun hold ↦ hold.trans_le (sub_le_sub_right hle _))
        rw [List.length_append]
        omega
      rw [ih, List.cons_append, recent_cons, if_pos hgone']
    next => rfl

/-- In the order of time, the recent part is within the span altogether. -/
theorem le_span_of_mem_recent (horder : InOrder all) {o : Observation τ}
    (ho : o ∈ recent config now all) : now - o.time ≤ config.oscillationSpan := by
  induction all with
  | nil =>
    rw [recent_nil] at ho
    cases ho
  | cons first rest ih =>
    obtain ⟨hfirst, hrest⟩ := List.pairwise_cons.1 horder
    rw [recent_cons] at ho
    split at ho
    next => exact ih hrest ho
    next hkept =>
      rw [not_or, not_lt] at hkept
      rcases List.mem_cons.1 ho with rfl | ho
      · exact hkept.2
      · exact (sub_le_sub_left (hfirst o ho) _).trans hkept.2

/-- **The scan of the recent part decides** whether the whole flickers. -/
theorem le_alternation_recent_iff (horder : InOrder all) :
    max config.oscillationMinAlternations 2 ≤
        alternation ((recent config now all).map Observation.signature).reverse ↔
      Flickers config now all := by
  have hsuffix : recent config now all <:+ all := recent_suffix all
  have hscan : ∀ k, k ≤ alternation ((recent config now all).map Observation.signature).reverse ↔
      k ≤ (recent config now all).length ∧
        Alternates (((recent config now all).rtake k).map Observation.signature) := by
    intro k
    rw [le_alternation_reverse_iff, List.length_map, List.rtake, List.length_map, List.rtake,
      List.map_drop]
  constructor
  · intro h
    obtain ⟨hlength, halternates⟩ := (hscan _).1 h
    rw [rtake_of_suffix hsuffix hlength] at halternates
    refine ⟨_, le_rfl, hlength.trans (length_recent_le all), hlength.trans hsuffix.length_le,
      fun o ho ↦ le_span_of_mem_recent horder ?_, halternates⟩
    rw [← rtake_of_suffix hsuffix hlength] at ho
    exact List.mem_of_mem_drop ho
  · rintro ⟨m, hmin, hwindow, hm, hrecent, halternates⟩
    have hlength := le_length_recent hwindow hm hrecent
    rw [← rtake_of_suffix hsuffix hlength] at halternates
    exact hmin.trans ((hscan m).2 ⟨hlength, halternates⟩)

end

end CueFlow.Watchdog
