import CueFlow.Override
import Mathlib.Data.Set.Card
import Mathlib.Logic.Function.Basic
/-!
# Overrides as one flat map

To a host the active overrides are one finite map from keys to overrides. A call writes, drops or
keeps what is there (`FlatMap.call`), and nothing is said of the nodes that the keys belong to.

What such a map holds goes back to one call that set it (`run_eq_some_iff`): the last call about
that key, if it was not due at any expiry since. Times need not be in order for this, and may be of
any type with a difference and an order. If times are exact and in order, then an override that is
not due at the last expiry was not due at any before, so the last expiry alone decides
(`lastSet_append_expire_iff`).
-/

namespace CueFlow

variable {τ ω γ ρ : Type}

/-- What an override is for. -/
structure OverrideKey where
  node : NodeId
  kind : OverrideKind
  key : String
deriving DecidableEq, Repr

/-- A call to the override store. -/
inductive OverrideCall (τ : Type) where
  | set (p : OverrideKey) (value : Value) (lifetime : Option τ) (now : τ)
  | clear (p : OverrideKey)
  | clearNode (v : NodeId)
  | clearAll
  | expire (now : τ)

/-- What a call to the override store returns. -/
inductive OverrideReply where
  | done
  | cleared (existed : Bool)
  | expired (count : Nat)
deriving DecidableEq, Repr

namespace OverrideCall

/-- Whether the call sets or clears the override of this key. -/
def IsAbout (p : OverrideKey) : OverrideCall τ → Prop
  | set q .. => q = p
  | clear q => q = p
  | clearNode v => v = p.node
  | clearAll => True
  | expire _ => False

/-- The time that the caller tells. -/
def time? : OverrideCall τ → Option τ
  | set _ _ _ now => some now
  | expire now => some now
  | _ => none

/-- All times that the caller tells. -/
def times (calls : List (OverrideCall τ)) : List τ := calls.filterMap time?

/-- Calls made one after the other: what they lead to, and their replies. -/
def run (call : ω → γ → ω × ρ) (s : ω) : List γ → ω × List ρ
  | [] => (s, [])
  | c :: rest =>
    let next := call s c
    let last := run call next.1 rest
    (last.1, next.2 :: last.2)

theorem run_append_singleton (call : ω → γ → ω × ρ) (s : ω) (calls : List γ) (c : γ) :
    (run call s (calls ++ [c])).1 = (call (run call s calls).1 c).1 := by
  induction calls generalizing s with
  | nil => rfl
  | cons first rest ih => exact ih (call s first).1

end OverrideCall

open OverrideCall (run times)

/-- A map from keys to overrides. -/
abbrev FlatMap (τ : Type) := OverrideKey → Option (Override τ)

/-- The keys in use. -/
def FlatMap.keys (m : FlatMap τ) : Set OverrideKey := {p | (m p).isSome}

section Due

variable [Sub τ] [LE τ]

/-- The lifetime has elapsed. -/
def Override.IsDue (o : Override τ) (now : τ) : Prop :=
  ∃ lifetime, o.lifetime = some lifetime ∧ lifetime ≤ now - o.updatedAt

theorem Override.isExpired_iff [DecidableLE τ] {o : Override τ} {now : τ} :
    o.isExpired now = true ↔ o.IsDue now := by
  rw [isExpired, IsDue]
  cases o.lifetime with
  | none => simp
  | some lifetime => simp

namespace FlatMap

variable {m : FlatMap τ} {p : OverrideKey} {o : Override τ}

/-- The keys of overrides that are due. -/
def due (m : FlatMap τ) (now : τ) : Set OverrideKey := {p | ∃ o, m p = some o ∧ o.IsDue now}

open Classical in
/-- What a call does to a map, and its reply. -/
noncomputable def call (m : FlatMap τ) : OverrideCall τ → FlatMap τ × OverrideReply
  | .set p value lifetime now => (Function.update m p (some ⟨value, now, lifetime⟩), .done)
  | .clear p => (Function.update m p none, .cleared (m p).isSome)
  | .clearNode v => (fun p ↦ if p.node = v then none else m p, .done)
  | .clearAll => (fun _ ↦ none, .done)
  | .expire now => (fun p ↦ if p ∈ m.due now then none else m p, .expired (m.due now).ncard)

/-- What a map has after an expiry. -/
theorem call_expire_eq_some_iff {now : τ} :
    (m.call (.expire now)).1 p = some o ↔ m p = some o ∧ ¬ o.IsDue now := by
  rw [call]
  by_cases hdue : p ∈ m.due now
  · obtain ⟨o', ho', hdue'⟩ := id hdue
    simp only [if_pos hdue, ho', reduceCtorEq, false_iff, not_and, not_not]
    rintro ⟨⟩
    exact hdue'
  · simp only [if_neg hdue]
    exact ⟨fun ho ↦ ⟨ho, fun hdue' ↦ hdue ⟨o, ho, hdue'⟩⟩, And.left⟩

/-- What a map has after a call. -/
theorem call_eq_some_iff {c : OverrideCall τ} :
    (m.call c).1 p = some o ↔ c = .set p o.value o.lifetime o.updatedAt ∨
      m p = some o ∧ ¬ c.IsAbout p ∧ ∀ now, c = .expire now → ¬ o.IsDue now := by
  cases c with
  | set q value lifetime now =>
    by_cases hq : q = p
    · obtain ⟨value', now', lifetime'⟩ := o
      simp only [call, OverrideCall.IsAbout, hq, Function.update_self, not_true_eq_false, false_and,
        and_false, or_false, Option.some.injEq, Override.mk.injEq, OverrideCall.set.injEq,
        true_and]
      exact and_congr_right fun _ ↦ and_comm
    · simp [call, OverrideCall.IsAbout, hq, Function.update_of_ne (Ne.symm hq)]
  | clear q =>
    by_cases hq : q = p
    · simp [call, OverrideCall.IsAbout, hq]
    · simp [call, OverrideCall.IsAbout, hq, Function.update_of_ne (Ne.symm hq)]
  | clearNode v =>
    by_cases hv : v = p.node
    · simp [call, OverrideCall.IsAbout, hv]
    · simp [call, OverrideCall.IsAbout, hv, Ne.symm hv]
  | clearAll => simp [call, OverrideCall.IsAbout]
  | expire now =>
    rw [call_expire_eq_some_iff]
    simp [OverrideCall.IsAbout]

/-! ### The call that set an override -/

/-- The override `o` of `p` was set by one of the calls. It has not been overwritten or cleared
since, and was due at no expiry since. -/
def LastSet (calls : List (OverrideCall τ)) (p : OverrideKey) (o : Override τ) : Prop :=
  ∃ before since, calls = before ++ .set p o.value o.lifetime o.updatedAt :: since ∧
    (∀ c ∈ since, ¬ c.IsAbout p) ∧ ∀ now, .expire now ∈ since → ¬ o.IsDue now

/-- The last call has set the override, or it has left it. -/
theorem lastSet_append_singleton {calls : List (OverrideCall τ)} {c : OverrideCall τ} :
    LastSet (calls ++ [c]) p o ↔ c = .set p o.value o.lifetime o.updatedAt ∨
      LastSet calls p o ∧ ¬ c.IsAbout p ∧ ∀ now, c = .expire now → ¬ o.IsDue now := by
  refine ⟨?_, ?_⟩
  · rintro ⟨before, since, heq, habout, hdue⟩
    rcases List.eq_nil_or_concat since with rfl | ⟨since, last, rfl⟩
    · exact .inl (List.append_singleton_inj.1 heq).2
    · rw [List.concat_eq_append] at heq habout hdue
      rw [← List.cons_append, ← List.append_assoc, List.append_singleton_inj] at heq
      obtain ⟨rfl, rfl⟩ := heq
      refine .inr ⟨⟨before, since, rfl, fun c' hc' ↦ habout c' (by simp [hc']),
        fun now hnow ↦ hdue now (by simp [hnow])⟩, habout c (by simp), ?_⟩
      rintro now rfl
      exact hdue now (by simp)
  · rintro (rfl | ⟨⟨before, since, rfl, habout, hdue⟩, hc, hcdue⟩)
    · exact ⟨calls, [], rfl, nofun, nofun⟩
    · refine ⟨before, since ++ [c], by simp, fun c' hc' ↦ ?_, fun now hnow ↦ ?_⟩
      · rcases List.mem_append.1 hc' with hc' | hc'
        · exact habout c' hc'
        · rwa [List.mem_singleton.1 hc']
      · rcases List.mem_append.1 hnow with hnow | hnow
        · exact hdue now hnow
        · exact hcdue now (List.mem_singleton.1 hnow).symm

/-- **The last write wins.** What a map has was set by the last call about its key. -/
theorem run_eq_some_iff (calls : List (OverrideCall τ)) :
    (run call (fun _ ↦ none) calls).1 p = some o ↔ LastSet calls p o := by
  induction calls using List.reverseRecOn generalizing o with
  | nil =>
    refine ⟨nofun, ?_⟩
    rintro ⟨before, since, heq, -⟩
    cases before <;> cases heq
  | append_singleton calls c ih =>
    rw [OverrideCall.run_append_singleton, call_eq_some_iff, lastSet_append_singleton, ih]

end FlatMap

end Due

/-! ### Exact times -/

section ExactTimes

variable [AddCommGroup τ] [LinearOrder τ] [IsOrderedAddMonoid τ] {o : Override τ} {now now' : τ}

/-- What is due stays due. -/
theorem Override.IsDue.mono (h : o.IsDue now) (hle : now ≤ now') : o.IsDue now' := by
  obtain ⟨lifetime, hlifetime, helapsed⟩ := h
  exact ⟨lifetime, hlifetime, helapsed.trans (sub_le_sub_right hle _)⟩

omit [IsOrderedAddMonoid τ] in
theorem Override.not_isDue_iff :
    ¬ o.IsDue now ↔ ∀ lifetime, o.lifetime = some lifetime → now - o.updatedAt < lifetime := by
  simp [IsDue]

/-- **With times in order the last expiry decides.** -/
theorem FlatMap.lastSet_append_expire_iff {calls : List (OverrideCall τ)} {p : OverrideKey}
    (h : (times (calls ++ [.expire now])).Pairwise (· ≤ ·)) :
    LastSet (calls ++ [.expire now]) p o ↔
      ∃ before since, calls = before ++ .set p o.value o.lifetime o.updatedAt :: since ∧
        (∀ c ∈ since, ¬ c.IsAbout p) ∧
          ∀ lifetime, o.lifetime = some lifetime → now - o.updatedAt < lifetime := by
  have hbefore : ∀ t, .expire t ∈ calls → t ≤ now := by
    intro t ht
    rw [times, List.filterMap_append, List.pairwise_append] at h
    exact h.2.2 t (List.mem_filterMap.2 ⟨_, ht, rfl⟩) now (by simp [OverrideCall.time?])
  rw [lastSet_append_singleton, ← Override.not_isDue_iff]
  refine ⟨?_, ?_⟩
  · rintro (hset | ⟨⟨before, since, hcalls, habout, -⟩, -, hdue⟩)
    · cases hset
    · exact ⟨before, since, hcalls, habout, hdue now rfl⟩
  · rintro ⟨before, since, hcalls, habout, hdue⟩
    refine .inr ⟨⟨before, since, hcalls, habout, fun t ht ↦ ?_⟩, id, ?_⟩
    · exact fun hearlier ↦ hdue (hearlier.mono (hbefore t (by simp [hcalls, ht])))
    · rintro _ ⟨⟩
      exact hdue

end ExactTimes

end CueFlow
