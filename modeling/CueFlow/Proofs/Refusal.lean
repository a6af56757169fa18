import Mathlib.Data.List.Forall2
/-!
# Computations that may be refused

Loading, editing and compiling are sequences of checks, each of which may end the whole sequence.
The lemmas here take a sequence that went through apart: into its two halves (`bind_eq_ok_iff`),
into a chain of states along which an invariant is carried (`foldlM_induction`), and into its single
results (`mem_of_mapM_eq_ok`). A sequence that was refused was so for the first of its elements that
is (`exists_of_mapM_eq_error`).

Two computations agree if they are both refused or both go through, to results that are related
(`Agree`). Sequences agree if they do so step by step (`Agree.bind`, `Agree.foldlM`).
-/

namespace CueFlow

variable {ε α β γ δ : Type}

theorem bind_eq_ok_iff {x : Except ε α} {f : α → Except ε β} {b : β} :
    (x >>= f) = .ok b ↔ ∃ a, x = .ok a ∧ f a = .ok b := by
  cases x with
  | ok a =>
    refine ⟨fun h ↦ ⟨a, rfl, h⟩, ?_⟩
    rintro ⟨_, ha, h⟩
    obtain rfl := Except.ok.inj ha
    exact h
  | error e =>
    refine ⟨fun h ↦ (by cases h), ?_⟩
    rintro ⟨_, ha, -⟩
    cases ha

theorem map_eq_ok_iff {x : Except ε α} {f : α → β} {b : β} :
    x.map f = .ok b ↔ ∃ a, x = .ok a ∧ f a = b := by
  cases x with
  | ok a => simp [Except.map]
  | error e => simp [Except.map]

/-- A sequence that can only be refused in its first half was refused there. -/
theorem eq_error_of_bind_pure {x : Except ε α} {f : α → β} {e : ε}
    (h : (x >>= fun a ↦ pure (f a)) = .error e) : x = .error e := by
  cases x with
  | ok a => cases h
  | error e' => exact congrArg Except.error (Except.error.inj h)

/-- Two sequences look the same if their first halves do, and the rest looks the same after any two
states that do. -/
theorem map_bind_congr {x y : Except ε α} {k l : α → Except ε β} {g : α → γ} {h : β → δ}
    (hxy : x.map g = y.map g) (hrest : ∀ a b, g a = g b → (k a).map h = (l b).map h) :
    (x >>= k).map h = (y >>= l).map h := by
  cases x with
  | ok a =>
    cases y with
    | ok b => exact hrest a b (Except.ok.inj hxy)
    | error e => cases hxy
  | error e =>
    cases y with
    | ok b => cases hxy
    | error e' =>
      obtain rfl := Except.error.inj hxy
      rfl

/-- What is done step by step in the same way on both sides is done in the same way as a whole. -/
theorem foldlM_map {T : Type} {f : α → T → Except ε α} {f' : β → T → Except ε β} {r : α → β}
    (hstep : ∀ a t, f' (r a) t = (f a t).map r) (a : α) (ts : List T) :
    ts.foldlM f' (r a) = (ts.foldlM f a).map r := by
  induction ts generalizing a with
  | nil => rfl
  | cons t rest ih =>
    rw [List.foldlM_cons, List.foldlM_cons, hstep]
    cases f a t with
    | ok a' => exact ih a'
    | error error => rfl

/-- So is what is done for each element. -/
theorem mapM_map {T : Type} {f : T → Except ε α} {f' : T → Except ε β} {r : α → β}
    (hstep : ∀ t, f' t = (f t).map r) (ts : List T) :
    ts.mapM f' = (ts.mapM f).map (List.map r) := by
  induction ts with
  | nil => rfl
  | cons t rest ih =>
    rw [List.mapM_cons, List.mapM_cons, ih, hstep]
    cases f t with
    | error error => rfl
    | ok a =>
      cases rest.mapM f with
      | ok as => rfl
      | error error => rfl

/-- What the first state satisfies and every step keeps, the last state satisfies. -/
theorem foldlM_induction {f : β → α → Except ε β} {P : β → Prop}
    (hstep : ∀ s x s', P s → f s x = .ok s' → P s') {xs : List α} {s s' : β} (hs : P s)
    (h : xs.foldlM f s = .ok s') : P s' := by
  induction xs generalizing s with
  | nil => exact Except.ok.inj h ▸ hs
  | cons x xs ih =>
    rw [List.foldlM_cons, bind_eq_ok_iff] at h
    obtain ⟨t, ht, h⟩ := h
    exact ih (hstep s x t hs ht) h

/-- A sequence of which no element is refused goes through. -/
theorem exists_mapM_eq_ok {f : α → Except ε β} {xs : List α} (h : ∀ x ∈ xs, ∃ y, f x = .ok y) :
    ∃ ys, xs.mapM f = .ok ys := by
  induction xs with
  | nil => exact ⟨[], rfl⟩
  | cons x xs ih =>
    obtain ⟨y, hy⟩ := h x List.mem_cons_self
    obtain ⟨ys, hys⟩ := ih fun x' hx' ↦ h x' (List.mem_cons_of_mem _ hx')
    exact ⟨y :: ys, by rw [List.mapM_cons, hy, hys]; rfl⟩

/-- A sequence goes through with these results if its elements do, one by one. -/
theorem mapM_eq_ok_iff {f : α → Except ε β} {xs : List α} {ys : List β} :
    xs.mapM f = .ok ys ↔ List.Forall₂ (fun x y ↦ f x = .ok y) xs ys := by
  induction xs generalizing ys with
  | nil =>
    rw [List.forall₂_nil_left_iff]
    exact ⟨fun h ↦ (Except.ok.inj h).symm, fun h ↦ congrArg Except.ok h.symm⟩
  | cons x xs ih =>
    rw [List.mapM_cons, bind_eq_ok_iff, List.forall₂_cons_left_iff]
    refine exists_congr fun y ↦ ?_
    simp only [bind_eq_ok_iff, ih]
    constructor
    · rintro ⟨hy, ys', hys', h⟩
      exact ⟨ys', hy, hys', (Except.ok.inj h).symm⟩
    · rintro ⟨ys', hy, hys', rfl⟩
      exact ⟨hy, ys', hys', rfl⟩

/-- A sequence that went through has a result for each element, and no others. -/
theorem mem_of_mapM_eq_ok {f : α → Except ε β} {xs : List α} {ys : List β}
    (h : xs.mapM f = .ok ys) :
    (∀ x ∈ xs, ∃ y ∈ ys, f x = .ok y) ∧ ∀ y ∈ ys, ∃ x ∈ xs, f x = .ok y := by
  induction xs generalizing ys with
  | nil =>
    obtain rfl := Except.ok.inj h
    simp
  | cons x xs ih =>
    rw [List.mapM_cons, bind_eq_ok_iff] at h
    obtain ⟨y, hy, h⟩ := h
    obtain ⟨ys, hys, h⟩ := bind_eq_ok_iff.1 h
    obtain rfl := Except.ok.inj h
    obtain ⟨hforth, hback⟩ := ih hys
    refine ⟨fun x' hx' ↦ ?_, fun y' hy' ↦ ?_⟩
    · rcases List.mem_cons.1 hx' with rfl | hx'
      · exact ⟨y, List.mem_cons_self, hy⟩
      · obtain ⟨y', hy', hf⟩ := hforth x' hx'
        exact ⟨y', List.mem_cons_of_mem _ hy', hf⟩
    · rcases List.mem_cons.1 hy' with rfl | hy'
      · exact ⟨x, List.mem_cons_self, hy⟩
      · obtain ⟨x', hx', hf⟩ := hback y' hy'
        exact ⟨x', List.mem_cons_of_mem _ hx', hf⟩

/-- A sequence is refused for the first of its elements that is. -/
theorem exists_of_mapM_eq_error {f : α → Except ε β} {xs : List α} {e : ε}
    (h : xs.mapM f = .error e) : ∃ before x after, xs = before ++ x :: after ∧
      (∀ y ∈ before, ∃ z, f y = .ok z) ∧ f x = .error e := by
  induction xs with
  | nil => cases h
  | cons x xs ih =>
    cases hx : f x with
    | error e' =>
      rw [List.mapM_cons, hx] at h
      obtain rfl := Except.error.inj h
      exact ⟨[], x, xs, rfl, by simp, hx⟩
    | ok z =>
      cases hxs : xs.mapM f with
      | ok zs =>
        rw [List.mapM_cons, hx, hxs] at h
        cases h
      | error e' =>
        rw [List.mapM_cons, hx, hxs] at h
        obtain rfl := Except.error.inj h
        obtain ⟨before, y, after, rfl, hbefore, hy⟩ := ih hxs
        refine ⟨x :: before, y, after, rfl, fun w hw ↦ ?_, hy⟩
        rcases List.mem_cons.1 hw with rfl | hw
        · exact ⟨z, hx⟩
        · exact hbefore w hw

/-! ### Two computations -/

/-- Both are refused, for whatever reasons, or both go through to related results. -/
inductive Agree (R : α → β → Prop) : Except ε α → Except ε β → Prop
  | ok {a : α} {b : β} (h : R a b) : Agree R (.ok a) (.ok b)
  | error (e e' : ε) : Agree R (.error e) (.error e')

namespace Agree

variable {R : α → β → Prop} {S : γ → δ → Prop} {x : Except ε α} {y : Except ε β}

/-- A computation agrees with itself. -/
theorem refl (x : Except ε α) : Agree Eq x x := by
  cases x with
  | ok a => exact .ok rfl
  | error e => exact .error e e

theorem bind {f : α → Except ε γ} {g : β → Except ε δ} (h : Agree R x y)
    (hrest : ∀ a b, R a b → Agree S (f a) (g b)) : Agree S (x >>= f) (y >>= g) := by
  cases h with
  | ok hab => exact hrest _ _ hab
  | error e e' => exact .error e e'

theorem map {f : α → γ} {g : β → δ} (h : Agree R x y) (hrest : ∀ a b, R a b → S (f a) (g b)) :
    Agree S (x.map f) (y.map g) := by
  cases h with
  | ok hab => exact .ok (hrest _ _ hab)
  | error e e' => exact .error e e'

/-- What is done to the result of one of two does not matter to whether they agree. -/
theorem of_map {R : α → δ → Prop} {f : β → δ} (h : Agree R x (y.map f)) :
    Agree (fun a b ↦ R a (f b)) x y := by
  cases y with
  | ok b =>
    cases h with
    | ok hab => exact .ok hab
  | error e =>
    cases h with
    | error e' => exact .error e' e

/-- More may be said of the results of two that agree. -/
theorem imp_of_ok {R' : α → β → Prop} (h : Agree R x y)
    (hrest : ∀ a b, x = .ok a → y = .ok b → R a b → R' a b) : Agree R' x y := by
  cases h with
  | ok hab => exact .ok (hrest _ _ rfl rfl hab)
  | error e e' => exact .error e e'

theorem foldlM {T : Type} {f : α → T → Except ε α} {g : β → T → Except ε β}
    (hstep : ∀ a b t, R a b → Agree R (f a t) (g b t)) {a : α} {b : β} (h : R a b)
    (ts : List T) : Agree R (ts.foldlM f a) (ts.foldlM g b) := by
  induction ts generalizing a b with
  | nil => exact .ok h
  | cons t rest ih =>
    rw [List.foldlM_cons, List.foldlM_cons]
    exact (hstep a b t h).bind fun _ _ hab ↦ ih hab

/-- Of two that agree, one goes through if the other does. -/
theorem exists_ok_iff (h : Agree R x y) : (∃ a, x = .ok a) ↔ ∃ b, y = .ok b := by
  cases h with
  | ok hab => exact iff_of_true ⟨_, rfl⟩ ⟨_, rfl⟩
  | error e e' => exact iff_of_false nofun nofun

theorem of_error {e : ε} (h : Agree R x (.error e : Except ε β)) : ∃ e', x = .error e' := by
  cases h with
  | error e' => exact ⟨e', rfl⟩

theorem of_ok {a : α} {b : β} (h : Agree R (.ok a : Except ε α) (.ok b)) : R a b := by
  cases h with
  | ok hab => exact hab

end Agree

end CueFlow
