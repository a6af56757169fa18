import CueFlow.Proofs.Watchdog.Alternation
import Mathlib.Data.Nat.PSub
import Mathlib.Order.Bounds.Defs
/-!
# Scanning a window place by place

The watchdog scans a history latest entry first. Here the scan is spelled out on the window as it is
kept, oldest observation first, with places that are counted from the front (`Watchdog.scan`). A
place below the first is a fault, and so is a look beside the window; a scan that comes to a fault
finds nothing.

Both come to the same (`Watchdog.scan_eq`), so the scan by places never comes to a fault. The loop
keeps the window cut in two (`Watchdog.scanFrom_eq`): the entries that are known to alternate, and
the earlier ones, on which the induction goes. What is found is the length of the longest
alternation at the end of the window (`Watchdog.scan_longest`).
-/

namespace CueFlow.Watchdog

variable {τ : Type}

/-- Go on with a scan that has found the last `length` entries to alternate. -/
def scanFrom (window : List (Observation τ)) (length : Nat) : Option Nat :=
  if length < window.length then do
    let i ← (← window.length.psub 1).psub length
    if (← window[i]?).signature ≠ (← window[i + 2]?).signature then return length
    if (← window[i]?).signature = (← window[i + 1]?).signature then return length
    scanFrom window (length + 1)
  else return length
termination_by window.length - length

/-- How many of the last entries of a window alternate. -/
def scan (window : List (Observation τ)) : Option Nat :=
  if window.length < 2 then return min window.length 1
  else do
    let latest ← window[← window.length.psub 1]?
    let second ← window[← window.length.psub 2]?
    if latest.signature = second.signature then return min window.length 1
    scanFrom window 2

/-- **One round**: the scan goes on if the next earlier entry equals the one two after it and
differs from the one after it. All three are in the window. -/
theorem scanFrom_round (earlier after : List (Observation τ)) (latest second o : Observation τ) :
    scanFrom (earlier.reverse ++ o :: second :: latest :: after) (after.length + 2) =
      if o.signature = latest.signature ∧ o.signature ≠ second.signature then
        scanFrom (earlier.reverse ++ o :: second :: latest :: after) (after.length + 3)
      else some (after.length + 2) := by
  have hlength : (earlier.reverse ++ o :: second :: latest :: after).length =
      earlier.length + (after.length + 2) + 1 := by
    simp
    omega
  have hlast : (earlier.length + (after.length + 2) + 1).psub 1 =
      some (earlier.length + (after.length + 2)) :=
    Nat.psub_eq_some.2 rfl
  have hplace : (earlier.length + (after.length + 2)).psub (after.length + 2) =
      some earlier.length :=
    Nat.psub_eq_some.2 rfl
  rw [scanFrom, hlength, if_pos (by omega), hlast, Option.bind_eq_bind, Option.bind_some, hplace]
  by_cases htwo : o.signature = latest.signature
  · by_cases hone : latest.signature = second.signature <;> simp [htwo, hone]
  · simp [htwo]

/-- With the window cut into `earlier` entries and entries that are known to alternate, of which the
two in front are `second` and `latest`, the scan goes on as the watchdog does. -/
theorem scanFrom_eq (earlier after : List (Observation τ)) (latest second : Observation τ) :
    scanFrom (earlier.reverse ++ second :: latest :: after) (after.length + 2) =
      some (after.length + 2 + alternationBefore latest.signature second.signature
        (earlier.map Observation.signature)) := by
  induction earlier generalizing after latest second with
  | nil =>
    rw [scanFrom, if_neg (by simp)]
    rfl
  | cons o earlier ih =>
    have hwindow : (o :: earlier).reverse ++ second :: latest :: after =
        earlier.reverse ++ o :: second :: latest :: after := by simp
    rw [hwindow, scanFrom_round, List.map_cons, alternationBefore]
    split
    next =>
      have hnext := ih (latest :: after) second o
      rw [List.length_cons] at hnext
      rw [hnext]
      exact congrArg some (by omega)
    next => rfl

/-- **The scan by places finds what the watchdog finds**, and never comes to a fault. -/
theorem scan_eq (window : List (Observation τ)) :
    scan window = some (alternation (window.map Observation.signature).reverse) := by
  rw [← List.reverse_reverse window]
  match window.reverse with
  | [] => rfl
  | [o] => rfl
  | latest :: second :: earlier =>
    have hwindow : (latest :: second :: earlier).reverse =
        earlier.reverse ++ [second, latest] := by simp
    have hfrom := scanFrom_eq earlier [] latest second
    rw [List.length_nil, Nat.zero_add] at hfrom
    rw [hwindow, scan, if_neg (by simp)]
    by_cases hsame : latest.signature = second.signature
    · simp [hsame, alternation]
    · simp [hsame, alternation, hfrom]

/-- **The scan finds the longest alternation at the end of a window**, whatever the window holds,
and no place that it looks at is outside of the window. What it finds is what the watchdog goes by.
-/
theorem scan_longest (window : List (Observation τ)) :
    let signatures := window.map Observation.signature
    ∃ longest, scan window = some longest ∧ longest = alternation signatures.reverse ∧
      IsGreatest {k | k ≤ signatures.length ∧ Alternates (signatures.rtake k)} longest ∧
      (longest = 0 ↔ signatures = []) ∧
      (longest = 1 ↔ ∃ s, signatures = [s] ∨ ∃ earlier, signatures = earlier ++ [s, s]) := by
  intro signatures
  have hgreatest : IsGreatest {k | k ≤ signatures.length ∧ Alternates (signatures.rtake k)}
      (alternation signatures.reverse) := by
    constructor
    · exact (le_alternation_reverse_iff signatures _).1 le_rfl
    · intro k hk
      exact (le_alternation_reverse_iff signatures k).2 hk
  refine ⟨alternation signatures.reverse, scan_eq window, rfl, hgreatest, ?_, ?_⟩
  · rw [alternation_eq_zero_iff, List.reverse_eq_nil_iff]
  · rw [alternation_eq_one_iff]
    refine exists_congr fun s ↦ or_congr ?_ ?_
    · rw [List.reverse_eq_iff, List.reverse_singleton]
    · rw [List.reverse_surjective.exists]
      refine exists_congr fun earlier ↦ ?_
      rw [List.reverse_eq_iff, List.reverse_cons, List.reverse_cons, List.reverse_reverse,
        List.append_assoc, List.singleton_append]

/-- The last four signatures alternate, and the one before them is a third. -/
example : scan (["dim", "on", "off", "on", "off"].map fun s ↦ ⟨0, s⟩ : List (Observation Nat)) =
    some 4 := by
  cbv

end CueFlow.Watchdog
