import CueFlow.Engine.Deliver
import CueFlow.Proofs.KeyMap
/-!
# What a visit delivers

A visit delivers what changed on every port since the visit before, and all that it gathered if that
visit does not compare with it (`delivery?_eq_some`). Either way the delivery is a map over the same
ports as what was gathered (`keys_delivery?`). A visit that delivers nothing has found nothing that
calls for it (`exists_of_delivery?_eq_none`).
-/

namespace CueFlow

variable {previous : Option SinkSnapshot} {current : SinkSnapshot} {delivered : ValueMap}

/-- Every port that gathered anything, with what changed on it since the visit before. -/
def changesSince (before next : ValueMap) : ValueMap :=
  next.map fun entry ↦ (entry.1, (portChange (before.get? entry.1) entry.2).value)

theorem get?_changesSince (before next : ValueMap) (port : String) :
    (changesSince before next).get? port =
      (next.get? port).map fun v ↦ (portChange (before.get? port) v).value :=
  KeyMap.get?_map_snd next (fun entry ↦ (portChange (before.get? entry.1) entry.2).value) port

theorem sinkDelta?_eq_some {before next : ValueMap} (h : sinkDelta? before next = some delivered) :
    delivered = changesSince before next := by
  rw [sinkDelta?] at h
  split at h
  · obtain rfl := Option.some.inj h
    rw [List.map_map]
    rfl
  · cases h

/-- The sink values that a visit compares with: those of the visit before, or none at all if that
visit found other compute inputs or another config. -/
def comparedWith (previous : Option SinkSnapshot) (current : SinkSnapshot) : ValueMap :=
  match previous with
  | some before => if before.sameSetting current then before.sinkValues else []
  | none => []

theorem changesSince_nil (next : ValueMap) : changesSince [] next = next :=
  List.map_id next

/-- **A visit delivers what changed** against the sink values that it compares with. -/
theorem delivery?_eq_some (h : delivery? previous current = some delivered) :
    delivered = changesSince (comparedWith previous current) current.sinkValues := by
  cases previous with
  | none =>
    rw [comparedWith, changesSince_nil]
    exact (Option.some.inj h).symm
  | some before =>
    rw [delivery?] at h
    rw [comparedWith]
    split at h
    · split at h
      · cases h
      · rename_i hsame _
        rw [if_pos hsame]
        exact sinkDelta?_eq_some h
    · rename_i hother
      rw [if_neg hother, changesSince_nil]
      exact (Option.some.inj h).symm

/-- What a visit that delivers nothing gathers on a port is known from the visit before. -/
theorem exists_of_sinkDelta?_eq_none {before next : ValueMap} (h : sinkDelta? before next = none)
    (port : String) : (next.get? port = none → before.get? port = none) ∧
      ∀ x, next.get? port = some x → ∃ v, before.get? port = some v ∧
        (portChange (some v) x).isChanged = false := by
  rw [sinkDelta?] at h
  split at h
  · cases h
  next hquiet =>
    rw [Bool.or_eq_true, not_or, List.any_map, List.any_eq_true, List.any_eq_true] at hquiet
    obtain ⟨hsame, hkept⟩ := hquiet
    refine ⟨fun hnone ↦ ?_, fun x hx ↦ ?_⟩
    · cases hv : before.get? port with
      | none => rfl
      | some v => exact absurd ⟨_, KeyMap.mem_of_get? hv, by simp [KeyMap.contains, hnone]⟩ hkept
    · have hunchanged : (portChange (before.get? port) x).isChanged = false := by
        by_contra hchanged
        exact hsame ⟨_, KeyMap.mem_of_get? hx, by simpa using hchanged⟩
      cases hv : before.get? port with
      | none =>
        rw [hv] at hunchanged
        cases hunchanged
      | some v => exact ⟨v, rfl, hv ▸ hunchanged⟩

/-- **A visit that delivers nothing** has a visit before it, and on every port it gathers an equal
value or one that is not a change, or nothing at all where that visit gathered nothing either. -/
theorem exists_of_delivery?_eq_none (h : delivery? previous current = none) (port : String) :
    ∃ before, previous = some before ∧
      ((before.sinkValues == current.sinkValues) = true ∨
        (current.sinkValues.get? port = none → before.sinkValues.get? port = none) ∧
        ∀ x, current.sinkValues.get? port = some x → ∃ v, before.sinkValues.get? port = some v ∧
          (portChange (some v) x).isChanged = false) := by
  cases previous with
  | none => cases h
  | some before =>
    refine ⟨before, rfl, ?_⟩
    rw [delivery?] at h
    split at h
    · split at h
      next hequal => exact .inl hequal
      next => exact .inr (exists_of_sinkDelta?_eq_none h port)
    · cases h

/-- **A delivery has the ports of what was gathered.** -/
theorem keys_delivery? (h : delivery? previous current = some delivered)
    (hsorted : current.sinkValues.Sorted) : delivered.Sorted ∧
      ∀ port, (delivered.get? port).isSome = (current.sinkValues.get? port).isSome := by
  obtain rfl := delivery?_eq_some h
  refine ⟨hsorted.map_snd _, fun port ↦ ?_⟩
  rw [get?_changesSince, Option.isSome_map]

/-! ### What a sink hook is given -/

/-- The entries of a list of ports that are looked up in a map, with a fallback. -/
theorem get?_map_ports (ports : List Port) (m : ValueMap) (fallback : Port → Value) {port : String}
    {v : Value} (hport : port ∈ ports.map Port.id) (hv : m.get? port = some v) :
    KeyMap.get? (ports.map fun p ↦ (p.id, (m.get? p.id).getD (fallback p))) port = some v := by
  induction ports with
  | nil => cases hport
  | cons p rest ih =>
    rw [List.map_cons, KeyMap.get?_cons]
    by_cases hp : p.id = port
    · simp [hp, hv]
    · rw [if_neg hp]
      exact ih (by simpa [Ne.symm hp] using hport)

/-- A map over the ids of ports is found again by looking up every one of them. -/
theorem ofEntries_map_ports (ports : List Port) (f fallback : Port → Value) :
    KeyMap.ofEntries (ports.map fun p ↦
        (p.id, ((KeyMap.ofEntries (ports.map fun p ↦ (p.id, f p))).get? p.id).getD (fallback p))) =
      KeyMap.ofEntries (ports.map fun p ↦ (p.id, f p)) := by
  refine KeyMap.Sorted.ext (KeyMap.sorted_ofEntries _) (KeyMap.sorted_ofEntries _) fun key ↦ ?_
  have hlookup : ∀ g : Port → Value, (KeyMap.ofEntries (ports.map fun p ↦ (p.id, g p))).get? key =
      KeyMap.get? (ports.reverse.map fun p ↦ (p.id, g p)) key := by
    intro g
    rw [KeyMap.ofEntries, KeyMap.get?_overlay, ← List.map_reverse]
    exact Option.or_none
  by_cases hkey : key ∈ ports.reverse.map Port.id
  · obtain ⟨p, hp, rfl⟩ := List.mem_map.1 hkey
    obtain ⟨v, hv⟩ := KeyMap.exists_get?_of_mem
      (List.mem_map_of_mem (f := fun p : Port ↦ (p.id, f p)) hp)
    rw [← hlookup f] at hv
    rw [hlookup, get?_map_ports _ _ fallback hkey hv, hv]
  · have hnone : ∀ g : Port → Value,
        KeyMap.get? (ports.reverse.map fun p ↦ (p.id, g p)) key = none := by
      intro g
      rw [Option.eq_none_iff_forall_ne_some]
      intro v hv
      obtain ⟨p, hp, heq⟩ := List.mem_map.1 (KeyMap.mem_of_get? hv)
      exact hkey (List.mem_map.2 ⟨p, hp, congrArg Prod.fst heq⟩)
    rw [hlookup, hlookup, hnone, hnone]

/-- The sink hook is given what is delivered. -/
theorem get?_sinkInputsFor {d : NodeDefinition} {computeInputs : ValueMap} {port : String}
    {v : Value} (hport : port ∈ d.sinkInputs.map Port.id) (hv : delivered.get? port = some v) :
    (sinkInputsFor d computeInputs delivered).get? port = some v := by
  have hmem : port ∈ d.sinkInputs.reverse.map Port.id := by simpa using hport
  rw [sinkInputsFor, KeyMap.get?_overlay, ← List.map_reverse,
    get?_map_ports _ delivered Port.default hmem hv]
  rfl

/-- Look-up among the entries of ports whose ids are distinct. -/
theorem get?_map_of_nodup {ports : List Port} (hports : (ports.map Port.id).Nodup) {p : Port}
    (hp : p ∈ ports) (f : Port → Value) :
    KeyMap.get? (ports.map fun q ↦ (q.id, f q)) p.id = some (f p) := by
  induction ports with
  | nil => cases hp
  | cons q rest ih =>
    obtain ⟨hnew, hrest⟩ := List.nodup_cons.1 hports
    rw [List.map_cons, KeyMap.get?_cons]
    rcases List.mem_cons.1 hp with rfl | hp
    · rw [if_pos rfl]
    · have hne : q.id ≠ p.id := fun heq ↦ hnew (List.mem_map.2 ⟨p, hp, heq.symm⟩)
      rw [if_neg hne]
      exact ih hrest hp

/-- If the ids of its ports are distinct, the sink hook is given the default of a point of delivery
exactly where nothing is delivered. -/
theorem get?_sinkInputsFor_of_nodup {d : NodeDefinition} (hports : (d.inputs.map Port.id).Nodup)
    (computeInputs delivered : ValueMap) {p : Port} (hp : p ∈ d.sinkInputs) :
    (sinkInputsFor d computeInputs delivered).get? p.id =
      some ((delivered.get? p.id).getD p.default) := by
  have hsink : (d.sinkInputs.map Port.id).Nodup := (List.filter_sublist.map Port.id).nodup hports
  have hreverse : (d.sinkInputs.reverse.map Port.id).Nodup := by
    rw [List.map_reverse]
    exact List.nodup_reverse.2 hsink
  rw [sinkInputsFor, KeyMap.get?_overlay, ← List.map_reverse,
    get?_map_of_nodup hreverse (List.mem_reverse.2 hp)
      (fun q ↦ (delivered.get? q.id).getD q.default)]
  rfl

theorem sorted_sinkInputsFor {computeInputs : ValueMap} (h : computeInputs.Sorted)
    (d : NodeDefinition) (delivered : ValueMap) :
    (sinkInputsFor d computeInputs delivered).Sorted :=
  KeyMap.sorted_overlay h _

/-- The inputs of the hook at the ports of a delivery are the delivery. -/
theorem filter_sinkInputsFor {d : NodeDefinition} {computeInputs : ValueMap}
    (hinputs : computeInputs.Sorted) (hsorted : delivered.Sorted) {keep : String → Bool}
    (hkeep : ∀ port, keep port = (delivered.get? port).isSome)
    (hports : ∀ port, keep port → port ∈ d.sinkInputs.map Port.id) :
    (sinkInputsFor d computeInputs delivered).filter (fun entry ↦ keep entry.1) = delivered := by
  refine KeyMap.Sorted.ext ((sorted_sinkInputsFor hinputs d delivered).filter _) hsorted
    fun port ↦ ?_
  rw [KeyMap.get?_filter_fst]
  cases hv : delivered.get? port with
  | none =>
    have hdrop : keep port = false := by rw [hkeep, hv]; rfl
    rw [hdrop]
    rfl
  | some v =>
    have htake : keep port = true := by rw [hkeep, hv]; rfl
    rw [if_pos htake, get?_sinkInputsFor (hports port htake) hv]

end CueFlow
