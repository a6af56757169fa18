import CueFlow.Proofs.Graph.Valid
/-!
# The version counts the edits

Every edit that is carried out moves the version on by one, whatever it changes, and a refused edit
leaves the graph as it is (`version_of_apply`, `afterEdits_of_error`). So after any edits the
version is the one that was loaded plus the number of edits that were carried out
(`version_afterEdits`), as a number of 64 bits.

How far this makes versions grow hangs on how much room the loaded version leaves below `2 ^ 64`,
for a snapshot may come with any version. Within that room every edit that is carried out leads to a
version that has not been there before, and snapshots with one version are one snapshot
(`versions_grow`). At the end of it the version starts anew from zero (`version_wraps_around`).
-/

namespace CueFlow.Graph

variable {g g' : Graph} {edit : GraphEdit} {edits before after : List GraphEdit}

/-! ### One edit -/

/-- **An edit that is carried out** moves the version on by one. -/
theorem version_of_apply (h : g.apply edit = .ok g') : g'.version = g.version + 1 := by
  cases editMove_of_apply h with
  | addNode | removeNode | addConnection | removeConnection | setConfig | setInputValue => rfl

/-- A load takes the version over as it is. -/
theorem version_of_load {catalog : Catalog} {state : GraphState} {policy : LoadPolicy}
    {report : LoadReport} (h : Graph.load catalog state policy = .ok (g, report)) :
    g.version = state.version :=
  load_induction (P := fun g ↦ g.version = state.version) h rfl (fun _ _ hg _ ↦ hg)
    fun _ _ hg _ ↦ hg

/-! ### Any edits -/

/-- How many of some edits are carried out. -/
def carriedOut (g : Graph) : List GraphEdit → Nat
  | [] => 0
  | edit :: rest =>
    match g.apply edit with
    | .ok g' => g'.carriedOut rest + 1
    | .error _ => g.carriedOut rest

theorem carriedOut_cons_of_ok (h : g.apply edit = .ok g') :
    g.carriedOut (edit :: edits) = g'.carriedOut edits + 1 := by
  rw [carriedOut, h]

theorem carriedOut_cons_of_error {error : EngineError} (h : g.apply edit = .error error) :
    g.carriedOut (edit :: edits) = g.carriedOut edits := by
  rw [carriedOut, h]

theorem afterEdits_cons_of_ok (h : g.apply edit = .ok g') :
    g.afterEdits (edit :: edits) = g'.afterEdits edits := by
  rw [afterEdits, List.foldl_cons, h]
  rfl

theorem afterEdits_cons_of_error {error : EngineError} (h : g.apply edit = .error error) :
    g.afterEdits (edit :: edits) = g.afterEdits edits := by
  rw [afterEdits, List.foldl_cons, h]
  rfl

theorem afterEdits_append :
    g.afterEdits (before ++ after) = (g.afterEdits before).afterEdits after :=
  List.foldl_append

theorem carriedOut_append : g.carriedOut (before ++ after) =
    g.carriedOut before + (g.afterEdits before).carriedOut after := by
  induction before generalizing g with
  | nil => exact (Nat.zero_add _).symm
  | cons edit rest ih =>
    cases happly : g.apply edit with
    | ok g' =>
      rw [List.cons_append, carriedOut_cons_of_ok happly, carriedOut_cons_of_ok happly,
        afterEdits_cons_of_ok happly, ih]
      omega
    | error error =>
      rw [List.cons_append, carriedOut_cons_of_error happly, carriedOut_cons_of_error happly,
        afterEdits_cons_of_error happly, ih]

theorem carriedOut_le_of_isPrefix (h : before <+: edits) :
    g.carriedOut before ≤ g.carriedOut edits := by
  obtain ⟨after, rfl⟩ := h
  rw [carriedOut_append]
  exact Nat.le_add_right _ _

/-- Edits that are all refused leave the graph as it is. -/
theorem afterEdits_of_carriedOut_eq_zero (h : g.carriedOut edits = 0) :
    g.afterEdits edits = g := by
  induction edits with
  | nil => rfl
  | cons edit rest ih =>
    cases happly : g.apply edit with
    | ok g' =>
      rw [carriedOut_cons_of_ok happly] at h
      cases h
    | error error =>
      rw [carriedOut_cons_of_error happly] at h
      exact (afterEdits_cons_of_error happly).trans (ih h)

/-- **The version counts the edits that are carried out**, as far as 64 bits go. -/
theorem version_afterEdits (g : Graph) (edits : List GraphEdit) :
    (g.afterEdits edits).version.toNat =
      (g.version.toNat + g.carriedOut edits) % UInt64.size := by
  induction edits generalizing g with
  | nil => exact (Nat.mod_eq_of_lt g.version.toNat_lt).symm
  | cons edit rest ih =>
    cases happly : g.apply edit with
    | ok g' =>
      rw [afterEdits_cons_of_ok happly, carriedOut_cons_of_ok happly, ih,
        version_of_apply happly, UInt64.toNat_add, UInt64.toNat_one, Nat.mod_add_mod]
      exact congrArg (· % UInt64.size) (by omega)
    | error error =>
      rw [afterEdits_cons_of_error happly, carriedOut_cons_of_error happly, ih]

/-- Below `2 ^ 64` they are counted as they are. -/
theorem version_afterEdits_of_isPrefix (hroom : g.version.toNat + g.carriedOut edits < UInt64.size)
    (h : before <+: edits) :
    (g.afterEdits before).version.toNat = g.version.toNat + g.carriedOut before := by
  have hle := carriedOut_le_of_isPrefix (g := g) h
  rw [version_afterEdits, Nat.mod_eq_of_lt (by omega)]

/-- Of two beginnings of the same edits, one begins the other; if as many edits are carried out in
both, they lead to one graph. -/
theorem afterEdits_eq_of_carriedOut_eq {other : List GraphEdit} (hbefore : before <+: edits)
    (hother : other <+: edits) (hcount : g.carriedOut before = g.carriedOut other) :
    g.afterEdits before = g.afterEdits other := by
  wlog hle : before.length ≤ other.length generalizing before other
  · exact (this hother hbefore hcount.symm (by omega)).symm
  obtain ⟨more, rfl⟩ := List.prefix_of_prefix_length_le hbefore hother hle
  rw [carriedOut_append] at hcount
  have hnone : (g.afterEdits before).carriedOut more = 0 := by omega
  rw [afterEdits_append, afterEdits_of_carriedOut_eq_zero hnone]

/-! ### Versions grow -/

/-- **Versions grow** as long as there is room for them. Load any snapshot and make any edits; as
many of them as are carried out must fit between the loaded version and `2 ^ 64`. Then a refused
edit leaves the graph as it is, and with it the version, an edit that is carried out leads to a
version above all that the graph has had so far, and at any two moments at which the version is the
same, so is the whole snapshot. -/
theorem versions_grow {catalog : Catalog} {state : GraphState} {policy : LoadPolicy}
    {report : LoadReport} (hload : Graph.load catalog state policy = .ok (g, report))
    (edits : List GraphEdit)
    (hroom : state.version.toNat + g.carriedOut edits < UInt64.size) :
    g.snapshot.version = state.version ∧
    (∀ before edit after, edits = before ++ edit :: after →
      (∀ error, (g.afterEdits before).apply edit = .error error →
        g.afterEdits (before ++ [edit]) = g.afterEdits before) ∧
      ∀ g', (g.afterEdits before).apply edit = .ok g' →
        g.afterEdits (before ++ [edit]) = g' ∧
        ∀ earlier, earlier <+: before →
          (g.afterEdits earlier).snapshot.version < g'.snapshot.version) ∧
    ∀ one other, one <+: edits → other <+: edits →
      (g.afterEdits one).snapshot.version = (g.afterEdits other).snapshot.version →
      (g.afterEdits one).snapshot = (g.afterEdits other).snapshot := by
  have hversion : g.version = state.version := version_of_load hload
  rw [← hversion] at hroom
  refine ⟨hversion, fun before edit after hsplit ↦ ⟨fun error happly ↦ ?_, fun g' happly ↦ ?_⟩,
    fun one other hone hother hsame ↦ ?_⟩
  · rw [afterEdits_append, afterEdits_cons_of_error happly]
    rfl
  · have hnext : g.afterEdits (before ++ [edit]) = g' := by
      rw [afterEdits_append, afterEdits_cons_of_ok happly]
      rfl
    refine ⟨hnext, fun earlier hearlier ↦ ?_⟩
    have hnextPrefix : before ++ [edit] <+: edits := by simp [hsplit]
    have hcount : g.carriedOut (before ++ [edit]) = g.carriedOut before + 1 := by
      rw [carriedOut_append, carriedOut_cons_of_ok happly]
      rfl
    have hle := carriedOut_le_of_isPrefix (g := g) hearlier
    rw [← hnext]
    show (g.afterEdits earlier).version < (g.afterEdits (before ++ [edit])).version
    rw [UInt64.lt_iff_toNat_lt, version_afterEdits_of_isPrefix hroom hnextPrefix, hcount,
      version_afterEdits_of_isPrefix hroom
        ((hearlier.trans (List.prefix_append before [edit])).trans hnextPrefix)]
    omega
  · have hsum : (g.afterEdits one).version.toNat = (g.afterEdits other).version.toNat :=
      congrArg UInt64.toNat hsame
    rw [version_afterEdits_of_isPrefix hroom hone,
      version_afterEdits_of_isPrefix hroom hother] at hsum
    have hcount : g.carriedOut one = g.carriedOut other := Nat.add_left_cancel hsum
    exact congrArg snapshot (afterEdits_eq_of_carriedOut_eq hone hother hcount)

/-- The sample with a version that has room for two more. -/
def nearlyFull : GraphState := { sampleGraph.snapshot with version := 0xFFFFFFFFFFFFFFFD }

/-- Of three edits one is refused. -/
def twoOfThree : List GraphEdit :=
  [.setConfig "a" "level" (.number 1.0), .removeNode "d", .removeConnection "bc"]

theorem versions_grow_nearlyFull :
    ∃ g report, Graph.load sampleCatalog nearlyFull .strict = .ok (g, report) ∧
      nearlyFull.version.toNat + g.carriedOut twoOfThree < UInt64.size ∧
      (g.afterEdits twoOfThree).snapshot.version = 0xFFFFFFFFFFFFFFFF ∧
      ∀ one other, one <+: twoOfThree → other <+: twoOfThree →
        (g.afterEdits one).snapshot.version = (g.afterEdits other).snapshot.version →
        (g.afterEdits one).snapshot = (g.afterEdits other).snapshot := by
  have hload : Graph.load sampleCatalog nearlyFull .strict =
      .ok ({ sampleGraph with version := 0xFFFFFFFFFFFFFFFD }, {}) := rfl
  have hroom : nearlyFull.version.toNat +
      ({ sampleGraph with version := 0xFFFFFFFFFFFFFFFD } : Graph).carriedOut twoOfThree <
        UInt64.size := by decide
  exact ⟨_, _, hload, hroom, by decide, (versions_grow hload twoOfThree hroom).2.2⟩

/-- **There need not be room.** A snapshot with the greatest version loads, and the next edit that
is carried out takes the version back to zero. -/
theorem version_wraps_around :
    ∃ g report g', Graph.load sampleCatalog
        { sampleGraph.snapshot with version := 0xFFFFFFFFFFFFFFFF } .strict = .ok (g, report) ∧
      g.apply (.setConfig "a" "level" (.number 1.0)) = .ok g' ∧
      g'.snapshot.version < g.snapshot.version :=
  ⟨_, _, _, rfl, rfl, by decide⟩

end CueFlow.Graph
