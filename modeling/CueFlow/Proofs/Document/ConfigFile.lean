import CueFlow.Document.ConfigFile
import CueFlow.Proofs.Toml.Document
/-!
# Configurations kept in files

The file that a valid configuration is kept in gives that configuration back
(`EngineConfig.saved_comes_back`). A configuration is kept in a file exactly if its counts are
integers that TOML has (`EngineConfig.Storable`), which being valid does not say: the interval may
be as large as it likes. Of the span it says too little as well, since what is not a number is not
at most zero either.

The text is a matter of `CueFlow.Proofs.Toml.Document`: the document of a configuration is one of
settings and sections. What is left is that the settings are found again by their names.
-/

namespace CueFlow

/-! ### Valid settings -/

/-- A number that is not at most zero is greater than zero. -/
theorem zero_lt_of_not_le {x : Float} (hnan : x.isNaN = false) (hx : ¬ x ≤ 0.0) : 0.0 < x := by
  have hzero : (0.0 : Float).toModel.unpack = .zero .positive := by rfl
  have hle : Float.Model.UnpackedFloat.le x.toModel.unpack (0.0 : Float).toModel.unpack = false :=
    Bool.eq_false_iff.2 fun h ↦ hx (decide_eq_true h)
  have hnumber : x.toModel.unpack.isNaN = false := hnan
  refine decide_eq_true (p := _) ?_
  show Float.Model.UnpackedFloat.lt (0.0 : Float).toModel.unpack x.toModel.unpack = true
  rw [hzero] at hle ⊢
  match hu : x.toModel.unpack, hle, hnumber with
  | .infinity .positive, _, _ => rfl
  | .finite .positive _ _ _, _, _ => rfl

/-- What it takes for settings to be such that an engine can run with them. -/
theorem EngineConfig.validate_eq_ok {c : EngineConfig} :
    c.validate = .ok () ↔
      c.tickInterval ≠ 0 ∧ c.watchdog.burstCeiling ≠ 0 ∧
        2 ≤ c.watchdog.oscillationMinAlternations ∧
        c.watchdog.oscillationMinAlternations ≤ c.watchdog.oscillationWindow ∧
        ¬ c.watchdog.oscillationSpan ≤ 0.0 := by
  rw [EngineConfig.validate]
  split_ifs <;> simp_all
  omega

/-! ### Documents of configurations -/

/-- All counts of a configuration are integers that TOML has. -/
structure EngineConfig.Storable (c : EngineConfig) : Prop where
  tickInterval : Int.ofNat c.tickInterval < Toml.integerLimit
  burstCeiling : Int.ofNat c.watchdog.burstCeiling < Toml.integerLimit
  oscillationWindow : Int.ofNat c.watchdog.oscillationWindow < Toml.integerLimit
  oscillationMinAlternations :
    Int.ofNat c.watchdog.oscillationMinAlternations < Toml.integerLimit

/-- The settings of the watchdog in a document. -/
def WatchdogConfig.tomlSettings (c : WatchdogConfig Float) : Toml.Entries :=
  [("burst_ceiling", .integer (Int.ofNat c.burstCeiling)),
    ("oscillation_window", .integer (Int.ofNat c.oscillationWindow)),
    ("oscillation_min_alternations", .integer (Int.ofNat c.oscillationMinAlternations)),
    ("oscillation_span_ms", .float c.oscillationSpan),
    ("continuous_actions", .array (c.continuousActions.map .text))]

namespace EngineConfig

/-- The settings of an engine in a document, those of the watchdog aside. -/
def tomlSettings (c : EngineConfig) : Toml.Entries :=
  [("tick_interval_ms", .integer (Int.ofNat c.tickInterval)),
    ("load_policy", .text c.loadPolicy.name)]

/-- The document of a configuration. -/
def tomlEntries (c : EngineConfig) : Toml.Entries :=
  c.tomlSettings ++ [("watchdog", c.watchdog.tomlSettings)].map Toml.sectionEntry

/-- A configuration that can be stored is stored as its entries. -/
theorem toToml?_eq_some {c : EngineConfig} (h : c.Storable) : c.toToml? = some c.tomlEntries := by
  rw [toToml?, WatchdogConfig.toToml?]
  simp only [Toml.ofNat?, if_pos h.tickInterval, if_pos h.burstCeiling, if_pos h.oscillationWindow,
    if_pos h.oscillationMinAlternations]
  rfl

/-- A count that can be stored is below the limit of integers. -/
theorem lt_of_ofNat? {n : ℕ} {v : Toml} (h : Toml.ofNat? n = some v) :
    Int.ofNat n < Toml.integerLimit := by
  rw [Toml.ofNat?] at h
  split at h
  next hlt => exact hlt
  next => cases h

/-- A configuration that is stored can be stored. -/
theorem storable_of_toToml? {c : EngineConfig} {entries : Toml.Entries}
    (h : c.toToml? = some entries) : c.Storable := by
  simp only [toToml?, WatchdogConfig.toToml?, Option.bind_eq_bind, Option.bind_eq_some_iff] at h
  obtain ⟨_, htick, _, ⟨_, hceiling, _, hwindow, _, halternations, -⟩, -⟩ := h
  exact ⟨lt_of_ofNat? htick, lt_of_ofNat? hceiling, lt_of_ofNat? hwindow,
    lt_of_ofNat? halternations⟩

/-- A count is read back from its integer. -/
theorem setting_asNat (n : ℕ) : Toml.asNat (.integer (Int.ofNat n)) = some n := by
  rw [Toml.asNat]
  exact if_pos (Int.natCast_nonneg n)

/-- A list of texts is read back. -/
theorem asList_text (texts : List String) :
    Toml.asList Toml.asText (.array (texts.map .text)) = some texts := by
  show (texts.map Toml.text).mapM Toml.asText = some texts
  induction texts with
  | nil => rfl
  | cons s texts ih =>
    rw [List.map_cons, List.mapM_cons, ih]
    rfl

/-- The settings of the watchdog are found again in their document. -/
theorem ofToml?_watchdog (c : WatchdogConfig Float) :
    WatchdogConfig.ofToml? (.table .opened c.tomlSettings) = some c := by
  -- The names are literals, so every look-up comes out by computation.
  have hfound : WatchdogConfig.ofToml? (.table .opened c.tomlSettings) = (do
      let burstCeiling ← Toml.asNat (.integer (Int.ofNat c.burstCeiling))
      let oscillationWindow ← Toml.asNat (.integer (Int.ofNat c.oscillationWindow))
      let oscillationMinAlternations ←
        Toml.asNat (.integer (Int.ofNat c.oscillationMinAlternations))
      let continuousActions ←
        Toml.asList Toml.asText (.array (c.continuousActions.map .text))
      return { burstCeiling, oscillationWindow, oscillationMinAlternations,
               oscillationSpan := c.oscillationSpan, continuousActions }) := rfl
  rw [hfound, setting_asNat, setting_asNat, setting_asNat, asList_text]
  rfl

/-- A policy for loads is read back from its name. -/
theorem asChoice_name (p : LoadPolicy) :
    Toml.asChoice LoadPolicy.ofName? (.text p.name) = some p := by
  cases p <;> rfl

/-- **The settings are found again** in the document of a configuration. -/
theorem ofToml?_tomlEntries (c : EngineConfig) : ofToml? c.tomlEntries = some c := by
  have hfound : ofToml? c.tomlEntries = (do
      let tickInterval ← Toml.asNat (.integer (Int.ofNat c.tickInterval))
      let loadPolicy ← Toml.asChoice LoadPolicy.ofName? (.text c.loadPolicy.name)
      let watchdog ← WatchdogConfig.ofToml? (.table .opened c.watchdog.tomlSettings)
      return { tickInterval, loadPolicy, watchdog }) := rfl
  rw [hfound, setting_asNat, asChoice_name, ofToml?_watchdog]
  rfl

/-- The names of all fields are bare keys. -/
theorem isBare_fields : ∀ name ∈ fields ++ WatchdogConfig.fields, Toml.IsBare name := by
  decide +kernel

/-- The settings outside any section are written on lines of their own. -/
theorem isSetting_tomlSettings {c : EngineConfig} (h : c.Storable) :
    ∀ entry ∈ c.tomlSettings, Toml.IsSetting entry := by
  have hsettled : ∀ entry ∈ c.tomlSettings, Toml.IsSettled entry.2 := by
    rw [tomlSettings]
    simp only [List.forall_mem_cons]
    exact ⟨.scalar (.natural h.tickInterval), .scalar (.text _), List.forall_mem_nil _⟩
  have hfields : c.tomlSettings.map Prod.fst ⊆ fields := List.prefix_append _ ["watchdog"] |>.subset
  exact fun entry hentry ↦ ⟨isBare_fields _ (List.mem_append_left _
    (hfields (List.mem_map_of_mem hentry))), hsettled entry hentry⟩

/-- The settings of the watchdog form a section. -/
theorem isSection_watchdog {c : EngineConfig} (h : c.Storable)
    (hspan : 0.0 < c.watchdog.oscillationSpan) :
    Toml.IsSection ("watchdog", c.watchdog.tomlSettings) := by
  have hactions : ∀ item ∈ c.watchdog.continuousActions.map Toml.text, Toml.IsScalar item := by
    intro item hitem
    obtain ⟨s, -, rfl⟩ := List.mem_map.1 hitem
    exact .text s
  have hsettled : ∀ entry ∈ c.watchdog.tomlSettings, Toml.IsSettled entry.2 := by
    rw [WatchdogConfig.tomlSettings]
    simp only [List.forall_mem_cons]
    exact ⟨.scalar (.natural h.burstCeiling), .scalar (.natural h.oscillationWindow),
      .scalar (.natural h.oscillationMinAlternations), .scalar (.float hspan), .list hactions,
      List.forall_mem_nil _⟩
  have hfields : c.watchdog.tomlSettings.map Prod.fst = WatchdogConfig.fields := rfl
  have hdistinct : WatchdogConfig.fields.Nodup := by decide
  refine ⟨isBare_fields "watchdog" (by decide), fun entry hentry ↦ ⟨?_, hsettled entry hentry⟩,
    hfields ▸ hdistinct⟩
  exact isBare_fields _ (List.mem_append_right _ (hfields ▸ List.mem_map_of_mem hentry))

/-- The text of a file is read as the document of its configuration. -/
theorem parse?_documentText {c : EngineConfig} (h : c.Storable)
    (hspan : 0.0 < c.watchdog.oscillationSpan) :
    Toml.parse? (Toml.documentText c.tomlEntries) = some c.tomlEntries := by
  have hdistinct : fields.Nodup := by decide
  refine Toml.parse?_documentText (isSetting_tomlSettings h) ?_ hdistinct
  simpa using isSection_watchdog h hspan

/-- A configuration equals itself, unless its span is not a number. -/
theorem beq_self {c : EngineConfig} (hspan : c.watchdog.oscillationSpan.isNaN = false) :
    (c == c) = true := by
  have hnan : c.watchdog.oscillationSpan ≠ Float.nan := by
    intro heq
    rw [heq] at hspan
    exact absurd hspan (by decide +kernel)
  have hbeq := Float.beq_self_iff.2 hnan
  have hwatchdog : (c.watchdog == c.watchdog) = true := by
    show instBEqWatchdogConfig.beq c.watchdog c.watchdog = true
    simp [instBEqWatchdogConfig.beq, hbeq]
  show instBEqEngineConfig.beq c c = true
  simp [instBEqEngineConfig.beq, hwatchdog]

/-- **A valid configuration comes back from its file**, if it can be kept in one, which depends on
nothing but the size of its counts. -/
theorem saved_comes_back {c : EngineConfig} (hvalid : c.validate = .ok ())
    (hspan : c.watchdog.oscillationSpan.isNaN = false) :
    (c.Storable → ∃ text, c.toFile? = some text ∧ ofFile (some text) = .ok c ∧ (c == c) = true) ∧
      (¬ c.Storable → c.toFile? = none) := by
  obtain ⟨-, -, -, -, hpositive⟩ := validate_eq_ok.1 hvalid
  constructor
  · intro hstorable
    refine ⟨Toml.documentText c.tomlEntries, ?_, ?_, beq_self hspan⟩
    · rw [toFile?, toToml?_eq_some hstorable]
      rfl
    · rw [ofFile, parse?_documentText hstorable (zero_lt_of_not_le hspan hpositive),
        Option.bind_some, ofToml?_tomlEntries]
      dsimp only
      rw [hvalid]
  · intro hstorable
    cases hentries : c.toToml? with
    | none => rw [toFile?, hentries, Option.map_none]
    | some entries => exact absurd (storable_of_toToml? hentries) hstorable

/-- A configuration with quotes and line breaks in its strings, and with the longest interval. -/
def quotedActions : EngineConfig where
  tickInterval := 0x7FFFFFFFFFFFFFFF
  loadPolicy := .lenient
  watchdog := { WatchdogConfig.default with
    oscillationSpan := 0.1
    continuousActions := ["it's", "say \"hi\"", "two\nlines\\", ""] }

theorem saved_comes_back_quotedActions :
    quotedActions.validate = .ok () ∧ quotedActions.watchdog.oscillationSpan.isNaN = false ∧
      ∃ text, quotedActions.toFile? = some text ∧ ofFile (some text) = .ok quotedActions ∧
        (quotedActions == quotedActions) = true := by
  have hvalid : quotedActions.validate = .ok () := validate_eq_ok.2 (by decide +kernel)
  have hspan : quotedActions.watchdog.oscillationSpan.isNaN = false := by decide +kernel
  have hstorable : quotedActions.Storable :=
    ⟨by decide +kernel, by decide +kernel, by decide +kernel, by decide +kernel⟩
  exact ⟨hvalid, hspan, (saved_comes_back hvalid hspan).1 hstorable⟩

/-- **Valid is not enough**: an interval may be too long for a file, and a span may be equal to no
span at all. -/
theorem valid_may_not_come_back :
    (EngineConfig.validate { tickInterval := 0x8000000000000000 } = .ok () ∧
      toFile? { tickInterval := 0x8000000000000000 } = none) ∧
    EngineConfig.validate { watchdog := { WatchdogConfig.default with
        oscillationSpan := 0.0 / 0.0 } } = .ok () ∧
      ∀ d : EngineConfig, (d == { watchdog := { WatchdogConfig.default with
        oscillationSpan := 0.0 / 0.0 } }) = false := by
  refine ⟨⟨validate_eq_ok.2 (by decide +kernel), ?_⟩, validate_eq_ok.2 (by decide +kernel), ?_⟩
  · rfl
  · intro d
    have hnan : (0.0 / 0.0 : Float) = Float.nan := by decide +kernel
    have hspan : (d.watchdog.oscillationSpan == 0.0 / 0.0) = false := by
      rw [hnan]
      exact Float.beq_nan_eq_false _
    have hwatchdog : (d.watchdog == { WatchdogConfig.default with
        oscillationSpan := 0.0 / 0.0 }) = false := by
      show instBEqWatchdogConfig.beq d.watchdog _ = false
      simp only [instBEqWatchdogConfig.beq, hspan, Bool.false_and, Bool.and_false]
    show instBEqEngineConfig.beq d _ = false
    simp only [instBEqEngineConfig.beq, hwatchdog, Bool.and_false]

end EngineConfig

end CueFlow
