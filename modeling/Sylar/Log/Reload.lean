import Sylar.Log.History

/-!
# Reloading the log configuration

Two loads in a row against one load: what the first configuration leaves behind
in a logger the second one configures is its pattern, and only where the second
has none that the parser accepts.

From a fresh manager every load of changed entries completes, since no formatter
ever becomes null.
-/

namespace Sylar.Log

open Foundation

variable {m m' : LoggerManager} {l : LoggerPtr} {lg : Logger} {i : LogDefine}
variable {old new : LogDefines} {name : String}

/-! ## The manager at the start -/

theorem LoggerManager.new_separate : LoggerManager.new.Separate := by
  refine ⟨LoggerManager.new_valid, fun e he e' he' _ ↦ ?_, fun k l lg lg' hk hl hkl ↦ ?_⟩
  · rcases Keyed.mem_place he with rfl | he
    · rcases Keyed.mem_place he' with rfl | he'
      · rfl
      · cases he'
    · cases he
  · have hzero : ∀ {k lg}, LoggerManager.new.logger k = some lg → k = 0 := by
      intro k lg hk
      by_contra hne
      simp [LoggerManager.new, hne] at hk
    exact absurd ((hzero hk).trans (hzero hl).symm) hkl

/-- Every logger of a new manager has the default pattern, created or not. -/
theorem patternOf_new (x : String) :
    patternOf (LoggerManager.new.view x) = some defaultPattern := by
  by_cases hx : x = "root"
  · subst hx
    rfl
  · have hnone : LoggerManager.new.view x = none := by
      simp [LoggerManager.view, LoggerManager.new, Keyed.find?_insert, Ne.symm hx]
    rw [hnone]
    rfl

/-! ## Formatters -/

/-- No logger and no attached appender lacks a formatter. -/
structure Formatted (m : LoggerManager) : Prop where
  logger : ∀ l lg, m.logger l = some lg → lg.formatter ≠ none
  appender : ∀ l lg, m.logger l = some lg → ∀ a ∈ lg.appenders, ∀ ap,
    m.appender a = some ap → ap.formatter ≠ none

/-- The formatters of all loggers and attached appenders have a property. -/
structure FormattedBy (P : LogFormatter → Prop) (m : LoggerManager) : Prop where
  logger : ∀ l lg, m.logger l = some lg → ∃ f, lg.formatter = some f ∧ P f
  appender : ∀ l lg, m.logger l = some lg → ∀ a ∈ lg.appenders, ∀ ap,
    m.appender a = some ap → ∃ f, ap.formatter = some f ∧ P f

theorem formatted_iff : Formatted m ↔ FormattedBy (fun _ ↦ True) m := by
  have hsome : ∀ o : Option LogFormatter, o ≠ none ↔ ∃ f, o = some f ∧ True := fun o ↦ by
    simp [Option.ne_none_iff_exists']
  constructor
  · intro h
    exact ⟨fun l lg hl ↦ (hsome _).mp (h.logger l lg hl),
      fun l lg hl a ha ap hap ↦ (hsome _).mp (h.appender l lg hl a ha ap hap)⟩
  · intro h
    exact ⟨fun l lg hl ↦ (hsome _).mpr (h.logger l lg hl),
      fun l lg hl a ha ap hap ↦ (hsome _).mpr (h.appender l lg hl a ha ap hap)⟩

theorem Formatted.announces (hf : Formatted m) : Announces m :=
  fun lg hlg _ a ha ap hap _ ↦ hf.appender m.root lg hlg a ha ap hap

theorem getLogger_appender : (m.getLogger name).2.appender = m.appender := by
  unfold LoggerManager.getLogger
  split <;> rfl

/-- A logger of the manager `getLogger` leaves is an old one or new. -/
theorem getLogger_logger (h : (m.getLogger name).2.logger l = some lg) :
    m.logger l = some lg ∨ lg = { Logger.new name with root := some m.root } := by
  unfold LoggerManager.getLogger at h
  split at h
  · exact .inl h
  · rcases LoggerManager.newLogger_cases h with ⟨_, rfl⟩ | ⟨_, h⟩
    · exact .inr rfl
    · exact .inl h

theorem accepted_default : Accepted defaultPattern := by decide

section Kinds

variable {P : LogFormatter → Prop}

theorem formatterOr_kind (hP : ∀ p, Accepted p → P (.new p)) {p : String}
    {f : Option LogFormatter} (h : ∃ g, f = some g ∧ P g) :
    ∃ g, formatterOr p f = some g ∧ P g := by
  unfold formatterOr
  split
  · exact ⟨_, rfl, hP p ‹_›⟩
  · exact h

theorem formattedBy_new (hP : ∀ p, Accepted p → P (.new p)) : FormattedBy P .new := by
  have hdefault := hP defaultPattern accepted_default
  have hlogger : ∀ {l lg}, LoggerManager.new.logger l = some lg →
      lg = { Logger.new "root" with appenders := [0] } := by
    intro l lg hl
    by_cases e : l = 0
    · simpa [LoggerManager.new, e, eq_comm] using hl
    · simp [LoggerManager.new, e] at hl
  refine ⟨fun l lg hl ↦ ?_, fun l lg hl a ha ap hap ↦ ?_⟩
  · rw [hlogger hl]
    exact ⟨_, rfl, hdefault⟩
  · rw [hlogger hl] at ha
    rw [List.mem_singleton.mp ha] at hap
    cases hap
    exact ⟨_, rfl, hdefault⟩

theorem Configured.formattedBy (hP : ∀ p, Accepted p → P (.new p))
    (h : Configured m l lg i m') (hs : m.Separate) (hf : FormattedBy P m)
    (hl : m.logger l = some lg) : FormattedBy P m' := by
  have hfmt := formatterOr_kind hP (p := i.formatter) (hf.logger l lg hl)
  refine ⟨fun k lgk hk ↦ ?_, fun k lgk hk a ha ap hap ↦ ?_⟩
  · rcases h.replaced.cases hk with ⟨rfl, rfl⟩ | ⟨_, hk⟩
    · exact hfmt
    · exact hf.logger k lgk hk
  · rcases h.replaced.cases hk with ⟨rfl, rfl⟩ | ⟨hkl, hk⟩
    · obtain ⟨d, hd⟩ := h.attached ha
      obtain rfl := Option.some.inj (hd.symm.trans hap)
      exact formatterOr_kind hP hfmt
    · obtain ⟨ap', hap'⟩ := hs.attached k lgk hk a ha
      rw [h.kept a (hs.appender_lt hap') (hs.appenders k l lgk lg hk hl hkl a ha)] at hap
      exact hf.appender k lgk hk a ha ap hap

theorem getLogger_formattedBy (hP : ∀ p, Accepted p → P (.new p)) (hf : FormattedBy P m)
    (name : String) : FormattedBy P (m.getLogger name).2 := by
  refine ⟨fun k lg hk ↦ ?_, fun k lg hk a ha ap hap ↦ ?_⟩
  · rcases getLogger_logger hk with hk | rfl
    · exact hf.logger k lg hk
    · exact ⟨_, rfl, hP defaultPattern accepted_default⟩
  · rcases getLogger_logger hk with hk | rfl
    · exact hf.appender k lg hk a ha ap (getLogger_appender ▸ hap)
    · cases ha

theorem setLogger_formattedBy {lg' : Logger} (hf : FormattedBy P m) (hl : m.logger l = some lg)
    (hfmt : lg'.formatter = lg.formatter) (happ : ∀ a ∈ lg'.appenders, a ∈ lg.appenders) :
    FormattedBy P (m.setLogger l lg') := by
  refine ⟨fun k lgk hk ↦ ?_, fun k lgk hk a ha ap hap ↦ ?_⟩
  · rcases LoggerManager.setLogger_replaced.cases hk with ⟨rfl, rfl⟩ | ⟨_, hk⟩
    · exact hfmt ▸ hf.logger k lg hl
    · exact hf.logger k lgk hk
  · rcases LoggerManager.setLogger_replaced.cases hk with ⟨rfl, rfl⟩ | ⟨_, hk⟩
    · exact hf.appender k lg hl a (happ a ha) ap hap
    · exact hf.appender k lgk hk a ha ap hap

theorem applyDefine_formattedBy (hP : ∀ p, Accepted p → P (.new p)) (hs : m.Separate)
    (hf : FormattedBy P m) (h : applyDefine old m i = .ok m') : FormattedBy P m' := by
  obtain ⟨hs', lg, hlg, hc⟩ := applyDefine_configured hs h
  exact hc.formattedBy hP hs' (getLogger_formattedBy hP hf i.name) hlg

theorem removeDefine_formattedBy (hP : ∀ p, Accepted p → P (.new p)) (hs : m.Separate)
    (hf : FormattedBy P m) (h : removeDefine new m i = .ok m') : FormattedBy P m' := by
  cases hfind : new.find? i.name with
  | some it =>
      rw [removeDefine_kept hfind, Except.ok.injEq] at h
      exact h ▸ hf
  | none =>
      obtain ⟨-, -, ⟨lg, hlg, -⟩, -⟩ := getLogger_view hs i.name
      rw [removeDefine_eq hfind hlg, Except.ok.injEq] at h
      exact h ▸ setLogger_formattedBy (getLogger_formattedBy hP hf i.name) hlg rfl (by simp)

/-- The listener installs a formatter only for a pattern the parser accepts. -/
theorem onChange_formattedBy (hP : ∀ p, Accepted p → P (.new p)) {env : Env} (hs : m.Separate)
    (hf : FormattedBy P m) (h : onChange env old new m = .ok m') :
    m'.Separate ∧ FormattedBy P m' := by
  obtain ⟨_, m₁, h₁, h₂⟩ := onChange_ok h
  have hloop : m₁.Separate ∧ FormattedBy P m₁ :=
    foldlM_invariant (I := fun m ↦ m.Separate ∧ FormattedBy P m)
      (fun m i m' _ hm h ↦ ⟨(applyDefine_view hm.1 h).1, applyDefine_formattedBy hP hm.1 hm.2 h⟩)
      ⟨hs, hf⟩ h₁
  exact foldlM_invariant (I := fun m ↦ m.Separate ∧ FormattedBy P m)
    (fun m i m' _ hm h ↦ ⟨(removeDefine_view hm.1 h).1, removeDefine_formattedBy hP hm.1 hm.2 h⟩)
    hloop h₂

end Kinds

theorem formatted_new : Formatted .new :=
  formatted_iff.mpr (formattedBy_new fun _ _ ↦ trivial)

theorem getLogger_formatted (hf : Formatted m) (name : String) :
    Formatted (m.getLogger name).2 :=
  formatted_iff.mpr (getLogger_formattedBy (fun _ _ ↦ trivial) (formatted_iff.mp hf) name)

theorem setLogger_formatted {lg' : Logger} (hf : Formatted m) (hl : m.logger l = some lg)
    (hfmt : lg'.formatter = lg.formatter) (happ : ∀ a ∈ lg'.appenders, a ∈ lg.appenders) :
    Formatted (m.setLogger l lg') :=
  formatted_iff.mpr (setLogger_formattedBy (formatted_iff.mp hf) hl hfmt happ)

/-- The listener never leaves a null formatter behind. -/
theorem onChange_formatted {env : Env} (hs : m.Separate) (hf : Formatted m)
    (h : onChange env old new m = .ok m') : m'.Separate ∧ Formatted m' := by
  obtain ⟨hs', hf'⟩ := onChange_formattedBy (fun _ _ ↦ trivial) hs (formatted_iff.mp hf) h
  exact ⟨hs', formatted_iff.mpr hf'⟩

/-! ## Two configurations -/

/-- The pattern a configuration leaves in a logger of a new manager. -/
def LogDefines.patternFor (c : LogDefines) (name : String) : String :=
  match c.find? name with
  | none => defaultPattern
  | some i => if Accepted i.formatter then i.formatter else defaultPattern

theorem LogDefines.patternFor_eq_default {c : LogDefines} :
    c.patternFor name = defaultPattern ↔
      ∀ i ∈ c, i.name = name → Accepted i.formatter → i.formatter = defaultPattern := by
  unfold LogDefines.patternFor
  cases hf : c.find? name with
  | none =>
      have hnone := Keyed.find?_eq_none.mp hf
      simpa using fun i hi hname ↦ absurd hname (hnone i hi)
  | some j =>
      obtain ⟨hj, hname⟩ := Keyed.find?_eq_some.mp hf
      constructor
      · rintro h i hi hi' hacc
        have hij : i = j := Keyed.eq_of_key hi hj (hi'.trans hname.symm)
        subst hij
        simpa [hacc] using h
      · intro h
        by_cases hacc : Accepted j.formatter
        · simpa [hacc] using h j hj hname hacc
        · simp [hacc]

/-- Applying a configuration to a new manager. -/
theorem onChange_new {env : Env} {c : LogDefines} (h : onChange env Keyed.empty c .new = .ok m) :
    m.Separate ∧ (∀ i ∈ c, m.view i.name = some (i.view (some defaultPattern))) ∧
      ∀ x, patternOf (m.view x) = some (c.patternFor x) := by
  obtain ⟨hs, hviews, hothers⟩ := onChange_view LoggerManager.new_separate h
  refine ⟨hs, fun i hi ↦ ?_, fun x ↦ ?_⟩
  · rw [hviews i hi, patternOf_new]
  · cases hf : c.find? x with
    | none =>
        rw [hothers x (Keyed.find?_eq_none.mp hf) (fun i hi ↦ absurd hi (List.not_mem_nil)),
          patternOf_new, LogDefines.patternFor, hf]
    | some i =>
        obtain ⟨hi, rfl⟩ := Keyed.find?_eq_some.mp hf
        rw [hviews i hi, patternOf_new, LogDefines.patternFor, hf]
        simp only [patternOf, LogDefine.view, patternOr, Option.map_some, Option.getD_some]
        split <;> rfl

theorem patternOr_eq_iff {p q r : String} :
    patternOr p (some q) = patternOr p (some r) ↔ Accepted p ∨ q = r := by
  unfold patternOr
  split
  · simp [*]
  · simp [*]

/-- The views an entry gives two loggers agree if the patterns do. -/
theorem LogDefine.view_eq_iff {p q : String} :
    i.view (some p) = i.view (some q) ↔ Accepted i.formatter ∨ p = q := by
  constructor
  · intro h
    exact patternOr_eq_iff.mp (congrArg LoggerView.pattern h)
  · intro h
    rw [LogDefine.view, LogDefine.view, patternOr_eq_iff.mpr h]

/-- What an appender does apart from its format. -/
def AppenderView.shape (a : AppenderView) : AppenderKind × Level := (a.kind, a.level)

/-- **What an earlier configuration leaves behind.**  After `c₁` and then `c₂`
each logger of `c₂` has the level and the appenders it has after `c₂` alone, and
the appenders with a pattern of their own agree entirely.  The views are the same
exactly if the entry has a pattern the parser accepts, or `c₁` gave the logger no
such pattern other than the default.  If not, the pattern of `c₁` is kept. -/
theorem onChange_twice {e₁ e₂ e : Env} {c₁ c₂ : LogDefines} {a₁ a₂ b : LoggerManager}
    (h₁ : onChange e₁ Keyed.empty c₁ .new = .ok a₁) (h₂ : onChange e₂ c₁ c₂ a₁ = .ok a₂)
    (h : onChange e Keyed.empty c₂ .new = .ok b) {i : LogDefine} (hi : i ∈ c₂) :
    ∃ va vb, a₂.view i.name = some va ∧ b.view i.name = some vb ∧ va.level = vb.level ∧
      va.appenders.map (Option.map AppenderView.shape) =
        vb.appenders.map (Option.map AppenderView.shape) ∧
      (∀ (n : Nat) (d : LogAppenderDefine), i.appenders[n]? = some d → Accepted d.formatter →
        va.appenders[n]? = vb.appenders[n]?) ∧
      (va = vb ↔ Accepted i.formatter ∨ ∀ i₁ ∈ c₁, i₁.name = i.name → Accepted i₁.formatter →
        i₁.formatter = defaultPattern) ∧
      (va ≠ vb → ∃ i₁ ∈ c₁, i₁.name = i.name ∧ va.pattern = some i₁.formatter ∧
        vb.pattern = some defaultPattern) := by
  obtain ⟨hs₁, -, hpat⟩ := onChange_new h₁
  obtain ⟨-, hview, -⟩ := onChange_view hs₁ h₂
  have ha := hview i hi
  rw [hpat] at ha
  have hb := (onChange_new h).2.1 i hi
  have hiff := LogDefine.view_eq_iff (i := i) (p := c₁.patternFor i.name) (q := defaultPattern)
  refine ⟨_, _, ha, hb, rfl, ?_, fun n d hd hacc ↦ ?_, ?_, fun hne ↦ ?_⟩
  · simp [LogDefine.view, AppenderView.shape]
  · simp [LogDefine.view, hd, patternOr, hacc]
  · rw [hiff, LogDefines.patternFor_eq_default]
  · rw [ne_eq, hiff, not_or, LogDefines.patternFor_eq_default] at hne
    push Not at hne
    obtain ⟨hrej, i₁, hi₁, hname, hacc, _⟩ := hne
    have hfind : c₁.find? i.name = some i₁ := Keyed.find?_eq_some.mpr ⟨hi₁, hname⟩
    refine ⟨i₁, hi₁, hname, ?_, ?_⟩
    · simp [LogDefine.view, patternOr, hrej, LogDefines.patternFor, hfind, hacc]
    · simp [LogDefine.view, patternOr, hrej]

/-- A configuration with one logger. -/
def oneFormat (level : Level) (formatter : String) : LogDefines :=
  Keyed.empty.insert { name := "system", level, formatter, appenders := [{ type := 2 }] }

theorem mem_oneFormat {level : Level} {p : String} :
    i ∈ oneFormat level p ↔
      i = { name := "system", level, formatter := p, appenders := [{ type := 2 }] } := by
  simp [oneFormat, Keyed.mem_def, Keyed.insert, Keyed.place]

/-- Two configurations of one logger with different levels are loaded one after
the other, and the second one alone. -/
theorem oneFormat_loads {j k : Level} (hjk : j ≠ k) (p q : String) :
    ∃ a₁ a₂ b, onChange .plain Keyed.empty (oneFormat j p) .new = .ok a₁ ∧
      onChange .plain (oneFormat j p) (oneFormat k q) a₁ = .ok a₂ ∧
      onChange .plain Keyed.empty (oneFormat k q) .new = .ok b := by
  have htyped : ∀ k p, (oneFormat k p).Typed := by
    intro k p i hi a ha
    rw [mem_oneFormat.mp hi] at ha
    exact .inr (by rw [List.mem_singleton.mp ha])
  have hnew : ∀ k p, ∃ m, onChange .plain Keyed.empty (oneFormat k p) .new = .ok m :=
    fun k p ↦ onChange_total .plain (htyped k p) LoggerManager.new_valid announces_new
      fun i _ hi ↦ by cases hi
  obtain ⟨a₁, h₁⟩ := hnew j p
  obtain ⟨b, hb⟩ := hnew k q
  obtain ⟨hs, hf⟩ := onChange_formatted LoggerManager.new_separate formatted_new h₁
  obtain ⟨a₂, h₂⟩ := onChange_total .plain (htyped k q) hs.toValid hf.announces
    fun i hi (hold : i ∈ oneFormat j p) ↦ by
      rw [mem_oneFormat.mp hi, mem_oneFormat] at hold
      exact hjk (by simpa using congrArg LogDefine.level hold.symm)
  exact ⟨a₁, a₂, b, h₁, h₂, hb⟩

/-- The second configuration has a pattern of its own. -/
theorem onChange_twice_own :
    ∃ a₁ a₂ b, onChange .plain Keyed.empty (oneFormat .INFO "%m") .new = .ok a₁ ∧
      onChange .plain (oneFormat .INFO "%m") (oneFormat .DEBUG "%p") a₁ = .ok a₂ ∧
      onChange .plain Keyed.empty (oneFormat .DEBUG "%p") .new = .ok b ∧
      a₂.view "system" = b.view "system" := by
  obtain ⟨a₁, a₂, b, h₁, h₂, hb⟩ := oneFormat_loads (j := .INFO) (k := .DEBUG) (by decide) "%m" "%p"
  obtain ⟨va, vb, ha, hb', -, -, -, hiff, -⟩ := onChange_twice h₁ h₂ hb (mem_oneFormat.mpr rfl)
  have heq : va = vb := hiff.mpr (.inl (by decide))
  exact ⟨a₁, a₂, b, h₁, h₂, hb, by rw [ha, hb', heq]⟩

/-- The second configuration has no pattern, and the first one's is kept. -/
theorem onChange_twice_leak :
    ∃ a₁ a₂ b, onChange .plain Keyed.empty (oneFormat .INFO "%m") .new = .ok a₁ ∧
      onChange .plain (oneFormat .INFO "%m") (oneFormat .DEBUG "") a₁ = .ok a₂ ∧
      onChange .plain Keyed.empty (oneFormat .DEBUG "") .new = .ok b ∧
      a₂.view "system" ≠ b.view "system" := by
  obtain ⟨a₁, a₂, b, h₁, h₂, hb⟩ := oneFormat_loads (j := .INFO) (k := .DEBUG) (by decide) "%m" ""
  obtain ⟨hs, -, hpat⟩ := onChange_new h₁
  refine ⟨a₁, a₂, b, h₁, h₂, hb, fun heq ↦ ?_⟩
  have hi : _ ∈ oneFormat .DEBUG "" := mem_oneFormat.mpr rfl
  have ha := (onChange_view hs h₂).2.1 _ hi
  rw [hpat] at ha
  rw [ha, (onChange_new hb).2.1 _ hi, Option.some.injEq, LogDefine.view_eq_iff] at heq
  revert heq
  decide

end Sylar.Log
