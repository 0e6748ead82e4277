import Sylar.Log.Objects
import Sylar.Log.Define

/-!
# The listener on the `logs` configuration

`LogIniter` registers a listener that brings the loggers in line with a changed
configuration.  It takes the entries of the new configuration one by one: a
logger is fetched for an entry that is new or differs from the old one, and the
common tail then sets level, formatter and appenders through that pointer.

For an entry that is the same in both configurations no logger is fetched, and
the tail runs all the same.
-/

namespace Sylar.Log

open Foundation

/-! ## The listener -/

/-- The appender for a definition.  The pointer stays null for other types. -/
def LoggerManager.makeAppender (m : LoggerManager) (a : LogAppenderDefine) :
    Option AppenderPtr × LoggerManager :=
  if a.type = 1 then
    (some m.nextAppender, m.newAppender (.new (.FileLogAppender a.file)))
  else if a.type = 2 then (some m.nextAppender, m.newAppender (.new .StdoutLogAppender))
  else (none, m)

/-- The loop over `i.appenders`, for one appender. -/
def applyAppender (logger : Option LoggerPtr) (m : LoggerManager) (a : LogAppenderDefine) :
    Except Fault LoggerManager := do
  let (ap, m) := m.makeAppender a
  let m ← m.appenderSetLevel ap a.level
  let m ←
    if a.formatter ≠ "" then
      let fmt := LogFormatter.new a.formatter
      if !fmt.isError then m.appenderSetFormatter ap (some fmt) else .ok m
    else .ok m
  m.addAppender logger ap

/-- The common tail for an entry. -/
def configure (i : LogDefine) (logger : Option LoggerPtr) (m : LoggerManager) :
    Except Fault LoggerManager := do
  let m ← m.setLevel logger i.level
  let m ← if i.formatter ≠ "" then m.setFormatterString logger i.formatter else .ok m
  let m ← m.clearAppender logger
  i.appenders.foldlM (applyAppender logger) m

/-- The loop over the new configuration, for one entry. -/
def applyDefine (old : LogDefines) (m : LoggerManager) (i : LogDefine) :
    Except Fault LoggerManager :=
  match old.find? i.name with
  | none =>
      let r := m.getLogger i.name
      configure i (some r.1) r.2
  | some it =>
      if i ≠ it then
        let r := m.getLogger i.name
        configure i (some r.1) r.2
      else configure i none m

/-- The loop over the old configuration, for one entry. -/
def removeDefine (new : LogDefines) (m : LoggerManager) (i : LogDefine) :
    Except Fault LoggerManager :=
  match new.find? i.name with
  | some _ => .ok m
  | none => do
      let r := m.getLogger i.name
      let m ← r.2.setLevel (some r.1) (.other 100 (by decide))
      m.clearAppender (some r.1)

/-- The listener `LogIniter` registers. -/
def onChange (env : Env) (old new : LogDefines) (m : LoggerManager) :
    Except Fault LoggerManager := do
  let _ ← m.SYLAR_LOG_LEVEL env m.root .INFO "on_logger_conf_changed"
  let m ← new.toList.foldlM (applyDefine old) m
  old.toList.foldlM (removeDefine new) m

/-- The parts of a run of the listener. -/
theorem onChange_ok {env : Env} {old new : LogDefines} {m m' : LoggerManager}
    (h : onChange env old new m = .ok m') :
    (∃ out, m.SYLAR_LOG_LEVEL env m.root .INFO "on_logger_conf_changed" = .ok out) ∧
      ∃ m₁, new.toList.foldlM (applyDefine old) m = .ok m₁ ∧
        old.toList.foldlM (removeDefine new) m₁ = .ok m' := by
  rw [onChange, Except.bind_ok_iff] at h
  obtain ⟨out, hout, h⟩ := h
  rw [Except.bind_ok_iff] at h
  exact ⟨⟨out, hout⟩, h⟩

/-! ## The tail on a logger that exists -/

/-- The kind of appender a definition asks for. -/
def LogAppenderDefine.kind (a : LogAppenderDefine) : AppenderKind :=
  if a.type = 1 then .FileLogAppender a.file else .StdoutLogAppender

/-- The formatter in use after a pattern has been set. -/
def formatterOr (pattern : String) (old : Option LogFormatter) : Option LogFormatter :=
  if Accepted pattern then some (.new pattern) else old

/-- The appender the listener attaches to a logger with formatter `f`. -/
def LogAppenderDefine.build (a : LogAppenderDefine) (f : Option LogFormatter) : LogAppender :=
  { kind := a.kind, level := a.level, formatter := formatterOr a.formatter f
    hasFormatter := decide (Accepted a.formatter) }

variable {m m' : LoggerManager} {l : LoggerPtr} {lg : Logger} {i : LogDefine}
variable {old new : LogDefines}

theorem makeAppender_eq {a : LogAppenderDefine} (ht : a.type = 1 ∨ a.type = 2) :
    m.makeAppender a = (some m.nextAppender, m.newAppender (.new a.kind)) := by
  rcases ht with ht | ht <;> simp [LoggerManager.makeAppender, LogAppenderDefine.kind, ht]

/-- One appender is attached. -/
theorem applyAppender_eq {a : LogAppenderDefine} (hl : m.logger l = some lg)
    (ht : a.type = 1 ∨ a.type = 2) :
    applyAppender (some l) m a = .ok ((m.newAppender (a.build lg.formatter)).setLogger l
      { lg with appenders := lg.appenders ++ [m.nextAppender] }) := by
  have hnew : ∀ ap, (m.newAppender ap).logger l = some lg := fun _ ↦ hl
  unfold applyAppender
  rw [makeAppender_eq ht]
  simp only [LoggerManager.appenderSetLevel_eq LoggerManager.newAppender_self,
    Except.ok_bind, LoggerManager.newAppender_setAppender]
  by_cases hacc : Accepted a.formatter
  · obtain ⟨hne, hok⟩ := hacc
    simp only [ne_eq, hne, not_false_eq_true, if_true, hok, Bool.not_false,
      LoggerManager.appenderSetFormatter_eq LoggerManager.newAppender_self, Except.ok_bind,
      LoggerManager.newAppender_setAppender,
      LoggerManager.addAppender_eq (hnew _) LoggerManager.newAppender_self]
    simp [LogAppenderDefine.build, formatterOr, Accepted, hne, hok, LogAppender.new]
  · have hskip : ∀ (x : Except Fault LoggerManager) (y : LoggerManager),
        (if a.formatter ≠ "" then
          if !(LogFormatter.new a.formatter).isError then x else .ok y
        else .ok y) = .ok y := by
      intro x y
      by_cases hne : a.formatter = ""
      · simp [hne]
      · have herr : (LogFormatter.new a.formatter).isError = true := by
          simpa [Accepted, hne] using hacc
        simp [hne, herr]
    simp only [hskip,
      LoggerManager.addAppender_eq (hnew _) LoggerManager.newAppender_self]
    simp [LogAppenderDefine.build, formatterOr, hacc, LogAppender.new]

/-- A definition of another type is never attached. -/
theorem applyAppender_type {a : LogAppenderDefine}
    (h : applyAppender (some l) m a = .ok m') : a.type = 1 ∨ a.type = 2 := by
  by_contra ht
  rw [not_or] at ht
  simp [applyAppender, LoggerManager.makeAppender, ht.1, ht.2,
    LoggerManager.appenderSetLevel] at h

/-- The state after appenders have been attached to `l`. -/
structure Extended (m : LoggerManager) (l : LoggerPtr) (lg : Logger)
    (ds : List LogAppenderDefine) (m' : LoggerManager) : Prop where
  logger : m'.logger l = some
    { lg with appenders := lg.appenders ++ List.range' m.nextAppender ds.length }
  others : ∀ k ≠ l, m'.logger k = m.logger k
  loggers : m'.loggers = m.loggers
  root : m'.root = m.root
  nextLogger : m'.nextLogger = m.nextLogger
  nextAppender : m'.nextAppender = m.nextAppender + ds.length
  built : ∀ n d, ds[n]? = some d → m'.appender (m.nextAppender + n) = some (d.build lg.formatter)
  kept : ∀ a < m.nextAppender, m'.appender a = m.appender a
  fresh : ∀ a, m'.nextAppender ≤ a → m'.appender a = m.appender a

theorem extended_of_loop {ds : List LogAppenderDefine} (hl : m.logger l = some lg)
    (ht : ∀ a ∈ ds, a.type = 1 ∨ a.type = 2) :
    ∃ m', ds.foldlM (applyAppender (some l)) m = .ok m' ∧ Extended m l lg ds m' := by
  induction ds generalizing m lg with
  | nil =>
      exact ⟨m, rfl, by simpa using hl, fun _ _ ↦ rfl, rfl, rfl, rfl, rfl, by simp,
        fun _ _ ↦ rfl, fun _ _ ↦ rfl⟩
  | cons d ds ih =>
      obtain ⟨m', hm', hx⟩ := ih (m := (m.newAppender (d.build lg.formatter)).setLogger l
        { lg with appenders := lg.appenders ++ [m.nextAppender] })
        LoggerManager.setLogger_self fun a ha ↦ ht a (by simp [ha])
      refine ⟨m', ?_, ?_, fun k hk ↦ ?_, hx.loggers, hx.root, hx.nextLogger, ?_, fun n e hn ↦ ?_,
        fun a ha ↦ ?_, fun a ha ↦ ?_⟩
      · rw [List.foldlM_cons, applyAppender_eq hl (ht d (by simp))]
        exact hm'
      · rw [hx.logger]
        simp [List.range'_succ]
      · rw [hx.others k hk]
        simp [hk]
      · rw [hx.nextAppender]
        simp [Nat.add_assoc, Nat.add_comm 1]
      · cases n with
        | zero =>
            simp only [List.getElem?_cons_zero, Option.some.injEq] at hn
            subst hn
            rw [Nat.add_zero, hx.kept _ (by simp)]
            simp
        | succ n =>
            have := hx.built n e (by simpa using hn)
            simpa [Nat.add_assoc, Nat.add_comm 1] using this
      · have hlt : a < m.nextAppender + 1 := Nat.lt_succ_of_lt ha
        rw [hx.kept a hlt]
        simp [Nat.ne_of_lt ha]
      · have hle : m.nextAppender < a := by
          have hle : m.nextAppender + 1 + ds.length ≤ a := hx.nextAppender ▸ ha
          exact Nat.lt_of_lt_of_le (Nat.lt_add_right _ (Nat.lt_succ_self _)) hle
        rw [hx.fresh a ha]
        simp [Nat.ne_of_gt hle]

/-- The state after the tail has run for `i` on the logger at `l`. -/
structure Configured (m : LoggerManager) (l : LoggerPtr) (lg : Logger) (i : LogDefine)
    (m' : LoggerManager) : Prop where
  logger : m'.logger l = some
    { lg with
      level := i.level, formatter := formatterOr i.formatter lg.formatter
      appenders := List.range' m.nextAppender i.appenders.length }
  others : ∀ k ≠ l, m'.logger k = m.logger k
  loggers : m'.loggers = m.loggers
  root : m'.root = m.root
  nextLogger : m'.nextLogger = m.nextLogger
  nextAppender : m'.nextAppender = m.nextAppender + i.appenders.length
  built : ∀ n d, i.appenders[n]? = some d → m'.appender (m.nextAppender + n) =
    some (d.build (formatterOr i.formatter lg.formatter))
  kept : ∀ a < m.nextAppender, a ∉ lg.appenders → m'.appender a = m.appender a
  live : ∀ a < m.nextAppender, (∃ ap, m.appender a = some ap) → ∃ ap, m'.appender a = some ap
  fresh : (∀ a, m.nextAppender ≤ a → m.appender a = none) →
    ∀ a, m'.nextAppender ≤ a → m'.appender a = none

/-- `setFormatter` on a logger that exists. -/
theorem setFormatterString_spec {p : String} (hl : m.logger l = some lg)
    (has : ∀ a ∈ lg.appenders, ∃ ap, m.appender a = some ap) :
    ∃ m', (if p ≠ "" then m.setFormatterString (some l) p else .ok m) = .ok m' ∧
      m'.logger l = some { lg with formatter := formatterOr p lg.formatter } ∧
      (∀ k ≠ l, m'.logger k = m.logger k) ∧ m'.loggers = m.loggers ∧ m'.root = m.root ∧
      m'.nextLogger = m.nextLogger ∧ m'.nextAppender = m.nextAppender ∧
      (∀ a ∉ lg.appenders, m'.appender a = m.appender a) ∧
      ∀ a, (∃ ap, m.appender a = some ap) ↔ ∃ ap, m'.appender a = some ap := by
  by_cases hacc : Accepted p
  · obtain ⟨m', hm', hfol⟩ := LoggerManager.followFormatter_loop (some (.new p))
      (m := m.setLogger l { lg with formatter := some (.new p) }) has
    refine ⟨m', ?_, ?_, fun k hk ↦ ?_, hfol.loggers, hfol.root, hfol.nextLogger,
      hfol.nextAppender, fun a ha ↦ hfol.other ha, hfol.live⟩
    · simp [hacc.1, hacc.2, LoggerManager.setFormatterString, LoggerManager.setFormatter,
        LoggerManager.derefLogger_some hl, hm']
    · simp [hfol.logger, formatterOr, hacc]
    · simp [hfol.logger, hk]
  · refine ⟨m, ?_, by simp [formatterOr, hacc, hl], fun _ _ ↦ rfl, rfl, rfl, rfl, rfl,
      fun _ _ ↦ rfl, fun _ ↦ Iff.rfl⟩
    by_cases hne : p = ""
    · simp [hne]
    · have herr : (LogFormatter.new p).isError = true := by
        simpa [Accepted, hne] using hacc
      simp [hne, herr, LoggerManager.setFormatterString, LoggerManager.derefLogger_some hl]

theorem configure_spec (hl : m.logger l = some lg)
    (has : ∀ a ∈ lg.appenders, ∃ ap, m.appender a = some ap)
    (ht : ∀ a ∈ i.appenders, a.type = 1 ∨ a.type = 2) :
    ∃ m', configure i (some l) m = .ok m' ∧ Configured m l lg i m' := by
  obtain ⟨m₂, hm₂, hlg, hothers, hls, hr, hnl, hna, hout, hlive⟩ :=
    setFormatterString_spec (p := i.formatter) (m := m.setLogger l { lg with level := i.level })
      LoggerManager.setLogger_self has
  obtain ⟨m', hm', hx⟩ := extended_of_loop (m := m₂.setLogger l { lg with
      level := i.level, formatter := formatterOr i.formatter lg.formatter, appenders := [] })
    LoggerManager.setLogger_self ht
  have hnext : m₂.nextAppender = m.nextAppender := hna
  refine ⟨m', ?_, ?_, fun k hk ↦ ?_, ?_, ?_, ?_, ?_, fun n d hn ↦ ?_, fun a ha hnot ↦ ?_,
    fun a ha hap ↦ ?_, fun hfresh a ha ↦ ?_⟩
  · have hrest : (do
        let m ← m₂.clearAppender (some l)
        i.appenders.foldlM (applyAppender (some l)) m) = .ok m' := by
      rw [LoggerManager.clearAppender_eq hlg]
      exact hm'
    unfold configure
    rw [LoggerManager.setLevel_eq hl, Except.ok_bind]
    by_cases hne : i.formatter ≠ ""
    · rw [if_pos hne] at hm₂ ⊢
      rw [hm₂]
      exact hrest
    · rw [if_neg hne] at hm₂ ⊢
      rw [hm₂]
      exact hrest
  · rw [hx.logger]
    simp [hnext]
  · rw [hx.others k hk]
    simp [hk, hothers k hk]
  · rw [hx.loggers]; exact hls
  · rw [hx.root]; exact hr
  · rw [hx.nextLogger]; exact hnl
  · rw [hx.nextAppender]; simp [hnext]
  · have := hx.built n d hn
    simpa [hnext] using this
  · rw [hx.kept a (by simpa [hnext] using ha)]
    exact hout a hnot
  · rw [hx.kept a (by simpa [hnext] using ha)]
    exact (hlive a).mp hap
  · rw [hx.fresh a ha]
    have hle : m.nextAppender ≤ a := by
      have hle : m₂.nextAppender + i.appenders.length ≤ a := hx.nextAppender ▸ ha
      exact Nat.le_trans (Nat.le_add_right _ _) (hnext ▸ hle)
    cases hap : m₂.appender a with
    | none => exact hap
    | some ap =>
        obtain ⟨ap', hap'⟩ := (hlive a).mpr ⟨ap, hap⟩
        have hap' : m.appender a = some ap' := hap'
        rw [hfresh a hle] at hap'
        cases hap'

theorem Configured.replaced (h : Configured m l lg i m') :
    m.Replaced l { lg with
      level := i.level, formatter := formatterOr i.formatter lg.formatter
      appenders := List.range' m.nextAppender i.appenders.length } m' :=
  ⟨h.logger, h.others, h.loggers, h.root, h.nextLogger⟩

/-- The new appenders of a logger that has been configured. -/
theorem Configured.attached (h : Configured m l lg i m') {a : AppenderPtr}
    (ha : a ∈ List.range' m.nextAppender i.appenders.length) :
    ∃ d : LogAppenderDefine,
      m'.appender a = some (d.build (formatterOr i.formatter lg.formatter)) := by
  obtain ⟨n, hn, rfl⟩ := List.mem_range'.mp ha
  exact ⟨i.appenders[n], by rw [Nat.one_mul]; exact h.built n _ (List.getElem?_eq_getElem hn)⟩

theorem Configured.valid (h : Configured m l lg i m') (hv : m.Valid) (hl : m.logger l = some lg) :
    m'.Valid := by
  refine h.replaced.valid hv hl rfl (fun k lg' hk a ha ↦ ?_) (h.fresh hv.freshAppender)
  rcases h.replaced.cases hk with ⟨rfl, rfl⟩ | ⟨_, hk⟩
  · obtain ⟨d, hd⟩ := h.attached ha
    exact ⟨_, hd⟩
  · obtain ⟨ap, hap⟩ := hv.attached k lg' hk a ha
    exact h.live a (hv.appender_lt hap) ⟨ap, hap⟩

/-! ## The manager -/

/-- `getLogger` returns a logger that exists, and a new one only for a new
name. -/
theorem getLogger_valid (hv : m.Valid) (name : String) :
    (m.getLogger name).2.Valid ∧
      ∃ lg, (m.getLogger name).2.logger (m.getLogger name).1 = some lg := by
  unfold LoggerManager.getLogger
  cases hf : m.loggers.find? name with
  | some e =>
      obtain ⟨lg, hlg⟩ := hv.live e (Keyed.find?_eq_some.mp hf).1
      exact ⟨hv, lg, hlg⟩
  | none =>
      have hne : ∀ {k lg}, m.logger k = some lg → k ≠ m.nextLogger := fun hk ↦ hv.ne_nextLogger hk
      refine ⟨⟨fun e he ↦ ?_, ?_, fun k lg hk a ha ↦ ?_, fun k hk ↦ ?_, hv.freshAppender⟩,
        _, Function.update_self _ _ _⟩
      · rcases Keyed.mem_place he with rfl | he
        · exact ⟨_, Function.update_self _ _ _⟩
        · obtain ⟨lg, hlg⟩ := hv.live e he
          exact ⟨lg, by simp [LoggerManager.newLogger, hne hlg, hlg]⟩
      · obtain ⟨lg, hlg, hroot⟩ := hv.root
        exact ⟨lg, by simp [LoggerManager.newLogger, hne hlg, hlg], hroot⟩
      · rcases LoggerManager.newLogger_cases hk with ⟨rfl, rfl⟩ | ⟨_, hk⟩
        · cases ha
        · exact hv.attached k lg hk a ha
      · have hlt : m.nextLogger < k := hk
        simpa [LoggerManager.newLogger, Nat.ne_of_gt hlt] using
          hv.freshLogger k (Nat.le_of_lt hlt)

theorem setLogger_valid {lg' : Logger} (hv : m.Valid) (hl : m.logger l = some lg)
    (hroot : lg'.root = lg.root) (happ : ∀ a ∈ lg'.appenders, a ∈ lg.appenders) :
    (m.setLogger l lg').Valid := by
  refine LoggerManager.setLogger_replaced.valid hv hl hroot (fun k lgk hk a ha ↦ ?_)
    hv.freshAppender
  rcases LoggerManager.setLogger_replaced.cases hk with ⟨rfl, rfl⟩ | ⟨_, hk⟩
  · exact hv.attached k lg hl a (happ a ha)
  · exact hv.attached k lgk hk a ha

/-- The listener's own line can be written: no appender of the root logger that
takes it lacks a formatter. -/
def Announces (m : LoggerManager) : Prop :=
  ∀ lg, m.logger m.root = some lg → lg.level ≤ .INFO → ∀ a ∈ lg.appenders, ∀ ap,
    m.appender a = some ap → ap.level ≤ .INFO → ap.formatter ≠ none

theorem appenderLog_ok_iff {env : Env} {a : AppenderPtr} {ap : LogAppender} {level : Level}
    {event : LogEvent} (ha : m.appender a = some ap) :
    (∃ out, m.appenderLog env a level event = .ok out) ↔
      (ap.level ≤ level → ap.formatter ≠ none) := by
  unfold LoggerManager.appenderLog
  rw [LoggerManager.derefAppender_some ha]
  by_cases hle : ap.level ≤ level
  · cases hf : ap.formatter <;> simp [hle, hf]
  · simp [hle]

theorem announces_iff {e : Env} {c : String} (hv : m.Valid) :
    (∃ out, m.SYLAR_LOG_LEVEL e m.root .INFO c = .ok out) ↔ Announces m := by
  obtain ⟨lg, hlg, hroot⟩ := hv.root
  have hann : Announces m ↔ (lg.level ≤ .INFO → ∀ a ∈ lg.appenders, ∀ ap,
      m.appender a = some ap → ap.level ≤ .INFO → ap.formatter ≠ none) := by
    simp [Announces, hlg]
  rw [hann]
  by_cases hle : lg.level ≤ .INFO
  · simp only [LoggerManager.SYLAR_LOG_LEVEL, LoggerManager.derefLogger_some hlg, Except.ok_bind,
      LoggerManager.log, LoggerManager.logFrom, if_pos hle, hroot]
    split
    · constructor
      · rintro ⟨out, hout⟩ _ a ha ap hap
        obtain ⟨u, u', hu⟩ := foldlM_rounds hout a ha
        rw [Except.bind_ok_iff] at hu
        obtain ⟨o, ho, _⟩ := hu
        exact (appenderLog_ok_iff hap).mp ⟨o, ho⟩
      · intro h
        refine (foldlM_total (I := fun _ ↦ True) (fun out a ha _ ↦ ?_) trivial).imp
          fun _ h ↦ h.1
        obtain ⟨ap, hap⟩ := hv.attached _ lg hlg a ha
        obtain ⟨o, ho⟩ := (appenderLog_ok_iff hap).mpr (h hle a ha ap hap)
        exact ⟨out ++ o, by rw [ho]; rfl, trivial⟩
    · rename_i h
      simp only [ne_eq, not_not] at h
      simp [h]
  · simp [LoggerManager.SYLAR_LOG_LEVEL, LoggerManager.derefLogger_some hlg, hle]

/-! ## When the listener completes -/

theorem removeDefine_eq (hf : new.find? i.name = none)
    (hlg : (m.getLogger i.name).2.logger (m.getLogger i.name).1 = some lg) :
    removeDefine new m i = .ok ((m.getLogger i.name).2.setLogger (m.getLogger i.name).1
      { lg with level := .other 100 (by decide), appenders := [] }) := by
  simp only [removeDefine, hf, LoggerManager.setLevel_eq hlg, Except.ok_bind,
    LoggerManager.clearAppender_eq LoggerManager.setLogger_self,
    LoggerManager.setLogger_setLogger]

theorem removeDefine_total (hv : m.Valid) (i : LogDefine) :
    ∃ m', removeDefine new m i = .ok m' ∧ m'.Valid := by
  cases hf : new.find? i.name with
  | some it => exact ⟨m, by simp [removeDefine, hf], hv⟩
  | none =>
      obtain ⟨hv', lg, hlg⟩ := getLogger_valid hv i.name
      exact ⟨_, removeDefine_eq hf hlg, setLogger_valid hv' hlg rfl (by simp)⟩

/-- The tail fails when no logger has been fetched. -/
theorem configure_null : configure i none m = .error .nullLogger := by
  simp [configure, LoggerManager.setLevel]

/-- An entry is skipped by the lookup only if it is in the old configuration as
it is. -/
theorem applyDefine_eq (h : i ∉ old) :
    applyDefine old m i = configure i (some (m.getLogger i.name).1) (m.getLogger i.name).2 := by
  unfold applyDefine
  cases hf : old.find? i.name with
  | none => rfl
  | some it =>
      have hne : i ≠ it := by
        rintro rfl
        exact h (Keyed.find?_eq_some.mp hf).1
      simp [hne]

theorem applyDefine_null (h : i ∈ old) : applyDefine old m i = .error .nullLogger := by
  simp [applyDefine, Keyed.find?_eq_some.mpr ⟨h, rfl⟩, configure_null]

theorem applyDefine_total (hv : m.Valid) (h : i ∉ old)
    (ht : ∀ a ∈ i.appenders, a.type = 1 ∨ a.type = 2) :
    ∃ m', applyDefine old m i = .ok m' ∧ m'.Valid := by
  obtain ⟨hv', lg, hlg⟩ := getLogger_valid hv i.name
  obtain ⟨m', hm', hc⟩ := configure_spec hlg (hv'.attached _ lg hlg) ht
  exact ⟨m', by rw [applyDefine_eq h, hm'], hc.valid hv' hlg⟩

/-- The listener completes when it can write its line and every entry is a change. -/
theorem onChange_total (env : Env) {old new : LogDefines} (hnew : new.Typed) (hv : m.Valid)
    (hann : Announces m) (hdiff : ∀ i ∈ new, i ∉ old) :
    ∃ m', onChange env old new m = .ok m' := by
  obtain ⟨out, hout⟩ := (announces_iff (e := env) hv).mpr hann
  obtain ⟨m₁, h₁, hv₁⟩ := foldlM_total (I := LoggerManager.Valid) (f := applyDefine old)
    (fun m i hi hm ↦ applyDefine_total hm (hdiff i hi) (hnew i hi)) hv
  obtain ⟨m₂, h₂, _⟩ := foldlM_total (I := LoggerManager.Valid) (f := removeDefine new)
    (l := old.toList) (fun m i _ hm ↦ removeDefine_total hm i) hv₁
  exact ⟨m₂, by rw [onChange, hout, Except.ok_bind, h₁, Except.ok_bind, h₂]⟩

/-- **When the listener completes.**  For every valid manager it runs to its end
exactly if its own line can be written and no entry is the same in both
configurations. -/
theorem onChange_completes_iff (env : Env) {old new : LogDefines} (hnew : new.Typed)
    (hv : m.Valid) :
    (∃ m', onChange env old new m = .ok m') ↔ Announces m ∧ ∀ i ∈ new, i ∉ old := by
  constructor
  · rintro ⟨m', h⟩
    obtain ⟨hout, m₁, h₁, _⟩ := onChange_ok h
    refine ⟨(announces_iff hv).mp hout, fun i hi hiold ↦ ?_⟩
    obtain ⟨u, u', hu⟩ := foldlM_rounds h₁ i hi
    rw [applyDefine_null hiold] at hu
    cases hu
  · rintro ⟨hann, hdiff⟩
    exact onChange_total env hnew hv hann hdiff

/-- A new manager can write its first line. -/
theorem announces_new : Announces .new := by
  intro lg hlg _ a ha ap hap _
  have hlg : some { Logger.new "root" with appenders := [0] } = some lg := hlg
  cases hlg
  rw [List.mem_singleton.mp ha] at hap
  cases hap
  simp

/-- An environment to evaluate the listener in. -/
def Env.plain : Env :=
  { strftime := fun format _ ↦ format, file := "log.cc", line := 358, threadID := 1, fiberID := 0
    time := 0, threadName := "main" }

/-- A configuration with one logger that writes to the console. -/
def oneLogger (name : String) (level : Level) : LogDefines :=
  Keyed.empty.insert { name, level, appenders := [{ type := 2 }] }

theorem onChange_completes_iff_changed :
    ∃ m', onChange .plain (oneLogger "system" .INFO) (oneLogger "system" .DEBUG) .new = .ok m' := by
  refine (onChange_completes_iff .plain ?_ LoggerManager.new_valid).mpr ⟨announces_new, ?_⟩
  · simp [LogDefines.Typed, oneLogger, Keyed.mem_def, Keyed.insert, Keyed.place]
  · simp [oneLogger, Keyed.mem_def, Keyed.insert, Keyed.place]

/-- A logger is added and the other one left as it is. -/
theorem onChange_unchanged :
    onChange .plain (oneLogger "system" .INFO)
      ((oneLogger "system" .INFO).insert { name := "test" }) .new = .error .nullLogger := by
  obtain ⟨out, hout⟩ := (announces_iff (e := .plain) (c := "on_logger_conf_changed")
    LoggerManager.new_valid).mpr announces_new
  have hlist : ((oneLogger "system" .INFO).insert { name := "test" }).toList =
      [{ name := "system", level := .INFO, appenders := [{ type := 2 }] }, { name := "test" }] := by
    decide
  rw [onChange, hout, Except.ok_bind, hlist, List.foldlM_cons,
    applyDefine_null (by simp [oneLogger, Keyed.mem_def, Keyed.insert, Keyed.place])]
  rfl

end Sylar.Log
