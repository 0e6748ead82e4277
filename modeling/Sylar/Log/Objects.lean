import Sylar.Log.Logger

/-!
# What the logger calls do

`Valid` says of a manager what C++ needs for its pointers: those it stores
designate objects, and addresses that have not been handed out are free.  Below
it there is one lemma for each call made on objects that exist.
-/

namespace Sylar.Log

open Foundation

/-- The parser accepts the pattern, and there is one. -/
def Accepted (pattern : String) : Prop :=
  pattern ≠ "" ∧ (LogFormatter.new pattern).isError = false

instance (pattern : String) : Decidable (Accepted pattern) :=
  inferInstanceAs (Decidable (_ ∧ _))

namespace LoggerManager

/-- The stored pointers designate objects. -/
structure Valid (m : LoggerManager) : Prop where
  live : ∀ e ∈ m.loggers, ∃ lg, m.logger e.2 = some lg
  root : ∃ lg, m.logger m.root = some lg ∧ lg.root = none
  attached : ∀ l lg, m.logger l = some lg → ∀ a ∈ lg.appenders, ∃ ap, m.appender a = some ap
  freshLogger : ∀ l, m.nextLogger ≤ l → m.logger l = none
  freshAppender : ∀ a, m.nextAppender ≤ a → m.appender a = none

variable {m m' : LoggerManager} {l k : LoggerPtr} {lg lg' : Logger} {a b : AppenderPtr}
variable {ap ap' : LogAppender} {name : String} {level : Level} {val : Option LogFormatter}

/-! ## Field lemmas of the writes -/

@[simp] theorem setLogger_self : (m.setLogger l lg).logger l = some lg := by simp [setLogger]
@[simp] theorem setLogger_ne (h : k ≠ l) : (m.setLogger l lg).logger k = m.logger k := by
  simp [setLogger, h]
@[simp] theorem setLogger_appender : (m.setLogger l lg).appender = m.appender := rfl
@[simp] theorem setLogger_loggers : (m.setLogger l lg).loggers = m.loggers := rfl
@[simp] theorem setLogger_root : (m.setLogger l lg).root = m.root := rfl
@[simp] theorem setLogger_nextLogger : (m.setLogger l lg).nextLogger = m.nextLogger := rfl
@[simp] theorem setLogger_nextAppender : (m.setLogger l lg).nextAppender = m.nextAppender := rfl
@[simp] theorem setLogger_setLogger : (m.setLogger l lg).setLogger l lg' = m.setLogger l lg' := by
  simp [setLogger]

@[simp] theorem setAppender_self : (m.setAppender a ap).appender a = some ap := by
  simp [setAppender]
@[simp] theorem setAppender_ne (h : b ≠ a) : (m.setAppender a ap).appender b = m.appender b := by
  simp [setAppender, h]
@[simp] theorem setAppender_logger : (m.setAppender a ap).logger = m.logger := rfl
@[simp] theorem setAppender_loggers : (m.setAppender a ap).loggers = m.loggers := rfl
@[simp] theorem setAppender_root : (m.setAppender a ap).root = m.root := rfl
@[simp] theorem setAppender_nextLogger : (m.setAppender a ap).nextLogger = m.nextLogger := rfl
@[simp] theorem setAppender_nextAppender :
    (m.setAppender a ap).nextAppender = m.nextAppender := rfl

@[simp] theorem newAppender_self : (m.newAppender ap).appender m.nextAppender = some ap := by
  simp [newAppender]
@[simp] theorem newAppender_ne (h : b ≠ m.nextAppender) :
    (m.newAppender ap).appender b = m.appender b := by simp [newAppender, h]
@[simp] theorem newAppender_logger : (m.newAppender ap).logger = m.logger := rfl
@[simp] theorem newAppender_loggers : (m.newAppender ap).loggers = m.loggers := rfl
@[simp] theorem newAppender_root : (m.newAppender ap).root = m.root := rfl
@[simp] theorem newAppender_nextLogger : (m.newAppender ap).nextLogger = m.nextLogger := rfl
@[simp] theorem newAppender_nextAppender :
    (m.newAppender ap).nextAppender = m.nextAppender + 1 := rfl
@[simp] theorem newAppender_setAppender :
    (m.newAppender ap).setAppender m.nextAppender ap' = m.newAppender ap' := by
  simp [setAppender, newAppender]

/-! ## One logger is replaced -/

/-- There is another logger at `l`; the others are those of `m`. -/
structure Replaced (m : LoggerManager) (l : LoggerPtr) (lg' : Logger) (m' : LoggerManager) :
    Prop where
  self : m'.logger l = some lg'
  others : ∀ k ≠ l, m'.logger k = m.logger k
  loggers : m'.loggers = m.loggers
  root : m'.root = m.root
  nextLogger : m'.nextLogger = m.nextLogger

theorem setLogger_replaced : m.Replaced l lg (m.setLogger l lg) :=
  ⟨setLogger_self, fun _ h ↦ setLogger_ne h, rfl, rfl, rfl⟩

theorem Replaced.cases (h : m.Replaced l lg' m') {lgk : Logger} (hk : m'.logger k = some lgk) :
    k = l ∧ lgk = lg' ∨ k ≠ l ∧ m.logger k = some lgk := by
  by_cases hkl : k = l
  · subst hkl
    exact .inl ⟨rfl, Option.some.inj (hk.symm.trans h.self)⟩
  · exact .inr ⟨hkl, (h.others k hkl).symm.trans hk⟩

theorem newLogger_cases {lgk : Logger} (hk : (m.newLogger lg).logger k = some lgk) :
    k = m.nextLogger ∧ lgk = lg ∨ k ≠ m.nextLogger ∧ m.logger k = some lgk := by
  by_cases hkl : k = m.nextLogger
  · subst hkl
    simp only [newLogger, Function.update_self, Option.some.injEq] at hk
    exact .inl ⟨rfl, hk.symm⟩
  · exact .inr ⟨hkl, by simpa [newLogger, hkl] using hk⟩

theorem Valid.appender_lt (hv : m.Valid) (h : m.appender a = some ap) : a < m.nextAppender := by
  refine Nat.lt_of_not_le fun hle ↦ ?_
  rw [hv.freshAppender a hle] at h
  cases h

theorem Valid.ne_nextLogger (hv : m.Valid) (h : m.logger k = some lg) : k ≠ m.nextLogger := by
  rintro rfl
  rw [hv.freshLogger _ (Nat.le_refl _)] at h
  cases h

/-- What is left to show where one logger is replaced. -/
theorem Replaced.valid (h : m.Replaced l lg' m') (hv : m.Valid) (hl : m.logger l = some lg)
    (hroot : lg'.root = lg.root)
    (hattached : ∀ k lgk, m'.logger k = some lgk → ∀ a ∈ lgk.appenders,
      ∃ ap, m'.appender a = some ap)
    (hfresh : ∀ a, m'.nextAppender ≤ a → m'.appender a = none) : m'.Valid := by
  refine ⟨fun e he ↦ ?_, ?_, hattached, fun k hk ↦ ?_, hfresh⟩
  · by_cases hel : e.2 = l
    · exact ⟨lg', hel ▸ h.self⟩
    · rw [h.others e.2 hel]
      exact hv.live e (h.loggers ▸ he)
  · obtain ⟨lgr, hr, hrt⟩ := hv.root
    rw [h.root]
    by_cases hrl : m.root = l
    · obtain rfl : lg = lgr := Option.some.inj (hl.symm.trans (hrl ▸ hr))
      exact ⟨lg', hrl ▸ h.self, hroot.trans hrt⟩
    · exact ⟨lgr, (h.others _ hrl).trans hr, hrt⟩
  · rw [h.nextLogger] at hk
    have hkl : k ≠ l := by
      rintro rfl
      rw [hv.freshLogger k hk] at hl
      cases hl
    rw [h.others k hkl]
    exact hv.freshLogger k hk

/-! ## The calls on objects that exist -/

@[simp] theorem derefLogger_none : m.derefLogger none = .error .nullLogger := rfl

@[simp] theorem derefAppender_none : m.derefAppender none = .error .nullAppender := rfl

theorem derefLogger_some (h : m.logger l = some lg) : m.derefLogger (some l) = .ok (l, lg) := by
  simp [derefLogger, h]

theorem derefAppender_some (h : m.appender a = some ap) :
    m.derefAppender (some a) = .ok (a, ap) := by
  simp [derefAppender, h]

theorem appenderSetLevel_eq (h : m.appender a = some ap) :
    m.appenderSetLevel (some a) level = .ok (m.setAppender a { ap with level }) := by
  simp [appenderSetLevel, derefAppender_some h]

theorem appenderSetFormatter_eq (h : m.appender a = some ap) :
    m.appenderSetFormatter (some a) val =
      .ok (m.setAppender a { ap with formatter := val, hasFormatter := val.isSome }) := by
  simp [appenderSetFormatter, derefAppender_some h]

theorem setLevel_eq (h : m.logger l = some lg) :
    m.setLevel (some l) level = .ok (m.setLogger l { lg with level }) := by
  simp [setLevel, derefLogger_some h]

theorem clearAppender_eq (h : m.logger l = some lg) :
    m.clearAppender (some l) = .ok (m.setLogger l { lg with appenders := [] }) := by
  simp [clearAppender, derefLogger_some h]

theorem addAppender_eq (hl : m.logger l = some lg) (ha : m.appender a = some ap) :
    m.addAppender (some l) (some a) =
      .ok ((if ap.formatter = none then m.setAppender a { ap with formatter := lg.formatter }
        else m).setLogger l { lg with appenders := lg.appenders ++ [a] }) := by
  simp [addAppender, derefLogger_some hl, derefAppender_some ha]

/-- What `Logger::setFormatter` does to an attached appender. -/
def follow (val : Option LogFormatter) (ap : LogAppender) : LogAppender :=
  if ap.hasFormatter then ap else { ap with formatter := val }

theorem follow_follow : follow val (follow val ap) = follow val ap := by
  unfold follow
  split <;> simp_all

/-- The state after the loop of `setFormatter` over some appenders.  One that is
attached twice is reached twice, to the same effect. -/
structure Followed (m : LoggerManager) (as : List AppenderPtr) (val : Option LogFormatter)
    (m' : LoggerManager) : Prop where
  logger : m'.logger = m.logger
  loggers : m'.loggers = m.loggers
  root : m'.root = m.root
  nextLogger : m'.nextLogger = m.nextLogger
  nextAppender : m'.nextAppender = m.nextAppender
  appender : ∀ b, m'.appender b = if b ∈ as then (m.appender b).map (follow val) else m.appender b

variable {as : List AppenderPtr}

theorem Followed.other (h : m.Followed as val m') (ha : a ∉ as) :
    m'.appender a = m.appender a := by
  rw [h.appender, if_neg ha]

theorem Followed.live (h : m.Followed as val m') (a : AppenderPtr) :
    (∃ ap, m.appender a = some ap) ↔ ∃ ap, m'.appender a = some ap := by
  rw [h.appender]
  split
  · cases m.appender a <;> simp
  · rfl

theorem followFormatter_eq (ha : m.appender a = some ap) :
    ∃ m', followFormatter val m a = .ok m' ∧ m.Followed [a] val m' := by
  by_cases hf : ap.hasFormatter = true
  · refine ⟨m, by simp [followFormatter, derefAppender_some ha, hf], rfl, rfl, rfl, rfl, rfl, ?_⟩
    intro b
    by_cases hba : b = a
    · subst hba
      simp [ha, follow, hf]
    · simp [hba]
  · refine ⟨m.setAppender a { ap with formatter := val },
      by simp [followFormatter, derefAppender_some ha, hf], rfl, rfl, rfl, rfl, rfl, ?_⟩
    intro b
    by_cases hba : b = a
    · subst hba
      simp [ha, follow, hf]
    · simp [hba]

theorem Followed.cons {m₁ : LoggerManager} (h : m.Followed [a] val m₁)
    (h' : m₁.Followed as val m') : m.Followed (a :: as) val m' := by
  refine ⟨h'.logger.trans h.logger, h'.loggers.trans h.loggers, h'.root.trans h.root,
    h'.nextLogger.trans h.nextLogger, h'.nextAppender.trans h.nextAppender, fun b ↦ ?_⟩
  rw [h'.appender, h.appender]
  by_cases hba : b = a
  · subst hba
    simp [Function.comp_def, follow_follow]
  · simp [hba]

/-- The loop of `setFormatter`. -/
theorem followFormatter_loop (val : Option LogFormatter)
    (has : ∀ a ∈ as, ∃ ap, m.appender a = some ap) :
    ∃ m', as.foldlM (followFormatter val) m = .ok m' ∧ m.Followed as val m' := by
  induction as generalizing m with
  | nil => exact ⟨m, rfl, rfl, rfl, rfl, rfl, rfl, fun _ ↦ rfl⟩
  | cons a as ih =>
      obtain ⟨ap, ha⟩ := has a (by simp)
      obtain ⟨m₁, hm₁, h₁⟩ := followFormatter_eq ha
      obtain ⟨m', hm', h'⟩ := ih fun b hb ↦ (h₁.live b).mp (has b (by simp [hb]))
      exact ⟨m', by rw [List.foldlM_cons, hm₁]; exact hm', h₁.cons h'⟩

/-- What is known when the loop over the appenders of `l` ends. -/
theorem Valid.followed (hv : m.Valid) (hl : m.logger l = some lg)
    (h : lg.appenders.foldlM (followFormatter val) (m.setLogger l lg') = .ok m') :
    (m.setLogger l lg').Followed lg.appenders val m' := by
  obtain ⟨m₂, hm₂, hfol⟩ := followFormatter_loop (m := m.setLogger l lg') val (hv.attached l lg hl)
  obtain rfl : m₂ = m' := Except.ok.inj (hm₂.symm.trans h)
  exact hfol

/-! ## The manager at the start -/

/-- A manager whose constructor has not created its objects yet. -/
def blank : LoggerManager :=
  { LoggerManager.new with
    logger := fun _ ↦ none, appender := fun _ ↦ none, nextLogger := 0, nextAppender := 0 }

/-- The constructor creates the root logger and attaches a new appender to it. -/
theorem new_eq_addAppender :
    ((blank.newLogger (.new "root")).newAppender (.new .StdoutLogAppender)).addAppender
      (some 0) (some 0) = .ok .new := by
  have hl : ((blank.newLogger (.new "root")).newAppender (.new .StdoutLogAppender)).logger 0 =
      some (.new "root") := rfl
  have ha : ((blank.newLogger (.new "root")).newAppender (.new .StdoutLogAppender)).appender 0 =
      some (.new .StdoutLogAppender) := rfl
  have hnone : (LogAppender.new .StdoutLogAppender).formatter = none := rfl
  rw [addAppender_eq hl ha, if_pos hnone]
  refine congrArg Except.ok (LoggerManager.ext (funext fun l ↦ ?_) (funext fun a ↦ ?_)
    rfl rfl rfl rfl)
  · by_cases e : l = 0 <;>
      simp [e, LoggerManager.new, setLogger, setAppender, newAppender, newLogger, blank, Logger.new]
  · by_cases e : a = 0 <;>
      simp [e, LoggerManager.new, setLogger, setAppender, newAppender, newLogger, blank, Logger.new]

theorem new_valid : LoggerManager.new.Valid := by
  refine ⟨fun e he ↦ ?_, ⟨_, rfl, rfl⟩, fun l lg hl a ha ↦ ?_, fun l hl ↦ ?_, fun a ha ↦ ?_⟩
  · rcases Keyed.mem_place he with rfl | he
    · exact ⟨_, rfl⟩
    · cases he
  · by_cases e : l = 0
    · subst e
      simp only [LoggerManager.new, if_true, Option.some.injEq] at hl
      subst hl
      rw [List.mem_singleton.mp ha]
      exact ⟨_, rfl⟩
    · simp [LoggerManager.new, e] at hl
  · have hne : l ≠ 0 := Nat.ne_of_gt hl
    simp [LoggerManager.new, hne]
  · have hne : a ≠ 0 := Nat.ne_of_gt ha
    simp [LoggerManager.new, hne]

end LoggerManager

end Sylar.Log
