import Sylar.Log.Reload
import Sylar.Foundation.Run

/-!
# Calls on loggers and appenders

What a program does with the log library from the outside, one call after the
other: it fetches loggers by name, creates appenders, and configures both.  An
appender may be attached to several loggers, or to one of them twice.

The calls keep `Valid`, whatever pointers they are given.  A formatter can be
null only if one has been passed in.
-/

namespace Sylar.Log

open Foundation

/-- The public members of `LoggerManager`, `Logger` and `LogAppender` that change
something. -/
inductive Call
  | getLogger (name : String)
  | setLevel (l : LoggerPtr) (level : Level)
  | setFormatter (l : LoggerPtr) (val : Option LogFormatter)
  | setFormatterString (l : LoggerPtr) (val : String)
  | addAppender (l : LoggerPtr) (a : Option AppenderPtr)
  | delAppender (l : LoggerPtr) (a : Option AppenderPtr)
  | clearAppender (l : LoggerPtr)
  | newAppender (kind : AppenderKind)
  | appenderSetLevel (a : AppenderPtr) (level : Level)
  | appenderSetFormatter (a : AppenderPtr) (val : Option LogFormatter)

/-- No null formatter is passed in. -/
def Call.Given : Call → Prop
  | setFormatter _ val | appenderSetFormatter _ val => val ≠ none
  | _ => True

namespace LoggerManager

/-- The effect of a call. -/
def perform (m : LoggerManager) : Call → Except Fault LoggerManager
  | .getLogger name => .ok (m.getLogger name).2
  | .setLevel l level => m.setLevel (some l) level
  | .setFormatter l val => m.setFormatter (some l) val
  | .setFormatterString l val => m.setFormatterString (some l) val
  | .addAppender l a => m.addAppender (some l) a
  | .delAppender l a => m.delAppender (some l) a
  | .clearAppender l => m.clearAppender (some l)
  | .newAppender kind => .ok (m.newAppender (.new kind))
  | .appenderSetLevel a level => m.appenderSetLevel (some a) level
  | .appenderSetFormatter a val => m.appenderSetFormatter (some a) val

/-- A call that returns. -/
def Performs (m : LoggerManager) (c : Call) (m' : LoggerManager) : Prop := m.perform c = .ok m'

variable {m m' : LoggerManager} {l k : LoggerPtr} {lg lg' : Logger} {a b : AppenderPtr}
variable {ap : LogAppender} {c : Call} {val : Option LogFormatter} {level : Level}

/-! ## The objects a call that returns is made on -/

theorem derefLogger_ok {r : LoggerPtr × Logger} (h : m.derefLogger (some l) = .ok r) :
    r.1 = l ∧ m.logger l = some r.2 := by
  cases hl : m.logger l with
  | none => simp [derefLogger, hl] at h
  | some lg =>
      rw [derefLogger_some hl, Except.ok.injEq] at h
      simp [← h]

theorem derefAppender_ok {r : AppenderPtr × LogAppender} (h : m.derefAppender (some a) = .ok r) :
    r.1 = a ∧ m.appender a = some r.2 := by
  cases ha : m.appender a with
  | none => simp [derefAppender, ha] at h
  | some ap =>
      rw [derefAppender_some ha, Except.ok.injEq] at h
      simp [← h]

theorem setFormatter_eq (hl : m.logger l = some lg) :
    m.setFormatter (some l) val =
      lg.appenders.foldlM (followFormatter val) (m.setLogger l { lg with formatter := val }) := by
  simp [setFormatter, derefLogger_some hl]

/-- A rejected pattern changes nothing. -/
theorem setFormatterString_eq {p : String} (hl : m.logger l = some lg) :
    m.setFormatterString (some l) p =
      if (LogFormatter.new p).isError then .ok m else m.setFormatter (some l) (some (.new p)) := by
  simp [setFormatterString, derefLogger_some hl]

theorem delAppender_eq (hl : m.logger l = some lg) :
    m.delAppender (some l) (some a) =
      .ok (m.setLogger l { lg with appenders := lg.appenders.erase a }) := by
  simp [delAppender, derefLogger_some hl]

/-- What a call that returns does. -/
inductive Effect (m : LoggerManager) : Call → LoggerManager → Prop
  | getLogger (name : String) : Effect m (.getLogger name) (m.getLogger name).2
  | setLevel {l : LoggerPtr} {lg : Logger} (level : Level) (hl : m.logger l = some lg) :
      Effect m (.setLevel l level) (m.setLogger l { lg with level })
  | setFormatter {l : LoggerPtr} {lg : Logger} {c : Call} {val : Option LogFormatter}
      {m' : LoggerManager} (hl : m.logger l = some lg)
      (hc : c = .setFormatter l val ∨ ∃ p, c = .setFormatterString l p ∧ val = some (.new p))
      (hloop : lg.appenders.foldlM (followFormatter val)
        (m.setLogger l { lg with formatter := val }) = .ok m') : Effect m c m'
  | rejected (l : LoggerPtr) {p : String} (hp : (LogFormatter.new p).isError = true) :
      Effect m (.setFormatterString l p) m
  | addAppender {l : LoggerPtr} {lg : Logger} {a : AppenderPtr} {ap : LogAppender}
      (hl : m.logger l = some lg) (ha : m.appender a = some ap) :
      Effect m (.addAppender l (some a))
        ((if ap.formatter = none then m.setAppender a { ap with formatter := lg.formatter }
          else m).setLogger l { lg with appenders := lg.appenders ++ [a] })
  | delNothing (l : LoggerPtr) : Effect m (.delAppender l none) m
  | delAppender {l : LoggerPtr} {lg : Logger} (a : AppenderPtr) (hl : m.logger l = some lg) :
      Effect m (.delAppender l (some a))
        (m.setLogger l { lg with appenders := lg.appenders.erase a })
  | clearAppender {l : LoggerPtr} {lg : Logger} (hl : m.logger l = some lg) :
      Effect m (.clearAppender l) (m.setLogger l { lg with appenders := [] })
  | newAppender (kind : AppenderKind) :
      Effect m (.newAppender kind) (m.newAppender (.new kind))
  | appenderSetLevel {a : AppenderPtr} {ap : LogAppender} (level : Level)
      (ha : m.appender a = some ap) :
      Effect m (.appenderSetLevel a level) (m.setAppender a { ap with level })
  | appenderSetFormatter {a : AppenderPtr} {ap : LogAppender} (val : Option LogFormatter)
      (ha : m.appender a = some ap) :
      Effect m (.appenderSetFormatter a val)
        (m.setAppender a { ap with formatter := val, hasFormatter := val.isSome })

/-- A logger that a call returns from exists. -/
theorem logger_of_ok {β : Type} {f : LoggerPtr × Logger → Except Fault β} {x : β}
    (h : m.derefLogger (some l) >>= f = .ok x) : ∃ lg, m.logger l = some lg := by
  obtain ⟨r, hr, _⟩ := Except.bind_ok_iff.mp h
  exact ⟨r.2, (derefLogger_ok hr).2⟩

theorem appender_of_ok {β : Type} {f : AppenderPtr × LogAppender → Except Fault β} {x : β}
    (h : m.derefAppender (some a) >>= f = .ok x) : ∃ ap, m.appender a = some ap := by
  obtain ⟨r, hr, _⟩ := Except.bind_ok_iff.mp h
  exact ⟨r.2, (derefAppender_ok hr).2⟩

theorem Performs.effect (h : m.Performs c m') : m.Effect c m' := by
  cases c with
  | getLogger name =>
      cases h
      exact .getLogger name
  | setLevel l level =>
      obtain ⟨lg, hl⟩ := logger_of_ok h
      rw [Performs, perform, setLevel_eq hl, Except.ok.injEq] at h
      exact h ▸ .setLevel level hl
  | setFormatter l val =>
      obtain ⟨lg, hl⟩ := logger_of_ok h
      rw [Performs, perform, setFormatter_eq hl] at h
      exact .setFormatter hl (.inl rfl) h
  | setFormatterString l p =>
      obtain ⟨lg, hl⟩ := logger_of_ok h
      rw [Performs, perform, setFormatterString_eq hl] at h
      split at h
      · rename_i hp
        rw [Except.ok.injEq] at h
        exact h ▸ .rejected l hp
      · rw [setFormatter_eq hl] at h
        exact .setFormatter hl (.inr ⟨p, rfl, rfl⟩) h
  | addAppender l a =>
      obtain ⟨lg, hl⟩ := logger_of_ok h
      cases a with
      | none => simp [Performs, perform, LoggerManager.addAppender, derefLogger_some hl] at h
      | some a =>
          have hrest := h
          rw [Performs, perform, LoggerManager.addAppender, derefLogger_some hl,
            Except.ok_bind] at hrest
          obtain ⟨ap, ha⟩ := appender_of_ok hrest
          rw [Performs, perform, addAppender_eq hl ha, Except.ok.injEq] at h
          exact h ▸ .addAppender hl ha
  | delAppender l a =>
      obtain ⟨lg, hl⟩ := logger_of_ok h
      cases a with
      | none =>
          simp only [Performs, perform, LoggerManager.delAppender, derefLogger_some hl,
            Except.ok_bind, Except.ok.injEq] at h
          exact h ▸ .delNothing l
      | some a =>
          rw [Performs, perform, delAppender_eq hl, Except.ok.injEq] at h
          exact h ▸ .delAppender a hl
  | clearAppender l =>
      obtain ⟨lg, hl⟩ := logger_of_ok h
      rw [Performs, perform, clearAppender_eq hl, Except.ok.injEq] at h
      exact h ▸ .clearAppender hl
  | newAppender kind =>
      cases h
      exact .newAppender kind
  | appenderSetLevel a level =>
      obtain ⟨ap, ha⟩ := appender_of_ok h
      rw [Performs, perform, appenderSetLevel_eq ha, Except.ok.injEq] at h
      exact h ▸ .appenderSetLevel level ha
  | appenderSetFormatter a val =>
      obtain ⟨ap, ha⟩ := appender_of_ok h
      rw [Performs, perform, appenderSetFormatter_eq ha, Except.ok.injEq] at h
      exact h ▸ .appenderSetFormatter val ha

/-! ## Calls keep the manager valid -/

/-- The loggers are those of `m`, with their names and fallbacks. -/
structure Steady (m m' : LoggerManager) : Prop where
  loggers : m'.loggers = m.loggers
  root : m'.root = m.root
  nextLogger : m'.nextLogger = m.nextLogger
  kept : ∀ l, (m'.logger l).map (fun lg ↦ (lg.name, lg.root)) =
    (m.logger l).map fun lg ↦ (lg.name, lg.root)

theorem Steady.refl (m : LoggerManager) : m.Steady m := ⟨rfl, rfl, rfl, fun _ ↦ rfl⟩

theorem Steady.trans {m₁ : LoggerManager} (h : m.Steady m₁) (h' : m₁.Steady m') : m.Steady m' :=
  ⟨h'.loggers.trans h.loggers, h'.root.trans h.root, h'.nextLogger.trans h.nextLogger,
    fun l ↦ (h'.kept l).trans (h.kept l)⟩

theorem Steady.of_logger (hloggers : m'.loggers = m.loggers) (hroot : m'.root = m.root)
    (hnext : m'.nextLogger = m.nextLogger) (hlogger : m'.logger = m.logger) : m.Steady m' :=
  ⟨hloggers, hroot, hnext, fun _ ↦ by rw [hlogger]⟩

theorem setLogger_steady (hl : m.logger l = some lg) (hname : lg'.name = lg.name)
    (hroot : lg'.root = lg.root) : m.Steady (m.setLogger l lg') := by
  refine ⟨rfl, rfl, rfl, fun k ↦ ?_⟩
  by_cases hk : k = l
  · subst hk
    simp [hl, hname, hroot]
  · simp [hk]

/-- A logger of a steady manager was there before. -/
theorem Steady.logger (h : m.Steady m') (hl : m'.logger l = some lg') :
    ∃ lg, m.logger l = some lg ∧ lg.name = lg'.name ∧ lg.root = lg'.root := by
  have hf := h.kept l
  rw [hl, Option.map_some] at hf
  simpa using Option.map_eq_some_iff.mp hf.symm

/-- It still is. -/
theorem Steady.logger_kept (h : m.Steady m') (hl : m.logger l = some lg) :
    ∃ lg', m'.logger l = some lg' ∧ lg'.name = lg.name ∧ lg'.root = lg.root := by
  have hf := h.kept l
  rw [hl, Option.map_some] at hf
  simpa using Option.map_eq_some_iff.mp hf

theorem Steady.valid (h : m.Steady m') (hv : m.Valid)
    (hattached : ∀ l lg, m'.logger l = some lg → ∀ a ∈ lg.appenders, ∃ ap, m'.appender a = some ap)
    (hfresh : ∀ a, m'.nextAppender ≤ a → m'.appender a = none) : m'.Valid := by
  refine ⟨fun e he ↦ ?_, ?_, hattached, fun l hl ↦ ?_, hfresh⟩
  · obtain ⟨lg, hlg⟩ := hv.live e (h.loggers ▸ he)
    exact (h.logger_kept hlg).imp fun _ h ↦ h.1
  · obtain ⟨lg, hlg, hroot⟩ := hv.root
    obtain ⟨lg', hlg', -, hroot'⟩ := h.logger_kept hlg
    exact ⟨lg', h.root.symm ▸ hlg', hroot'.trans hroot⟩
  · have hnone := hv.freshLogger l (h.nextLogger ▸ hl)
    have hf := h.kept l
    rw [hnone, Option.map_none] at hf
    exact Option.map_eq_none_iff.mp hf

theorem newAppender_steady : m.Steady (m.newAppender ap) := .of_logger rfl rfl rfl rfl

theorem setAppender_steady : m.Steady (m.setAppender a ap) := .of_logger rfl rfl rfl rfl

theorem setAppender_valid {ap' : LogAppender} (hv : m.Valid) (ha : m.appender a = some ap) :
    (m.setAppender a ap').Valid := by
  refine setAppender_steady.valid hv (fun l lg hl b hb ↦ ?_) fun b hb ↦ ?_
  · by_cases hba : b = a
    · exact ⟨ap', hba ▸ setAppender_self⟩
    · rw [setAppender_ne hba]
      exact hv.attached l lg hl b hb
  · have hba : b ≠ a := by
      rintro rfl
      exact absurd (hv.appender_lt ha) (Nat.not_lt_of_le hb)
    rw [setAppender_ne hba]
    exact hv.freshAppender b hb

theorem newAppender_valid (hv : m.Valid) : (m.newAppender ap).Valid := by
  refine newAppender_steady.valid hv (fun l lg hl b hb ↦ ?_) fun b hb ↦ ?_
  · obtain ⟨ap', hap'⟩ := hv.attached l lg hl b hb
    exact ⟨ap', by rw [newAppender_ne (Nat.ne_of_lt (hv.appender_lt hap')), hap']⟩
  · have hlt : m.nextAppender < b := hb
    rw [newAppender_ne (Nat.ne_of_gt hlt)]
    exact hv.freshAppender b (Nat.le_of_lt hlt)

/-- A logger may be given any appenders that exist. -/
theorem attach_valid (hv : m.Valid) (hl : m.logger l = some lg) (hname : lg'.name = lg.name)
    (hroot : lg'.root = lg.root) (happ : ∀ a ∈ lg'.appenders, ∃ ap, m.appender a = some ap) :
    (m.setLogger l lg').Valid := by
  refine (setLogger_steady hl hname hroot).valid hv (fun k lgk hk a ha ↦ ?_) hv.freshAppender
  rcases setLogger_replaced.cases hk with ⟨rfl, rfl⟩ | ⟨_, hk⟩
  · exact happ a ha
  · exact hv.attached k lgk hk a ha

/-- The appender is created or fetched before it is attached. -/
theorem addAppender_prepared (hv : m.Valid) (ha : m.appender a = some ap)
    (val : Option LogFormatter) (m₁ : LoggerManager)
    (hm₁ : m₁ = if ap.formatter = none then m.setAppender a { ap with formatter := val } else m) :
    m.Steady m₁ ∧ m₁.Valid ∧ m₁.logger = m.logger ∧
      ∀ b, (∃ ap, m.appender b = some ap) → ∃ ap, m₁.appender b = some ap := by
  by_cases hnone : ap.formatter = none
  · rw [if_pos hnone] at hm₁
    subst hm₁
    refine ⟨setAppender_steady, setAppender_valid hv ha, rfl, fun b hb ↦ ?_⟩
    by_cases hba : b = a
    · exact ⟨_, by rw [hba]; exact setAppender_self⟩
    · rwa [setAppender_ne hba]
  · rw [if_neg hnone] at hm₁
    subst hm₁
    exact ⟨.refl _, hv, rfl, fun _ h ↦ h⟩

/-- A call other than `getLogger` leaves the loggers alone, apart from their
levels, formatters and appenders. -/
theorem Effect.steady (h : m.Effect c m') (hv : m.Valid) :
    m'.Valid ∧ ((∃ name, m' = (m.getLogger name).2) ∨ m.Steady m') := by
  cases h with
  | getLogger name => exact ⟨(getLogger_valid hv name).1, .inl ⟨name, rfl⟩⟩
  | setLevel level hl =>
      exact ⟨setLogger_valid hv hl rfl fun _ ha ↦ ha, .inr (setLogger_steady hl rfl rfl)⟩
  | @setFormatter l lg c val m' hl hc hloop =>
      have hv₁ : (m.setLogger l { lg with formatter := val }).Valid :=
        setLogger_valid hv hl rfl fun _ ha ↦ ha
      have hfirst : m.Steady (m.setLogger l { lg with formatter := val }) :=
        setLogger_steady hl rfl rfl
      have hfol := hv.followed hl hloop
      have hsteady : (m.setLogger l { lg with formatter := val }).Steady m' :=
        .of_logger hfol.loggers hfol.root hfol.nextLogger hfol.logger
      refine ⟨hsteady.valid hv₁ (fun k lgk hk a ha ↦ ?_) fun a ha ↦ ?_,
        .inr (hfirst.trans hsteady)⟩
      · exact (hfol.live a).mp (hv₁.attached k lgk (hfol.logger ▸ hk) a ha)
      · cases hap : m'.appender a with
        | none => rfl
        | some ap =>
            obtain ⟨ap', hap'⟩ := (hfol.live a).mpr ⟨ap, hap⟩
            rw [hv₁.freshAppender a (hfol.nextAppender ▸ ha)] at hap'
            cases hap'
  | rejected l hp => exact ⟨hv, .inr (.refl m)⟩
  | @addAppender l lg a ap hl ha =>
      obtain ⟨hsteady, hv₁, hlogger, hlive⟩ := addAppender_prepared hv ha lg.formatter _ rfl
      have hl₁ := (congrFun hlogger l).trans hl
      refine ⟨attach_valid hv₁ hl₁ rfl rfl fun b hb ↦ hlive b ?_,
        .inr (hsteady.trans (setLogger_steady hl₁ rfl rfl))⟩
      rcases List.mem_append.mp hb with hb | hb
      · exact hv.attached l lg hl b hb
      · exact ⟨ap, List.mem_singleton.mp hb ▸ ha⟩
  | delNothing l => exact ⟨hv, .inr (.refl m)⟩
  | delAppender a hl =>
      exact ⟨setLogger_valid hv hl rfl fun _ hb ↦ List.mem_of_mem_erase hb,
        .inr (setLogger_steady hl rfl rfl)⟩
  | clearAppender hl =>
      exact ⟨setLogger_valid hv hl rfl (by simp), .inr (setLogger_steady hl rfl rfl)⟩
  | newAppender kind => exact ⟨newAppender_valid hv, .inr newAppender_steady⟩
  | appenderSetLevel level ha => exact ⟨setAppender_valid hv ha, .inr setAppender_steady⟩
  | appenderSetFormatter val ha => exact ⟨setAppender_valid hv ha, .inr setAppender_steady⟩

/-! ## Formatters -/

/-- An appender that is changed keeps a formatter. -/
theorem setAppender_formatted (hf : Formatted m) (hap : ap.formatter ≠ none) :
    Formatted (m.setAppender a ap) := by
  refine ⟨hf.logger, fun l lg hl b hb bp hbp ↦ ?_⟩
  by_cases hba : b = a
  · subst hba
    rw [setAppender_self, Option.some.injEq] at hbp
    exact hbp ▸ hap
  · rw [setAppender_ne hba] at hbp
    exact hf.appender l lg hl b hb bp hbp

/-- A logger is given formatted appenders. -/
theorem attach_formatted (hf : Formatted m) (hl : m.logger l = some lg)
    (hfmt : lg'.formatter = lg.formatter) (happ : ∀ a ∈ lg'.appenders, a ∈ lg.appenders ∨
      ∀ ap, m.appender a = some ap → ap.formatter ≠ none) : Formatted (m.setLogger l lg') := by
  refine ⟨fun k lgk hk ↦ ?_, fun k lgk hk a ha ap hap ↦ ?_⟩
  · rcases setLogger_replaced.cases hk with ⟨rfl, rfl⟩ | ⟨_, hk⟩
    · exact hfmt ▸ hf.logger k lg hl
    · exact hf.logger k lgk hk
  · rcases setLogger_replaced.cases hk with ⟨rfl, rfl⟩ | ⟨_, hk⟩
    · rcases happ a ha with ha | ha
      · exact hf.appender k lg hl a ha ap hap
      · exact ha ap hap
    · exact hf.appender k lgk hk a ha ap hap

/-- Formatters only become null when null is passed in. -/
theorem Effect.formatted (h : m.Effect c m') (hv : m.Valid) (hf : Formatted m) (hc : c.Given) :
    Formatted m' := by
  cases h with
  | getLogger name => exact getLogger_formatted hf name
  | setLevel level hl => exact setLogger_formatted hf hl rfl fun _ ha ↦ ha
  | @setFormatter l lg c val m' hl hcall hloop =>
      have hval : val ≠ none := by
        rcases hcall with rfl | ⟨p, rfl, rfl⟩
        · exact hc
        · simp
      have hfol := hv.followed hl hloop
      have hfollow : ∀ a ap, m'.appender a = some ap →
          (∀ ap', m.appender a = some ap' → ap'.formatter ≠ none) → ap.formatter ≠ none := by
        intro a ap hap hold
        rw [hfol.appender, setLogger_appender] at hap
        split at hap
        · obtain ⟨ap', hap', rfl⟩ := Option.map_eq_some_iff.mp hap
          unfold follow
          split
          · exact hold ap' hap'
          · exact hval
        · exact hold ap hap
      refine ⟨fun k lgk hk ↦ ?_, fun k lgk hk a ha ap hap ↦ hfollow a ap hap fun ap' hap' ↦ ?_⟩
      · rcases setLogger_replaced.cases (hfol.logger ▸ hk) with ⟨_, rfl⟩ | ⟨_, hk⟩
        · exact hval
        · exact hf.logger k lgk hk
      · rcases setLogger_replaced.cases (hfol.logger ▸ hk) with ⟨_, rfl⟩ | ⟨_, hk⟩
        · exact hf.appender l lg hl a ha ap' hap'
        · exact hf.appender k lgk hk a ha ap' hap'
  | rejected l hp => exact hf
  | @addAppender l lg a ap hl ha =>
      have hlast : ∀ {n : LoggerManager} {bp : LogAppender}, n.appender a = some bp →
          bp.formatter ≠ none → ∀ b ∈ lg.appenders ++ [a], b ∈ lg.appenders ∨
            ∀ ap, n.appender b = some ap → ap.formatter ≠ none := by
        intro n bp hbp hne b hb
        refine (List.mem_append.mp hb).imp_right fun hb ap hap ↦ ?_
        rw [List.mem_singleton.mp hb, hbp, Option.some.injEq] at hap
        exact hap ▸ hne
      by_cases hnone : ap.formatter = none
      · rw [if_pos hnone]
        have hlg : lg.formatter ≠ none := hf.logger l lg hl
        refine attach_formatted (setAppender_formatted hf ?_) hl rfl (hlast setAppender_self ?_)
        · exact hlg
        · exact hlg
      · rw [if_neg hnone]
        exact attach_formatted hf hl rfl (hlast ha hnone)
  | delNothing l => exact hf
  | delAppender a hl => exact setLogger_formatted hf hl rfl fun _ hb ↦ List.mem_of_mem_erase hb
  | clearAppender hl => exact setLogger_formatted hf hl rfl (by simp)
  | newAppender kind =>
      refine ⟨hf.logger, fun l lg hl b hb ap hap ↦ ?_⟩
      obtain ⟨ap', hap'⟩ := hv.attached l lg hl b hb
      rw [newAppender_ne (Nat.ne_of_lt (hv.appender_lt hap'))] at hap
      exact hf.appender l lg hl b hb ap hap
  | @appenderSetLevel a ap level ha =>
      refine ⟨hf.logger, fun l lg hl b hb bp hbp ↦ ?_⟩
      by_cases hba : b = a
      · subst hba
        rw [setAppender_self, Option.some.injEq] at hbp
        exact hbp ▸ hf.appender l lg hl b hb ap ha
      · rw [setAppender_ne hba] at hbp
        exact hf.appender l lg hl b hb bp hbp
  | appenderSetFormatter val ha => exact setAppender_formatted hf hc

end LoggerManager

end Sylar.Log
