import Sylar.Log.Calls

/-!
# Where an event goes

Names and loggers correspond to each other, and every logger falls back to the
root, which has no fallback itself: these facts about the manager's map and the
`m_root` pointers are kept by every call.  They determine the appenders that
receive an event.
-/

namespace Sylar.Log

open Foundation

namespace LoggerManager

variable {m m' : LoggerManager} {l k : LoggerPtr} {lg r : Logger} {a : AppenderPtr}
variable {c : Call} {cs : List Call} {level : Level} {event : LogEvent} {env : Env} {name : String}

/-! ## The abstract rule -/

/-- The list of appenders that a logger passes an event to. -/
def targets (level : Level) (lg root : Logger) : List AppenderPtr :=
  if lg.level ≤ level then
    if lg.appenders ≠ [] then lg.appenders
    else if root.level ≤ level then root.appenders else []
  else []

/-- An appender takes events of a level. -/
def Takes (m : LoggerManager) (level : Level) (a : AppenderPtr) : Prop :=
  ∃ ap, m.appender a = some ap ∧ ap.level ≤ level

instance (m : LoggerManager) (level : Level) (a : AppenderPtr) : Decidable (m.Takes level a) :=
  match h : m.appender a with
  | none => .isFalse (by simp [Takes, h])
  | some ap => decidable_of_iff (ap.level ≤ level) (by simp [Takes, h])

/-- An appender writes an event, for which it needs a formatter. -/
def deliver (m : LoggerManager) (env : Env) (level : Level) (event : LogEvent)
    (a : AppenderPtr) : Except Fault (AppenderPtr × String) :=
  match (m.appender a).bind LogAppender.formatter with
  | none => .error .nullFormatter
  | some f => .ok (a, f.format env.strftime level event)

/-! ## Names and fallbacks -/

/-- The map and the fallbacks of a manager. -/
structure Routed (m : LoggerManager) : Prop extends m.Valid where
  names : ∀ e ∈ m.loggers, ∀ e' ∈ m.loggers, e.2 = e'.2 → e = e'
  named : ∀ e ∈ m.loggers, ∀ lg, m.logger e.2 = some lg → lg.name = e.1
  rootName : ("root", m.root) ∈ m.loggers
  fallback : ∀ l lg, m.logger l = some lg → l ≠ m.root → lg.root = some m.root

theorem new_routed : Routed .new := by
  refine ⟨new_valid, new_separate.names, fun e he lg hlg ↦ ?_, ?_, fun l lg hl hne ↦ ?_⟩
  · rcases Keyed.mem_place he with rfl | he
    · cases hlg
      rfl
    · cases he
  · simp [LoggerManager.new, Keyed.mem_def, Keyed.insert, Keyed.place]
  · have hzero : l ≠ 0 := hne
    simp [LoggerManager.new, hzero] at hl

theorem Steady.routed (h : m.Steady m') (hv : m'.Valid) (hr : m.Routed) : m'.Routed := by
  refine ⟨hv, h.loggers ▸ hr.names, fun e he lg hlg ↦ ?_, ?_, fun l lg hl hne ↦ ?_⟩
  · obtain ⟨lg₀, hlg₀, hname, -⟩ := h.logger hlg
    rw [← hname]
    exact hr.named e (h.loggers ▸ he) lg₀ hlg₀
  · rw [h.loggers, h.root]
    exact hr.rootName
  · obtain ⟨lg', hlg', -, hroot⟩ := h.logger hl
    rw [← hroot, h.root]
    exact hr.fallback l lg' hlg' (h.root ▸ hne)

theorem getLogger_root (name : String) : (m.getLogger name).2.root = m.root := by
  unfold LoggerManager.getLogger
  split <;> rfl

/-- `getLogger` finds the logger of the name, or inserts a new one. -/
theorem getLogger_cases (name : String) :
    (∃ p, m.loggers.find? name = some (name, p) ∧ m.getLogger name = (p, m)) ∨
    (m.loggers.find? name = none ∧ (m.getLogger name).1 = m.nextLogger ∧
      (m.getLogger name).2.loggers = m.loggers.insert (name, m.nextLogger)) := by
  cases hf : m.loggers.find? name with
  | some e =>
      have hname : e.1 = name := (Keyed.find?_eq_some.mp hf).2
      refine .inl ⟨e.2, by rw [← hname], by simp [LoggerManager.getLogger, hf]⟩
  | none => exact .inr ⟨rfl, by simp [LoggerManager.getLogger, hf],
      by simp [LoggerManager.getLogger, hf]; rfl⟩

/-- A logger that exists is left as it is. -/
theorem getLogger_kept (hv : m.Valid) (hl : m.logger l = some lg) :
    (m.getLogger name).2.logger l = some lg := by
  unfold LoggerManager.getLogger
  split
  · exact hl
  · simp [LoggerManager.newLogger, hv.ne_nextLogger hl, hl]

theorem getLogger_routed (hr : m.Routed) (name : String) : (m.getLogger name).2.Routed := by
  have hv := (getLogger_valid hr.toValid name).1
  rcases getLogger_cases (m := m) name with ⟨p, hf, hget⟩ | ⟨hf, hptr, hloggers⟩
  · rw [hget]
    exact hr
  · have hold : ∀ e ∈ m.loggers, e.2 ≠ m.nextLogger := by
      intro e he
      obtain ⟨lg, hlg⟩ := hr.live e he
      exact hr.ne_nextLogger hlg
    refine ⟨hv, fun e he e' he' heq ↦ ?_, fun e he lg hlg ↦ ?_, ?_, fun l lg hl hne ↦ ?_⟩
    · rw [hloggers] at he he'
      rcases Keyed.mem_place he with rfl | he <;> rcases Keyed.mem_place he' with rfl | he'
      · rfl
      · exact absurd heq.symm (hold e' he')
      · exact absurd heq (hold e he)
      · exact hr.names e he e' he' heq
    · rw [hloggers] at he
      rcases Keyed.mem_place he with rfl | he
      · rcases getLogger_logger hlg with hlg | rfl
        · exact absurd rfl (hr.ne_nextLogger hlg)
        · rfl
      · obtain ⟨lg₀, hlg₀⟩ := hr.live e he
        rw [getLogger_kept hr.toValid hlg₀, Option.some.injEq] at hlg
        exact hlg ▸ hr.named e he lg₀ hlg₀
    · rw [getLogger_root]
      have hroot := Keyed.find?_eq_some.mpr ⟨hr.rootName, rfl⟩
      have hfind : (m.getLogger name).2.loggers.find? "root" = some ("root", m.root) := by
        rw [hloggers, Keyed.find?_insert, hroot]
        rfl
      exact (Keyed.find?_eq_some.mp hfind).1
    · rw [getLogger_root] at hne ⊢
      rcases getLogger_logger hl with hl | rfl
      · exact hr.fallback l lg hl hne
      · rfl

/-- The logger is found under its name from then on. -/
theorem getLogger_found (name : String) :
    (m.getLogger name).2.loggers.find? name = some (name, (m.getLogger name).1) := by
  rcases getLogger_cases (m := m) name with ⟨p, hf, hget⟩ | ⟨hf, hptr, hloggers⟩
  · rw [hget]
    exact hf
  · rw [hloggers, Keyed.find?_insert, hf, hptr]
    simp

/-- And the others under theirs. -/
theorem getLogger_find? {x : String} {e : String × LoggerPtr} (name : String)
    (he : m.loggers.find? x = some e) : (m.getLogger name).2.loggers.find? x = some e := by
  rcases getLogger_cases (m := m) name with ⟨p, -, hget⟩ | ⟨-, -, hloggers⟩
  · rw [hget]
    exact he
  · rw [hloggers, Keyed.find?_insert, he]
    rfl

theorem Performs.routed (hr : m.Routed) (h : m.Performs c m') : m'.Routed := by
  obtain ⟨hv, ⟨name, rfl⟩ | hsteady⟩ := h.effect.steady hr.toValid
  · exact getLogger_routed hr name
  · exact hsteady.routed hv hr

/-- A name keeps its logger. -/
theorem Performs.find? (h : m.Performs c m') (hr : m.Routed) {e : String × LoggerPtr}
    (he : m.loggers.find? name = some e) : m'.loggers.find? name = some e := by
  obtain ⟨-, ⟨n, rfl⟩ | hsteady⟩ := h.effect.steady hr.toValid
  · exact getLogger_find? n he
  · rw [hsteady.loggers]
    exact he

theorem Run.routed (h : Run Performs m cs m') (hr : m.Routed) : m'.Routed :=
  h.invariant (fun _ _ _ hr h ↦ h.routed hr) hr

/-- Formatters stay where no null one is passed in. -/
theorem Run.formatted (h : Run Performs .new cs m) (hc : ∀ c ∈ cs, c.Given) : Formatted m := by
  suffices hrun : ∀ {m m' : LoggerManager} {cs : List Call}, Run Performs m cs m' →
      (∀ c ∈ cs, c.Given) → m.Valid → Formatted m → Formatted m' from
    hrun h hc new_valid formatted_new
  intro m m' cs h
  induction h with
  | nil m => exact fun _ _ hf ↦ hf
  | cons hstep _ ih =>
      exact fun hc hv hf ↦ ih (fun c hmem ↦ hc c (by simp [hmem]))
        (hstep.effect.steady hv).1 (hstep.effect.formatted hv hf (hc _ (by simp)))

/-- The logger a name has been given is the one it is given later, and no other
name is given that one. -/
theorem getLogger_eq_iff (hr : m.Routed) (h : Run Performs (m.getLogger name).2 cs m')
    (n : String) : (m.getLogger name).1 = (m'.getLogger n).1 ↔ name = n := by
  have hr₁ := getLogger_routed hr name
  have hfind' : m'.loggers.find? name = some (name, (m.getLogger name).1) :=
    h.invariant_given (J := Routed)
      (I := fun m₁ ↦ m₁.loggers.find? name = some (name, (m.getLogger name).1))
      (fun _ _ _ hr h ↦ h.routed hr) (fun _ _ _ hr he h ↦ h.find? hr he) hr₁ (getLogger_found name)
  have hr' := Run.routed h hr₁
  obtain ⟨hmem, -⟩ := Keyed.find?_eq_some.mp hfind'
  rcases getLogger_cases (m := m') n with ⟨p, hf, hget⟩ | ⟨hf, hptr, -⟩
  · rw [hget]
    constructor
    · intro hp
      have := hr'.names _ hmem _ (Keyed.find?_eq_some.mp hf).1 hp
      exact congrArg Prod.fst this
    · rintro rfl
      rw [hfind'] at hf
      simpa using hf
  · rw [hptr]
    constructor
    · intro hp
      obtain ⟨lg, hlg⟩ := hr'.live _ hmem
      exact absurd hp (hr'.ne_nextLogger hlg)
    · rintro rfl
      rw [hfind'] at hf
      cases hf

/-! ## The calls of an event -/

/-- One appender is asked to log an event. -/
theorem appenderLog_eq {ap : LogAppender} (ha : m.appender a = some ap) :
    m.appenderLog env a level event =
      if m.Takes level a then do
        let o ← m.deliver env level event a
        .ok [o]
      else .ok [] := by
  have htakes : m.Takes level a ↔ ap.level ≤ level := by simp [Takes, ha]
  rw [appenderLog, derefAppender_some ha, Except.ok_bind]
  by_cases hle : ap.level ≤ level
  · rw [if_pos (htakes.mpr hle)]
    cases hf : ap.formatter <;> simp [deliver, ha, hf, hle]
  · rw [if_neg (mt htakes.mp hle)]
    simp [hle]

/-- The loop over the appenders is a delivery to those that take the event. -/
theorem log_loop {as : List AppenderPtr} (has : ∀ a ∈ as, ∃ ap, m.appender a = some ap)
    (out : List (AppenderPtr × String)) :
    as.foldlM (fun out a ↦ do
      let o ← m.appenderLog env a level event
      .ok (out ++ o)) out =
    (do
      let lines ← (as.filter fun a ↦ m.Takes level a).mapM (m.deliver env level event)
      .ok (out ++ lines)) := by
  induction as generalizing out with
  | nil => simp
  | cons a as ih =>
      obtain ⟨ap, ha⟩ := has a (by simp)
      have ih := ih fun b hb ↦ has b (by simp [hb])
      rw [List.foldlM_cons, appenderLog_eq ha]
      by_cases ht : m.Takes level a
      · rw [if_pos ht, List.filter_cons_of_pos (by simpa using ht), List.mapM_cons]
        cases hd : m.deliver env level event a with
        | error e => rfl
        | ok o =>
            simp only [Except.ok_bind, ih]
            cases hrest : (as.filter fun a ↦ m.Takes level a).mapM (m.deliver env level event) with
            | error e => rfl
            | ok lines => simp
      · rw [if_neg ht, List.filter_cons_of_neg (by simpa using ht)]
        simpa using ih out

theorem logFrom_eq (hl : m.logger l = some lg) (depth : Nat) :
    m.logFrom env level event (depth + 1) l =
      if lg.level ≤ level then
        if lg.appenders ≠ [] then
          lg.appenders.foldlM (fun out a ↦ do
            let o ← m.appenderLog env a level event
            .ok (out ++ o)) []
        else
          match lg.root with
          | none => .ok []
          | some r => m.logFrom env level event depth r
      else .ok [] := by
  rw [logFrom, derefLogger_some hl]
  rfl

/-- A logger with a depth to spare delivers to its own appenders, if it has any. -/
theorem logFrom_own (hr : m.Routed) (hl : m.logger l = some lg) (hle : lg.level ≤ level)
    (happ : lg.appenders ≠ []) (depth : Nat) :
    m.logFrom env level event (depth + 1) l =
      (lg.appenders.filter fun a ↦ m.Takes level a).mapM (m.deliver env level event) := by
  rw [logFrom_eq hl, if_pos hle, if_pos happ, log_loop (hr.attached l lg hl)]
  cases hd : (lg.appenders.filter fun a ↦ m.Takes level a).mapM (m.deliver env level event) with
  | error e => rfl
  | ok lines => simp

/-- The root does not pass an event on. -/
theorem logFrom_root (hr : m.Routed) (hroot : m.logger m.root = some r) (depth : Nat) :
    m.logFrom env level event (depth + 1) m.root =
      ((if r.level ≤ level then r.appenders else []).filter fun a ↦ m.Takes level a).mapM
        (m.deliver env level event) := by
  by_cases hle : r.level ≤ level
  · rw [if_pos hle]
    by_cases happ : r.appenders = []
    · obtain ⟨r', hr', hnone⟩ := hr.root
      obtain rfl : r = r' := Option.some.inj (hroot.symm.trans hr')
      simp [logFrom_eq hroot, hle, happ, hnone]
    · exact logFrom_own hr hroot hle happ depth
  · simp [logFrom_eq hroot, hle]

/-- Logging is a delivery to the targets that take the event. -/
theorem log_eq (hr : m.Routed) (hroot : m.logger m.root = some r) (hl : m.logger l = some lg) :
    m.log env l level event = ((targets level lg r).filter fun a ↦ m.Takes level a).mapM
      (m.deliver env level event) := by
  have hlt : 0 < m.nextLogger := by
    refine Nat.pos_of_ne_zero fun hzero ↦ ?_
    rw [hr.freshLogger l (by rw [hzero]; exact Nat.zero_le l)] at hl
    cases hl
  obtain ⟨n, hn⟩ := Nat.exists_eq_add_of_lt hlt
  rw [log, targets]
  by_cases hle : lg.level ≤ level
  · rw [if_pos hle]
    by_cases happ : lg.appenders = []
    · rw [if_neg (not_not.mpr happ)]
      by_cases hlr : l = m.root
      · subst hlr
        exact logFrom_root hr hroot _
      · have hfall := hr.fallback l lg hl hlr
        rw [logFrom_eq hl, if_pos hle, if_neg (not_not.mpr happ), hfall, hn]
        exact logFrom_root hr hroot _
    · rw [if_pos happ]
      exact logFrom_own hr hl hle happ _
  · rw [if_neg hle, logFrom_eq hl, if_neg hle]
    rfl

/-- Where no formatter is null every delivery succeeds. -/
theorem deliver_all (env : Env) (level : Level) (event : LogEvent) {as : List AppenderPtr}
    (has : ∀ a ∈ as, ∃ ap, m.appender a = some ap ∧ ap.formatter ≠ none) :
    ∃ lines, as.mapM (m.deliver env level event) = .ok lines ∧ lines.map Prod.fst = as := by
  induction as with
  | nil => exact ⟨[], rfl, rfl⟩
  | cons a as ih =>
      obtain ⟨ap, ha, hne⟩ := has a (by simp)
      obtain ⟨f, hf⟩ := Option.ne_none_iff_exists'.mp hne
      obtain ⟨lines, hlines, hfst⟩ := ih fun b hb ↦ has b (by simp [hb])
      have hd : m.deliver env level event a = .ok (a, f.format env.strftime level event) := by
        simp [deliver, ha, hf]
      exact ⟨_, by rw [List.mapM_cons, hd, Except.ok_bind, hlines, Except.ok_bind]; rfl,
        by simp [hfst]⟩

/-- The targets are attached to the logger or to the root. -/
theorem mem_targets (ha : a ∈ targets level lg r) : a ∈ lg.appenders ∨ a ∈ r.appenders := by
  unfold targets at ha
  split at ha
  · split at ha
    · exact .inl ha
    · split at ha
      · exact .inr ha
      · cases ha
  · cases ha

/-- **Routing is exact.**  After any calls, from a new manager: a logger is
fetched under one name only, then and ever after; the root is fetched as "root"
and has no fallback, and it is the fallback of every other logger.  Logging an
event is its delivery, once and in order, to the targets that take it, and
succeeds if no null formatter has been passed in. -/
theorem log_routes (h : Run Performs .new cs m) :
    (∀ name cs' m' n, Run Performs (m.getLogger name).2 cs' m' →
      ((m.getLogger name).1 = (m'.getLogger n).1 ↔ name = n)) ∧
    (m.getLogger "root").1 = m.root ∧
    ∃ r, m.logger m.root = some r ∧ r.root = none ∧
      (∀ l lg, m.logger l = some lg → l ≠ m.root → lg.root = some m.root) ∧
      ∀ env l lg level event, m.logger l = some lg →
        m.log env l level event = ((targets level lg r).filter fun a ↦ m.Takes level a).mapM
          (m.deliver env level event) ∧
        ((∀ c ∈ cs, c.Given) → ∃ lines, m.log env l level event = .ok lines ∧
          lines.map Prod.fst = (targets level lg r).filter fun a ↦ m.Takes level a) := by
  have hr := Run.routed h new_routed
  obtain ⟨r, hroot, hnone⟩ := hr.root
  refine ⟨fun name cs' m' n h' ↦ getLogger_eq_iff hr h' n, ?_, r, hroot, hnone, hr.fallback,
    fun env l lg level event hl ↦ ⟨log_eq hr hroot hl, fun hgiven ↦ ?_⟩⟩
  · simp [LoggerManager.getLogger, Keyed.find?_eq_some.mpr ⟨hr.rootName, rfl⟩]
  · have hf := Run.formatted h hgiven
    have hall : ∀ a ∈ (targets level lg r).filter fun a ↦ m.Takes level a,
        ∃ ap, m.appender a = some ap ∧ ap.formatter ≠ none := by
      intro a ha
      obtain ⟨hmem, -⟩ := List.mem_filter.mp ha
      rcases mem_targets hmem with hmem | hmem
      · obtain ⟨ap, hap⟩ := hr.attached l lg hl a hmem
        exact ⟨ap, hap, hf.appender l lg hl a hmem ap hap⟩
      · obtain ⟨ap, hap⟩ := hr.attached m.root r hroot a hmem
        exact ⟨ap, hap, hf.appender m.root r hroot a hmem ap hap⟩
    obtain ⟨lines, hlines, hfst⟩ := deliver_all env level event hall
    exact ⟨lines, (log_eq hr hroot hl).trans hlines, hfst⟩

/-- A logger without appenders, which takes warnings. -/
theorem log_routes_fallback :
    ∃ m lines, Run Performs .new [.getLogger "system", .setLevel 1 .WARN] m ∧
      m.log .plain 1 .ERROR
        { file := "main.cc", line := 1, elapse := 0, threadID := 1, fiberID := 0, time := 0,
          content := "started", loggerName := "system", level := .ERROR, threadName := "main" } =
        .ok lines ∧ lines.map Prod.fst = [0] := by
  have h : Run Performs .new [.getLogger "system", .setLevel 1 .WARN]
      ((LoggerManager.new.getLogger "system").2.setLogger 1
        { Logger.new "system" with root := some 0, level := .WARN }) :=
    .cons rfl (.cons rfl (.nil _))
  obtain ⟨-, -, r, hroot, -, -, hlog⟩ := log_routes h
  obtain rfl : { Logger.new "root" with appenders := [0] } = r := Option.some.inj hroot
  obtain ⟨lines, hlines, hfst⟩ := (hlog .plain 1 _ .ERROR _ rfl).2 (by simp [Call.Given])
  exact ⟨_, lines, h, hlines, hfst.trans rfl⟩

end LoggerManager

end Sylar.Log
