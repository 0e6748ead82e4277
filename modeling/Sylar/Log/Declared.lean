import Sylar.Log.Frame
import Sylar.Log.Installed

/-!
# What a configuration declares

For the one who writes a configuration the loggers are names.  Each name has a level, a
pattern and sinks; an event goes to the sinks of its logger, or to those of the root if
the logger has none.  `Declarations` is this picture, and `load` is what a configuration
changes in it.

The manager has objects and pointers instead, which its listener rewrites one call at a
time.  `declared` is the refinement: after any configurations, and whatever loggers have
been fetched in between, every logger writes the lines that are declared for its name.
-/

namespace Sylar.Log

open Foundation

/-! ## Declarations -/

/-- Where lines go, from which level on, and what they look like. -/
structure Sink where
  kind : AppenderKind
  level : Level
  pattern : String
deriving DecidableEq, Repr

/-- What is declared of a logger. -/
structure Declared where
  level : Level
  pattern : String
  sinks : List Sink
deriving DecidableEq, Repr

/-- A pattern replaces another if it can be read. -/
def patternElse (p old : String) : String := if Accepted p then p else old

/-- A logger that nothing has been declared of. -/
def Declared.new : Declared := ⟨.DEBUG, defaultPattern, []⟩

theorem fatal_lt_removed : 5 < 100 := by decide

/-- A logger whose entry has been removed, with a level beyond all others. -/
def Declared.removed (pattern : String) : Declared := ⟨.other 100 fatal_lt_removed, pattern, []⟩

/-- What an appender's entry declares in a logger with a pattern. -/
def LogAppenderDefine.sink (a : LogAppenderDefine) (pattern : String) : Sink :=
  ⟨a.kind, a.level, patternElse a.formatter pattern⟩

/-- What an entry declares of a logger with a pattern. -/
def LogDefine.declared (i : LogDefine) (pattern : String) : Declared :=
  ⟨i.level, patternElse i.formatter pattern,
    i.appenders.map fun a ↦ a.sink (patternElse i.formatter pattern)⟩

/-- What is declared of all loggers. -/
abbrev Declarations := String → Declared

namespace Declarations

/-- Before any configuration the root writes to the console. -/
def initial : Declarations := fun name ↦
  if name = "root" then
    { Declared.new with sinks := [⟨.StdoutLogAppender, .DEBUG, defaultPattern⟩] }
  else .new

/-- The configuration `old` is replaced by `new`. -/
def load (d : Declarations) (old new : LogDefines) : Declarations := fun name ↦
  match new.find? name with
  | some i => i.declared (d name).pattern
  | none => if (old.find? name).isSome then .removed (d name).pattern else d name

/-- The sinks an event of a level goes to. -/
def route (d : Declarations) (name : String) (level : Level) : List Sink :=
  let sinks :=
    if (d name).sinks ≠ [] then (d name).sinks
    else if (d "root").level ≤ level then (d "root").sinks else []
  if (d name).level ≤ level then sinks.filter fun k ↦ k.level ≤ level else []

end Declarations

/-- The event of a macro. -/
def Env.event (env : Env) (name : String) (level : Level) (content : String) : LogEvent :=
  { file := env.file, line := env.line, elapse := 0, threadID := env.threadID,
    fiberID := env.fiberID, time := env.time, content, loggerName := name, level,
    threadName := env.threadName }

/-- The line of a sink, and where it goes. -/
def Sink.line (k : Sink) (env : Env) (level : Level) (event : LogEvent) :
    AppenderKind × String :=
  (k.kind, (LogFormatter.new k.pattern).format env.strftime level event)

/-! ## The manager shows what is declared -/

def Sink.view (k : Sink) : AppenderView := ⟨k.kind, k.level, some k.pattern⟩

def Declared.view (d : Declared) : LoggerView :=
  ⟨d.level, some d.pattern, d.sinks.map fun k ↦ some k.view⟩

/-- The loggers of a manager are what is declared of them, and those that have not been
fetched yet are declared as new. -/
structure Shows (m : LoggerManager) (d : Declarations) : Prop where
  separate : m.Separate
  routed : m.Routed
  parsed : FormattedBy LogFormatter.Parsed m
  views : ∀ name, m.view name = some (d name).view ∨
    m.view name = none ∧ d name = .new

variable {m m' : LoggerManager} {d : Declarations} {l : LoggerPtr} {lg : Logger} {i : LogDefine}
variable {old new : LogDefines} {name : String} {env : Env} {level : Level} {event : LogEvent}

theorem patternOr_some (p q : String) : patternOr p (some q) = some (patternElse p q) := by
  unfold patternOr patternElse
  split <;> rfl

/-- An entry's view is what it declares. -/
theorem LogDefine.declared_view (i : LogDefine) (p : String) :
    (i.declared p).view = i.view (some p) := by
  simp only [Declared.view, LogDefine.view, LogDefine.declared, patternOr_some, List.map_map]
  rfl

/-- Loggers that have not been fetched have no view. -/
theorem view_eq_none (hv : m.Valid) : m.view name = none ↔ m.loggers.find? name = none := by
  rw [LoggerManager.view, Option.map_eq_none_iff, Option.bind_eq_none_iff]
  constructor
  · intro h
    cases hf : m.loggers.find? name with
    | none => rfl
    | some e =>
        obtain ⟨lg, hlg⟩ := hv.live e (Keyed.find?_eq_some.mp hf).1
        rw [h e hf] at hlg
        cases hlg
  · intro h e he
    rw [h] at he
    cases he

theorem Shows.pattern (h : Shows m d) (name : String) :
    patternOf (m.view name) = some (d name).pattern := by
  rcases h.views name with hv | ⟨hnone, hd⟩
  · rw [hv]
    rfl
  · rw [hnone, hd]
    rfl

/-- Before any configuration. -/
theorem shows_new : Shows .new .initial where
  separate := LoggerManager.new_separate
  routed := LoggerManager.new_routed
  parsed := formattedBy_new parsed_new
  views name := by
    by_cases hname : name = "root"
    · subst hname
      exact .inl rfl
    · have hnone : LoggerManager.new.loggers.find? name = none := by
        simp [LoggerManager.new, Keyed.find?_insert, Ne.symm hname]
      exact .inr ⟨(view_eq_none LoggerManager.new_valid).mpr hnone, if_neg hname⟩

/-- Fetching a logger changes nothing that is declared. -/
theorem Shows.getLogger (h : Shows m d) (name : String) :
    Shows (m.getLogger name).2 d ∧ (m.getLogger name).2.view name = some (d name).view := by
  obtain ⟨hs, hfound, -, hothers⟩ := getLogger_view h.separate name
  have hself : (m.getLogger name).2.view name = some (d name).view := by
    rcases h.views name with hv | ⟨hnone, hd⟩
    · rcases LoggerManager.getLogger_cases (m := m) name with ⟨p, -, hget⟩ | ⟨hnone, -⟩
      · rw [hget]
        exact hv
      · rw [(view_eq_none h.separate.toValid).mpr hnone] at hv
        cases hv
    · -- a new logger has the default format and no appenders
      have hnone := (view_eq_none h.separate.toValid).mp hnone
      rw [LoggerManager.view, hfound, hd]
      simp [LoggerManager.getLogger, hnone, LoggerManager.newLogger, LoggerManager.viewOf,
        Logger.new, Declared.new, Declared.view]
  refine ⟨⟨hs, LoggerManager.getLogger_routed h.routed name,
    getLogger_formattedBy parsed_new h.parsed name, fun x ↦ ?_⟩, hself⟩
  by_cases hx : x = name
  · subst hx
    exact .inl hself
  · rw [hothers x hx]
    exact h.views x

/-! ## The listener -/

/-- A logger whose entry is gone keeps its pattern only. -/
theorem removeDefine_removed (hs : m.Separate) (hf : new.find? i.name = none)
    (h : removeDefine new m i = .ok m') :
    m'.view i.name =
      some ⟨.other 100 (by decide), patternOf (m.view i.name), []⟩ := by
  obtain ⟨-, hfind, ⟨lg, hlg, hpat⟩, -⟩ := getLogger_view hs i.name
  rw [removeDefine_eq hf hlg, Except.ok.injEq] at h
  subst h
  rw [LoggerManager.view, LoggerManager.setLogger_loggers, hfind, Option.bind_some,
    LoggerManager.setLogger_self, ← hpat]
  rfl

theorem removeDefine_loop_removed {is : List LogDefine} (hs : m.Separate)
    (hsorted : is.Pairwise fun i j ↦ i.name < j.name)
    (h : is.foldlM (removeDefine new) m = .ok m') (hi : i ∈ is) (hf : new.find? i.name = none) :
    m'.view i.name =
      some ⟨.other 100 (by decide), patternOf (m.view i.name), []⟩ := by
  induction is generalizing m with
  | nil => cases hi
  | cons j is ih =>
      rw [List.foldlM_cons, Except.bind_ok_iff] at h
      obtain ⟨m₁, h₁, h⟩ := h
      obtain ⟨hs₁, hothers⟩ := removeDefine_view hs h₁
      obtain ⟨hlt, hsorted⟩ := List.pairwise_cons.mp hsorted
      rcases List.mem_cons.mp hi with rfl | hi
      · rw [(removeDefine_loop hs₁ h).2 i.name (.inl fun k hk ↦ (hlt k hk).ne')]
        exact removeDefine_removed hs hf h₁
      · rw [ih hs₁ hsorted h hi, hothers i.name (.inl (hlt i hi).ne')]

theorem onChange_removed (hs : m.Separate) (h : onChange env old new m = .ok m')
    (hi : i ∈ old) (hf : new.find? i.name = none) :
    m'.view i.name =
      some ⟨.other 100 (by decide), patternOf (m.view i.name), []⟩ := by
  obtain ⟨_, m₁, h₁, h₂⟩ := onChange_ok h
  obtain ⟨hs₁, -, hothers⟩ := applyDefine_loop hs new.sorted h₁
  rw [removeDefine_loop_removed hs₁ old.sorted h₂ hi hf,
    hothers i.name (Keyed.find?_eq_none.mp hf)]

/-- The listener does what the configuration declares. -/
theorem Shows.onChange (h : Shows m d) (hc : onChange env old new m = .ok m') :
    Shows m' (d.load old new) := by
  obtain ⟨hs', hviews, hothers⟩ := onChange_view h.separate hc
  refine ⟨hs', (LoggerManager.onChange_confined h.routed hc).1,
    (onChange_formattedBy parsed_new h.separate h.parsed hc).2, fun name ↦ ?_⟩
  unfold Declarations.load
  cases hnew : new.find? name with
  | some i =>
      obtain ⟨hi, rfl⟩ := Keyed.find?_eq_some.mp hnew
      refine .inl ?_
      rw [hviews i hi, h.pattern, i.declared_view]
  | none =>
      cases hold : old.find? name with
      | some i =>
          obtain ⟨hi, rfl⟩ := Keyed.find?_eq_some.mp hold
          refine .inl ?_
          rw [onChange_removed h.separate hc hi hnew, h.pattern]
          rfl
      | none =>
          show m'.view name = some (d name).view ∨ _ ∧ d name = .new
          rw [hothers name (Keyed.find?_eq_none.mp hnew) (Keyed.find?_eq_none.mp hold)]
          exact h.views name

/-! ## The lines -/

/-- The appenders of a logger deliver what its sinks declare. -/
theorem deliver_sinks (hparsed : FormattedBy LogFormatter.Parsed m) (hl : m.logger l = some lg)
    {as : List AppenderPtr} (has : ∀ a ∈ as, a ∈ lg.appenders) {ks : List Sink}
    (hview : as.map (fun a ↦ (m.appender a).map LogAppender.view) = ks.map fun k ↦ some k.view) :
    ∃ lines, (as.filter fun a ↦ m.Takes level a).mapM (m.deliver env level event) = .ok lines ∧
      lines.map (fun o ↦ ((m.appender o.1).map LogAppender.kind, o.2)) =
        (ks.filter fun k ↦ k.level ≤ level).map fun k ↦
          ((some (k.line env level event).1, (k.line env level event).2)) := by
  induction as generalizing ks with
  | nil =>
      cases ks with
      | nil => exact ⟨[], rfl, rfl⟩
      | cons k ks => cases hview
  | cons a as ih =>
      cases ks with
      | nil => cases hview
      | cons k ks =>
          rw [List.map_cons, List.map_cons, List.cons.injEq] at hview
          obtain ⟨hk, hks⟩ := hview
          obtain ⟨lines, hlines, hmap⟩ := ih (fun b hb ↦ has b (List.mem_cons_of_mem a hb)) hks
          obtain ⟨ap, hap, hv⟩ := Option.map_eq_some_iff.mp hk
          obtain ⟨f, hf, hnew, -⟩ := hparsed.appender l lg hl a (has a List.mem_cons_self) ap hap
          have hlevel : ap.level = k.level := congrArg AppenderView.level hv
          have hpattern : f.pattern = k.pattern := by
            have := congrArg AppenderView.pattern hv
            rw [LogAppender.view, hf] at this
            exact Option.some.inj this
          have htakes : m.Takes level a ↔ k.level ≤ level := by
            simp [LoggerManager.Takes, hap, hlevel]
          by_cases ht : m.Takes level a
          · have hd : m.deliver env level event a =
                .ok (a, (LogFormatter.new k.pattern).format env.strftime level event) := by
              simp [LoggerManager.deliver, hap, hf, ← hpattern, ← hnew]
            rw [List.filter_cons_of_pos (by simpa using ht), List.mapM_cons, hd, Except.ok_bind,
              hlines, Except.ok_bind, List.filter_cons_of_pos (by simpa using htakes.mp ht)]
            refine ⟨_, rfl, ?_⟩
            rw [List.map_cons, List.map_cons, hmap, hap]
            exact congrArg (· :: _) (Prod.ext (congrArg some (congrArg AppenderView.kind hv)) rfl)
          · rw [List.filter_cons_of_neg (by simpa using ht),
              List.filter_cons_of_neg (by simpa using mt htakes.mpr ht)]
            exact ⟨lines, hlines, hmap⟩

/-- The lines of some sinks, and where they go. -/
def linesOf (env : Env) (level : Level) (event : LogEvent) (ks : List Sink) :
    List (Option AppenderKind × String) :=
  ks.map fun k ↦ (some (k.line env level event).1, (k.line env level event).2)

/-- Where the manager has written lines. -/
def LoggerManager.written (m : LoggerManager) (lines : List (AppenderPtr × String)) :
    List (Option AppenderKind × String) :=
  lines.map fun o ↦ ((m.appender o.1).map LogAppender.kind, o.2)

/-- What is declared of a logger that exists is what it does. -/
theorem Shows.logger (h : Shows m d) (hf : m.loggers.find? name = some (name, l))
    (hl : m.logger l = some lg) : lg.level = (d name).level ∧
      lg.appenders.map (fun a ↦ (m.appender a).map LogAppender.view) =
        (d name).sinks.map fun k ↦ some k.view := by
  have hview : m.view name = some (m.viewOf lg) := by
    rw [LoggerManager.view, hf, Option.bind_some, hl]
    rfl
  rcases h.views name with hv | ⟨hnone, -⟩
  · rw [hview, Option.some_inj] at hv
    exact ⟨congrArg LoggerView.level hv, congrArg LoggerView.appenders hv⟩
  · rw [hview] at hnone
    cases hnone

/-- **Refinement.**  An event of a logger goes where the declarations send it. -/
theorem Shows.log (h : Shows m d) (hf : m.loggers.find? name = some (name, l))
    (hl : m.logger l = some lg) (env : Env) (level : Level) (event : LogEvent) :
    ∃ lines, m.log env l level event = .ok lines ∧
      m.written lines = linesOf env level event (d.route name level) := by
  obtain ⟨r, hroot, -⟩ := h.routed.root
  have hfr : m.loggers.find? "root" = some ("root", m.root) :=
    Keyed.find?_eq_some.mpr ⟨h.routed.rootName, rfl⟩
  obtain ⟨hlevel, happ⟩ := h.logger hf hl
  obtain ⟨hrlevel, hrapp⟩ := h.logger hfr hroot
  have hempty : lg.appenders = [] ↔ (d name).sinks = [] := by
    rw [← List.map_eq_nil_iff, happ, List.map_eq_nil_iff]
  rw [LoggerManager.log_eq h.routed hroot hl, LoggerManager.targets, Declarations.route, hlevel,
    hrlevel]
  by_cases hle : (d name).level ≤ level
  · rw [if_pos hle, if_pos hle]
    by_cases hnil : lg.appenders = []
    · rw [if_neg (not_not.mpr hnil), if_neg (not_not.mpr (hempty.mp hnil))]
      by_cases hrle : (d "root").level ≤ level
      · rw [if_pos hrle, if_pos hrle]
        exact deliver_sinks h.parsed hroot (fun _ ↦ id) hrapp
      · rw [if_neg hrle, if_neg hrle]
        exact ⟨[], rfl, rfl⟩
    · rw [if_pos hnil, if_pos (mt hempty.mpr hnil)]
      exact deliver_sinks h.parsed hl (fun _ ↦ id) happ
  · rw [if_neg hle, if_neg hle]
    exact ⟨[], rfl, rfl⟩

/-- The macros write what is declared as well. -/
theorem Shows.macro_lines (h : Shows m d) (hf : m.loggers.find? name = some (name, l))
    (env : Env) (level : Level) (content : String) :
    ∃ lines, m.SYLAR_LOG_LEVEL env l level content = .ok lines ∧
      m.written lines =
        linesOf env level (env.event name level content) (d.route name level) := by
  obtain ⟨he, -⟩ := Keyed.find?_eq_some.mp hf
  obtain ⟨lg, hl⟩ := h.separate.live _ he
  have hname : lg.name = name := h.routed.named _ he lg hl
  obtain ⟨hlevel, -⟩ := h.logger hf hl
  rw [LoggerManager.SYLAR_LOG_LEVEL, LoggerManager.derefLogger_some hl, Except.ok_bind]
  by_cases hle : lg.level ≤ level
  · have hlog := h.log hf hl env level (env.event name level content)
    rw [← hname] at hlog ⊢
    simp only [if_pos hle]
    exact hlog
  · have hroute : d.route name level = [] := by
      rw [Declarations.route, if_neg (hlevel ▸ hle)]
    simp only [if_neg hle, hroute]
    exact ⟨[], rfl, rfl⟩

/-! ## Runs -/

/-- What happens to the manager: the program fetches a logger, or a configuration is
loaded. -/
inductive Use
  | getLogger (name : String)
  | load (env : Env) (new : LogDefines)

/-- The configuration that is in force, and the manager. -/
def Used (s : LogDefines × LoggerManager) : Use → LogDefines × LoggerManager → Prop
  | .getLogger name, t => t = (s.1, (s.2.getLogger name).2)
  | .load env new, t => Configures s (env, new) t

/-- What is declared after some configurations. -/
def declarations (tr : List Use) : LogDefines × Declarations :=
  tr.foldl (fun s x ↦
    match x with
    | .getLogger _ => s
    | .load _ new => (new, s.2.load s.1 new)) (Keyed.empty, .initial)

theorem declarations_snoc (tr : List Use) (x : Use) : declarations (tr ++ [x]) =
    match x with
    | .getLogger _ => declarations tr
    | .load _ new => (new, (declarations tr).2.load (declarations tr).1 new) := by
  rw [declarations, List.foldl_append]
  cases x <;> rfl

/-- **Run lemma.** -/
theorem shows_of_run {tr : List Use} {s : LogDefines × LoggerManager}
    (h : Run Used (Keyed.empty, .new) tr s) :
    s.1 = (declarations tr).1 ∧ Shows s.2 (declarations tr).2 := by
  refine Run.history (P := fun tr s ↦ s.1 = (declarations tr).1 ∧ Shows s.2 (declarations tr).2)
    ⟨rfl, shows_new⟩ ?_ h
  rintro tr s x t - ⟨hc, hshows⟩ hstep
  rw [declarations_snoc]
  cases x with
  | getLogger name =>
      cases hstep
      exact ⟨hc, (hshows.getLogger name).1⟩
  | load env new =>
      obtain ⟨m', hm', rfl⟩ := hstep
      exact ⟨rfl, hshows.onChange (hc ▸ hm')⟩

/-- **Loggers write what is declared.**  After any configurations, and with any loggers
fetched before, between and after them, a macro on the logger of any name writes the lines
of the sinks that are declared for the name, in their order, and no others. -/
theorem logs_declared {tr : List Use} {s : LogDefines × LoggerManager}
    (h : Run Used (Keyed.empty, .new) tr s) (env : Env) (name : String) (level : Level)
    (content : String) :
    ∃ lines, (s.2.getLogger name).2.SYLAR_LOG_LEVEL env (s.2.getLogger name).1 level content =
        .ok lines ∧
      (s.2.getLogger name).2.written lines = linesOf env level (env.event name level content)
        ((declarations tr).2.route name level) :=
  ((shows_of_run h).2.getLogger name).1.macro_lines (LoggerManager.getLogger_found name) env level
    content

/-- A logger is fetched, and a configuration changes its format. -/
def fetchedFirst : List Use := [.getLogger "system", .load .plain (oneFormat .INFO "%m")]

theorem fetchedFirst_lines :
    linesOf .plain .WARN (Env.plain.event "system" .WARN "disk full")
      ((declarations fetchedFirst).2.route "system" .WARN) =
        [(some .StdoutLogAppender, "disk full")] := by
  rfl

theorem logs_declared_fetchedFirst : ∃ s lines,
    Run Used (Keyed.empty, .new) fetchedFirst s ∧
      (s.2.getLogger "system").2.SYLAR_LOG_LEVEL .plain (s.2.getLogger "system").1 .WARN
        "disk full" = .ok lines ∧
      (s.2.getLogger "system").2.written lines =
        [(some .StdoutLogAppender, "disk full")] := by
  obtain ⟨hshows, -⟩ := shows_new.getLogger "system"
  have hformatted : Formatted (LoggerManager.new.getLogger "system").2 :=
    getLogger_formatted formatted_new "system"
  have htyped : (oneFormat .INFO "%m").Typed := fun i hi a ha ↦ by
    rw [mem_oneFormat.mp hi] at ha
    exact .inr (by rw [List.mem_singleton.mp ha])
  have hnew : ∀ i ∈ oneFormat .INFO "%m", i ∉ (Keyed.empty : LogDefines) :=
    fun _ _ hi ↦ by cases hi
  obtain ⟨m, hm⟩ := onChange_total .plain htyped hshows.separate.toValid hformatted.announces hnew
  have hrun : Run Used (Keyed.empty, .new) fetchedFirst (oneFormat .INFO "%m", m) :=
    .cons rfl (.cons ⟨m, hm, rfl⟩ (.nil _))
  obtain ⟨lines, hlines, hwritten⟩ := logs_declared hrun .plain "system" .WARN "disk full"
  exact ⟨_, lines, hrun, hlines, hwritten.trans fetchedFirst_lines⟩

end Sylar.Log
