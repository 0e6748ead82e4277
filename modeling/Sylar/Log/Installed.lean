import Sylar.Foundation.Run
import Sylar.Log.Origins
import Sylar.Log.Reload

/-!
# The formatters that are installed

A configuration may give any text as the pattern of a logger or an appender.  Only a
pattern the parser accepts becomes a formatter, and `m_error` is set on all its
failures, so no formatter in use has an item that stands for one.

A pattern that is rejected leaves a logger with the formatter it had, and an appender
with that of its logger.
-/

namespace Sylar.Log

open Foundation

/-- The formatter has been read without a failure. -/
structure LogFormatter.Unbroken (f : LogFormatter) : Prop where
  isError : f.isError = false
  items : f.items = (origins f.pattern.toList).map Origin.item
  broken : ∀ x ∈ origins f.pattern.toList, x.broken = false

/-- The formatter is made from a pattern the parser accepts. -/
def LogFormatter.Parsed (f : LogFormatter) : Prop := f = .new f.pattern ∧ Accepted f.pattern

/-- Loading a configuration into the manager: the listener runs to its end. -/
def Configures (s : LogDefines × LoggerManager) (v : Env × LogDefines)
    (t : LogDefines × LoggerManager) : Prop :=
  ∃ m', onChange v.1 s.1 v.2 s.2 = .ok m' ∧ t = (v.2, m')

namespace LoggerManager

/-- The formatter of the logger with a name, or that of a new one. -/
def formatterOf (m : LoggerManager) (name : String) : Option LogFormatter :=
  match (m.loggers.find? name).bind fun e ↦ m.logger e.2 with
  | some lg => lg.formatter
  | none => some (.new defaultPattern)

/-- All loggers and attached appenders have formatters, which have been read without a
failure. -/
def Readable (m : LoggerManager) : Prop :=
  ∀ l lg, m.logger l = some lg → (∃ f, lg.formatter = some f ∧ f.Unbroken) ∧
    ∀ a ∈ lg.appenders, ∃ ap f, m.appender a = some ap ∧ ap.formatter = some f ∧ f.Unbroken

/-- The formatters of the logger and the appenders of an entry: that of the entry's own
pattern if it is accepted, or else the one the logger had before and the one it has now. -/
def Installs (m : LoggerManager) (i : LogDefine) (m' : LoggerManager) : Prop :=
  ∃ l lg, m'.loggers.find? i.name = some (i.name, l) ∧ m'.logger l = some lg ∧
    lg.formatter = formatterOr i.formatter (m.formatterOf i.name) ∧
    ∀ (n : Nat) (d : LogAppenderDefine), i.appenders[n]? = some d →
      ∃ a ap, lg.appenders[n]? = some a ∧ m'.appender a = some ap ∧
        ap.formatter = formatterOr d.formatter lg.formatter

end LoggerManager

variable {m m' : LoggerManager} {i : LogDefine} {old new : LogDefines} {name : String}
variable {s t : LogDefines × LoggerManager} {vs : List (Env × LogDefines)} {env : Env}

/-! ## Formatters that have been parsed -/

theorem parsed_new (p : String) (hp : Accepted p) : (LogFormatter.new p).Parsed := by
  rw [LogFormatter.Parsed, LogFormatter.new_pattern]
  exact ⟨rfl, hp⟩

theorem LogFormatter.Parsed.unbroken {f : LogFormatter} (h : f.Parsed) : f.Unbroken := by
  obtain ⟨hnew, -, hok⟩ := h
  have horigins := LogFormatter.new_eq (init_origins f.pattern.toList)
  rw [← hnew] at hok
  rw [horigins] at hnew
  refine ⟨hok, by rw [hnew], fun x hx ↦ ?_⟩
  have hany : (origins f.pattern.toList).any Origin.broken = false := by
    rw [isError, hnew] at hok
    exact hok
  exact eq_false_of_ne_true (List.any_eq_false.mp hany x hx)

/-- Such formatters are told by their patterns. -/
theorem parsed_ext {o o' : Option LogFormatter} (h : ∃ f, o = some f ∧ f.Parsed)
    (h' : ∃ f, o' = some f ∧ f.Parsed)
    (heq : o.map LogFormatter.pattern = o'.map LogFormatter.pattern) : o = o' := by
  obtain ⟨f, rfl, hf⟩ := h
  obtain ⟨g, rfl, hg⟩ := h'
  rw [hf.1, hg.1, Option.some.inj heq]

/-! ## One run of the listener -/

theorem formatterOf_pattern (hs : m.Separate) :
    (m.formatterOf name).map LogFormatter.pattern = patternOf (m.view name) := by
  unfold LoggerManager.formatterOf patternOf LoggerManager.view
  cases hf : m.loggers.find? name with
  | none => simp
  | some e =>
      obtain ⟨lg, hlg⟩ := hs.live e (Keyed.find?_eq_some.mp hf).1
      simp [hlg, LoggerManager.viewOf]

theorem FormattedBy.formatterOf (hf : FormattedBy LogFormatter.Parsed m) :
    ∃ f, m.formatterOf name = some f ∧ f.Parsed := by
  unfold LoggerManager.formatterOf
  split
  · rename_i lg hlg
    obtain ⟨e, -, hl⟩ := Option.bind_eq_some_iff.mp hlg
    exact hf.logger e.2 lg hl
  · exact ⟨_, rfl, parsed_new _ accepted_default⟩

/-- What the listener installs for an entry. -/
theorem onChange_installs (hs : m.Separate) (hf : FormattedBy LogFormatter.Parsed m)
    (h : onChange env old new m = .ok m') (hi : i ∈ new) : m.Installs i m' := by
  obtain ⟨hs', hf'⟩ := onChange_formattedBy parsed_new hs hf h
  have hview := (onChange_view hs h).2.1 i hi
  obtain ⟨lg, hlg, hv⟩ := Option.map_eq_some_iff.mp hview
  obtain ⟨e, he, hl⟩ := Option.bind_eq_some_iff.mp hlg
  have hname : e = (i.name, e.2) := by
    rw [← (Keyed.find?_eq_some.mp he).2]
  have hpattern : lg.formatter.map LogFormatter.pattern =
      patternOr i.formatter (patternOf (m.view i.name)) := congrArg LoggerView.pattern hv
  have hformatter : lg.formatter = formatterOr i.formatter (m.formatterOf i.name) := by
    refine parsed_ext (hf'.logger e.2 lg hl) (formatterOr_kind parsed_new hf.formatterOf) ?_
    rw [hpattern, formatterOr_pattern, formatterOf_pattern hs]
  refine ⟨e.2, lg, hname ▸ he, hl, hformatter, fun n d hd ↦ ?_⟩
  have happ : lg.appenders.map (fun a ↦ (m'.appender a).map LogAppender.view) =
      i.appenders.map fun a ↦ some ⟨a.kind, a.level, patternOr a.formatter
        (patternOr i.formatter (patternOf (m.view i.name)))⟩ := congrArg LoggerView.appenders hv
  have hn := congrArg (·[n]?) happ
  simp only [List.getElem?_map, hd, Option.map_some] at hn
  obtain ⟨a, ha, hap⟩ := Option.map_eq_some_iff.mp hn
  obtain ⟨ap, hap, hv'⟩ := Option.map_eq_some_iff.mp hap
  refine ⟨a, ap, ha, hap, ?_⟩
  refine parsed_ext (hf'.appender e.2 lg hl a (List.mem_of_getElem? ha) ap hap)
    (formatterOr_kind parsed_new (hf'.logger e.2 lg hl)) ?_
  rw [formatterOr_pattern, hpattern]
  exact congrArg AppenderView.pattern hv'

/-! ## All configurations -/

/-- What any number of configurations keep. -/
theorem configures_kept (h : Run Configures (Keyed.empty, .new) vs t) :
    t.2.Separate ∧ FormattedBy LogFormatter.Parsed t.2 := by
  refine h.invariant (I := fun s ↦ s.2.Separate ∧ FormattedBy LogFormatter.Parsed s.2) ?_
    ⟨LoggerManager.new_separate, formattedBy_new parsed_new⟩
  rintro s v t ⟨hs, hf⟩ ⟨m', hm', rfl⟩
  exact onChange_formattedBy parsed_new hs hf hm'

/-- **No configuration installs a broken formatter.**  After any configurations, all
loggers and attached appenders have formatters that were read without a failure.  For
a rejected pattern the logger keeps its formatter, and the appender takes its
logger's. -/
theorem never_broken (h : Run Configures (Keyed.empty, .new) vs s) :
    s.2.Readable ∧ ∀ v t, Configures s v t → ∀ i ∈ v.2, s.2.Installs i t.2 := by
  obtain ⟨hs, hf⟩ := configures_kept h
  refine ⟨fun l lg hl ↦ ⟨?_, fun a ha ↦ ?_⟩, ?_⟩
  · obtain ⟨f, hformatter, hparsed⟩ := hf.logger l lg hl
    exact ⟨f, hformatter, hparsed.unbroken⟩
  · obtain ⟨ap, hap⟩ := hs.attached l lg hl a ha
    obtain ⟨f, hformatter, hparsed⟩ := hf.appender l lg hl a ha ap hap
    exact ⟨ap, f, hap, hformatter, hparsed.unbroken⟩
  · rintro v t ⟨m', hm', rfl⟩ i hi
    exact onChange_installs hs hf hm' hi

/-- A pattern is followed by one that is rejected. -/
theorem never_broken_oneFormat : ∃ s t,
    Run Configures (Keyed.empty, .new) [(.plain, oneFormat .INFO "%m")] s ∧
      Configures s (.plain, oneFormat .DEBUG "%d\x7b") t ∧ ¬ Accepted "%d\x7b" ∧ s.2.Readable ∧
        ∀ i ∈ oneFormat .DEBUG "%d\x7b", s.2.Installs i t.2 := by
  obtain ⟨a, b, _, ha, hb, _⟩ :=
    oneFormat_loads (j := .INFO) (k := .DEBUG) (by decide) "%m" "%d\x7b"
  have hfirst : Configures (Keyed.empty, .new) (.plain, oneFormat .INFO "%m")
      (oneFormat .INFO "%m", a) := ⟨a, ha, rfl⟩
  have hsecond : Configures (oneFormat .INFO "%m", a) (.plain, oneFormat .DEBUG "%d\x7b")
      (oneFormat .DEBUG "%d\x7b", b) := ⟨b, hb, rfl⟩
  have hrun := Run.cons hfirst (.nil _)
  obtain ⟨hreadable, hinstalls⟩ := never_broken hrun
  have hrejected : ¬ Accepted "%d\x7b" := by decide
  exact ⟨_, _, hrun, hsecond, hrejected, hreadable, hinstalls _ _ hsecond⟩

end Sylar.Log
