import Sylar.Log.Routing
import Sylar.Log.Convert
import Sylar.Yaml.Text

/-!
# Writing the loggers as YAML text

The `toYamlString`s of the appenders, of `Logger` and of `LoggerManager`.  They
are not the writer of the log configuration, but what they write is what that
writer would have written for a configuration read off the loggers: `defines`.
-/

namespace Sylar.Log

open Foundation Yaml

/-! ## The dumps -/

/-- A dump follows pointers, and calls yaml-cpp. -/
abbrev Dumped (α : Type) := Except (Fault ⊕ Exception) α

/-- What a pointer designates. -/
def Dumped.fault {α : Type} (x : Except Fault α) : Dumped α := x.mapError .inl

/-- What yaml-cpp returns. -/
def Dumped.yaml {α : Type} (x : Except Exception α) : Dumped α := x.mapError .inr

@[simp] theorem Dumped.fault_ok {α : Type} (a : α) : Dumped.fault (.ok a) = .ok a := rfl

@[simp] theorem Dumped.yaml_ok {α : Type} (a : α) : Dumped.yaml (.ok a) = .ok a := rfl

/-- The node that the `toYamlString`s of the appenders build. -/
def LogAppender.node (ap : LogAppender) : Except Exception Node := do
  let node ← (match ap.kind with
    | .FileLogAppender filename => do
        let node ← Node.null.set "type" (.scalar "FileLogAppender")
        node.set "file" (.scalar filename)
    | .StdoutLogAppender => Node.null.set "type" (.scalar "StdoutLogAppender"))
  let node ← (if ap.level ≠ .UNKNOW then node.set "level" (.scalar ap.level.ToString)
    else .ok node)
  match ap.formatter with
  | some f => if ap.hasFormatter then node.set "formatter" (.scalar f.pattern) else .ok node
  | none => .ok node

/-- `FileLogAppender::toYamlString` and `StdoutLogAppender::toYamlString`. -/
def LogAppender.toYamlString (y : YamlCpp) (ap : LogAppender) : Except Exception String := do
  let node ← ap.node
  .ok (y.emit node)

namespace LoggerManager

variable (y : YamlCpp) (m : LoggerManager)

/-- One round of the loop in `Logger::toYamlString`. -/
def dumpAppender (node : Node) (a : AppenderPtr) : Dumped Node := do
  let (_, ap) ← Dumped.fault (m.derefAppender (some a))
  let s ← Dumped.yaml (ap.toYamlString y)
  let n ← Dumped.yaml (y.load s)
  Dumped.yaml (node.pushAt "appenders" n)

/-- `Logger::toYamlString`. -/
def loggerToYamlString (l : Option LoggerPtr) : Dumped String := do
  let (_, lg) ← Dumped.fault (m.derefLogger l)
  let node ← Dumped.yaml (Node.null.set "name" (.scalar lg.name))
  let node ← (if lg.level ≠ .UNKNOW then
    Dumped.yaml (node.set "level" (.scalar lg.level.ToString)) else .ok node)
  let node ← (match lg.formatter with
    | some f => Dumped.yaml (node.set "formatter" (.scalar f.pattern))
    | none => .ok node)
  let node ← lg.appenders.foldlM (dumpAppender y m) node
  .ok (y.emit node)

/-- One round of the loop in `LoggerManager::toYamlString`. -/
def dumpLogger (node : Node) (i : String × LoggerPtr) : Dumped Node := do
  let s ← m.loggerToYamlString y (some i.2)
  let n ← Dumped.yaml (y.load s)
  Dumped.yaml (node.push_back n)

/-- `LoggerManager::toYamlString`. -/
def toYamlString : Dumped String := do
  let node ← m.loggers.toList.foldlM (dumpLogger y m) .null
  .ok (y.emit node)

end LoggerManager

/-! ## The configuration of the loggers -/

/-- The definition that an appender could have been made from. -/
def LogAppender.define (ap : LogAppender) : LogAppenderDefine :=
  { type := match ap.kind with
      | .FileLogAppender _ => 1
      | .StdoutLogAppender => 2
    level := ap.level
    formatter := if ap.hasFormatter then (ap.formatter.map LogFormatter.pattern).getD "" else ""
    file := match ap.kind with
      | .FileLogAppender filename => filename
      | .StdoutLogAppender => "" }

namespace LoggerManager

/-- The definition that the logger with a name could have been made from. -/
def define (m : LoggerManager) (e : String × LoggerPtr) : LogDefine :=
  match m.logger e.2 with
  | none => { name := e.1 }
  | some lg =>
      { name := e.1, level := lg.level
        formatter := (lg.formatter.map LogFormatter.pattern).getD ""
        appenders := lg.appenders.filterMap fun a ↦ (m.appender a).map LogAppender.define }

theorem define_name (m : LoggerManager) (e : String × LoggerPtr) : (m.define e).name = e.1 := by
  unfold define
  split <;> rfl

/-- The configuration that the loggers could have been made from. -/
def defines (m : LoggerManager) : LogDefines :=
  ⟨m.loggers.toList.map m.define, List.pairwise_map.mpr (m.loggers.sorted.imp fun h ↦ by
    rwa [define_name, define_name])⟩

end LoggerManager

theorem LogAppender.define_pure (ap : LogAppender) : ap.define.Pure := by
  obtain ⟨kind, level, formatter, hasFormatter⟩ := ap
  cases kind with
  | FileLogAppender filename => exact .inl rfl
  | StdoutLogAppender => exact .inr ⟨rfl, rfl⟩

/-- Formatters that can be written and read: a pattern that is there is not empty. -/
structure Patterned (m : LoggerManager) : Prop where
  logger : ∀ l lg, m.logger l = some lg → ∃ f, lg.formatter = some f ∧ f.pattern ≠ ""
  appender : ∀ l lg, m.logger l = some lg → ∀ a ∈ lg.appenders, ∀ ap, m.appender a = some ap →
    ap.hasFormatter = true → ∃ f, ap.formatter = some f ∧ f.pattern ≠ ""

variable {y : YamlCpp} {m : LoggerManager} {l : LoggerPtr} {lg : Logger} {ap : LogAppender}

theorem node_formatter (formatter : Option LogFormatter) (own : Bool) (node : Node) :
    (own = true → ∃ f, formatter = some f ∧ f.pattern ≠ "") →
    (match formatter with
      | some f => if own = true then node.set "formatter" (.scalar f.pattern) else .ok node
      | none => .ok node) =
    if (if own = true then (formatter.map LogFormatter.pattern).getD "" else "") ≠ "" then
      node.set "formatter" (.scalar
        (if own = true then (formatter.map LogFormatter.pattern).getD "" else ""))
    else .ok node := by
  intro h
  cases own with
  | false => cases formatter <;> simp
  | true =>
      obtain ⟨f, rfl, hne⟩ := h rfl
      simp [hne]

/-- An appender is written like its definition. -/
theorem LogAppender.node_eq
    (h : ap.hasFormatter = true → ∃ f, ap.formatter = some f ∧ f.pattern ≠ "") :
    ap.node = encodeAppender ap.define := by
  obtain ⟨kind, level, formatter, hasFormatter⟩ := ap
  cases kind with
  | FileLogAppender filename =>
      exact bind_congr fun node ↦ bind_congr fun node ↦ node_formatter formatter hasFormatter node h
  | StdoutLogAppender =>
      exact bind_congr fun node ↦ bind_congr fun node ↦ node_formatter formatter hasFormatter node h

namespace LoggerManager

/-- The loop over the appenders writes what is written for their definitions. -/
theorem dumpAppender_loop (hy : y.Reloads) (as : List AppenderPtr)
    (has : ∀ a ∈ as, ∃ ap, m.appender a = some ap ∧
      (ap.hasFormatter = true → ∃ f, ap.formatter = some f ∧ f.pattern ≠ "")) (node : Node) :
    as.foldlM (dumpAppender y m) node =
      Dumped.yaml ((as.filterMap fun a ↦ (m.appender a).map LogAppender.define).foldlM
        (fun n a ↦ do
          let na ← encodeAppender a
          n.pushAt "appenders" na) node) := by
  induction as generalizing node with
  | nil => rfl
  | cons a as ih =>
      obtain ⟨ap, ha, hown⟩ := has a (by simp)
      obtain ⟨na, hna, -⟩ := encodeAppender_reads ap.define
      have hdump : dumpAppender y m node a = Dumped.yaml (node.pushAt "appenders" na) := by
        simp [dumpAppender, derefAppender_some ha, LogAppender.toYamlString,
          LogAppender.node_eq hown, hna, hy na]
      have hdefine : (m.appender a).map LogAppender.define = some ap.define := by rw [ha]; rfl
      rw [List.foldlM_cons, hdump]
      simp only [List.filterMap_cons, hdefine, List.foldlM_cons, hna, Except.ok_bind]
      cases hpush : node.pushAt "appenders" na with
      | error e => rfl
      | ok node' => exact ih (fun b hb ↦ has b (by simp [hb])) node'

/-- A logger is written like its definition. -/
theorem loggerToYamlString_eq (hy : y.Reloads) (hv : m.Valid) (hp : Patterned m)
    {e : String × LoggerPtr} (hl : m.logger e.2 = some lg) (hname : lg.name = e.1) :
    ∃ n, encodeDefine (m.define e) = .ok n ∧
      m.loggerToYamlString y (some e.2) = .ok (y.emit n) := by
  obtain ⟨n, -, hn, -, -⟩ := encodeDefine_reads (m.define e)
  refine ⟨n, hn, ?_⟩
  obtain ⟨f, hf, hne⟩ := hp.logger e.2 lg hl
  obtain ⟨n₁, h₁, hr₁⟩ := Node.reads_null.set "name" (.scalar e.1)
  obtain ⟨n₂, h₂, hr₂⟩ := hr₁.setIf (k := "level") (v := .scalar lg.level.ToString)
    (lg.level ≠ .UNKNOW) (by simp)
  obtain ⟨n₃, h₃, -⟩ := hr₂.set "formatter" (.scalar f.pattern)
  have hloop : (lg.appenders.filterMap fun a ↦ (m.appender a).map LogAppender.define).foldlM
      (fun n a ↦ do
        let na ← encodeAppender a
        n.pushAt "appenders" na) n₃ = .ok n := by
    simp only [define, hl, hf, encodeDefine, Option.map_some, Option.getD_some, h₁, h₂, h₃, hne,
      Except.ok_bind, ne_eq, not_false_eq_true, if_true] at hn
    exact hn
  have hdump := dumpAppender_loop (m := m) hy lg.appenders (fun a ha ↦ by
    obtain ⟨ap, hap⟩ := hv.attached e.2 lg hl a ha
    exact ⟨ap, hap, hp.appender e.2 lg hl a ha ap hap⟩) n₃
  rw [hloop] at hdump
  have hlevel : (if lg.level ≠ .UNKNOW then
      Dumped.yaml (n₁.set "level" (.scalar lg.level.ToString)) else .ok n₁) = .ok n₂ := by
    split at h₂
    · rename_i h
      rw [if_pos h, h₂]
      rfl
    · rename_i h
      cases h₂
      rw [if_neg h]
  rw [loggerToYamlString, derefLogger_some hl, Dumped.fault_ok, Except.ok_bind]
  simp only [hf, hname, h₁, h₃, Dumped.yaml_ok, Except.ok_bind, hlevel, hdump]

/-- The loggers are written like the configuration they could have been made
from. -/
theorem toYamlString_eq (hy : y.Reloads) (hr : m.Routed) (hp : Patterned m) :
    ∃ text, m.toYamlString y = .ok text ∧ m.defines.toString y = .ok text := by
  have hloop : ∀ (es : List (String × LoggerPtr)) (node : Node), (∀ e ∈ es, e ∈ m.loggers) →
      es.foldlM (dumpLogger y m) node =
        Dumped.yaml ((es.map m.define).foldlM (fun node i ↦ do
          let n ← encodeDefine i
          node.push_back n) node) := by
    intro es
    induction es with
    | nil => exact fun _ _ ↦ rfl
    | cons e es ih =>
        intro node hes
        obtain ⟨lg, hl⟩ := hr.live e (hes e (by simp))
        obtain ⟨n, hn, hdump⟩ := loggerToYamlString_eq hy hr.toValid hp hl
          (hr.named e (hes e (by simp)) lg hl)
        have hround : dumpLogger y m node e = Dumped.yaml (node.push_back n) := by
          simp [dumpLogger, hdump, hy n]
        rw [List.foldlM_cons, hround]
        simp only [List.map_cons, List.foldlM_cons, hn, Except.ok_bind]
        cases hpush : node.push_back n with
        | error e => rfl
        | ok node' => exact ih node' fun e' he' ↦ hes e' (by simp [he'])
  obtain ⟨ns, hns, -⟩ := encode_rows m.defines
  have hencode : (m.loggers.toList.map m.define).foldlM (fun node i ↦ do
      let n ← encodeDefine i
      node.push_back n) Node.null = .ok (.rows ns) := hns
  refine ⟨y.emit (.rows ns), ?_, by simp [LogDefines.toString, hns]⟩
  rw [toYamlString, hloop m.loggers.toList .null fun _ h ↦ h, hencode]
  rfl

/-- What is read from the dump. -/
theorem toYamlString_read (hy : y.Reloads) (hstr : ∀ t, y.asString (.scalar t) = .ok t)
    (hr : m.Routed) (hp : Patterned m) :
    ∃ text, m.toYamlString y = .ok text ∧ LogDefines.fromString y text = .ok m.defines.reread := by
  obtain ⟨text, hdump, htext⟩ := toYamlString_eq hy hr hp
  refine ⟨text, hdump, ?_⟩
  obtain ⟨text', htext', hread⟩ := LogDefines.reread_toString (s := m.defines) (y := y)
    (fun i hi a ha ↦ by
      obtain ⟨e, -, rfl⟩ := List.mem_map.mp hi
      unfold define at ha
      split at ha
      · cases ha
      · obtain ⟨p, -, hp⟩ := List.mem_filterMap.mp ha
        obtain ⟨ap, -, rfl⟩ := Option.map_eq_some_iff.mp hp
        exact ap.define_pure) hstr fun n _ ↦ hy n
  rw [htext, Except.ok.injEq] at htext'
  exact htext' ▸ hread

end LoggerManager

end Sylar.Log
