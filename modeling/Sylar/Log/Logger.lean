import Sylar.Log.Formatter
import Sylar.Foundation.Keyed
import Sylar.Foundation.Fallible
import Mathlib.Logic.Function.Basic
import Mathlib.Data.String.Basic

/-!
# Loggers, appenders and the logger manager

The objects of the log library live at addresses, so that an appender can be
attached to several loggers and a logger can be reached under its name and as
the fallback of the others.  A `shared_ptr` is an optional address; calling a
member through a null one is a fault.

The locks of the library protect single calls and play no part here.
-/

namespace Sylar.Log

open Foundation

/-- The address of a `Logger`. -/
abbrev LoggerPtr := Nat

/-- The address of a `LogAppender`. -/
abbrev AppenderPtr := Nat

/-- The subclasses of `LogAppender`. -/
inductive AppenderKind
  | FileLogAppender (filename : String)
  | StdoutLogAppender
deriving DecidableEq, Repr

/-- `LogAppender`. -/
structure LogAppender where
  kind : AppenderKind
  level : Level
  formatter : Option LogFormatter
  hasFormatter : Bool
deriving DecidableEq, Repr

/-- `Logger`. -/
structure Logger where
  name : String
  level : Level
  appenders : List AppenderPtr
  formatter : Option LogFormatter
  root : Option LoggerPtr
deriving DecidableEq, Repr

/-- The ways a call into the log library can go wrong. -/
inductive Fault
  /-- A member is called through a null `Logger::ptr`. -/
  | nullLogger
  /-- A member is called through a null `LogAppender::ptr`. -/
  | nullAppender
  /-- A member is called through a null `LogFormatter::ptr`. -/
  | nullFormatter
  /-- An address at which there is no object. -/
  | noObject
  /-- A cycle of `m_root` pointers. -/
  | stackOverflow
deriving DecidableEq, Repr

/-- The environment log lines are written in. -/
structure Env where
  strftime : String → Nat → String
  file : String
  line : Int
  threadID : Nat
  fiberID : Nat
  time : Nat
  threadName : String

/-- The format every logger starts with. -/
def defaultPattern : String := "%d%T%t%T%N%T%F%T[%p]%T[%c]%T%f:%l%T%m%n"

/-- The constructor of `Logger`. -/
def Logger.new (name : String) : Logger :=
  { name, level := .DEBUG, appenders := [], formatter := some (.new defaultPattern), root := none }

/-- The constructors of the two appenders. -/
def LogAppender.new (kind : AppenderKind) : LogAppender :=
  { kind, level := .DEBUG, formatter := none, hasFormatter := false }

/-- The objects that exist. -/
@[ext] structure Heap where
  logger : LoggerPtr → Option Logger
  appender : AppenderPtr → Option LogAppender
  nextLogger : LoggerPtr
  nextAppender : AppenderPtr

/-- `LoggerManager`, with the objects it works on. -/
@[ext] structure LoggerManager extends Heap where
  loggers : Keyed (Prod.fst : String × LoggerPtr → String)
  root : LoggerPtr

namespace LoggerManager

variable (m : LoggerManager)

/-! ## Reading and writing objects -/

/-- The logger a pointer designates. -/
def derefLogger : Option LoggerPtr → Except Fault (LoggerPtr × Logger)
  | none => .error .nullLogger
  | some l =>
      match m.logger l with
      | none => .error .noObject
      | some lg => .ok (l, lg)

/-- The appender a pointer designates. -/
def derefAppender : Option AppenderPtr → Except Fault (AppenderPtr × LogAppender)
  | none => .error .nullAppender
  | some a =>
      match m.appender a with
      | none => .error .noObject
      | some ap => .ok (a, ap)

def setLogger (l : LoggerPtr) (lg : Logger) : LoggerManager :=
  { m with logger := Function.update m.logger l (some lg) }

def setAppender (a : AppenderPtr) (ap : LogAppender) : LoggerManager :=
  { m with appender := Function.update m.appender a (some ap) }

def newLogger (lg : Logger) : LoggerManager :=
  { m with
    logger := Function.update m.logger m.nextLogger (some lg), nextLogger := m.nextLogger + 1 }

def newAppender (ap : LogAppender) : LoggerManager :=
  { m with
    appender := Function.update m.appender m.nextAppender (some ap)
    nextAppender := m.nextAppender + 1 }

/-! ## `LogAppender` -/

/-- `LogAppender::setLevel`. -/
def appenderSetLevel (a : Option AppenderPtr) (level : Level) : Except Fault LoggerManager := do
  let (a, ap) ← m.derefAppender a
  .ok (m.setAppender a { ap with level })

/-- `LogAppender::setFormatter`. -/
def appenderSetFormatter (a : Option AppenderPtr) (val : Option LogFormatter) :
    Except Fault LoggerManager := do
  let (a, ap) ← m.derefAppender a
  .ok (m.setAppender a { ap with formatter := val, hasFormatter := val.isSome })

/-- `FileLogAppender::log` and `StdoutLogAppender::log`: the line that is
written, if any.  The stream of a file is left to `FileLogAppender.log`, which writes
this line if the file can be opened and written. -/
def appenderLog (env : Env) (a : AppenderPtr) (level : Level) (event : LogEvent) :
    Except Fault (List (AppenderPtr × String)) := do
  let (a, ap) ← m.derefAppender (some a)
  if ap.level ≤ level then
    match ap.formatter with
    | none => .error .nullFormatter
    | some f => .ok [(a, f.format env.strftime level event)]
  else .ok []

/-! ## `Logger` -/

/-- `Logger::setLevel`. -/
def setLevel (l : Option LoggerPtr) (level : Level) : Except Fault LoggerManager := do
  let (l, lg) ← m.derefLogger l
  .ok (m.setLogger l { lg with level })

/-- `Logger::addAppender`. -/
def addAppender (l : Option LoggerPtr) (a : Option AppenderPtr) : Except Fault LoggerManager := do
  let (l, lg) ← m.derefLogger l
  let (a, ap) ← m.derefAppender a
  let m := if ap.formatter = none then m.setAppender a { ap with formatter := lg.formatter } else m
  .ok (m.setLogger l { lg with appenders := lg.appenders ++ [a] })

/-- `Logger::delAppender`, which compares pointers and removes the first match. -/
def delAppender (l : Option LoggerPtr) (a : Option AppenderPtr) : Except Fault LoggerManager := do
  let (l, lg) ← m.derefLogger l
  match a with
  | none => .ok m
  | some a => .ok (m.setLogger l { lg with appenders := lg.appenders.erase a })

/-- `Logger::clearAppender`. -/
def clearAppender (l : Option LoggerPtr) : Except Fault LoggerManager := do
  let (l, lg) ← m.derefLogger l
  .ok (m.setLogger l { lg with appenders := [] })

/-- The loop of `Logger::setFormatter` for one appender. -/
def followFormatter (val : Option LogFormatter) (m : LoggerManager) (a : AppenderPtr) :
    Except Fault LoggerManager := do
  let (a, ap) ← m.derefAppender (some a)
  if ap.hasFormatter then .ok m else .ok (m.setAppender a { ap with formatter := val })

/-- `Logger::setFormatter(LogFormatter::ptr)`. -/
def setFormatter (l : Option LoggerPtr) (val : Option LogFormatter) :
    Except Fault LoggerManager := do
  let (l, lg) ← m.derefLogger l
  lg.appenders.foldlM (followFormatter val) (m.setLogger l { lg with formatter := val })

/-- `Logger::setFormatter(const std::string&)`. -/
def setFormatterString (l : Option LoggerPtr) (val : String) : Except Fault LoggerManager := do
  let (l, _) ← m.derefLogger l
  let newVal := LogFormatter.new val
  if newVal.isError then .ok m else m.setFormatter (some l) (some newVal)

/-- `Logger::log`: the lines that are written, in order.  A chain of `m_root`
pointers longer than the number of loggers is a cycle. -/
def logFrom (env : Env) (level : Level) (event : LogEvent) :
    Nat → LoggerPtr → Except Fault (List (AppenderPtr × String))
  | 0, _ => .error .stackOverflow
  | depth + 1, l => do
      let (_, lg) ← m.derefLogger (some l)
      if lg.level ≤ level then
        if lg.appenders ≠ [] then
          lg.appenders.foldlM (fun out a ↦ do
            let o ← m.appenderLog env a level event
            .ok (out ++ o)) []
        else
          match lg.root with
          | none => .ok []
          | some r => logFrom env level event depth r
      else .ok []

def log (env : Env) (l : LoggerPtr) (level : Level) (event : LogEvent) :
    Except Fault (List (AppenderPtr × String)) :=
  m.logFrom env level event (m.nextLogger + 1) l

/-- `SYLAR_LOG_LEVEL(logger, level) << content`. -/
def SYLAR_LOG_LEVEL (env : Env) (l : LoggerPtr) (level : Level) (content : String) :
    Except Fault (List (AppenderPtr × String)) := do
  let (l, lg) ← m.derefLogger (some l)
  if lg.level ≤ level then
    m.log env l level
      { file := env.file, line := env.line, elapse := 0, threadID := env.threadID,
        fiberID := env.fiberID, time := env.time, content, loggerName := lg.name, level,
        threadName := env.threadName }
  else .ok []

/-! ## `LoggerManager` -/

/-- `LoggerManager::getLogger`. -/
def getLogger (name : String) : LoggerPtr × LoggerManager :=
  match m.loggers.find? name with
  | some e => (e.2, m)
  | none =>
      -- the name is not in the map, so `m_loggers[name] = logger` inserts
      let l := m.nextLogger
      let m := m.newLogger { Logger.new name with root := some m.root }
      (l, { m with loggers := m.loggers.insert (name, l) })

end LoggerManager

/-- The constructor of `LoggerManager`. -/
def LoggerManager.new : LoggerManager :=
  let ap : LogAppender :=
    { LogAppender.new .StdoutLogAppender with formatter := some (.new defaultPattern) }
  { logger := fun l ↦ if l = 0 then some { Logger.new "root" with appenders := [0] } else none
    appender := fun a ↦ if a = 0 then some ap else none
    nextLogger := 1, nextAppender := 1
    loggers := Keyed.empty.insert ("root", 0), root := 0 }

end Sylar.Log
