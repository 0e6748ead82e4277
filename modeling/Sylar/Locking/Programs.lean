import Sylar.Foundation.Locks
import Sylar.Log.Define
import Sylar.Log.Logger
import Sylar.Config.Registry

/-!
# The locks of the library

Five classes have a lock of their own: the registry of `Config`, each
`ConfigVar`, the `LoggerManager`, each `Logger` and each `LogAppender`.  This file
says which of them the functions of the library request, in which order and for
how long.

The functions are written as they are in the source, with all their branches.
Where a branch depends on data that other threads may change (levels, lists of
appenders, values of variables, what a name is bound to), or on a conversion, any
outcome is possible.  What the caller of a listener passes to it is passed on, so
that `LogIniter` compares the two configurations as the source does.
-/

namespace Sylar.Locking

open Foundation Foundation.Throwing Log Yaml

/-- Loggers: the one that `getRoot` returns, and all others. -/
inductive LoggerId
  | root
  | other (l : LoggerPtr)
deriving DecidableEq, Repr, Inhabited

/-- The locks. -/
inductive LockId
  /-- `Config::GetMutex()`. -/
  | registry
  /-- `ConfigVar::m_mutex`. -/
  | configVar (p : VarPtr)
  /-- `LoggerManager::m_mutex`. -/
  | loggerManager
  /-- `Logger::m_mutex`. -/
  | logger (l : LoggerId)
  /-- `LogAppender::m_mutex`. -/
  | appender (a : AppenderPtr)
deriving DecidableEq, Repr

/-- The ways to leave a function other than by returning. -/
inductive Thrown
  /-- A `std::exception`, which the handlers of the library catch. -/
  | exception
  /-- Anything else.  A call through a null pointer, after which the process is
  gone, counts as well. -/
  | other
deriving DecidableEq, Repr, Inhabited

/-- The functions of the library. -/
abbrev Code := Throwing Thrown LockId

instance : Nonempty Level := ⟨.UNKNOW⟩

instance : Nonempty LogDefines := ⟨.empty⟩

/-- `Spinlock::Lock`, up to the end of its block. -/
def Spinlock.Lock {α : Type} (m_mutex : LockId) (block : Code α) : Code α :=
  block.lock m_mutex .exclusive

/-- `RWMutex::ReadLock`, up to the end of its block. -/
def RWMutex.ReadLock {α : Type} (m_mutex : LockId) (block : Code α) : Code α :=
  block.lock m_mutex .shared

/-- `RWMutex::WriteLock`, up to the end of its block. -/
def RWMutex.WriteLock {α : Type} (m_mutex : LockId) (block : Code α) : Code α :=
  block.lock m_mutex .exclusive

/-- A conversion between values and texts, or a call of yaml-cpp: it returns
something or throws. -/
def conversion (α : Type) : Code α := do
  match ← any (Except Thrown α) with
  | .ok a => return a
  | .error e => throw e

/-! ## Appenders -/

namespace LogAppender

variable (a : AppenderPtr)

/-- `LogAppender::setFormatter`. -/
def setFormatter : Code Unit := Spinlock.Lock (.appender a) (pure ())

/-- `LogAppender::getFormmater`. -/
def getFormmater : Code (Option LogFormatter) :=
  Spinlock.Lock (.appender a) (any (Option LogFormatter))

/-- `toYamlString` of either appender. -/
def toYamlString : Code String := Spinlock.Lock (.appender a) (conversion String)

end LogAppender

namespace FileLogAppender

variable (a : AppenderPtr)

/-- `FileLogAppender::reopen`. -/
def reopen : Code Bool := Spinlock.Lock (.appender a) (any Bool)

/-- `FileLogAppender::log`. -/
def log (level : Level) : Code Unit := do
  if (← any Level) ≤ level then
    -- now != m_lastTime
    if ← any Bool then
      let _ ← reopen a
    Spinlock.Lock (.appender a) (conversion Unit)

end FileLogAppender

/-- `StdoutLogAppender::log`. -/
def StdoutLogAppender.log (a : AppenderPtr) (level : Level) : Code Unit := do
  if (← any Level) ≤ level then
    Spinlock.Lock (.appender a) (conversion Unit)

/-- The virtual call of `log`. -/
def LogAppender.log (a : AppenderPtr) (level : Level) : Code Unit := do
  if ← any Bool then FileLogAppender.log a level else StdoutLogAppender.log a level

/-! ## Loggers -/

namespace Logger

/-- `Logger::log`, where `m_root` is what is done with the event when there is no
appender. -/
def logOr (l : LoggerId) (level : Level) (m_root : Code Unit) : Code Unit := do
  if (← any Level) ≤ level then
    Spinlock.Lock (.logger l) do
      let m_appenders ← any (List AppenderPtr)
      if m_appenders ≠ [] then
        m_appenders.forM fun i ↦ LogAppender.log i level
      else m_root

/-- `Logger::log`.  Only `LoggerManager::getLogger` sets an `m_root`, on the loggers
it makes and to that of the manager, whose own stays null. -/
def log (l : LoggerId) (level : Level) : Code Unit :=
  match l with
  | .root => logOr .root level (pure ())
  | .other l =>
      logOr (.other l) level do
        if ← any Bool then logOr .root level (pure ())

variable (l : LoggerId)

/-- `Logger::addAppender`. -/
def addAppender (appender : AppenderPtr) : Code Unit :=
  Spinlock.Lock (.logger l) do
    if (← LogAppender.getFormmater appender).isNone then
      Spinlock.Lock (.appender appender) (pure ())

/-- `Logger::delAppender`. -/
def delAppender : Code Unit := Spinlock.Lock (.logger l) (pure ())

/-- `Logger::setFormatter` with a formatter. -/
def setFormatter : Code Unit :=
  Spinlock.Lock (.logger l) do
    let m_appenders ← any (List AppenderPtr)
    m_appenders.forM fun i ↦ Spinlock.Lock (.appender i) (pure ())

/-- `Logger::setFormatter` with a pattern. -/
def setFormatterString (val : String) : Code Unit :=
  if (LogFormatter.new val).isError then pure () else setFormatter l

/-- `Logger::getFormatter`. -/
def getFormatter : Code (Option LogFormatter) :=
  Spinlock.Lock (.logger l) (any (Option LogFormatter))

/-- `Logger::toYamlString`. -/
def toYamlString : Code String :=
  Spinlock.Lock (.logger l) do
    let m_appenders ← any (List AppenderPtr)
    m_appenders.forM fun i ↦ do
      let _ ← LogAppender.toYamlString i
      conversion Unit
    conversion String

end Logger

namespace LoggerManager

/-- `LoggerManager::getLogger`. -/
def getLogger (_name : String) : Code LoggerId :=
  Spinlock.Lock .loggerManager (any LoggerId)

/-- `LoggerManager::toYamlString`. -/
def toYamlString : Code String :=
  Spinlock.Lock .loggerManager do
    let m_loggers ← any (List LoggerId)
    m_loggers.forM fun i ↦ do
      let _ ← Logger.toYamlString i
      conversion Unit
    conversion String

end LoggerManager

/-- `SYLAR_LOG_LEVEL`, and the evaluation of what is written to its stream.  The
event goes to the logger in the destructor of `LogEventWrap`. -/
def SYLAR_LOG_LEVEL (logger : LoggerId) (level : Level) (text : Code Unit) : Code Unit := do
  if (← any Level) ≤ level then
    text.finish (Logger.log logger level)

/-! ## The listener on `logs` -/

namespace LogIniter

/-- The loop over `i.appenders`, for one appender. -/
def applyAppender (logger : LoggerId) (a : LogAppenderDefine) : Code Unit := do
  -- where the pointer stays null, setLevel is called through it
  if a.type ≠ 1 ∧ a.type ≠ 2 then throw .other
  let ap ← any AppenderPtr
  if a.type = 1 then
    let _ ← FileLogAppender.reopen ap
  if a.formatter ≠ "" then
    if !(LogFormatter.new a.formatter).isError then LogAppender.setFormatter ap
  Logger.addAppender logger ap

/-- The common tail for an entry.  It starts with a call through the pointer. -/
def configure (logger : Option LoggerId) (i : LogDefine) : Code Unit := do
  match logger with
  | none => throw .other
  | some logger =>
      if i.formatter ≠ "" then Logger.setFormatterString logger i.formatter
      i.appenders.forM (applyAppender logger)

/-- The loop over the new configuration, for one entry. -/
def applyDefine (old_value : LogDefines) (i : LogDefine) : Code Unit := do
  match old_value.find? i.name with
  | none => configure (some (← LoggerManager.getLogger i.name)) i
  | some it =>
      if i ≠ it then configure (some (← LoggerManager.getLogger i.name)) i
      else configure none i

/-- The loop over the old configuration, for one entry. -/
def removeDefine (new_value : LogDefines) (i : LogDefine) : Code Unit := do
  if (new_value.find? i.name).isNone then
    let _ ← LoggerManager.getLogger i.name

/-- The listener `LogIniter` registers. -/
def onChange (old_value new_value : LogDefines) : Code Unit := do
  SYLAR_LOG_LEVEL .root .INFO (pure ())
  new_value.toList.forM (applyDefine old_value)
  old_value.toList.forM (removeDefine new_value)

end LogIniter

/-! ## Configuration variables -/

namespace ConfigVar

/-- The `catch` clauses of `toString` and `fromString`. -/
def handler {α : Type} (a : α) : Thrown → Code α
  | .exception => do
      SYLAR_LOG_LEVEL .root .ERROR (pure ())
      return a
  | .other => throw .other

/-- `ConfigVar::getValue`. -/
def getValue (p : VarPtr) : Code Unit := RWMutex.ReadLock (.configVar p) (pure ())

/-- `ConfigVar::toString`. -/
def toString (p : VarPtr) : Code String :=
  tryCatch (RWMutex.ReadLock (.configVar p) (conversion String)) (handler "")

/-- The loop over `m_cbs`.  The only listeners are those of `LogIniter`, on the
variable `g_log_defines`. -/
def notify (g_log_defines p : VarPtr) : Code Unit := do
  if p = g_log_defines then
    let m_val ← any LogDefines
    let v ← any LogDefines
    let m_cbs ← any Nat
    (List.range m_cbs).forM fun _ ↦ LogIniter.onChange m_val v

/-- `ConfigVar::setValue`. -/
def setValue (g_log_defines p : VarPtr) : Code Unit := do
  let changed ← RWMutex.ReadLock (.configVar p) do
    -- v == m_val
    if ← any Bool then
      return false
    else
      notify g_log_defines p
      return true
  if changed then RWMutex.WriteLock (.configVar p) (pure ())

/-- `ConfigVar::fromString`. -/
def fromString (g_log_defines p : VarPtr) : Code Bool := do
  tryCatch
    (do
      conversion Unit
      setValue g_log_defines p)
    (handler ())
  return false

/-- `ConfigVar::addListener`. -/
def addListener (p : VarPtr) : Code Unit := RWMutex.WriteLock (.configVar p) (pure ())

/-- `ConfigVar::delListener`. -/
def delListener (p : VarPtr) : Code Unit := RWMutex.WriteLock (.configVar p) (pure ())

/-- `ConfigVar::getListener`. -/
def getListener (p : VarPtr) : Code Unit := RWMutex.ReadLock (.configVar p) (pure ())

/-- `ConfigVar::clearListener`. -/
def clearListener (p : VarPtr) : Code Unit := RWMutex.WriteLock (.configVar p) (pure ())

end ConfigVar

/-! ## The registry -/

/-- A prefix that is no name is reported, and the node left out. -/
def ListAllMember.invalid : Code (List (String × Node)) := do
  SYLAR_LOG_LEVEL .root .ERROR (conversion Unit)
  return []

mutual

/-- `ListAllMember`. -/
def ListAllMember (pre : String) : Node → Code (List (String × Node))
  | .map ps => do
      if ValidName pre then return (pre, .map ps) :: (← ListAllMember.pairs pre ps)
      else ListAllMember.invalid
  | .null => if ValidName pre then pure [(pre, .null)] else ListAllMember.invalid
  | .scalar s => if ValidName pre then pure [(pre, .scalar s)] else ListAllMember.invalid
  | .sequence ns => if ValidName pre then pure [(pre, .sequence ns)] else ListAllMember.invalid

/-- Its loop over the pairs of a map. -/
def ListAllMember.pairs (pre : String) : List (Node × Node) → Code (List (String × Node))
  | [] => pure []
  | it :: ps => do return (← ListAllMember.pair pre it) ++ (← ListAllMember.pairs pre ps)

/-- One round of the loop. -/
def ListAllMember.pair (pre : String) : Node × Node → Code (List (String × Node))
  | (k, v) => ListAllMember (if pre = "" then k.Scalar else pre ++ "." ++ k.Scalar) v

end

namespace Config

/-- The end of `Config::Lookup`, where a variable is created. -/
def register (name : String) : Code (Option VarPtr) := do
  if ValidName name then return some (← any VarPtr)
  else
    SYLAR_LOG_LEVEL .root .ERROR (pure ())
    throw .exception

/-- `Config::Lookup` with a default value. -/
def Lookup (name : String) : Code (Option VarPtr) :=
  RWMutex.WriteLock .registry do
    match ← any (Option VarPtr) with
    | some it =>
        -- the variable found is of the type that is asked for
        if ← any Bool then
          SYLAR_LOG_LEVEL .root .INFO (pure ())
          return some it
        else
          SYLAR_LOG_LEVEL .root .ERROR do
            let _ ← ConfigVar.toString it
          register name
    | none => register name

/-- `Config::Lookup` without one. -/
def LookupName (_name : String) : Code (Option VarPtr) :=
  RWMutex.ReadLock .registry (any (Option VarPtr))

/-- `Config::LookupBase`. -/
def LookupBase (_name : String) : Code (Option VarPtr) :=
  RWMutex.ReadLock .registry (any (Option VarPtr))

/-- `Config::LoadFromYaml`. -/
def LoadFromYaml (g_log_defines : VarPtr) (root : Node) : Code Unit := do
  let all_nodes ← ListAllMember "" root
  all_nodes.forM fun i ↦ do
    if i.1 ≠ "" then
      match ← LookupBase (tolower i.1) with
      | none => pure ()
      | some var =>
          conversion Unit
          let _ ← ConfigVar.fromString g_log_defines var

end Config

/-! ## What threads call -/

/-- The calls of the library. -/
inductive Call
  | Lookup (name : String)
  | LookupName (name : String)
  | LookupBase (name : String)
  | LoadFromYaml (root : Node)
  | getValue (p : VarPtr)
  | setValue (p : VarPtr)
  | toString (p : VarPtr)
  | fromString (p : VarPtr)
  | addListener (p : VarPtr)
  | delListener (p : VarPtr)
  | getListener (p : VarPtr)
  | clearListener (p : VarPtr)
  | getLogger (name : String)
  | managerToYamlString
  | SYLAR_LOG_LEVEL (l : LoggerId) (level : Level)
  | log (l : LoggerId) (level : Level)
  | addAppender (l : LoggerId) (a : AppenderPtr)
  | delAppender (l : LoggerId)
  | setFormatter (l : LoggerId)
  | setFormatterString (l : LoggerId) (val : String)
  | getFormatter (l : LoggerId)
  | loggerToYamlString (l : LoggerId)
  | appenderLog (a : AppenderPtr) (level : Level)
  | appenderSetFormatter (a : AppenderPtr)
  | getFormmater (a : AppenderPtr)
  | reopen (a : AppenderPtr)
  | appenderToYamlString (a : AppenderPtr)

/-- What a call runs. -/
def Call.code (g_log_defines : VarPtr) : Call → Code Unit
  | Lookup name => discard (Config.Lookup name)
  | LookupName name => discard (Config.LookupName name)
  | LookupBase name => discard (Config.LookupBase name)
  | LoadFromYaml root => Config.LoadFromYaml g_log_defines root
  | getValue p => ConfigVar.getValue p
  | setValue p => ConfigVar.setValue g_log_defines p
  | toString p => discard (ConfigVar.toString p)
  | fromString p => discard (ConfigVar.fromString g_log_defines p)
  | addListener p => ConfigVar.addListener p
  | delListener p => ConfigVar.delListener p
  | getListener p => ConfigVar.getListener p
  | clearListener p => ConfigVar.clearListener p
  | getLogger name => discard (LoggerManager.getLogger name)
  | managerToYamlString => discard LoggerManager.toYamlString
  | SYLAR_LOG_LEVEL l level => Locking.SYLAR_LOG_LEVEL l level (pure ())
  | log l level => Logger.log l level
  | addAppender l a => Logger.addAppender l a
  | delAppender l => Logger.delAppender l
  | setFormatter l => Logger.setFormatter l
  | setFormatterString l val => Logger.setFormatterString l val
  | getFormatter l => discard (Logger.getFormatter l)
  | loggerToYamlString l => discard (Logger.toYamlString l)
  | appenderLog a level => LogAppender.log a level
  | appenderSetFormatter a => LogAppender.setFormatter a
  | getFormmater a => discard (LogAppender.getFormmater a)
  | reopen a => discard (FileLogAppender.reopen a)
  | appenderToYamlString a => discard (LogAppender.toYamlString a)

/-- The program of a call, whose result and exceptions the thread makes nothing
of. -/
def Call.prog (g_log_defines : VarPtr) (c : Call) : Prog LockId Unit :=
  (c.code g_log_defines).run >>= fun _ ↦ pure ()

end Sylar.Locking
