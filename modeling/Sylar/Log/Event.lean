import Mathlib.Order.Basic

/-!
# Log levels and events

`LogLevel` and `LogEvent` of `log.h`.
-/

namespace Sylar.Log

/-- `LogLevel::Level`: the six enumerators, and the other values a cast to the
enumeration can produce. -/
inductive Level
  | UNKNOW | DEBUG | INFO | WARN | ERROR | FATAL
  | other (v : Nat) (h : 5 < v)
deriving DecidableEq, Repr

namespace Level

/-- The value of the enumeration. -/
def toNat : Level → Nat
  | UNKNOW => 0
  | DEBUG => 1
  | INFO => 2
  | WARN => 3
  | ERROR => 4
  | FATAL => 5
  | other v _ => v

/-- Levels are compared by their values. -/
instance : LE Level := ⟨fun a b ↦ a.toNat ≤ b.toNat⟩

instance (a b : Level) : Decidable (a ≤ b) := inferInstanceAs (Decidable (a.toNat ≤ b.toNat))

/-- One of the six enumerators. -/
def Named : Level → Prop
  | other _ _ => False
  | _ => True

/-- `LogLevel::ToString`. -/
def ToString : Level → String
  | DEBUG => "DEBUG"
  | INFO => "INFO"
  | WARN => "WARN"
  | ERROR => "ERROR"
  | FATAL => "FATAL"
  | _ => "UNKNOW"

/-- `LogLevel::FromString`. -/
def FromString (str : String) : Level :=
  if str = "debug" then DEBUG
  else if str = "info" then INFO
  else if str = "warn" then WARN
  else if str = "error" then ERROR
  else if str = "fatal" then FATAL
  else if str = "DEBUG" then DEBUG
  else if str = "INFO" then INFO
  else if str = "WARN" then WARN
  else if str = "ERROR" then ERROR
  else if str = "FATAL" then FATAL
  else UNKNOW

/-- The name of an enumerator is read back. -/
theorem fromString_toString {l : Level} (h : l.Named) : FromString l.ToString = l := by
  cases l with
  | other v hv => exact absurd h id
  | _ => decide

theorem fromString_empty : FromString "" = UNKNOW := by decide

/-- Only enumerators are read. -/
theorem fromString_named (str : String) : (FromString str).Named := by
  unfold FromString
  repeat' split
  all_goals trivial

end Level

/-- `LogEvent`, with the name of the logger it belongs to and the text streamed
into it. -/
structure LogEvent where
  file : String
  line : Int
  elapse : Nat
  threadID : Nat
  fiberID : Nat
  time : Nat
  content : String
  loggerName : String
  level : Level
  threadName : String
deriving Repr

end Sylar.Log
