import Sylar.Log.Event
import Sylar.Foundation.Keyed
import Mathlib.Data.String.Basic

/-!
# Log configurations

`LogAppenderDefine`, `LogDefine` and `std::set<LogDefine>`, which is ordered by
the name alone.  Equality compares all fields.
-/

namespace Sylar.Log

open Foundation

/-- `LogAppenderDefine`. -/
structure LogAppenderDefine where
  /-- 1: file, 2: stdout. -/
  type : Int := 0
  level : Level := .UNKNOW
  formatter : String := ""
  file : String := ""
deriving DecidableEq, Repr

/-- `LogDefine`. -/
structure LogDefine where
  name : String
  level : Level := .UNKNOW
  formatter : String := ""
  appenders : List LogAppenderDefine := []
deriving DecidableEq, Repr

/-- `std::set<LogDefine>`. -/
abbrev LogDefines := Keyed LogDefine.name

/-- The types of appenders the decoder lets through. -/
def LogDefines.Typed (s : LogDefines) : Prop :=
  ∀ i ∈ s, ∀ a ∈ i.appenders, a.type = 1 ∨ a.type = 2

end Sylar.Log
