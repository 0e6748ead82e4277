import Sylar.Config.ConfigVar
import Sylar.Foundation.Run
import Mathlib.Logic.Function.Basic

/-!
# The registry of configuration variables

`Config` binds names to variables of any type.  `Lookup` finds a variable or
creates it, and `LoadFromYaml` sends the values of a document to the variables
bound at that time.

Where the name is bound to a variable of another type, `Lookup` says so in the
log and goes on to the end: it creates a second variable and binds the name to
it.
-/

namespace Sylar

open Foundation Yaml

/-- The address of a variable. -/
abbrev VarPtr := Nat

variable {τ : Type} [DecidableEq τ] {T : τ → Type}

/-- `Config`: the objects that exist, and `GetDatas()`.  `T` gives the C++ types
that occur. -/
structure Config (T : τ → Type) where
  vars : VarPtr → Option (Σ t, ConfigVar (T t))
  next : VarPtr
  datas : String → Option VarPtr

/-- The characters of names. -/
def nameChars : List Char := "abcdefghijklmnopqrstuvwxyz._0123456789".toList

/-- `find_first_not_of` finds nothing. -/
def ValidName (name : String) : Prop := ∀ c ∈ name.toList, c ∈ nameChars

instance (name : String) : Decidable (ValidName name) :=
  List.decidableBAll (fun c ↦ c ∈ nameChars) name.toList

namespace Config

/-- The registry at the start. -/
def empty : Config T := ⟨fun _ ↦ none, 0, fun _ ↦ none⟩

variable (m : Config T)

/-- `std::dynamic_pointer_cast<ConfigVar<T>>`. -/
def dynamic_pointer_cast (t : τ) (p : VarPtr) : Option VarPtr :=
  match m.vars p with
  | some c => if c.1 = t then some p else none
  | none => none

/-- A new variable, to which the name is bound. -/
def create (t : τ) (name : String) (default_value : T t) (description : String) : Config T :=
  { vars := Function.update m.vars m.next (some ⟨t, .new name default_value description⟩)
    next := m.next + 1
    datas := Function.update m.datas name (some m.next) }

/-- The end of `Lookup`, where a variable is created. -/
def register (t : τ) (name : String) (default_value : T t) (description : String) :
    Except Exception (Option VarPtr) × Config T :=
  if ValidName name then (.ok (some m.next), m.create t name default_value description)
  else (.error (.invalid_argument name), m)

/-- `Lookup(name, default_value, description)`. -/
def Lookup (t : τ) (name : String) (default_value : T t) (description : String) :
    Except Exception (Option VarPtr) × Config T :=
  match m.datas name with
  | some p =>
      match m.dynamic_pointer_cast t p with
      | some p => (.ok (some p), m)
      -- the mismatch is logged, and nothing is returned here
      | none => m.register t name default_value description
  | none => m.register t name default_value description

/-- `Lookup(name)`. -/
def LookupName (t : τ) (name : String) : Option VarPtr :=
  (m.datas name).bind (m.dynamic_pointer_cast t)

/-- `LookupBase`. -/
def LookupBase (name : String) : Option VarPtr := m.datas name

end Config

/-! ## Loading a document -/

mutual

/-- `ListAllMember`. -/
def ListAllMember (pre : String) : Node → List (String × Node)
  | .map ps =>
      if ValidName pre then (pre, .map ps) :: ListAllMember.pairs pre ps else []
  | .null => if ValidName pre then [(pre, .null)] else []
  | .scalar s => if ValidName pre then [(pre, .scalar s)] else []
  | .sequence ns => if ValidName pre then [(pre, .sequence ns)] else []

/-- Its loop over the pairs of a map. -/
def ListAllMember.pairs (pre : String) : List (Node × Node) → List (String × Node)
  | [] => []
  | it :: ps => ListAllMember.pair pre it ++ ListAllMember.pairs pre ps

/-- One round of the loop. -/
def ListAllMember.pair (pre : String) : Node × Node → List (String × Node)
  | (k, v) => ListAllMember (if pre = "" then k.Scalar else pre ++ "." ++ k.Scalar) v

end

namespace Config

variable [∀ t, BEq (T t)]

/-- `var->fromString(val)`: the calls of listeners, and the registry after it. -/
def fromString (cast : ∀ t, LexicalCast (T t)) (m : Config T) (p : VarPtr) (val : String) :
    List (VarPtr × Σ t, Notification (T t)) × Config T :=
  match m.vars p with
  | none => ([], m)
  | some c =>
      let r := c.2.fromString (cast c.1) val
      (r.1.map fun n ↦ (p, ⟨c.1, n⟩),
        { m with vars := Function.update m.vars p (some ⟨c.1, r.2.2⟩) })

/-- The text of a node that is loaded. -/
def textOf (y : YamlCpp) : Node → String
  | .scalar s => s
  | n => y.emit n

/-- The loop of `LoadFromYaml`, for one member. -/
def loadMember (y : YamlCpp) (cast : ∀ t, LexicalCast (T t)) (m : Config T) (i : String × Node) :
    List (VarPtr × Σ t, Notification (T t)) × Config T :=
  if i.1 = "" then ([], m)
  else
    match m.LookupBase (tolower i.1) with
    | none => ([], m)
    | some var => m.fromString cast var (textOf y i.2)

/-- `LoadFromYaml`. -/
def LoadFromYaml (y : YamlCpp) (cast : ∀ t, LexicalCast (T t)) (m : Config T) (root : Node) :
    List (VarPtr × Σ t, Notification (T t)) × Config T :=
  (ListAllMember "" root).foldl (fun s i ↦
    let r := s.2.loadMember y cast i
    (s.1 ++ r.1, r.2)) ([], m)

end Config

end Sylar
