import Sylar.Yaml.Node
import Sylar.Foundation.Keyed
import Mathlib.Algebra.Group.Nat.Defs
import Mathlib.Order.Nat

/-!
# Configuration variables

`ConfigVar<T>` with its conversions and its listeners, for one thread.  A
listener is called with the old and the new value, and may throw; the calls that
are made are part of the result.
-/

namespace Sylar

open Foundation Yaml

/-- `LexicalCast<std::string, T>` and `LexicalCast<T, std::string>`. -/
structure LexicalCast (α : Type) where
  fromString : String → Except Exception α
  toString : α → Except Exception String

/-- `on_change_cb`: whether the call returns. -/
abbrev on_change_cb (α : Type) := α → α → Except Exception Unit

/-- A call of the listener with a given key. -/
structure Notification (α : Type) where
  key : Nat
  old_value : α
  new_value : α
deriving DecidableEq, Repr

/-- `ConfigVar<T>`. -/
structure ConfigVar (α : Type) where
  name : String
  description : String
  val : α
  cbs : Keyed (Prod.fst : Nat × on_change_cb α → Nat)

/-- `std::transform` with `::tolower`. -/
def tolower (s : String) : String := String.ofList (s.toList.map Char.toLower)

namespace ConfigVar

variable {α : Type}

/-- The constructor. -/
def new (name : String) (default_value : α) (description : String) : ConfigVar α :=
  { name := tolower name, description, val := default_value, cbs := .empty }

/-- The loop over the listeners, which ends at the first that throws. -/
def notify (old_value new_value : α) :
    List (Nat × on_change_cb α) → List (Notification α) × Except Exception Unit
  | [] => ([], .ok ())
  | i :: cbs =>
      match i.2 old_value new_value with
      | .error e => ([⟨i.1, old_value, new_value⟩], .error e)
      | .ok () =>
          let r := notify old_value new_value cbs
          (⟨i.1, old_value, new_value⟩ :: r.1, r.2)

/-- `setValue`: the calls of listeners, how it ends, and the variable it leaves. -/
def setValue [BEq α] (c : ConfigVar α) (v : α) :
    List (Notification α) × Except Exception Unit × ConfigVar α :=
  if v == c.val then ([], .ok (), c)
  else
    let r := notify c.val v c.cbs.toList
    match r.2 with
    | .error e => (r.1, .error e, c)
    | .ok () => (r.1, .ok (), { c with val := v })

/-- `fromString`, which catches what is thrown and always returns `false`. -/
def fromString [BEq α] (cast : LexicalCast α) (c : ConfigVar α) (val : String) :
    List (Notification α) × Bool × ConfigVar α :=
  match cast.fromString val with
  | .error _ => ([], false, c)
  | .ok v =>
      let r := c.setValue v
      (r.1, false, r.2.2)

/-! ## How they end -/

section Cases

variable {a b : α}

/-- The calls of listeners with the old and the new value. -/
def callsOf (old_value new_value : α) (cbs : List (Nat × on_change_cb α)) :
    List (Notification α) :=
  cbs.map fun i ↦ ⟨i.1, old_value, new_value⟩

/-- The loop ends at the first listener that throws. -/
theorem notify_cases (cbs : List (Nat × on_change_cb α)) :
    (∀ i ∈ cbs, i.2 a b = .ok ()) ∧ notify a b cbs = (callsOf a b cbs, .ok ()) ∨
      ∃ pre i post e, cbs = pre ++ i :: post ∧ (∀ j ∈ pre, j.2 a b = .ok ()) ∧
        i.2 a b = .error e ∧ notify a b cbs = (callsOf a b (pre ++ [i]), .error e) := by
  induction cbs with
  | nil => exact .inl ⟨by simp, rfl⟩
  | cons i cbs ih =>
      cases hi : i.2 a b with
      | error e =>
          refine .inr ⟨[], i, cbs, e, rfl, by simp, hi, ?_⟩
          rw [notify, hi]
          rfl
      | ok _ =>
          rcases ih with ⟨hall, hcalls⟩ | ⟨pre, j, post, e, rfl, hpre, hj, hcalls⟩
          · refine .inl ⟨List.forall_mem_cons.mpr ⟨hi, hall⟩, ?_⟩
            rw [notify, hi, hcalls]
            rfl
          · refine .inr ⟨i :: pre, j, post, e, rfl, List.forall_mem_cons.mpr ⟨hi, hpre⟩, hj, ?_⟩
            rw [notify, hi, hcalls]
            rfl

variable [BEq α] {c : ConfigVar α}

theorem setValue_same {v : α} (h : (v == c.val) = true) : c.setValue v = ([], .ok (), c) := by
  rw [setValue, if_pos h]

/-- The three ways in which `setValue` ends: the value is there already; every
listener returns and the value is stored; or a listener throws, after those before
it have been called, and nothing is stored. -/
theorem setValue_cases (c : ConfigVar α) (v : α) :
    (v == c.val) = true ∧ c.setValue v = ([], .ok (), c) ∨
    (v == c.val) = false ∧ (∀ i ∈ c.cbs, i.2 c.val v = .ok ()) ∧
      c.setValue v = (callsOf c.val v c.cbs.toList, .ok (), { c with val := v }) ∨
    (v == c.val) = false ∧ ∃ pre i post e, c.cbs.toList = pre ++ i :: post ∧
      (∀ j ∈ pre, j.2 c.val v = .ok ()) ∧ i.2 c.val v = .error e ∧
      c.setValue v = (callsOf c.val v (pre ++ [i]), .error e, c) := by
  cases hv : v == c.val with
  | true => exact .inl ⟨rfl, setValue_same hv⟩
  | false =>
      right
      rcases notify_cases (a := c.val) (b := v) c.cbs.toList with
        ⟨hall, hcalls⟩ | ⟨pre, i, post, e, hcbs, hpre, hi, hcalls⟩
      · exact .inl ⟨rfl, hall, by simp only [setValue, hv, hcalls, Bool.false_eq_true, if_false]⟩
      · exact .inr ⟨rfl, pre, i, post, e, hcbs, hpre, hi, by
          simp only [setValue, hv, hcalls, Bool.false_eq_true, if_false]⟩

theorem fromString_ok {cast : LexicalCast α} {val : String} {v : α}
    (hv : cast.fromString val = .ok v) :
    c.fromString cast val = ((c.setValue v).1, false, (c.setValue v).2.2) := by
  rw [fromString, hv]

theorem fromString_error {cast : LexicalCast α} {val : String} {e : Exception}
    (hv : cast.fromString val = .error e) : c.fromString cast val = ([], false, c) := by
  rw [fromString, hv]

end Cases

/-! ## The table of listeners -/

/-- `addListener`.  The counter is shared by all variables of the type; the key is
its new value. -/
def addListener (s_fun_id : Nat) (c : ConfigVar α) (cb : on_change_cb α) : Nat × ConfigVar α :=
  let s_fun_id := (s_fun_id + 1) % 2 ^ 64
  (s_fun_id, { c with cbs := c.cbs.assign (s_fun_id, cb) })

/-- The counter has not wrapped around. -/
theorem addListener_eq (c : ConfigVar α) {s_fun_id : Nat} (hb : s_fun_id + 1 < 2 ^ 64)
    (cb : on_change_cb α) :
    c.addListener s_fun_id cb =
      (s_fun_id + 1, { c with cbs := c.cbs.assign (s_fun_id + 1, cb) }) := by
  rw [addListener, Nat.mod_eq_of_lt hb]

/-- `delListener`. -/
def delListener (c : ConfigVar α) (key : Nat) : ConfigVar α := { c with cbs := c.cbs.erase key }

/-- `getListener`. -/
def getListener (c : ConfigVar α) (key : Nat) : Option (on_change_cb α) :=
  (c.cbs.find? key).map Prod.snd

/-- `clearListener`. -/
def clearListener (c : ConfigVar α) : ConfigVar α := { c with cbs := .empty }

end ConfigVar

end Sylar
