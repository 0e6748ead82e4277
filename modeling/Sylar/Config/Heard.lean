import Sylar.Config.ConfigVar
import Sylar.Thread.Guarded

/-!
# What threads find in one variable

All functions of `ConfigVar` take its lock: `getValue`, `toString` and `getListener` for
reading, the functions that change the table of listeners for writing.  `setValue` takes it
twice, for reading while it compares the values and calls the listeners, and for writing
when it stores.

Here any threads use one variable, guard by guard and access by access.  What each block
finds is told by the blocks that have ended before: the value stored last, and the listeners
registered and not removed since.  The counter `s_fun_id` is shared by all variables of a
type, each with a lock of its own, so the variable is taken to be the only one of its type.

A listener is told the two values, and whether it throws depends on them only.  Listeners
that have a state of their own are left out.
-/

namespace Sylar

open Foundation Yaml

/-- A variable, and the counter of its type. -/
structure GuardedVar (α : Type) where
  var : ConfigVar α
  s_fun_id : Nat

/-- The blocks that hold the lock of a variable. -/
inductive VarBlock (α : Type)
  | getValue
  | toString
  /-- The first block of `setValue`. -/
  | notify (v : α)
  /-- The second one. -/
  | store (v : α)
  | addListener (cb : on_change_cb α)
  | delListener (key : Nat)
  | getListener (key : Nat)
  | clearListener

namespace VarBlock

variable {α : Type}

def isRegistration : VarBlock α → Bool
  | addListener _ => true
  | _ => false

/-- The table of listeners may change. -/
def ChangesTable : VarBlock α → Prop
  | addListener _ | delListener _ | clearListener => True
  | _ => False

theorem isRegistration_eq_false {o : VarBlock α} (h : ¬ o.ChangesTable) :
    o.isRegistration = false := by
  cases o with
  | addListener _ => exact absurd trivial h
  | _ => rfl

end VarBlock

/-- What a block comes to. -/
inductive VarAnswer (α : Type)
  | value (v : α)
  | text (r : Except Exception String)
  /-- The calls of listeners, and whether the value is to be stored. -/
  | told (ns : List (Notification α)) (r : Except Exception Bool)
  | key (k : Nat)
  | listener (cb : Option (on_change_cb α))
  | done

namespace GuardedVar

variable {α U : Type}

/-! ## The blocks, access by access -/

/-- The loop over `m_cbs`, with the positions of the iterator. -/
def notifyLoop (v : α) :
    List Nat → Section (GuardedVar α) (List (Notification α) × Except Exception Unit)
  | [] => return ([], .ok ())
  | n :: ns => do
      match ← .read fun d ↦ d.var.cbs.toList[n]? with
      | none => return ([], .ok ())
      | some i =>
          let m_val ← .read fun d ↦ d.var.val
          match i.2 m_val v with
          | .error e => return ([⟨i.1, m_val, v⟩], .error e)
          | .ok () =>
              let r ← notifyLoop v ns
              return (⟨i.1, m_val, v⟩ :: r.1, r.2)

variable {v : α} {d : GuardedVar α}

theorem readOnly_notifyLoop (ns : List Nat) : (notifyLoop v ns).ReadOnly := by
  induction ns with
  | nil => exact Section.readOnly_pure
  | cons n ns ih =>
      refine Section.readOnly_read.bind fun i ↦ ?_
      cases i with
      | none => exact Section.readOnly_pure
      | some i =>
          refine Section.readOnly_read.bind fun m_val ↦ ?_
          show Section.ReadOnly (match i.2 m_val v with
            | .error e => _
            | .ok () => _)
          cases i.2 m_val v with
          | error e => exact Section.readOnly_pure
          | ok _ => exact ih.bind fun _ ↦ Section.readOnly_pure

/-- The loop calls the listeners from the position of the iterator on. -/
theorem run_notifyLoop {k size : Nat} (h : k + size = d.var.cbs.toList.length) :
    (notifyLoop v (List.range' k size)).run d =
      (ConfigVar.notify d.var.val v (d.var.cbs.toList.drop k), d) := by
  induction size generalizing k with
  | zero =>
      rw [List.drop_eq_nil_of_le (by omega)]
      rfl
  | succ size ih =>
      have hk : k < d.var.cbs.toList.length := by omega
      rw [List.drop_eq_getElem_cons hk, List.range'_succ, notifyLoop, ConfigVar.notify]
      simp only [Section.run_bind, Section.run_read, List.getElem?_eq_getElem hk]
      cases hcb : d.var.cbs.toList[k].2 d.var.val v with
      | error e => rfl
      | ok _ =>
          simp only [Section.run_bind, ih (k := k + 1) (by omega)]
          rfl

section Body

variable [BEq α] (cast : LexicalCast α)

/-- The accesses of each block. -/
def body : VarBlock α → Section (GuardedVar α) (VarAnswer α)
  | .getValue => do return .value (← .read fun d ↦ d.var.val)
  | .toString => do return .text (cast.toString (← .read fun d ↦ d.var.val))
  | .notify v => do
      if ← .read fun d ↦ v == d.var.val then return .told [] (.ok false)
      else
        let size ← .read fun d ↦ d.var.cbs.toList.length
        let r ← notifyLoop v (List.range size)
        return .told r.1 (r.2.map fun _ ↦ true)
  | .store v => do
      let _ ← .write fun d ↦ { d with var := { d.var with val := v } }
      return .done
  | .addListener cb => do
      let _ ← .write fun d ↦ { d with s_fun_id := (d.s_fun_id + 1) % 2 ^ 64 }
      let s_fun_id ← .read GuardedVar.s_fun_id
      let _ ← .write fun d ↦
        { d with var := { d.var with cbs := d.var.cbs.assign (s_fun_id, cb) } }
      return .key (← .read GuardedVar.s_fun_id)
  | .delListener key => do
      let _ ← .write fun d ↦ { d with var := d.var.delListener key }
      return .done
  | .getListener key => do return .listener (← .read fun d ↦ d.var.getListener key)
  | .clearListener => do
      let _ ← .write fun d ↦ { d with var := d.var.clearListener }
      return .done

/-- What a block finds, and what it leaves, when nothing comes in between. -/
def answer (d : GuardedVar α) : VarBlock α → VarAnswer α × GuardedVar α
  | .getValue => (.value d.var.val, d)
  | .toString => (.text (cast.toString d.var.val), d)
  | .notify v =>
      if v == d.var.val then (.told [] (.ok false), d)
      else
        let r := ConfigVar.notify d.var.val v d.var.cbs.toList
        (.told r.1 (r.2.map fun _ ↦ true), d)
  | .store v => (.done, { d with var := { d.var with val := v } })
  | .addListener cb =>
      let r := d.var.addListener d.s_fun_id cb
      (.key r.1, ⟨r.2, r.1⟩)
  | .delListener key => (.done, { d with var := d.var.delListener key })
  | .getListener key => (.listener (d.var.getListener key), d)
  | .clearListener => (.done, { d with var := d.var.clearListener })

/-- How each of them holds the lock. -/
def mode : VarBlock α → Mode
  | .getValue | .toString | .notify _ | .getListener _ => .shared
  | .store _ | .addListener _ | .delListener _ | .clearListener => .exclusive

/-- The accesses of a block, without interruption, are the block. -/
theorem run_body (o : VarBlock α) : (body cast o).run d = d.answer cast o := by
  cases o with
  | notify v =>
      rw [body, answer, Section.run_bind, Section.run_read]
      cases hv : v == d.var.val with
      | true => rfl
      | false =>
          simp only [Bool.false_eq_true, if_false, Section.run_bind, Section.run_read]
          rw [List.range_eq_range', run_notifyLoop (Nat.zero_add _)]
          rfl
  | getValue | toString | store _ | addListener _ | delListener _ | getListener _
  | clearListener => rfl

theorem readOnly_of_shared (o : VarBlock α) (h : mode o = .shared) : (body cast o).ReadOnly := by
  cases o with
  | getValue | toString | getListener _ =>
      exact Section.readOnly_read.bind fun _ ↦ Section.readOnly_pure
  | notify v =>
      refine Section.readOnly_read.bind fun same ↦ ?_
      cases same with
      | true => exact Section.readOnly_pure
      | false =>
          refine Section.readOnly_read.bind fun size ↦ ?_
          exact (readOnly_notifyLoop _).bind fun _ ↦ Section.readOnly_pure
  | store _ | addListener _ | delListener _ | clearListener => cases h

/-- A variable with its lock. -/
def monitor : Monitor (GuardedVar α) (VarBlock α) (VarAnswer α) where
  mode := mode
  body := body cast
  shared := readOnly_of_shared cast

/-- `setValue` is the one block, and the other if the first one says so. -/
theorem setValue_eq : ∃ ns r, d.answer cast (.notify v) = (.told ns r, d) ∧
    d.var.setValue v = (ns, r.map fun _ ↦ (),
      if r matches .ok true then (d.answer cast (.store v)).2.var else d.var) := by
  rw [ConfigVar.setValue, answer]
  cases v == d.var.val with
  | true => exact ⟨_, _, rfl, rfl⟩
  | false =>
      refine ⟨_, _, rfl, ?_⟩
      simp only [Bool.false_eq_true, if_false]
      cases (ConfigVar.notify d.var.val v d.var.cbs.toList).2 with
      | ok _ => rfl
      | error e => rfl

end Body

/-! ## The blocks that have ended -/

/-- A block that has ended, with its thread and what it came to. -/
abbrev Ended (U α : Type) := U × VarBlock α × VarAnswer α

variable {a : α} {l : Ended U α} {ls : List (Ended U α)} {key k : Nat} {cb f : on_change_cb α}

/-- The value stored last. -/
def stored (a : α) (ls : List (Ended U α)) : α :=
  ls.foldl (fun v l ↦ match l.2.1 with | .store w => w | _ => v) a

/-- It registers a listener under the key. -/
def Registers (key : Nat) (cb : on_change_cb α) (l : Ended U α) : Prop :=
  l.2 = (.addListener cb, .key key)

/-- It removes the listener with the key. -/
def Removes (key : Nat) (l : Ended U α) : Prop :=
  l.2.1 = .delListener key ∨ l.2.1 = .clearListener

/-- The latest block that is about the key registers a listener under it. -/
def Registered (ls : List (Ended U α)) (key : Nat) (cb : on_change_cb α) : Prop :=
  ∃ l, Last (fun l ↦ Removes key l ∨ ∃ f, Registers key f l) ls l ∧ Registers key cb l

/-- How many of them register a listener. -/
def registrations (ls : List (Ended U α)) : Nat :=
  ls.countP fun l ↦ l.2.1.isRegistration

theorem stored_snoc : stored a (ls ++ [l]) =
    match l.2.1 with
    | .store w => w
    | _ => stored a ls := by
  rw [stored, List.foldl_append]
  rfl

theorem registered_snoc_of_about (h : Removes key l ∨ ∃ f, Registers key f l) :
    Registered (ls ++ [l]) key cb ↔ Registers key cb l := by
  constructor
  · rintro ⟨k, hk, hcb⟩
    rcases hk.snoc_cases with ⟨-, rfl⟩ | ⟨hno, -⟩
    · exact hcb
    · exact absurd h hno
  · intro hcb
    exact ⟨l, .here h, hcb⟩

theorem registered_snoc_of_not_about (h : ¬ (Removes key l ∨ ∃ f, Registers key f l)) :
    Registered (ls ++ [l]) key cb ↔ Registered ls key cb :=
  exists_congr fun _ ↦ and_congr_left fun _ ↦ Last.snoc_iff h

/-! ## What they leave -/

/-- The data that some blocks leave. -/
structure Left (a : α) (ls : List (Ended U α)) (d : GuardedVar α) : Prop where
  val : d.var.val = stored a ls
  s_fun_id : d.s_fun_id = registrations ls
  le : ∀ i ∈ d.var.cbs, i.1 ≤ d.s_fun_id
  cbs : ∀ i, i ∈ d.var.cbs ↔ Registered ls i.1 i.2

theorem not_about_of_not_changesTable {u : U} {o : VarBlock α} {r : VarAnswer α}
    (h : ¬ o.ChangesTable) : ¬ (Removes key (u, o, r) ∨ ∃ f, Registers key f (u, o, r)) := by
  rintro ((rfl | rfl) | ⟨f, hreg⟩)
  · exact h trivial
  · exact h trivial
  · obtain ⟨rfl, -⟩ := Prod.mk.inj hreg
    exact h trivial

variable {d d' : GuardedVar α} {u : U} {o : VarBlock α} {r : VarAnswer α}

theorem left_new {name description : String} :
    Left a ([] : List (Ended U α)) ⟨.new name a description, 0⟩ where
  val := rfl
  s_fun_id := rfl
  le := nofun
  cbs _ := ⟨nofun, fun ⟨_, h, _⟩ ↦ (Last.not_nil h).elim⟩

theorem registrations_snoc : registrations (ls ++ [l]) =
    registrations ls + if l.2.1.isRegistration then 1 else 0 := by
  rw [registrations, List.countP_append, List.countP_singleton]
  rfl

/-- The table of listeners stays. -/
theorem Left.keep (h : Left a ls d) (ho : ¬ o.ChangesTable)
    (hval : d'.var.val = stored a (ls ++ [(u, o, r)])) (hcbs : d'.var.cbs = d.var.cbs)
    (hid : d'.s_fun_id = d.s_fun_id) : Left a (ls ++ [(u, o, r)]) d' := by
  refine ⟨hval, ?_, fun i hi ↦ ?_, fun i ↦ ?_⟩
  · rw [hid, registrations_snoc, VarBlock.isRegistration_eq_false ho]
    exact h.s_fun_id
  · rw [hid]
    exact h.le i (hcbs ▸ hi)
  · rw [hcbs, h.cbs, registered_snoc_of_not_about (not_about_of_not_changesTable ho)]

/-- Some listeners are removed. -/
theorem Left.remove (h : Left a ls d) (ho : o.isRegistration = false) {c : ConfigVar α}
    (hval : c.val = stored a (ls ++ [(u, o, r)]))
    (hcbs : ∀ i, i ∈ c.cbs ↔ i ∈ d.var.cbs ∧ ¬ Removes i.1 (u, o, r)) :
    Left a (ls ++ [(u, o, r)]) { d with var := c } := by
  refine ⟨hval, ?_, fun i hi ↦ h.le i ((hcbs i).mp hi).1, fun i ↦ ?_⟩
  · rw [registrations_snoc, ho]
    exact h.s_fun_id
  · have hreg : ∀ f, ¬ Registers i.1 f (u, o, r) := by
      intro f hf
      obtain ⟨rfl, -⟩ := Prod.mk.inj hf
      cases ho
    rw [hcbs]
    by_cases hrem : Removes i.1 (u, o, r)
    · rw [registered_snoc_of_about (.inl hrem)]
      exact ⟨fun hi ↦ absurd hrem hi.2, fun hi ↦ absurd hi (hreg i.2)⟩
    · rw [registered_snoc_of_not_about (not_or.mpr ⟨hrem, fun ⟨f, hf⟩ ↦ hreg f hf⟩), h.cbs]
      exact and_iff_left hrem

/-- A listener is registered, under a key that is new. -/
theorem Left.register (h : Left a ls d) (cb : on_change_cb α)
    (hb : registrations ls + 1 < 2 ^ 64) :
    Left a (ls ++ [(u, .addListener cb, .key (registrations ls + 1))])
      ⟨(d.var.addListener d.s_fun_id cb).2, (d.var.addListener d.s_fun_id cb).1⟩ := by
  have hid := h.s_fun_id
  rw [ConfigVar.addListener_eq _ (hid ▸ hb), hid]
  have hlist := Keyed.assign_last (s := d.var.cbs) (a := (registrations ls + 1, cb))
    fun i hi ↦ Nat.lt_succ_of_le (hid ▸ h.le i hi)
  have hmem : ∀ i, i ∈ d.var.cbs.assign (registrations ls + 1, cb) ↔
      i ∈ d.var.cbs ∨ i = (registrations ls + 1, cb) := by
    intro i
    rw [Keyed.mem_def, hlist, List.mem_append, List.mem_singleton, Keyed.mem_def]
  refine ⟨?_, ?_, fun i hi ↦ ?_, fun i ↦ ?_⟩
  · rw [stored_snoc]
    exact h.val
  · rw [registrations_snoc]
    rfl
  · rcases (hmem i).mp hi with hi | rfl
    · exact Nat.le_succ_of_le (hid ▸ h.le i hi)
    · exact le_refl _
  · refine (hmem i).trans ?_
    by_cases hi : i.1 = registrations ls + 1
    · have hold : i ∉ d.var.cbs := fun hmem ↦ by
        have hle := hid ▸ h.le i hmem
        omega
      rw [registered_snoc_of_about (.inr ⟨cb, by rw [hi]; rfl⟩), or_iff_right hold]
      constructor
      · rintro rfl
        rfl
      · intro hreg
        have hcb : cb = i.2 := VarBlock.addListener.inj (Prod.mk.inj hreg).1
        exact Prod.ext hi hcb.symm
    · have hnot : ¬ (Removes i.1 (u, .addListener cb, .key (registrations ls + 1)) ∨
          ∃ f, Registers i.1 f (u, .addListener cb, .key (registrations ls + 1))) := by
        rintro ((hrem | hrem) | ⟨f, hreg⟩)
        · cases hrem
        · cases hrem
        · exact hi (VarAnswer.key.inj (Prod.mk.inj hreg).2).symm
      rw [registered_snoc_of_not_about hnot, ← h.cbs]
      exact or_iff_left fun heq ↦ hi (congrArg Prod.fst heq)

/-! ## What they tell -/

section Tells

variable [BEq α] (cast : LexicalCast α)

/-- What a block finds is told by those that have ended before. -/
inductive Tells (a : α) (pre : List (Ended U α)) : VarBlock α → VarAnswer α → Prop
  | getValue : Tells a pre .getValue (.value (stored a pre))
  | toString : Tells a pre .toString (.text (cast.toString (stored a pre)))
  /-- The value is there already. -/
  | same {v : α} : (v == stored a pre) = true → Tells a pre (.notify v) (.told [] (.ok false))
  /-- The listeners are called in the order of their keys, with the value stored last, up to
  the first that throws. -/
  | notify {v : α} {cbs : List (Nat × on_change_cb α)} : (v == stored a pre) = false →
      (cbs.Pairwise fun i j ↦ i.1 < j.1) → (∀ i, i ∈ cbs ↔ Registered pre i.1 i.2) →
      Tells a pre (.notify v) (.told (ConfigVar.notify (stored a pre) v cbs).1
        ((ConfigVar.notify (stored a pre) v cbs).2.map fun _ ↦ true))
  | store {v : α} : Tells a pre (.store v) .done
  | addListener {cb : on_change_cb α} :
      Tells a pre (.addListener cb) (.key (registrations pre + 1))
  | delListener {key : Nat} : Tells a pre (.delListener key) .done
  | getListener {key : Nat} {cb : Option (on_change_cb α)} :
      (∀ f, cb = some f ↔ Registered pre key f) → Tells a pre (.getListener key) (.listener cb)
  | clearListener : Tells a pre .clearListener .done

variable {cast}

/-- What a block finds. -/
theorem Left.tells (h : Left a ls d) (o : VarBlock α)
    (hb : o.isRegistration = true → registrations ls + 1 < 2 ^ 64) :
    Tells cast a ls o (d.answer cast o).1 := by
  cases o with
  | getValue =>
      rw [answer, h.val]
      exact .getValue
  | toString =>
      rw [answer, h.val]
      exact .toString
  | notify v =>
      rw [answer, h.val]
      cases hv : v == stored a ls with
      | true => exact .same hv
      | false => exact .notify hv d.var.cbs.sorted h.cbs
  | store v => exact .store
  | addListener cb =>
      rw [answer, ConfigVar.addListener_eq _ (h.s_fun_id ▸ hb rfl), h.s_fun_id]
      exact .addListener
  | delListener key => exact .delListener
  | getListener key =>
      refine .getListener fun f ↦ ?_
      rw [ConfigVar.getListener, ← h.cbs (key, f), Option.map_eq_some_iff]
      constructor
      · rintro ⟨i, hi, rfl⟩
        obtain ⟨hmem, rfl⟩ := Keyed.find?_eq_some.mp hi
        exact hmem
      · intro hmem
        exact ⟨_, Keyed.find?_eq_some.mpr ⟨hmem, rfl⟩, rfl⟩
  | clearListener => exact .clearListener

/-- One block after the other, each by some thread. -/
def Blocks (cast : LexicalCast α) (d : GuardedVar α) (l : Ended U α) (d' : GuardedVar α) : Prop :=
  d.answer cast l.2.1 = (l.2.2, d')

/-- What a block leaves. -/
theorem Left.step (h : Left a ls d) (hs : Blocks cast d l d')
    (hb : l.2.1.isRegistration = true → registrations ls + 1 < 2 ^ 64) :
    Left a (ls ++ [l]) d' := by
  obtain ⟨u, o, r⟩ := l
  cases o with
  | getValue | toString | getListener key =>
      obtain ⟨rfl, rfl⟩ := Prod.mk.inj hs
      exact h.keep id (by rw [stored_snoc, h.val]) rfl rfl
  | notify v =>
      have hsnd : (d.answer cast (.notify v)).2 = d' := congrArg Prod.snd hs
      obtain rfl : d = d' := by
        rw [← hsnd, answer]
        split
        · rfl
        · rfl
      exact h.keep id (by rw [stored_snoc, h.val]) rfl rfl
  | store v =>
      obtain ⟨rfl, rfl⟩ := Prod.mk.inj hs
      exact h.keep id (by rw [stored_snoc]) rfl rfl
  | addListener cb =>
      obtain ⟨rfl, rfl⟩ := Prod.mk.inj hs
      have hkey : (d.var.addListener d.s_fun_id cb).1 = registrations ls + 1 := by
        rw [ConfigVar.addListener_eq _ (h.s_fun_id ▸ hb rfl), h.s_fun_id]
      have hleft := h.register (u := u) cb (hb rfl)
      rw [← hkey] at hleft
      exact hleft
  | delListener key =>
      obtain ⟨rfl, rfl⟩ := Prod.mk.inj hs
      refine h.remove rfl (by rw [stored_snoc]; exact h.val) fun i ↦ ?_
      refine Keyed.mem_erase.trans (and_congr_right fun _ ↦ not_congr ?_)
      constructor
      · rintro rfl
        exact .inl rfl
      · rintro (hrem | hrem)
        · exact (VarBlock.delListener.inj hrem).symm
        · cases hrem
  | clearListener =>
      obtain ⟨rfl, rfl⟩ := Prod.mk.inj hs
      refine h.remove rfl (by rw [stored_snoc]; exact h.val) fun i ↦ ?_
      exact ⟨nofun, fun hi ↦ absurd (.inr rfl) hi.2⟩

/-- **Run lemma.** -/
theorem left_of_run {name description : String}
    (h : Run (Blocks cast) ⟨.new name a description, 0⟩ ls d)
    (hb : registrations ls < 2 ^ 64) :
    Left a ls d ∧ Each (fun pre l ↦ Tells cast a pre l.2.1 l.2.2) ls := by
  revert hb
  refine h.history (P := fun ls d ↦ registrations ls < 2 ^ 64 →
    Left a ls d ∧ Each (fun pre l ↦ Tells cast a pre l.2.1 l.2.2) ls)
    (fun _ ↦ ⟨left_new, .nil⟩) ?_
  intro ls d l d' _ ih hs hb
  rw [registrations_snoc] at hb
  obtain ⟨hleft, htells⟩ := ih (by omega)
  have hone : l.2.1.isRegistration = true → registrations ls + 1 < 2 ^ 64 := by
    intro hl
    rwa [hl] at hb
  refine ⟨hleft.step hs hone, htells.snoc ?_⟩
  have hl : Tells cast a ls l.2.1 (d.answer cast l.2.1).1 := hleft.tells l.2.1 hone
  rwa [show (d.answer cast l.2.1).1 = l.2.2 from congrArg Prod.fst hs] at hl

end Tells

/-! ## In any interleaving -/

section Threads

variable [BEq α] [DecidableEq U] {cast : LexicalCast α} {name description : String}
variable {tr : List (U × RWMutex.Caller.Event (VarBlock α) (VarAnswer α))}
variable {s : Threads U (RWMutex × GuardedVar α)
  (RWMutex.Caller (GuardedVar α) (VarBlock α) (VarAnswer α))}

/-- **What listeners hear from many threads.**  Any threads use a variable through its
guards.  Each block that has given the lock back found what those before it tell: the value
stored last, and the listeners registered and not removed, under keys that go up by one.
Each that has the lock will find what all of them tell. -/
theorem threads_heard
    (h : Run (Threads.Step (RWMutex.Caller.Step (monitor cast)))
      (RWMutex.begin U (VarBlock α) (VarAnswer α) ⟨.new name a description, 0⟩) tr s)
    (hb : registrations (RWMutex.unlocked tr) + 1 < 2 ^ 64) :
    Each (fun pre l ↦ Tells cast a pre l.2.1 l.2.2) (RWMutex.unlocked tr) ∧
    ∀ t x, (s.own t).holder = some x →
      Tells cast a (RWMutex.unlocked tr) x.op (x.rest.run s.shared.2).1 := by
  obtain ⟨d, hr, hlin⟩ := RWMutex.linear_of_run h
  have hblocks : Run (Blocks cast) ⟨.new name a description, 0⟩ (RWMutex.unlocked tr) d :=
    hr.mono fun d l d' hc ↦ (run_body cast _).symm.trans hc
  obtain ⟨hleft, htells⟩ := left_of_run hblocks (by omega)
  refine ⟨htells, fun t x hx ↦ ?_⟩
  have hresumes : x.rest.run s.shared.2 = d.answer cast x.op :=
    (hlin.resumes t x hx).trans (run_body cast x.op)
  rw [hresumes]
  exact hleft.tells x.op fun _ ↦ hb

end Threads

/-- A listener that returns. -/
def returning : on_change_cb Int := fun _ _ ↦ .ok ()

/-- `LexicalCast` of `int`, for texts that are not read. -/
def writing : LexicalCast Int := ⟨fun _ ↦ .error .bad_lexical_cast, fun n ↦ .ok (toString n)⟩

/-- One thread registers a listener, and another sets the variable. -/
def listening : List (Bool × RWMutex.Caller.Event (VarBlock Int) (VarAnswer Int)) :=
  [(false, .call (.addListener returning) true), (false, .lock (.addListener returning)),
    (true, .call (.notify 9) false), (false, .m_locked true), (false, .access), (false, .access),
    (false, .access), (false, .access), (false, .destruct),
    (false, .unlock (.addListener returning) (.key 1)), (true, .lock (.notify 9)),
    (true, .m_locked true), (false, .m_locked false), (true, .access), (true, .access),
    (true, .access), (true, .access), (true, .destruct),
    (true, .unlock (.notify 9) (.told [⟨1, 8080, 9⟩] (.ok true)))]

theorem listening_run : ∃ s, Run (Threads.Step (RWMutex.Caller.Step (monitor writing)))
    (RWMutex.begin Bool (VarBlock Int) (VarAnswer Int) ⟨.new "system.port" 8080 "", 0⟩)
    listening s := by
  refine ⟨_, .cons (.mk (.call _ _ rfl)) <| .cons (.mk (.lock rfl)) <|
    .cons (.mk (.call _ _ rfl)) <| .cons (.mk (.m_locked rfl)) <|
    .cons (.mk (.access rfl rfl)) <| .cons (.mk (.access rfl rfl)) <|
    .cons (.mk (.access rfl rfl)) <| .cons (.mk (.access rfl rfl)) <|
    .cons (.mk (.destruct rfl)) <| .cons (.mk (.unlock rfl)) <| .cons (.mk (.lock rfl)) <|
    .cons (.mk (.m_locked rfl)) <| .cons (.mk (.m_locked rfl)) <|
    .cons (.mk (.access rfl rfl)) <| .cons (.mk (.access rfl rfl)) <|
    .cons (.mk (.access rfl rfl)) <| .cons (.mk (.access rfl rfl)) <|
    .cons (.mk (.destruct rfl)) <| .cons (.mk (.unlock rfl)) <| .nil _⟩

theorem threads_heard_listening :
    Tells writing (8080 : Int) [(false, .addListener returning, .key 1)] (.notify 9)
      (.told [⟨1, 8080, 9⟩] (.ok true)) := by
  obtain ⟨s, hs⟩ := listening_run
  have hb : registrations (RWMutex.unlocked listening) + 1 < 2 ^ 64 := by decide
  exact (threads_heard hs hb).1 _ (true, _, _) [] rfl

end GuardedVar

end Sylar
