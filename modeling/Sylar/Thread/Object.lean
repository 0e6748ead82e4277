import Sylar.Foundation.Run
import Mathlib.Data.Set.Basic
import Mathlib.Logic.Function.Basic

/-!
# The start of a thread

The constructor of `Thread` starts a thread that executes `Thread::run` on the
object under construction, and waits on a semaphore of the object until `run` has
taken from it what it needs.

The waiting can fail: `sem_wait` returns with an error when a signal interrupts
it, `Semaphore::wait` throws, and with the constructor left in this way the members
of the object are destroyed.

`run` remembers the object in `t_thread`, so that the callback can still reach it,
through `Thread::SetName` and through the pointer `Thread::GetThis` returns.
-/

namespace Sylar

open Foundation

/-- `Thread`, without the handle `m_thread`.  A callback may be empty. -/
structure Thread (F : Type) where
  m_id : Int := -1
  m_cb : Option F
  m_name : String
  /-- The count of the semaphore. -/
  m_semaphore : Nat := 0

namespace Thread

/-- The members that `run` works on. -/
inductive Member
  | m_name | m_cb | m_id | m_semaphore
deriving DecidableEq, Repr

/-- Where the constructor is. -/
inductive Constructor
  /-- The members are initialised, and `pthread_create` is called. -/
  | creating
  /-- In `m_semaphore.wait()`. -/
  | waiting
  | returned
  /-- The constructor has thrown, and the members are destroyed. -/
  | threw
deriving DecidableEq, Repr

/-- What `run` executes next. -/
inductive Statement
  /-- `t_thread_name = thread->m_name`. -/
  | readName
  /-- `thread->m_id = sylar::GetThreadID()`. -/
  | setId
  /-- `pthread_setname_np`, with the beginning of `thread->m_name`. -/
  | setName
  /-- `cb.swap(thread->m_cb)`. -/
  | swap
  /-- `thread->m_semaphore.notify()`. -/
  | notify
  /-- `cb()`. -/
  | callback
  | done
deriving DecidableEq, Repr

/-- The members a statement reads or writes. -/
def Statement.touched : Statement → List Member
  | readName | setName => [.m_name]
  | setId => [.m_id]
  | swap => [.m_cb]
  | notify => [.m_semaphore]
  | callback | done => []

/-- The thread that executes `run`, with its local variables. -/
structure NewThread (F : Type) where
  tid : Nat
  next : Statement := .readName
  t_thread_name : String := "UNKNOW"
  cb : Option F := none

/-- What a callback does with the object of its thread. -/
inductive Use
  /-- `Thread::SetName`. -/
  | SetName (name : String)
  /-- `Thread::GetThis()->getName()`. -/
  | getName
  /-- `Thread::GetThis()->getID()`. -/
  | getID
deriving DecidableEq, Repr

/-- The member that is read or written. -/
def Use.member : Use → Member
  | SetName _ | getName => .m_name
  | getID => .m_id

/-- An object and the threads that work on it. -/
structure Startup (F : Type) where
  /-- The first argument of the constructor. -/
  cb : Option F
  object : Thread F
  constructor : Constructor := .creating
  run : Option (NewThread F) := none

/-- What happens to an object. -/
inductive Act (F : Type)
  /-- The constructor is called. -/
  | construct (cb : Option F) (name : String)
  /-- `pthread_create` starts a thread with an ID, or returns an error. -/
  | pthread_create (tid : Option Nat)
  /-- `sem_wait` in the constructor succeeds, or is interrupted. -/
  | sem_wait (success : Bool)
  /-- The new thread executes the next statement of `run`. -/
  | run
  /-- Its callback uses the object. -/
  | use (u : Use)
  /-- Its callback ends. -/
  | callbackEnds

namespace Startup

variable {F : Type}

/-- The members at the start of the body of the constructor. -/
def construct (cb : Option F) (name : String) : Startup F :=
  { cb, object := { m_cb := cb, m_name := if name = "" then "UNKNOW" else name } }

/-- `run`, statement by statement, up to the callback. -/
def execute (x : Startup F) (t : NewThread F) : Option (Startup F) :=
  match t.next with
  | .readName =>
      some { x with run := some { t with t_thread_name := x.object.m_name, next := .setId } }
  | .setId =>
      some { x with
        object := { x.object with m_id := t.tid }
        run := some { t with next := .setName } }
  | .setName => some { x with run := some { t with next := .swap } }
  | .swap =>
      some { x with
        object := { x.object with m_cb := t.cb }
        run := some { t with cb := x.object.m_cb, next := .notify } }
  | .notify =>
      some { x with
        object := { x.object with m_semaphore := x.object.m_semaphore + 1 }
        run := some { t with next := .callback } }
  | .callback | .done => none

/-- A use of the object in the callback. -/
def use (x : Startup F) (t : NewThread F) : Use → Startup F
  | .SetName name =>
      { x with
        object := { x.object with m_name := name }
        run := some { t with t_thread_name := name } }
  | .getName | .getID => x

/-- The steps of the constructor and of the new thread on one object.  `calls` says
for each callback how it may use the object. -/
inductive Step (calls : F → Set Use) : Option (Startup F) → Act F → Startup F → Prop
  | construct {cb : Option F} {name : String} :
      Step calls none (.construct cb name) (.construct cb name)
  | create {x : Startup F} {tid : Nat} : x.constructor = .creating →
      Step calls (some x) (.pthread_create (some tid))
        { x with constructor := .waiting, run := some { tid } }
  | create_error {x : Startup F} : x.constructor = .creating →
      Step calls (some x) (.pthread_create none) { x with constructor := .threw }
  | wait {x : Startup F} : x.constructor = .waiting → 0 < x.object.m_semaphore →
      Step calls (some x) (.sem_wait true)
        { x with
          object := { x.object with m_semaphore := x.object.m_semaphore - 1 }
          constructor := .returned }
  | wait_error {x : Startup F} : x.constructor = .waiting →
      Step calls (some x) (.sem_wait false) { x with constructor := .threw }
  | run {x x' : Startup F} {t : NewThread F} : x.run = some t → x.execute t = some x' →
      Step calls (some x) .run x'
  | use {x : Startup F} {t : NewThread F} {c : F} {u : Use} : x.run = some t →
      t.next = .callback → t.cb = some c → u ∈ calls c → Step calls (some x) (.use u) (x.use t u)
  | callbackEnds {x : Startup F} {t : NewThread F} : x.run = some t → t.next = .callback →
      Step calls (some x) .callbackEnds { x with run := some { t with next := .done } }

/-- The new thread reads or writes a member of the object. -/
def Touches (x : Startup F) : Act F → Member → Prop
  | .run, m => ∃ t, x.run = some t ∧ m ∈ t.next.touched
  | .use u, m => m = u.member
  | _, _ => False

end Startup

/-- The steps of any number of objects. -/
inductive Step {ι F : Type} [DecidableEq ι] (calls : F → Set Use) :
    (ι → Option (Startup F)) → ι × Act F → (ι → Option (Startup F)) → Prop
  | mk {s : ι → Option (Startup F)} {o : ι} {a : Act F} {x : Startup F} :
      Startup.Step calls (s o) a x → Step calls s (o, a) (Function.update s o (some x))

end Thread

end Sylar
