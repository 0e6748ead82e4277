import Sylar.Foundation.Run
import Mathlib.Algebra.Group.Nat.Defs
import Mathlib.Logic.Function.Basic

/-!
# The fibers of one thread

`fiber.cc` on a single thread: the `Fiber` objects, the two thread-local
pointers `t_fiber` and `t_threadFiber`, and the continuation that is running.

A `ucontext_t` is modelled by the continuation it stands for.  A continuation
is a point of the code together with the stack it runs on and the activations of
`MainFunc` on that stack, each with its local variable `cur`.  What user code
does between two calls into the library is left open: an execution is a sequence
of calls, and the point right after a call is named by the number of that call.
`getcontext`, `makecontext` and `swapcontext` then save and restore such
continuations exactly as specified.  A saved continuation goes on once: when its
stack has been run since, the activations it was saved in have returned or are
about to, and there is nothing left to go on with.

How many pointers there are to an object is not kept here.  The objects live as
if user code kept a pointer to each; only a main fiber that another one has taken
the place of may go away, by `forget`.
-/

namespace Sylar.Fibers

/-- The address of a `Fiber` object. -/
abbrev FiberId := Nat

/-- `Fiber::State`. -/
inductive State
  | INIT | HOLD | EXEC | TERM | READY | EXCEPT
deriving DecidableEq, Repr

/-- The points of the code at which a context can have been saved. -/
inductive Point
  /-- In `Fiber::Fiber()`, after its `getcontext`. -/
  | construction
  /-- The entry of `MainFunc`, set up by `makecontext`. -/
  | entry
  /-- After the `swapcontext` of the `swapIn` that was call number `k`. -/
  | afterSwapIn (k : Nat)
  /-- After the `swapcontext` of the yield that was call number `k`. -/
  | afterYield (k : Nat)
  /-- After the `swapcontext` of the `swapOut` that was call number `k`. -/
  | afterSwapOut (k : Nat)
  /-- In `MainFunc`, after its last `swapOut`. -/
  | afterFinal
deriving DecidableEq, Repr

/-- A saved `ucontext_t`.  The stack is `none` for the thread's own stack;
`frames` are the `cur` of the `MainFunc` activations on it, innermost first. -/
structure Context where
  stack : Option FiberId
  frames : List FiberId
  point : Point
deriving DecidableEq, Repr

/-- A `Fiber` object.  The callback is named by the number of the call that
installed it. -/
structure Fiber where
  /-- What `++s_fiber_id` gave, before it is cut to 64 bits. -/
  id : Nat
  stacksize : Nat
  /-- `m_stack` is not null. -/
  stack : Bool
  state : State
  ctx : Context
  cb : Option Nat
deriving DecidableEq, Repr

/-- `Fiber::getID`. -/
def Fiber.getID (fb : Fiber) : Nat := fb.id % 2 ^ 64

/-- The ways a call can go wrong. -/
inductive Fault
  /-- A `SYLAR_ASSERT` fails. -/
  | assertion (text : String)
  /-- The `SYLAR_ASSERT2(false, "never reach")` at the end of `MainFunc`. -/
  | neverReach
  /-- `t_threadFiber` is dereferenced while it is null. -/
  | nullPointer
  /-- A context is resumed whose stack has been run since it was saved. -/
  | deadFrame
  /-- The call is made on an object that does not exist, or a callback ends
  where none is running. -/
  | noObject
deriving DecidableEq, Repr

/-- Where control is after a call. -/
inductive Landing
  /-- The call has returned to its caller. -/
  | returns
  /-- The call has returned the new fiber at this address. -/
  | created (f : FiberId)
  /-- `MainFunc` with `cur = f` is running the callback installed in call `cb`. -/
  | started (f : FiberId) (cb : Nat)
  /-- A saved context goes on. -/
  | resumed (c : Context)
deriving DecidableEq, Repr

/-- The state `fiber.cc` keeps for one thread, with the continuation that is
running. -/
structure Machine where
  fibers : FiberId → Option Fiber
  /-- The next address the allocator returns. -/
  next : FiberId
  tFiber : Option FiberId
  tThreadFiber : Option FiberId
  /-- The stack control is on, `none` for the thread's own. -/
  stack : Option FiberId
  /-- The `MainFunc` activations on that stack. -/
  frames : List FiberId
  /-- The context in which each stack was left, if it has not been run since. -/
  left : Option FiberId → Option Context
  /-- The number of calls made so far. -/
  clock : Nat
  /-- The number of children constructed, which `s_fiber_id` has the last 64 bits of. -/
  sFiberId : Nat
  sFiberCount : Nat
  /-- The value of `g_fiber_stack_size`. -/
  stackSize : Nat

namespace Machine

/-- A thread that has not used fibers yet. -/
def fresh (stackSize : Nat) : Machine :=
  { fibers := fun _ ↦ none, next := 0, tFiber := none, tThreadFiber := none, stack := none,
    frames := [], left := fun _ ↦ none, clock := 0, sFiberId := 0, sFiberCount := 0, stackSize }

/-! ## Writes to one fiber -/

/-- Change the object at an address. -/
def modify (m : Machine) (f : FiberId) (g : Fiber → Fiber) : Machine :=
  { m with fibers := Function.update m.fibers f ((m.fibers f).map g) }

def setState (m : Machine) (f : FiberId) (st : State) : Machine :=
  m.modify f fun fb ↦ { fb with state := st }

def setCtx (m : Machine) (f : FiberId) (c : Context) : Machine :=
  m.modify f fun fb ↦ { fb with ctx := c }

def setCb (m : Machine) (f : FiberId) (cb : Option Nat) : Machine :=
  m.modify f fun fb ↦ { fb with cb := cb }

/-- Control goes to a stack. -/
def goto (m : Machine) (stack : Option FiberId) (frames : List FiberId) : Machine :=
  { m with stack, frames, left := Function.update m.left stack none }

/-- The continuation that is running, at a point of the code. -/
def here (m : Machine) (p : Point) : Context := ⟨m.stack, m.frames, p⟩

/-- The saving half of `swapcontext`: the running continuation is put in `f`, and
its stack is left. -/
def save (m : Machine) (f : FiberId) (p : Point) : Machine :=
  { m.setCtx f (m.here p) with left := Function.update m.left m.stack (some (m.here p)) }

/-- The context can still be gone on with. -/
def Pending (m : Machine) (c : Context) : Prop := m.left c.stack = some c

instance (m : Machine) (c : Context) : Decidable (m.Pending c) :=
  inferInstanceAs (Decidable (m.left c.stack = some c))

/-! ## The functions of `fiber.cc` -/

def setThis (m : Machine) (f : Option FiberId) : Machine := { m with tFiber := f }

/-- `Fiber::Fiber()`. -/
def newMain (m : Machine) : Machine :=
  { m with
    fibers := Function.update m.fibers m.next (some
      { id := 0, stacksize := 0, stack := false, state := .EXEC,
        ctx := m.here .construction, cb := none })
    next := m.next + 1
    tFiber := some m.next
    sFiberCount := m.sFiberCount + 1 }

/-- `Fiber::Fiber(cb, stacksize)`. -/
def newFiber (m : Machine) (stacksize : Nat) : Machine :=
  { m with
    fibers := Function.update m.fibers m.next (some
      { id := m.sFiberId + 1
        stacksize := (if stacksize ≠ 0 then stacksize else m.stackSize) % 2 ^ 32
        stack := true, state := .INIT, ctx := ⟨some m.next, [], .entry⟩, cb := some m.clock })
    next := m.next + 1
    sFiberId := m.sFiberId + 1
    sFiberCount := m.sFiberCount + 1 }

/-- `Fiber::~Fiber()`.  Nothing on the stack that is freed can be gone on with. -/
def destroy (m : Machine) (f : FiberId) : Except Fault Machine :=
  match m.fibers f with
  | none => .error .noObject
  | some fb =>
      let m := { m with
        fibers := Function.update m.fibers f none
        left := Function.update m.left (some f) none
        sFiberCount := m.sFiberCount - 1 }
      if fb.stack then
        if fb.state = .TERM ∨ fb.state = .INIT ∨ fb.state = .EXCEPT then .ok m
        else .error (.assertion "m_state == TERM || m_state == INIT || m_state == EXCEPT")
      else if fb.cb.isSome then .error (.assertion "!m_cb")
      else if fb.state ≠ .EXEC then .error (.assertion "m_state == EXEC")
      else .ok (if m.tFiber = some f then m.setThis none else m)

/-- The thread ends and `t_threadFiber`, which holds the last reference to the
main fiber, is destroyed. -/
def threadExit (m : Machine) : Except Fault Machine :=
  match m.tThreadFiber with
  | none => .ok m
  | some t => m.destroy t

/-- The last pointer to a main fiber goes away, after `t_threadFiber` has been
given another one. -/
def forget (m : Machine) (f : FiberId) : Except Fault Machine :=
  match m.fibers f with
  | none => .error .noObject
  | some fb =>
      if fb.stack = false ∧ m.tThreadFiber ≠ some f then m.destroy f else .error .noObject

/-- `Fiber::GetThis`: the main fiber is created by the first call, and again when
`t_fiber` is null.  The one that `t_threadFiber` gives up then is left to `forget`. -/
def getThis (m : Machine) : FiberId × Machine :=
  match m.tFiber with
  | some f => (f, m)
  | none => (m.next, { m.newMain with tThreadFiber := some m.next })

/-- `Fiber::GetFiberID`. -/
def getFiberID (m : Machine) : Nat :=
  match m.tFiber.bind m.fibers with
  | some fb => fb.getID
  | none => 0

/-- `Fiber::TotalFibers`. -/
def totalFibers (m : Machine) : Nat := m.sFiberCount

/-- `Fiber::reset`. -/
def reset (m : Machine) (f : FiberId) : Except Fault Machine :=
  match m.fibers f with
  | none => .error .noObject
  | some fb =>
      if fb.stack = false then .error (.assertion "m_stack")
      else if fb.state = .TERM ∨ fb.state = .EXCEPT ∨ fb.state = .INIT then
        .ok (((m.setCb f (some m.clock)).setCtx f ⟨some f, [], .entry⟩).setState f .INIT)
      else .error (.assertion "m_state == TERM || m_state == EXCEPT || m_state == INIT")

/-- Load a saved context other than the entry of `MainFunc`. -/
def resume (m : Machine) (c : Context) : Except Fault (Landing × Machine) :=
  if m.Pending c then
    match c.point with
    | .afterSwapIn _ | .afterYield _ | .afterSwapOut _ =>
        .ok (.resumed c, m.goto c.stack c.frames)
    | .afterFinal => .error .neverReach
    | .construction | .entry => .error .deadFrame
  else .error .deadFrame

/-- `Fiber::swapOut` on `f`, reached from the point `p` of the running
continuation.  The context loaded is the main fiber's, which `makecontext` never
sets up. -/
def swapOut (m : Machine) (f : FiberId) (p : Point) : Except Fault (Landing × Machine) :=
  match m.tThreadFiber with
  | none => .error .nullPointer
  | some t =>
      let m := (m.setThis (some t)).save f p
      match m.fibers t with
      | none => .error .noObject
      | some main => m.resume main.ctx

/-- `Fiber::MainFunc` up to the call of the callback.  Calling an empty function
throws `std::bad_function_call`, which takes the way of every exception. -/
def mainFunc (m : Machine) : Except Fault (Landing × Machine) :=
  let r := m.getThis
  let m := r.2.goto r.2.stack (r.1 :: r.2.frames)
  match (m.fibers r.1).bind Fiber.cb with
  | some cb => .ok (.started r.1 cb, m)
  | none => (m.setState r.1 .EXCEPT).swapOut r.1 .afterFinal

/-- `Fiber::MainFunc` from the normal end of the callback. -/
def callbackReturns (m : Machine) : Except Fault (Landing × Machine) :=
  match m.frames with
  | [] => .error .noObject
  | cur :: _ => ((m.setCb cur none).setState cur .TERM).swapOut cur .afterFinal

/-- `Fiber::MainFunc` from an exception of the callback. -/
def callbackThrows (m : Machine) : Except Fault (Landing × Machine) :=
  match m.frames with
  | [] => .error .noObject
  | cur :: _ => (m.setState cur .EXCEPT).swapOut cur .afterFinal

/-- `Fiber::swapIn` on `f`. -/
def swapIn (m : Machine) (f : FiberId) : Except Fault (Landing × Machine) :=
  match m.fibers f with
  | none => .error .noObject
  | some fb =>
      let m := m.setThis (some f)
      if fb.state = .EXEC then .error (.assertion "m_state != EXEC")
      else
        let m := m.setState f .EXEC
        match m.tThreadFiber with
        | none => .error .nullPointer
        | some t =>
            let m := m.save t (.afterSwapIn m.clock)
            match m.fibers f with
            | none => .error .noObject
            | some fb =>
                if fb.ctx.point = .entry then (m.goto fb.ctx.stack fb.ctx.frames).mainFunc
                else m.resume fb.ctx

/-- `Fiber::YieldToReady` and `Fiber::YieldToHold`. -/
def yieldTo (m : Machine) (st : State) : Except Fault (Landing × Machine) :=
  let r := m.getThis
  (r.2.setState r.1 st).swapOut r.1 (.afterYield r.2.clock)

end Machine

/-! ## Calls and runs -/

/-- The calls user code can make, the two ways a callback ends, and the end of a
main fiber that has been replaced. -/
inductive Action
  | construct (stacksize : Nat)
  | reset (f : FiberId)
  | swapIn (f : FiberId)
  | swapOut (f : FiberId)
  | yieldToReady
  | yieldToHold
  | callbackReturns
  | callbackThrows
  | getThis
  | setThis (f : Option FiberId)
  | mainFunc
  | totalFibers
  | getFiberID
  | forget (f : FiberId)
deriving DecidableEq, Repr

namespace Machine

/-- What a call does, apart from counting it. -/
def perform (m : Machine) : Action → Except Fault (Landing × Machine)
  | .construct stacksize => .ok (.created m.next, m.newFiber stacksize)
  | .reset f => (m.reset f).map fun m ↦ (.returns, m)
  | .swapIn f => m.swapIn f
  | .swapOut f =>
      match m.fibers f with
      | none => .error .noObject
      | some _ => m.swapOut f (.afterSwapOut m.clock)
  | .yieldToReady => m.yieldTo .READY
  | .yieldToHold => m.yieldTo .HOLD
  | .callbackReturns => m.callbackReturns
  | .callbackThrows => m.callbackThrows
  | .getThis => .ok (.returns, m.getThis.2)
  | .setThis f =>
      -- a pointer is null or designates a live object
      if ∀ g ∈ f, (m.fibers g).isSome then .ok (.returns, m.setThis f) else .error .noObject
  | .mainFunc => m.mainFunc
  | .totalFibers => .ok (.returns, m)
  | .getFiberID => .ok (.returns, m)
  | .forget f => (m.forget f).map fun m ↦ (.returns, m)

/-- One call. -/
def step (m : Machine) (a : Action) : Except Fault (Landing × Machine) :=
  (m.perform a).map fun r ↦ (r.1, { r.2 with clock := m.clock + 1 })

end Machine

/-- A call as it is observed: its number, the stack it was made on, the call and
where control went. -/
structure Event where
  time : Nat
  who : Option FiberId
  act : Action
  landing : Landing
deriving DecidableEq, Repr

/-- The calls that succeed, as a labelled transition relation. -/
def Step (m : Machine) (e : Event) (m' : Machine) : Prop :=
  m.step e.act = .ok (e.landing, m') ∧ e.time = m.clock ∧ e.who = m.stack

end Sylar.Fibers
