import Sylar.Fiber.Calls

/-!
# The `shared_ptr`s to the fibers

`Fiber` objects are owned by `shared_ptr`s: those user code has in variables,
those a fiber's own callback holds to the fiber, the local variable `cur` of
`MainFunc` and of a yield that has not returned, and `t_threadFiber`.  Here they
are counted next to the machine of `Machine.lean`.  `uses` is what the control
block counts, and the other fields say where the pointers are.

The destructor runs when the last one goes away.  A frame of user code may hold
pointers as well; they are outside the library, whatever stack they are on.
-/

namespace Sylar.Fibers

/-- A thread's fibers with the `shared_ptr`s to them. -/
structure Shared where
  machine : Machine
  /-- `use_count()`. -/
  uses : FiberId → Nat
  /-- The pointers in variables of user code. -/
  outside : FiberId → Nat
  /-- The pointers a fiber's own callback holds. -/
  captured : FiberId → Nat
  /-- The `cur`s on each stack, innermost first. -/
  curs : Option FiberId → List FiberId

namespace Shared

variable (s : Shared)

/-! ## Counting -/

def withMachine (m : Machine) : Shared := { s with machine := m }

/-- A pointer is copied. -/
def retain (f : FiberId) : Shared := { s with uses := Function.update s.uses f (s.uses f + 1) }

/-- `n` pointers go away.  With the last one the object is destroyed. -/
def release (f : FiberId) (n : Nat) : Except Fault Shared :=
  let s' := { s with uses := Function.update s.uses f (s.uses f - n) }
  if 0 < n ∧ s.uses f ≤ n then (s.machine.destroy f).map s'.withMachine else .ok s'

/-- `m_cb` is overwritten, and what it held goes away. -/
def dropCallback (f : FiberId) : Except Fault Shared :=
  { s with captured := Function.update s.captured f 0 }.release f (s.captured f)

/-- A local variable `cur` on the running stack. -/
def pushCur (cur : FiberId) : Shared :=
  { s with curs := Function.update s.curs s.machine.stack (cur :: s.curs s.machine.stack) }

/-- The innermost `cur` of a stack goes out of scope, or is reset. -/
def popCur (stack : Option FiberId) : Except Fault Shared :=
  match s.curs stack with
  | [] => .error .deadFrame
  | cur :: rest => { s with curs := Function.update s.curs stack rest }.release cur 1

/-! ## The functions of `fiber.cc` -/

/-- A saved context goes on.  Where it was saved by a yield, the yield returns. -/
def arrive : Landing → Except Fault Shared
  | .resumed c =>
      match c.point with
      | .afterYield _ => s.popCur c.stack
      | _ => .ok s
  | _ => .ok s

/-- Control has been transferred. -/
def transfer (r : Except Fault (Landing × Machine)) : Except Fault (Landing × Shared) := do
  let (l, m) ← r
  let s ← (s.withMachine m).arrive l
  .ok (l, s)

/-- `GetThis`.  The new main fiber is also held by `t_threadFiber`, which lets go of
the one it held before. -/
def getThis : Except Fault (FiberId × Shared) :=
  match s.machine.tFiber with
  | some f => .ok (f, s.retain f)
  | none =>
      let (f, m) := s.machine.getThis
      let s' : Shared := { s with machine := m, uses := Function.update s.uses f 2 }
      match s.machine.tThreadFiber with
      | none => .ok (f, s')
      | some t => (s'.release t 1).map fun s ↦ (f, s)

/-- `swapOut` called on `f`, which has to be alive. -/
def swapOut (f : FiberId) (p : Point) : Except Fault (Landing × Shared) :=
  match s.machine.fibers f with
  | none => .error .noObject
  | some _ => s.transfer (s.machine.swapOut f p)

/-- The end of `MainFunc`: `cur.reset()`, and `swapOut` through the raw pointer. -/
def finish (cur : FiberId) : Except Fault (Landing × Shared) := do
  let s ← s.popCur s.machine.stack
  s.swapOut cur .afterFinal

/-- `MainFunc` up to the call of the callback. -/
def mainFunc : Except Fault (Landing × Shared) := do
  let (cur, s) ← s.getThis
  let s := (s.withMachine (s.machine.goto s.machine.stack (cur :: s.machine.frames))).pushCur cur
  match (s.machine.fibers cur).bind Fiber.cb with
  | some cb => .ok (.started cur cb, s)
  | none => (s.withMachine (s.machine.setState cur .EXCEPT)).finish cur

/-- `MainFunc` from the normal end of the callback. -/
def callbackReturns : Except Fault (Landing × Shared) :=
  match s.machine.frames with
  | [] => .error .noObject
  | cur :: _ => do
      let s ← (s.withMachine (s.machine.setCb cur none)).dropCallback cur
      (s.withMachine (s.machine.setState cur .TERM)).finish cur

/-- `MainFunc` from an exception of the callback. -/
def callbackThrows : Except Fault (Landing × Shared) :=
  match s.machine.frames with
  | [] => .error .noObject
  | cur :: _ => (s.withMachine (s.machine.setState cur .EXCEPT)).finish cur

/-- `swapIn` on `f`. -/
def swapIn (f : FiberId) : Except Fault (Landing × Shared) :=
  match s.machine.fibers f with
  | none => .error .noObject
  | some fb =>
      if fb.state = .EXEC then .error (.assertion "m_state != EXEC")
      else
        match s.machine.tThreadFiber with
        | none => .error .nullPointer
        | some t =>
            let s := s.withMachine (s.machine.enter f t)
            match s.machine.fibers f with
            | none => .error .noObject
            | some fb =>
                if fb.ctx.point = .entry then
                  -- `makecontext` has made the stack empty
                  mainFunc { s with
                    machine := s.machine.goto fb.ctx.stack fb.ctx.frames
                    curs := Function.update s.curs fb.ctx.stack [] }
                else s.transfer (s.machine.resume fb.ctx)

/-- `YieldToReady` and `YieldToHold`. -/
def yieldTo (st : State) : Except Fault (Landing × Shared) := do
  let (cur, s) ← s.getThis
  let s := s.pushCur cur
  (s.withMachine (s.machine.setState cur st)).swapOut cur (.afterYield s.machine.clock)

/-- `reset`, after which the object has to be alive. -/
def reset (f : FiberId) : Except Fault Shared :=
  match s.machine.reset f with
  | .error e => .error e
  | .ok _ => do
      let s ← s.dropCallback f
      let m ← s.machine.reset f
      .ok (s.withMachine m)

end Shared

/-! ## Calls and runs -/

/-- What user code does: the calls of the library, and what can be done with a
pointer. -/
inductive RefAction
  | call (a : Action)
  /-- A pointer is copied into a variable. -/
  | copy (f : FiberId)
  /-- A variable with a pointer is destroyed or overwritten. -/
  | drop (f : FiberId)
  /-- A pointer is moved from a variable into the fiber's own callback. -/
  | capture (f : FiberId)
  /-- A pointer is moved from the fiber's own callback into a variable. -/
  | uncapture (f : FiberId)
deriving DecidableEq, Repr

namespace Shared

variable (s : Shared)

/-- The returned pointer is put in a variable. -/
def keep (f : FiberId) : Shared :=
  { s with outside := Function.update s.outside f (s.outside f + 1) }

/-- What an action does, apart from counting calls. -/
def perform : RefAction → Except Fault (Landing × Shared)
  | .call (.construct stacksize) =>
      .ok (.created s.machine.next,
        (({ s with machine := s.machine.newFiber stacksize }).retain s.machine.next).keep
          s.machine.next)
  | .call (.reset f) => (s.reset f).map fun s ↦ (.returns, s)
  | .call (.swapIn f) => s.swapIn f
  | .call (.swapOut f) => s.swapOut f (.afterSwapOut s.machine.clock)
  | .call .yieldToReady => s.yieldTo .READY
  | .call .yieldToHold => s.yieldTo .HOLD
  | .call .callbackReturns => s.callbackReturns
  | .call .callbackThrows => s.callbackThrows
  | .call .getThis => s.getThis.map fun r ↦ (.returns, r.2.keep r.1)
  | .call .mainFunc => s.mainFunc
  -- an object goes with the last pointer to it, and not otherwise
  | .call (.forget _) => .error .noObject
  | .call a => (s.machine.perform a).map fun r ↦ (r.1, s.withMachine r.2)
  | .copy f =>
      match s.machine.fibers f with
      | none => .error .noObject
      | some _ => .ok (.returns, (s.retain f).keep f)
  | .drop f =>
      if s.outside f = 0 then .error .noObject
      else ({ s with outside := Function.update s.outside f (s.outside f - 1) }.release f 1).map
        fun s ↦ (.returns, s)
  | .capture f =>
      match (s.machine.fibers f).bind Fiber.cb with
      | none => .error .noObject
      | some _ =>
          if s.outside f = 0 then .error .noObject
          else .ok (.returns, { s with
            outside := Function.update s.outside f (s.outside f - 1)
            captured := Function.update s.captured f (s.captured f + 1) })
  | .uncapture f =>
      if s.captured f = 0 then .error .noObject
      else .ok (.returns, { s with
        captured := Function.update s.captured f (s.captured f - 1)
        outside := Function.update s.outside f (s.outside f + 1) })

/-- One action. -/
def step (x : RefAction) : Except Fault (Landing × Shared) :=
  (s.perform x).map fun r ↦
    (r.1, r.2.withMachine { r.2.machine with clock := s.machine.clock + 1 })

/-- A thread that has not used fibers yet. -/
def fresh (stackSize : Nat) : Shared :=
  { machine := Machine.fresh stackSize, uses := fun _ ↦ 0, outside := fun _ ↦ 0
    captured := fun _ ↦ 0, curs := fun _ ↦ [] }

end Shared

/-- The actions that succeed, as a labelled transition relation. -/
def RefStep (s : Shared) (x : RefAction) (s' : Shared) : Prop := ∃ l, s.step x = .ok (l, s')

end Sylar.Fibers
