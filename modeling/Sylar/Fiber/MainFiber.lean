import Sylar.Fiber.Invariants

/-!
# The main fiber

Two things the rest of the library relies on: the main fiber is in state `EXEC`
whenever it runs, which `~Fiber` asserts when the thread exits, and while a child
runs, the main fiber's context is the continuation of its own last `swapIn`.

Neither holds of every run.  `YieldToReady`, `YieldToHold` and `MainFunc` act on
whatever fiber is current, also on the main fiber, and `swapIn` saves its caller
in the main fiber's slot, also when the caller is a child; so does `swapOut` when a
child makes it on the main fiber.  Both results are therefore stated for the runs
whose calls respect a condition, together with what a call that breaks it does.
-/

namespace Sylar.Fibers

open Foundation

/-- The continuation of the main fiber calls `swapIn`. -/
def Event.MainSwapsIn (x : Event) : Prop := x.who = none ∧ ∃ f, x.act = .swapIn f

namespace Machine

variable {m m' : Machine} {f g t : FiberId} {l : Landing} {e : Event} {n : Nat}
variable {tr : List Event}

/-! ## The state of the main fiber -/

/-- `swapIn` is called on child fibers, and the functions that end or suspend
the current fiber are called while that is a child. -/
def ActsOnChild (m : Machine) : Action → Prop
  | .swapIn f => m.IsChild f
  | .yieldToReady | .yieldToHold | .mainFunc => m.CurrentIsChild
  | _ => True

/-- Every stackless fiber is in state `EXEC`. -/
def StacklessExec : Machine → Prop := AllFibers fun fb ↦ fb.stack = false → fb.state = .EXEC

/-- Writing and leaving a child changes no stackless fiber. -/
theorem StacklessExec.leave (h : StacklessExec m) (hc : m.IsChild f) {u : Fiber → Fiber}
    {p : Point} (hok : (m.modify f u).swapOut f p = .ok (l, m'))
    (hu : ∀ fb, (u fb).stack = fb.stack) : StacklessExec m' := by
  refine AllFibers.leave h (fun fb hfb hs ↦ ?_) hok
  have hs : (u fb).stack = false := hs
  rw [hu, hc.stack_eq hfb] at hs
  cases hs

theorem StacklessExec.yieldTo (h : StacklessExec m) (hc : m.CurrentIsChild) {st : State}
    (hok : m.yieldTo st = .ok (l, m')) : StacklessExec m' := by
  obtain ⟨f, ht, hf⟩ := hc
  rw [yieldTo_eq ht] at hok
  exact h.leave hf hok fun _ ↦ rfl

theorem StacklessExec.callbackReturns (h : StacklessExec m) (hw : WellFormed m)
    (hok : m.callbackReturns = .ok (l, m')) : StacklessExec m' := by
  cases hfr : m.frames with
  | nil => simp [Machine.callbackReturns, hfr] at hok
  | cons cur rest =>
      rw [callbackReturns_eq hfr, setCb, setState, modify_modify] at hok
      exact h.leave (hw.running.1 cur (by simp [hfr])) hok fun _ ↦ rfl

theorem StacklessExec.callbackThrows (h : StacklessExec m) (hw : WellFormed m)
    (hok : m.callbackThrows = .ok (l, m')) : StacklessExec m' := by
  cases hfr : m.frames with
  | nil => simp [Machine.callbackThrows, hfr] at hok
  | cons cur rest =>
      rw [callbackThrows_eq hfr] at hok
      exact h.leave (hw.running.1 cur (by simp [hfr])) hok fun _ ↦ rfl

theorem StacklessExec.mainFunc (h : StacklessExec m) (hc : m.CurrentIsChild)
    (hok : m.mainFunc = .ok (l, m')) : StacklessExec m' := by
  obtain ⟨f, ht, hf⟩ := hc
  refine AllFibers.mainFunc h (fun g fb hg hfb _ hs ↦ ?_) hok
  rw [ht, Option.some.injEq] at hg
  have hs : fb.stack = false := hs
  rw [hf.stack_eq (hg ▸ hfb)] at hs
  cases hs

theorem StacklessExec.swapIn (h : StacklessExec m) (hf : m.IsChild f)
    (hok : m.swapIn f = .ok (l, m')) : StacklessExec m' := by
  obtain ⟨fb, t, c, _, _, _, _, hnext⟩ := swapIn_ok hok
  have hthis : StacklessExec (m.setThis (some f)) := h
  have hset : StacklessExec ((m.setThis (some f)).setState f .EXEC) :=
    AllFibers.modify hthis fun _ _ _ ↦ rfl
  have henter : StacklessExec (m.enter f t) :=
    AllFibers.modify hset fun fb hfb hs ↦ hset t fb hfb hs
  have hchild : (m.enter f t).IsChild f :=
    IsChild.modify (fun _ ↦ rfl) (IsChild.modify (fun _ ↦ rfl) (hf.of_eq rfl))
  rcases hnext with ⟨_, hmain⟩ | ⟨_, _, _, rfl⟩
  · have hgo : StacklessExec ((m.enter f t).goto c.stack c.frames) := henter
    exact hgo.mainFunc ⟨f, rfl, hchild.of_eq rfl⟩ hmain
  · exact henter

theorem StacklessExec.reset (h : StacklessExec m) (hok : m.reset f = .ok m') :
    StacklessExec m' := by
  obtain ⟨fb, hf, hst, _, rfl⟩ := reset_ok hok
  exact AllFibers.modify h fun _ _ _ ↦ by simp_all

theorem StacklessExec.perform (h : StacklessExec m) (hw : WellFormed m) {a : Action}
    (hg : m.ActsOnChild a) (hok : m.perform a = .ok (l, m')) : StacklessExec m' := by
  cases a with
  | construct n => cases hok; exact AllFibers.newFiber h (by simp)
  | reset f => exact h.reset (perform_reset_ok hok).2
  | swapIn f => exact h.swapIn hg hok
  | swapOut f =>
      -- a context is written, and no state
      exact AllFibers.swapOut (h.save fun fb hf ↦ h f fb hf) (perform_swapOut_ok hok).2
  | yieldToReady => exact h.yieldTo hg hok
  | yieldToHold => exact h.yieldTo hg hok
  | callbackReturns => exact h.callbackReturns hw hok
  | callbackThrows => exact h.callbackThrows hw hok
  | getThis => cases hok; exact AllFibers.getThis h (by simp)
  | setThis q => exact (perform_setThis_ok hok).2 ▸ h
  | mainFunc => exact h.mainFunc hg hok
  | totalFibers => cases hok; exact h
  | getFiberID => cases hok; exact h
  | forget f =>
      obtain ⟨_, _, _, _, hok⟩ := perform_forget_ok hok
      exact AllFibers.destroy h hok

theorem StacklessExec.step (h : StacklessExec m) (hw : WellFormed m) (hg : m.ActsOnChild e.act)
    (hs : Step m e m') : StacklessExec m' := by
  obtain ⟨m₁, hok, rfl⟩ := step_ok_iff.mp hs.1
  have hm : StacklessExec m₁ := h.perform hw hg hok
  exact hm

/-- In every run whose calls act on children, every stackless fiber is in state
`EXEC`. -/
theorem stacklessExec_of_run
    (h : Run (Guarded (fun m e ↦ m.ActsOnChild e.act) Step) (fresh n) tr m) : StacklessExec m :=
  h.invariant_given (fun _ _ _ hw hs ↦ WellFormed.step hw hs.2)
    (fun _ _ _ hw hI hs ↦ StacklessExec.step hI hw hs.1 hs.2) (wellFormed_fresh n)
    (by simp [StacklessExec, AllFibers, fresh])

/-- A yield while the main fiber is current writes the main fiber's state and
context and goes on where it was. -/
theorem yieldTo_main (hw : WellFormed m) (hc : m.CurrentIsMain) (st : State) :
    ∃ t main m', m.yieldTo st = .ok (.resumed (m.here (.afterYield m.clock)), m') ∧
      m'.tThreadFiber = some t ∧ m'.fibers t = some main ∧ main.stack = false ∧ main.cb = none ∧
      main.state = st ∧ main.ctx = m.here (.afterYield m.clock) ∧ m'.stack = m.stack := by
  obtain ⟨t, main, hthis, ht, hf, hs, hcb, hclock, hhere, hstack⟩ : ∃ t main,
      m.getThis.2.tFiber = some t ∧ m.getThis.2.tThreadFiber = some t ∧
      m.getThis.2.fibers t = some main ∧ main.stack = false ∧
      main.cb = none ∧ m.getThis.2.clock = m.clock ∧
      (∀ p, m.getThis.2.here p = m.here p) ∧ m.getThis.2.stack = m.stack := by
    cases htf : m.tFiber with
    | none => exact ⟨m.next, ⟨0, 0, false, .EXEC, m.here .construction, none⟩,
        by simp [getThis, htf, newMain], by simp [getThis, htf],
        by simp [getThis, htf, newMain, here], rfl, rfl,
        by simp [getThis, htf, newMain], by simp [getThis, htf, newMain, here],
        by simp [getThis, htf, newMain]⟩
    | some t =>
        have ht : m.tThreadFiber = some t := by
          rcases hc with hc | hc <;> simp [htf] at hc
          exact hc.symm
        obtain ⟨main, hf, hs, _⟩ := hw.thread t ht
        rw [getThis_of_some htf]
        exact ⟨t, main, htf, ht, hf, hs, hw.main_cb t main hf hs, rfl, fun _ ↦ rfl, rfl⟩
  have hout := yieldTo_self st hthis ht hf
  rw [yieldTo_getThis, hclock, hhere, hstack] at hout
  exact ⟨t, { main with state := st, ctx := m.getThis.2.here (.afterYield m.clock) }, _, hout,
    by simpa using ht, by simp [hf, here], hs, hcb, rfl, hhere _, rfl⟩

/-- When the thread exits, `~Fiber` of the main fiber passes its assertions. -/
def ExitsCleanly (m : Machine) : Prop := ∃ m', m.threadExit = .ok m'

/-- The main fiber, if there is one, is in state `EXEC`. -/
def MainExec (m : Machine) : Prop :=
  ∀ t main, m.tThreadFiber = some t → m.fibers t = some main → main.state = .EXEC

theorem StacklessExec.mainExec (h : StacklessExec m) (hw : WellFormed m) : m.MainExec := by
  intro t main ht hf
  obtain ⟨fb, hf', hs, _⟩ := hw.thread t ht
  rw [hf, Option.some.injEq] at hf'
  exact h t main hf (hf' ▸ hs)

theorem mainExec_iff {main : Fiber} (ht : m.tThreadFiber = some t)
    (hf : m.fibers t = some main) : m.MainExec ↔ main.state = .EXEC := by
  simp only [MainExec, ht, Option.some.injEq]
  constructor
  · intro h
    exact h t main rfl hf
  · rintro h _ main' rfl hf'
    rw [hf, Option.some.injEq] at hf'
    exact hf' ▸ h

/-- The exit of the thread depends on the state of the main fiber only. -/
theorem exitsCleanly_iff (hw : WellFormed m) : m.ExitsCleanly ↔ m.MainExec := by
  cases ht : m.tThreadFiber with
  | none => simp [ExitsCleanly, MainExec, threadExit, ht]
  | some t =>
      obtain ⟨main, hf, hs, _⟩ := hw.thread t ht
      have hcb := hw.main_cb t main hf hs
      rw [mainExec_iff ht hf]
      by_cases he : main.state = .EXEC <;>
        simp [ExitsCleanly, threadExit, ht, destroy, hf, hs, hcb, he]

/-- **The main fiber is in state `EXEC`** in every run in which `YieldToReady`,
`YieldToHold` and `MainFunc` are only called while a child is current, and the
thread then exits without a failed assertion.  A yield made while the main fiber
is current leaves control where it is and ends both. -/
theorem main_fiber_exec (n : Nat) :
    (∀ tr m, Run (Guarded (fun m e ↦ m.ActsOnChild e.act) Step) (fresh n) tr m →
      m.MainExec ∧ m.ExitsCleanly) ∧
    ∀ tr m, Run Step (fresh n) tr m → m.CurrentIsMain →
      ∀ a, a = .yieldToReady ∨ a = .yieldToHold → ∃ e m', e.act = a ∧ Step m e m' ∧
        m'.stack = m.stack ∧ ¬ m'.MainExec ∧ ¬ m'.ExitsCleanly := by
  refine ⟨fun tr m h ↦ ?_, fun tr m h hc a ha ↦ ?_⟩
  · have hw := wellFormed_of_run h.unguard
    have hm := (stacklessExec_of_run h).mainExec hw
    exact ⟨hm, (exitsCleanly_iff hw).mpr hm⟩
  · have hw := wellFormed_of_run h
    obtain ⟨st, hst, hperf⟩ : ∃ st, st ≠ State.EXEC ∧ m.perform a = m.yieldTo st := by
      rcases ha with rfl | rfl
      · exact ⟨.READY, by simp, rfl⟩
      · exact ⟨.HOLD, by simp, rfl⟩
    obtain ⟨t, main, m₁, hok, ht, hf, _, _, hmain, _, hstack⟩ := yieldTo_main hw hc st
    have hs : Step m ⟨m.clock, m.stack, a, .resumed (m.here (.afterYield m.clock))⟩
        { m₁ with clock := m.clock + 1 } := ⟨step_ok (hperf.trans hok), rfl, rfl⟩
    have hne : ¬ MainExec { m₁ with clock := m.clock + 1 } := fun hex ↦
      hst (hmain ▸ hex t main ht hf)
    exact ⟨_, _, rfl, hs, hstack, hne, fun hex ↦ hne ((exitsCleanly_iff (hw.step hs)).mp hex)⟩

/-- A child runs, yields and is resumed until its callback has ended. -/
def childRun : List Event :=
  [⟨0, none, .getThis, .returns⟩, ⟨1, none, .construct 0, .created 1⟩,
    ⟨2, none, .swapIn 1, .started 1 1⟩,
    ⟨3, some 1, .yieldToReady, .resumed ⟨none, [], .afterSwapIn 2⟩⟩,
    ⟨4, none, .swapIn 1, .resumed ⟨some 1, [1], .afterYield 3⟩⟩]

theorem main_fiber_exec_childRun : ∃ m,
    Run (Guarded (fun m e ↦ m.ActsOnChild e.act) Step) (fresh 1024) childRun m ∧
      m.MainExec ∧ m.ExitsCleanly := by
  obtain ⟨m, h⟩ : ∃ m,
      Run (Guarded (fun m e ↦ m.ActsOnChild e.act) Step) (fresh 1024) childRun m :=
    ⟨_, .cons ⟨trivial, rfl, rfl, rfl⟩ (.cons ⟨trivial, rfl, rfl, rfl⟩
      (.cons ⟨⟨_, rfl, rfl⟩, rfl, rfl, rfl⟩ (.cons ⟨⟨1, rfl, _, rfl, rfl⟩, rfl, rfl, rfl⟩
        (.cons ⟨⟨_, rfl, rfl⟩, rfl, rfl, rfl⟩ (.nil _)))))⟩
  exact ⟨m, h, (main_fiber_exec 1024).1 childRun m h⟩

/-- The main fiber creates itself by `GetThis` and calls `YieldToHold`. -/
theorem main_fiber_hold : ∃ m, Run Step (fresh 1024)
    [⟨0, none, .getThis, .returns⟩,
      ⟨1, none, .yieldToHold, .resumed ⟨none, [], .afterYield 1⟩⟩] m ∧
    m.stack = none ∧ ¬ m.MainExec ∧
    m.threadExit = .error (.assertion "m_state == EXEC") := by
  refine ⟨_, .cons ⟨rfl, rfl, rfl⟩ (.cons ⟨rfl, rfl, rfl⟩ (.nil _)), rfl, fun h ↦ ?_, rfl⟩
  have := h 0 _ rfl rfl
  cases this

/-! ## The continuation of the main fiber -/

/-- The calls that write the slot of the main fiber: `swapIn` always does, `swapOut`
when it is made on the main fiber, `GetThis` when it creates that, and the yields and
`MainFunc` when that is current. -/
def WritesMain (m : Machine) : Action → Prop
  | .swapIn _ => True
  | .swapOut f => m.tThreadFiber = some f
  | .getThis => m.tFiber = none
  | .yieldToReady | .yieldToHold | .mainFunc => m.CurrentIsMain
  | _ => False

/-- A `swapOut` that leaves the slot alone goes on in the context it holds. -/
theorem swapOut_mainCtx {p : Point} (hne : m.tThreadFiber ≠ some f ∨ p = .afterFinal)
    (h : m.swapOut f p = .ok (l, m')) :
    m'.mainCtx = m.mainCtx ∧ ∃ c, m.mainCtx = some c ∧ m'.stack = c.stack := by
  obtain ⟨t, main, c, ht, hf, hc, hs, -, -, rfl⟩ := swapOut_ok h
  have htf : t ≠ f := by
    rintro rfl
    rw [if_pos rfl] at hc
    rcases hne with hne | rfl
    · exact hne ht
    · exact hs.ne_final (by rw [hc]; rfl)
  rw [if_neg htf] at hc
  have hsame : ((m.setThis (some t)).setCtx f (m.here p)).mainCtx = (m.setThis (some t)).mainCtx :=
    mainCtx_modify_ne (by simp [ht, htf])
  exact ⟨hsame, c, hc ▸ mainCtx_eq ht hf, rfl⟩

/-- The same for a fiber that is written before it is left. -/
theorem leave_mainCtx {u : Fiber → Fiber} {p : Point} (hne : m.tThreadFiber ≠ some f)
    (h : (m.modify f u).swapOut f p = .ok (l, m')) :
    m'.mainCtx = m.mainCtx ∧ ∃ c, m.mainCtx = some c ∧ m'.stack = c.stack := by
  have := swapOut_mainCtx (.inl (by simpa using hne)) h
  rwa [mainCtx_modify_ne hne] at this

/-- Control stays on its stack, and the thread's own stack is left alone if that
is another one. -/
def Stays (m m' : Machine) : Prop :=
  m'.stack = m.stack ∧ (m.stack ≠ none → m'.left none = m.left none)

/-- The slot is left alone, and control stays on its stack or goes to the context in
the slot. -/
def KeepsMain (m m' : Machine) : Prop :=
  m'.mainCtx = m.mainCtx ∧ (m.Stays m' ∨ ∃ c, m.mainCtx = some c ∧ m'.stack = c.stack)

/-- `MainFunc` on a fiber other than the main one leaves the slot alone. -/
theorem mainFunc_mainCtx (hne : m.tFiber ≠ m.tThreadFiber) (h : m.mainFunc = .ok (l, m')) :
    m.KeepsMain m' := by
  obtain ⟨f, ht, ⟨_, _, _, _, _, rfl⟩ | ⟨_, hout⟩⟩ := mainFunc_ok h
  · exact ⟨rfl, .inl ⟨rfl, fun hs ↦ Function.update_of_ne hs.symm _ _⟩⟩
  · have hf : (m.goto m.stack (f :: m.frames)).tThreadFiber ≠ some f :=
      fun e ↦ hne (ht.trans e.symm)
    obtain ⟨hctx, hc⟩ := leave_mainCtx hf hout
    exact ⟨hctx, .inr hc⟩

/-- A call that does not write the slot leaves it alone. -/
theorem perform_keeps_main (hw : WellFormed m) {a : Action} (ha : ¬ m.WritesMain a)
    (h : m.perform a = .ok (l, m')) : m.KeepsMain m' := by
  have leave : ∀ {f : FiberId} {u : Fiber → Fiber} {p : Point}, m.tThreadFiber ≠ some f →
      (m.modify f u).swapOut f p = .ok (l, m') → m.KeepsMain m' := by
    intro f u p hne hout
    obtain ⟨hctx, hc⟩ := leave_mainCtx hne hout
    exact ⟨hctx, .inr hc⟩
  have yields : ∀ {st}, ¬ m.CurrentIsMain → m.yieldTo st = .ok (l, m') → m.KeepsMain m' := by
    intro st hc hy
    cases ht : m.tFiber with
    | none => exact absurd (.inl ht) hc
    | some f =>
        rw [yieldTo_eq ht] at hy
        exact leave (fun e ↦ hc (.inr (ht.trans e.symm))) hy
  have child : ∀ f, m.IsChild f → m.tThreadFiber ≠ some f :=
    fun f hf ht ↦ hw.toTable.thread_not_child ht hf
  have same : m.Stays m := ⟨rfl, fun _ ↦ rfl⟩
  cases a with
  | construct k =>
      cases h
      refine ⟨?_, .inl ⟨rfl, fun _ ↦ rfl⟩⟩
      cases ht : m.tThreadFiber with
      | none => simp [mainCtx, newFiber, ht]
      | some t =>
          obtain ⟨main, hf, _⟩ := hw.thread t ht
          simp [mainCtx, newFiber, ht, hw.toTable.ne_next hf]
  | reset f =>
      obtain ⟨fb, hf, hs, _, rfl⟩ := reset_ok (perform_reset_ok h).2
      exact ⟨mainCtx_modify_ne (child f ⟨fb, hf, hs⟩), .inl ⟨rfl, fun _ ↦ rfl⟩⟩
  | swapIn f => exact absurd trivial ha
  | swapOut f =>
      obtain ⟨hctx, hc⟩ := swapOut_mainCtx (.inl ha) (perform_swapOut_ok h).2
      exact ⟨hctx, .inr hc⟩
  | yieldToReady => exact yields ha h
  | yieldToHold => exact yields ha h
  | callbackReturns =>
      cases hfr : m.frames with
      | nil => simp [perform, callbackReturns, hfr] at h
      | cons cur rest =>
          rw [perform, callbackReturns_eq hfr, setCb, setState, modify_modify] at h
          exact leave (child cur (hw.running.1 cur (by simp [hfr]))) h
  | callbackThrows =>
      cases hfr : m.frames with
      | nil => simp [perform, callbackThrows, hfr] at h
      | cons cur rest =>
          rw [perform, callbackThrows_eq hfr] at h
          exact leave (child cur (hw.running.1 cur (by simp [hfr]))) h
  | getThis =>
      cases h
      cases ht : m.tFiber with
      | none => exact absurd ht ha
      | some f =>
          rw [getThis_of_some ht]
          exact ⟨rfl, .inl same⟩
  | setThis q => exact (perform_setThis_ok h).2 ▸ ⟨rfl, .inl same⟩
  | mainFunc => exact mainFunc_mainCtx (fun e ↦ ha (.inr e)) h
  | totalFibers => cases h; exact ⟨rfl, .inl same⟩
  | getFiberID => cases h; exact ⟨rfl, .inl same⟩
  | forget f =>
      obtain ⟨fb, hf, _, ht, hok⟩ := perform_forget_ok h
      obtain ⟨q, rfl⟩ := destroy_ok hok
      refine ⟨?_, .inl ⟨rfl, fun _ ↦ rfl⟩⟩
      cases htt : m.tThreadFiber with
      | none => simp [mainCtx, without, htt]
      | some t =>
          have htf : t ≠ f := fun e ↦ ht (by rw [htt, e])
          simp [mainCtx, without, htt, htf]

/-- `swapIn` saves its caller in the slot.  Where that was on the thread's own stack
and control has gone to another, it can be gone on with. -/
theorem swapIn_mainCtx (hw : WellFormed m) (h : m.swapIn f = .ok (l, m')) :
    m'.mainCtx = some (m.here (.afterSwapIn m.clock)) ∧
      (m.stack = none → m'.stack ≠ none → m'.Pending (m.here (.afterSwapIn m.clock))) := by
  obtain ⟨fb, t, c, hf, _, ht, hc, hnext⟩ := swapIn_ok h
  obtain ⟨main, hm, _⟩ := hw.thread t ht
  have henter : (m.enter f t).mainCtx = some (m.here (.afterSwapIn m.clock)) := enter_mainCtx ht hm
  have hleft : m.stack = none → ((m.enter f t).goto c.stack c.frames).stack ≠ none →
      ((m.enter f t).goto c.stack c.frames).left none =
        some (m.here (.afterSwapIn m.clock)) := by
    intro hs hne
    have hne : none ≠ c.stack := hne.symm
    rw [goto_left, Function.update_of_ne hne, ← hs]
    exact Function.update_self _ _ _
  rcases hnext with ⟨hp, hmain⟩ | ⟨_, _, _, rfl⟩
  · have hft : f ≠ t := by
      rintro rfl
      simp [hc, here] at hp
    have hcur : ((m.enter f t).goto c.stack c.frames).tFiber ≠
        ((m.enter f t).goto c.stack c.frames).tThreadFiber := by
      simpa [enter, ht] using hft
    obtain ⟨hctx, hstay⟩ := mainFunc_mainCtx hcur hmain
    refine ⟨hctx.trans henter, fun hs hne ↦ ?_⟩
    rw [Pending, here_stack, hs]
    rcases hstay with ⟨hstack, hsame⟩ | ⟨c', hc', hstack⟩
    · have hne := hstack ▸ hne
      exact (hsame hne).trans (hleft hs hne)
    · -- without a callback control is back already
      rw [show ((m.enter f t).goto c.stack c.frames).mainCtx = (m.enter f t).mainCtx from rfl,
        henter, Option.some.injEq] at hc'
      rw [hstack, ← hc'] at hne
      exact absurd hs hne
  · refine ⟨henter, fun hs hne ↦ ?_⟩
    rw [Pending, here_stack, hs]
    exact hleft hs hne

/-- The caller is put in the slot.  Only `swapIn` then moves control to another stack. -/
def PutsInMain (m : Machine) (a : Action) (m' : Machine) : Prop :=
  ∃ p, m'.mainCtx = some (m.here p) ∧
    (((∃ f, a = .swapIn f ∧ p = .afterSwapIn m.clock) ∧
      (m.stack = none → m'.stack ≠ none → m'.Pending (m.here p))) ∨
    (∀ f, a ≠ .swapIn f) ∧ m'.stack = m.stack)

/-- A call that writes the slot puts its caller there. -/
theorem perform_writes_main (hw : WellFormed m) {a : Action} (ha : m.WritesMain a)
    (h : m.perform a = .ok (l, m')) : m.PutsInMain a m' := by
  have yields : ∀ {st}, (∀ f, a ≠ .swapIn f) → m.CurrentIsMain → m.yieldTo st = .ok (l, m') →
      m.PutsInMain a m' := by
    intro st hne hc hy
    obtain ⟨t, main, m₁, hok, ht, hf, _, _, _, hctx, hstack⟩ := yieldTo_main hw hc st
    rw [hok] at hy
    cases hy
    exact ⟨_, hctx ▸ mainCtx_eq ht hf, .inr ⟨hne, hstack⟩⟩
  cases a with
  | swapIn f =>
      obtain ⟨hctx, hpending⟩ := swapIn_mainCtx hw h
      exact ⟨_, hctx, .inl ⟨⟨f, rfl, rfl⟩, hpending⟩⟩
  | swapOut f =>
      -- the main fiber is saved and goes on at once
      have ha : m.tThreadFiber = some f := ha
      obtain ⟨t, main, c, ht, hm, hc, _, _, _, rfl⟩ := swapOut_ok (perform_swapOut_ok h).2
      obtain rfl : t = f := Option.some.inj (ht.symm.trans ha)
      rw [if_pos rfl] at hc
      subst hc
      refine ⟨.afterSwapOut m.clock, ?_, .inr ⟨by simp, rfl⟩⟩
      simp [mainCtx, ht, hm, here]
  | getThis =>
      have ha : m.tFiber = none := ha
      cases h
      exact ⟨.construction, by simp [mainCtx, getThis, ha, newMain],
        .inr ⟨by simp, by simp [getThis, ha, newMain]⟩⟩
  | yieldToReady => exact yields (by simp) ha h
  | yieldToHold => exact yields (by simp) ha h
  | mainFunc =>
      -- `MainFunc` on the main fiber fails at its end
      exfalso
      obtain ⟨f, ht, hcases⟩ := mainFunc_ok h
      have hth : m.tThreadFiber = some f := by
        rcases ha with hn | he
        · rw [ht] at hn; cases hn
        · exact he ▸ ht
      obtain ⟨main, hf, hs, _⟩ := hw.thread f hth
      rcases hcases with ⟨fb, cb, hfb, hcb, _⟩ | ⟨_, hout⟩
      · rw [hw.main_cb f fb hfb (by rw [hf, Option.some.injEq] at hfb; exact hfb ▸ hs)] at hcb
        cases hcb
      · obtain ⟨t, _, c, ht', _, hc, hsus, _, _⟩ := swapOut_ok hout
        have e : t = f := by simpa [hth, eq_comm] using ht'
        rw [if_pos e] at hc
        exact hsus.ne_final (by rw [hc]; rfl)
  | construct k => exact absurd ha id
  | reset f => exact absurd ha id
  | callbackReturns => exact absurd ha id
  | callbackThrows => exact absurd ha id
  | setThis q => exact absurd ha id
  | totalFibers => exact absurd ha id
  | getFiberID => exact absurd ha id
  | forget f => exact absurd ha id

/-- `c` is the continuation that the main fiber saved in the last `swapIn` it
made in the run with trace `tr`. -/
def SavedByMain (n : Nat) (tr : List Event) (c : Context) : Prop :=
  ∃ pre x post m₀ m₁, tr = pre ++ x :: post ∧ x.MainSwapsIn ∧ (∀ y ∈ post, ¬ y.MainSwapsIn) ∧
    Run Step (fresh n) pre m₀ ∧ Step m₀ x m₁ ∧ c = m₀.here (.afterSwapIn m₀.clock)

/-- While control is not in the main fiber, its slot holds the continuation it
saved itself. -/
def MainKept (n : Nat) (tr : List Event) (m : Machine) : Prop :=
  m.stack ≠ none → ∃ c, m.mainCtx = some c ∧ SavedByMain n tr c

theorem SavedByMain.stack {c : Context} (h : SavedByMain n tr c) : c.stack = none := by
  obtain ⟨_, x, _, m₀, _, _, hx, _, _, hs, rfl⟩ := h
  exact hs.2.2.symm.trans hx.1

theorem SavedByMain.suspended {c : Context} (h : SavedByMain n tr c) : c.Suspended := by
  obtain ⟨_, _, _, m₀, _, _, _, _, _, _, rfl⟩ := h
  trivial

theorem SavedByMain.later {c : Context} (h : SavedByMain n tr c) (he : ¬ e.MainSwapsIn) :
    SavedByMain n (tr ++ [e]) c := by
  obtain ⟨pre, x, post, m₀, m₁, rfl, hx, hpost, hrun, hs, rfl⟩ := h
  refine ⟨pre, x, post ++ [e], m₀, m₁, by simp, hx, fun y hy ↦ ?_, hrun, hs, rfl⟩
  rcases List.mem_append.mp hy with hy | hy
  · exact hpost y hy
  · rwa [List.mem_singleton.mp hy]

/-- The slot is written from the main fiber only. -/
def WritesMainFromMain (m : Machine) (e : Event) : Prop := m.stack = none ∨ ¬ m.WritesMain e.act

/-- What is in the slot was running on the thread's own stack. -/
def MainHome (m : Machine) : Prop := ∀ c, m.mainCtx = some c → c.stack = none

theorem MainHome.step (hhome : MainHome m) (hw : WellFormed m) (hg : m.WritesMainFromMain e)
    (hs : Step m e m') : MainHome m' := by
  obtain ⟨m₁, hok, rfl⟩ := step_ok_iff.mp hs.1
  intro c hc
  have hc : m₁.mainCtx = some c := hc
  by_cases ha : m.WritesMain e.act
  · obtain ⟨p, hp, _⟩ := perform_writes_main hw ha hok
    rw [hc, Option.some.injEq] at hp
    rw [hp]
    exact hg.resolve_right (absurd ha)
  · exact hhome c ((perform_keeps_main hw ha hok).1 ▸ hc)

theorem MainKept.step (hw : WellFormed m) (hrun : Run Step (fresh n) tr m)
    (hhome : MainHome m) (hk : MainKept n tr m)
    (hg : m.WritesMainFromMain e) (hs : Step m e m') : MainKept n (tr ++ [e]) m' := by
  obtain ⟨m₁, hok, rfl⟩ := step_ok_iff.mp hs.1
  intro hne
  have hne : m₁.stack ≠ none := hne
  by_cases ha : m.WritesMain e.act
  · have hmain : m.stack = none := hg.resolve_right (absurd ha)
    obtain ⟨p, hp, ⟨⟨f, hf, rfl⟩, _⟩ | ⟨_, hstack⟩⟩ := perform_writes_main hw ha hok
    · exact ⟨_, hp, tr, e, [], m, _, rfl, ⟨hs.2.2.trans hmain, f, hf⟩, by simp, hrun, hs, rfl⟩
    · exact absurd (hstack.trans hmain) hne
  · obtain ⟨hctx, ⟨hstack, _⟩ | ⟨c, hc, hstack⟩⟩ := perform_keeps_main hw ha hok
    · obtain ⟨c, hc, hsaved⟩ := hk (hstack ▸ hne)
      refine ⟨c, hctx.trans hc, hsaved.later fun hx ↦ hne ?_⟩
      rw [hstack, ← hs.2.2]
      exact hx.1
    · exact absurd (hstack.trans (hhome c hc)) hne

/-- While control is not on the thread's own stack, what is in the slot can be gone
on with. -/
def MainReady (m : Machine) : Prop := m.stack ≠ none → ∀ c, m.mainCtx = some c → m.Pending c

theorem MainReady.step (hr : MainReady m) (hw : WellFormed m) (hhome : MainHome m)
    (hg : m.WritesMainFromMain e) (hs : Step m e m') : MainReady m' := by
  obtain ⟨m₁, hok, rfl⟩ := step_ok_iff.mp hs.1
  intro hne c hc
  have hne : m₁.stack ≠ none := hne
  have hc : m₁.mainCtx = some c := hc
  show m₁.Pending c
  by_cases ha : m.WritesMain e.act
  · have hmain : m.stack = none := hg.resolve_right (absurd ha)
    obtain ⟨p, hp, ⟨_, hpending⟩ | ⟨_, hstack⟩⟩ := perform_writes_main hw ha hok
    · obtain rfl := Option.some.inj (hc.symm.trans hp)
      exact hpending hmain hne
    · exact absurd (hstack.trans hmain) hne
  · obtain ⟨hctx, ⟨hstack, hleft⟩ | ⟨c', hc', hstack⟩⟩ := perform_keeps_main hw ha hok
    · have hne : m.stack ≠ none := hstack ▸ hne
      have hc : m.mainCtx = some c := hctx ▸ hc
      have hpending : m.left c.stack = some c := hr hne c hc
      rw [hhome c hc] at hpending
      rw [Pending, hhome c hc, hleft hne, hpending]
    · exact absurd (hstack.trans (hhome c' hc')) hne

theorem mainHome_of_run (h : Run (Guarded WritesMainFromMain Step) (fresh n) tr m) :
    MainHome m :=
  h.invariant_given (fun _ _ _ hw hs ↦ WellFormed.step hw hs.2)
    (fun _ _ _ hw hI hs ↦ MainHome.step hI hw hs.1 hs.2) (wellFormed_fresh n)
    (by simp [MainHome, mainCtx, fresh])

theorem mainReady_of_run (h : Run (Guarded WritesMainFromMain Step) (fresh n) tr m) :
    MainReady m := by
  refine h.invariant_given (J := fun m ↦ WellFormed m ∧ MainHome m)
    (fun _ _ _ hJ hs ↦ ⟨hJ.1.step hs.2, hJ.2.step hJ.1 hs.1 hs.2⟩)
    (fun _ _ _ hJ hI hs ↦ hI.step hJ.1 hJ.2 hs.1 hs.2) ⟨wellFormed_fresh n, ?_⟩ ?_
  · simp [MainHome, mainCtx, fresh]
  · simp [MainReady, fresh]

theorem mainKept_of_run (h : Run (Guarded WritesMainFromMain Step) (fresh n) tr m) :
    MainKept n tr m :=
  h.history (by simp [MainKept, fresh]) fun _ _ _ _ hr hk hs ↦
    hk.step (wellFormed_of_run hr.unguard) hr.unguard (mainHome_of_run hr) hs.1 hs.2

/-- The ends of a callback, the yields of a fiber other than the main one, and
`swapOut` on one. -/
def Leaves (m : Machine) : Action → Prop
  | .swapOut f => m.tThreadFiber ≠ some f ∧ m.fibers f ≠ none
  | .yieldToReady | .yieldToHold => ¬ m.CurrentIsMain
  | .callbackReturns | .callbackThrows => True
  | _ => False

theorem swapOut_lands {c : Context} {p : Point} (hne : m.tThreadFiber ≠ some f)
    (hc : m.mainCtx = some c) (hs : c.Suspended) (hp : m.Pending c) (hstack : c.stack ≠ m.stack) :
    ∃ m', m.swapOut f p = .ok (.resumed c, m') ∧ m'.stack = c.stack := by
  obtain ⟨main, hbind, rfl⟩ := Option.map_eq_some_iff.mp hc
  obtain ⟨t, ht, hf⟩ := Option.bind_eq_some_iff.mp hbind
  have htf : t ≠ f := fun e ↦ hne (by rw [ht, e])
  have hsave : ((m.setThis (some t)).save f p).Pending main.ctx :=
    (pending_save (m.setThis (some t)) f p hstack).mpr hp
  exact ⟨_, by rw [swapOut_eq ht hf, if_neg htf]; exact resume_suspended hs hsave, rfl⟩

/-- Leaving a child brings control to the context in the slot. -/
theorem leaves_lands (hw : WellFormed m) {c : Context} (hstack : m.stack ≠ none)
    (hc : m.mainCtx = some c) (hs : c.Suspended) (hp : m.Pending c) (hcs : c.stack = none)
    {a : Action} (ha : m.Leaves a) :
    ∃ m', Step m ⟨m.clock, m.stack, a, .resumed c⟩ m' ∧ m'.stack = c.stack := by
  suffices key : ∃ m', m.perform a = .ok (.resumed c, m') ∧ m'.stack = c.stack by
    obtain ⟨m', hok, hm⟩ := key
    exact ⟨_, ⟨step_ok hok, rfl, rfl⟩, hm⟩
  have leave : ∀ {f : FiberId} {u : Fiber → Fiber} {p : Point}, m.tThreadFiber ≠ some f →
      ∃ m', (m.modify f u).swapOut f p = .ok (.resumed c, m') ∧ m'.stack = c.stack :=
    fun hne ↦ swapOut_lands (by simpa using hne) ((mainCtx_modify_ne hne).trans hc) hs hp
      (by rw [hcs]; exact hstack.symm)
  have yields : ∀ {st}, ¬ m.CurrentIsMain →
      ∃ m', m.yieldTo st = .ok (.resumed c, m') ∧ m'.stack = c.stack := by
    intro st hcur
    cases ht : m.tFiber with
    | none => exact absurd (.inl ht) hcur
    | some f =>
        rw [yieldTo_eq ht]
        exact leave fun e ↦ hcur (.inr (ht.trans e.symm))
  obtain ⟨cur, rest, hfr⟩ := List.exists_cons_of_ne_nil (hw.running.2 hstack)
  have hcur : m.tThreadFiber ≠ some cur := fun ht ↦
    hw.toTable.thread_not_child ht (hw.running.1 cur (by simp [hfr]))
  cases a with
  | swapOut f =>
      obtain ⟨fb, hf⟩ := Option.ne_none_iff_exists'.mp ha.2
      rw [perform, hf]
      exact swapOut_lands ha.1 hc hs hp (by rw [hcs]; exact hstack.symm)
  | yieldToReady => exact yields ha
  | yieldToHold => exact yields ha
  | callbackReturns =>
      rw [perform, callbackReturns_eq hfr, setCb, setState, modify_modify]
      exact leave hcur
  | callbackThrows =>
      rw [perform, callbackThrows_eq hfr]
      exact leave hcur
  | construct k => exact absurd ha id
  | reset f => exact absurd ha id
  | swapIn f => exact absurd ha id
  | getThis => exact absurd ha id
  | setThis q => exact absurd ha id
  | mainFunc => exact absurd ha id
  | totalFibers => exact absurd ha id
  | getFiberID => exact absurd ha id
  | forget f => exact absurd ha id

/-- **The main fiber's continuation is kept** in every run that writes its slot
from the main fiber only, and a child that yields or ends then goes on there.  A
call that writes the slot from a child, such as a nested `swapIn` or a `swapOut` on
the main fiber, loses it. -/
theorem main_continuation_kept (n : Nat) :
    (∀ tr m, Run (Guarded WritesMainFromMain Step) (fresh n) tr m → m.MainKept n tr ∧
      (m.stack ≠ none → ∃ c, m.mainCtx = some c ∧ ∀ a, m.Leaves a →
        ∃ m', Step m ⟨m.clock, m.stack, a, .resumed c⟩ m' ∧ m'.stack = none)) ∧
    ∀ tr m e m', Run Step (fresh n) tr m → Step m e m' → ¬ m.WritesMainFromMain e →
      m'.stack ≠ none → ¬ m'.MainKept n (tr ++ [e]) := by
  refine ⟨fun tr m h ↦ ?_, fun tr m e m' h hs hg hne hk ↦ ?_⟩
  · refine ⟨mainKept_of_run h, fun hstack ↦ ?_⟩
    obtain ⟨c, hc, hsaved⟩ := mainKept_of_run h hstack
    refine ⟨c, hc, fun a ha ↦ ?_⟩
    obtain ⟨m', hs, hm⟩ := leaves_lands (wellFormed_of_run h.unguard) hstack hc hsaved.suspended
      (mainReady_of_run h hstack c hc) hsaved.stack ha
    exact ⟨m', hs, hm.trans hsaved.stack⟩
  · obtain ⟨m₁, hok, rfl⟩ := step_ok_iff.mp hs.1
    simp only [WritesMainFromMain, not_or, not_not] at hg
    obtain ⟨p, hp, _⟩ := perform_writes_main (wellFormed_of_run h) hg.2 hok
    obtain ⟨c, hc, hsaved⟩ := hk hne
    have hc : m₁.mainCtx = some c := hc
    rw [hp, Option.some.injEq] at hc
    exact hg.1 (by simpa [← hc, here] using hsaved.stack)

theorem main_continuation_kept_childRun : ∃ m,
    Run (Guarded WritesMainFromMain Step) (fresh 1024) (childRun.take 3) m ∧
      m.stack = some 1 ∧ m.MainKept 1024 (childRun.take 3) := by
  obtain ⟨m, h, hm⟩ : ∃ m,
      Run (Guarded WritesMainFromMain Step) (fresh 1024) (childRun.take 3) m ∧ m.stack = some 1 :=
    ⟨_, .cons ⟨.inl rfl, rfl, rfl, rfl⟩ (.cons ⟨.inl rfl, rfl, rfl, rfl⟩
      (.cons ⟨.inl rfl, rfl, rfl, rfl⟩ (.nil _))), rfl⟩
  exact ⟨m, h, hm, ((main_continuation_kept 1024).1 _ m h).1⟩

/-- The callback of fiber 1 calls `swapIn` on fiber 2. -/
theorem main_continuation_nested : ∃ tr m, Run Step (fresh 1024) tr m ∧
    tr.map Event.act = [.getThis, .construct 0, .construct 0, .swapIn 1, .swapIn 2] ∧
    m.stack = some 2 ∧ m.mainCtx = some ⟨some 1, [1], .afterSwapIn 4⟩ ∧
    ¬ m.MainKept 1024 tr := by
  refine ⟨[⟨0, none, .getThis, .returns⟩, ⟨1, none, .construct 0, .created 1⟩,
    ⟨2, none, .construct 0, .created 2⟩, ⟨3, none, .swapIn 1, .started 1 1⟩,
    ⟨4, some 1, .swapIn 2, .started 2 2⟩], _, .cons ⟨rfl, rfl, rfl⟩ (.cons ⟨rfl, rfl, rfl⟩
    (.cons ⟨rfl, rfl, rfl⟩ (.cons ⟨rfl, rfl, rfl⟩ (.cons ⟨rfl, rfl, rfl⟩ (.nil _))))), rfl, rfl,
    rfl, fun hk ↦ ?_⟩
  obtain ⟨c, hc, hsaved⟩ := hk (Option.some_ne_none _)
  cases hc
  exact absurd hsaved.stack (Option.some_ne_none _)

end Machine

end Sylar.Fibers
