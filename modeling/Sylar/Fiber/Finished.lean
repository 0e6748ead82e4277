import Sylar.Fiber.Invariants

/-!
# Finished fibers

The guard of `swapIn` forbids one state, `EXEC`.  It therefore lets a fiber in
state `TERM` or `EXCEPT` through as well, and the context of such a fiber is the
one its `MainFunc` saved in its last `swapOut`.

There is a second way back.  A callback that calls `swapIn` itself is saved in
the slot of the main fiber, and goes on from there when the other fiber is left.
The slot is used up then, and `t_fiber` designates the main fiber.  If now the
callback ends, the last `swapOut` of its `MainFunc` loads the same slot again, and
control comes back to the stack of the activation that has just ended.

`Orderly` says, for the runs that this is about, which stacks can still be gone on
with.  The two calls above are the only ones it rules out, `swapIn_admits_iff`.
-/

namespace Sylar.Fibers

open Foundation

/-- The callback has returned or thrown. -/
def Fiber.Finished (fb : Fiber) : Prop := fb.state = .TERM ∨ fb.state = .EXCEPT

/-- The states `swapIn` is meant for. -/
def Fiber.Resumable (fb : Fiber) : Prop :=
  fb.state = .INIT ∨ fb.state = .READY ∨ fb.state = .HOLD

theorem Fiber.not_exec_iff {fb : Fiber} : fb.state ≠ .EXEC ↔ fb.Resumable ∨ fb.Finished := by
  cases h : fb.state <;> simp [Fiber.Resumable, Fiber.Finished, h]

/-- The calls of the runs of this file. -/
def Action.Listed : Action → Prop
  | .construct _ | .reset _ | .swapIn _ | .yieldToReady | .yieldToHold | .callbackReturns
  | .callbackThrows | .getThis | .totalFibers | .getFiberID => True
  | .swapOut _ | .setThis _ | .mainFunc | .forget _ => False

namespace Machine

variable {m m' : Machine} {f g t : FiberId} {fb : Fiber} {l : Landing} {e : Event} {n : Nat}
variable {tr : List Event} {a : Action} {p : Point} {c : Context} {st : State}
variable {stk : Option FiberId} {fs : List FiberId}

/-! ## The invariant -/

/-- `f` is a child in state `EXEC`. -/
def Execs (m : Machine) (f : FiberId) : Prop :=
  ∃ fb, m.fibers f = some fb ∧ fb.stack = true ∧ fb.state = .EXEC

/-- The thread's own stack, or that of a child in state `EXEC` in its `MainFunc`. -/
structure Seat (m : Machine) (stack : Option FiberId) (frames : List FiberId) : Prop where
  frames : frames = stack.toList
  execs : ∀ f, stack = some f → m.Execs f

/-- What a child that does not run goes on with, by its state. -/
def Waits (m : Machine) (f : FiberId) (fb : Fiber) : Prop :=
  match fb.state with
  | .INIT => fb.ctx = ⟨some f, [], .entry⟩ ∧ fb.cb.isSome = true
  | .READY | .HOLD => ∃ k, fb.ctx = ⟨some f, [f], .afterYield k⟩ ∧ m.left (some f) = some fb.ctx
  | .TERM | .EXCEPT => fb.ctx.point = .afterFinal
  | .EXEC => True

/-- The main fiber is current, and what is in its slot has been saved on the stack
that is running. -/
def Home (m : Machine) : Prop :=
  m.tFiber = m.tThreadFiber ∧ ∀ c, m.mainCtx = some c → c.stack = m.stack

/-- The child `f` is current and runs, and the slot can be gone on with. -/
def Visits (m : Machine) (f : FiberId) : Prop :=
  m.tFiber = some f ∧ m.stack = some f ∧
    ∃ c k, m.mainCtx = some c ∧ c.point = .afterSwapIn k ∧ m.Pending c

/-- The invariant of this file. -/
structure Orderly (m : Machine) : Prop where
  running : m.Seat m.stack m.frames
  onStack : m.left m.stack = none
  slot : ∀ c, m.mainCtx = some c → m.Pending c → m.Seat c.stack c.frames
  main : ∀ f fb, m.fibers f = some fb → fb.stack = false → m.tThreadFiber = some f
  unused : m.tThreadFiber = none → m.stack = none
  child : ∀ f fb, m.fibers f = some fb → fb.stack = true → m.Waits f fb
  current : m.Home ∨ ∃ f, m.Visits f

theorem Execs.state_eq (h : m.Execs f) (hf : m.fibers f = some fb) : fb.state = .EXEC := by
  obtain ⟨fb', hf', _, hst⟩ := h
  rw [hf, Option.some.injEq] at hf'
  exact hf' ▸ hst

/-- A write that leaves the stack and the state of an object alone. -/
theorem Execs.modify (h : m.Execs g) {u : Fiber → Fiber}
    (hu : g = f → ∀ fb, (u fb).stack = fb.stack ∧ (fb.state = .EXEC → (u fb).state = .EXEC)) :
    (m.modify f u).Execs g := by
  obtain ⟨fb, hg, hs, hst⟩ := h
  by_cases e : g = f
  · subst e
    obtain ⟨hstack, hstate⟩ := hu rfl fb
    exact ⟨u fb, by simp [hg], hstack.trans hs, hstate hst⟩
  · exact ⟨fb, by simpa [e] using hg, hs, hst⟩

/-- A write does not turn a child into a main fiber, nor the other way. -/
theorem stack_of_modify {u : Fiber → Fiber} (hg : (m.modify f u).fibers g = some fb)
    (hu : ∀ fb, (u fb).stack = fb.stack) : ∃ gb, m.fibers g = some gb ∧ gb.stack = fb.stack := by
  rcases modify_cases hg with ⟨rfl, gb, hg', rfl⟩ | ⟨_, hg'⟩
  · exact ⟨gb, hg', (hu gb).symm⟩
  · exact ⟨fb, hg', rfl⟩

/-- Nor do the writes of a switch. -/
theorem stack_of_switch {u : Fiber → Fiber} {q : Option FiberId}
    (hg : (((m.modify f u).setThis q).save t p).fibers g = some fb)
    (hu : ∀ fb, (u fb).stack = fb.stack) : ∃ gb, m.fibers g = some gb ∧ gb.stack = fb.stack := by
  obtain ⟨gb₁, hg₁, hsame₁⟩ := stack_of_modify hg fun _ ↦ rfl
  obtain ⟨gb₂, hg₂, hsame₂⟩ := stack_of_modify hg₁ hu
  exact ⟨gb₂, hg₂, hsame₂.trans hsame₁⟩

theorem Seat.mono (h : m.Seat stk fs) (hx : ∀ f, stk = some f → m.Execs f → m'.Execs f) :
    m'.Seat stk fs :=
  ⟨h.frames, fun f hf ↦ hx f hf (h.execs f hf)⟩

theorem Waits.of_left (h : m.Waits f fb)
    (hl : fb.state ≠ .EXEC → m'.left (some f) = m.left (some f)) : m'.Waits f fb := by
  unfold Waits at h ⊢
  cases hst : fb.state <;> simp only [hst] at h ⊢
  · exact h
  · obtain ⟨k, hctx, hleft⟩ := h
    exact ⟨k, hctx, (hl (by simp [hst])).trans hleft⟩
  · exact h
  · obtain ⟨k, hctx, hleft⟩ := h
    exact ⟨k, hctx, (hl (by simp [hst])).trans hleft⟩
  · exact h

/-- Only a child in state `EXEC` has its stack running. -/
theorem Orderly.idle_ne (h : Orderly m) (hf : m.fibers f = some fb) (hst : fb.state ≠ .EXEC) :
    m.stack ≠ some f := fun hs ↦ hst ((h.running.execs f hs).state_eq hf)

/-- What can be gone on with is not on the stack that is running. -/
theorem Orderly.pending_ne (h : Orderly m) (hc : m.Pending c) : c.stack ≠ m.stack := by
  intro e
  have hc : m.left c.stack = some c := hc
  rw [e, h.onStack] at hc
  cases hc

theorem Orderly.ne_thread (hw : WellFormed m) (hf : m.fibers f = some fb) (hs : fb.stack = true)
    (ht : m.tThreadFiber = some t) : f ≠ t := by
  rintro rfl
  exact hw.thread_not_child ht ⟨fb, hf, hs⟩

/-! ## The writes keep the invariant -/

/-- Objects are written, and control stays where it is. -/
theorem Orderly.rewrite (h : Orderly m) (hstack : m'.stack = m.stack)
    (hframes : m'.frames = m.frames) (hleft : m'.left = m.left) (hthis : m'.tFiber = m.tFiber)
    (hthread : m'.tThreadFiber = m.tThreadFiber) (hctx : m'.mainCtx = m.mainCtx)
    (hexecs : ∀ g, m.Execs g → m'.Execs g)
    (hmain : ∀ g gb, m'.fibers g = some gb → gb.stack = false → m'.tThreadFiber = some g)
    (hchild : ∀ g gb, m'.fibers g = some gb → gb.stack = true →
      m.fibers g = some gb ∨ m'.Waits g gb) : Orderly m' := by
  have hpending : ∀ c, m'.Pending c ↔ m.Pending c := fun c ↦ by rw [Pending, hleft, Pending]
  refine ⟨?_, ?_, fun c hc hp ↦ ?_, hmain, ?_, fun g gb hg hs ↦ ?_, ?_⟩
  · rw [hstack, hframes]
    exact h.running.mono fun g _ ↦ hexecs g
  · rw [hstack, hleft]
    exact h.onStack
  · exact (h.slot c (hctx ▸ hc) ((hpending c).mp hp)).mono fun g _ ↦ hexecs g
  · rw [hstack, hthread]
    exact h.unused
  · rcases hchild g gb hg hs with hold | hw
    · exact (h.child g gb hold hs).of_left fun _ ↦ by rw [hleft]
    · exact hw
  · simpa only [Home, Visits, hthis, hthread, hctx, hstack, hpending] using h.current

theorem Orderly.tick (h : Orderly m) (k : Nat) : Orderly { m with clock := k } :=
  h.rewrite rfl rfl rfl rfl rfl rfl (fun _ hg ↦ hg) h.main fun _ _ hg _ ↦ .inl hg

theorem Orderly.newFiber (h : Orderly m) (hw : WellFormed m) (k : Nat) :
    Orderly (m.newFiber k) := by
  have hcases : ∀ {g gb}, (m.newFiber k).fibers g = some gb → _ := fun hg ↦
    insert_cases (m := m) rfl hg
  refine h.rewrite rfl rfl rfl rfl rfl ?_ ?_ ?_ ?_
  · cases ht : m.tThreadFiber with
    | none => simp [mainCtx, Machine.newFiber, ht]
    | some t =>
        obtain ⟨main, hf, _⟩ := hw.thread t ht
        simp [mainCtx, Machine.newFiber, ht, hw.toTable.ne_next hf]
  · rintro g ⟨gb, hg, hs, hst⟩
    exact ⟨gb, by simp [Machine.newFiber, hw.toTable.ne_next hg, hg], hs, hst⟩
  · intro g gb hg hs
    rcases hcases hg with rfl | hg
    · cases hs
    · exact h.main g gb hg hs
  · intro g gb hg hs
    by_cases hgn : g = m.next
    · subst hgn
      simp only [Machine.newFiber, Function.update_self, Option.some.injEq] at hg
      subst hg
      exact .inr ⟨rfl, rfl⟩
    · exact .inl (by simpa [Machine.newFiber, hgn] using hg)

theorem Orderly.reset (h : Orderly m) (hw : WellFormed m) (hok : m.reset f = .ok m') :
    Orderly m' := by
  obtain ⟨fb, hf, hs, hst, rfl⟩ := reset_ok hok
  have hchild : m.IsChild f := ⟨fb, hf, hs⟩
  refine h.rewrite rfl rfl rfl rfl rfl
    (mainCtx_modify_ne fun ht ↦ hw.thread_not_child ht hchild) (fun g hg ↦ ?_)
    (fun g gb hg hgs ↦ ?_) fun g gb hg hgs ↦ ?_
  · refine hg.modify fun hgf ↦ ?_
    subst hgf
    have hexec := hg.state_eq hf
    rcases hst with hst | hst | hst <;> simp [hst] at hexec
  · rcases modify_cases hg with ⟨rfl, fb', hf', rfl⟩ | ⟨_, hg⟩
    · exact h.main g fb' hf' hgs
    · exact h.main g gb hg hgs
  · rcases modify_cases hg with ⟨rfl, fb', _, rfl⟩ | ⟨_, hg⟩
    · exact .inr ⟨rfl, rfl⟩
    · exact .inl hg

/-- Control is passed on by a call that creates and destroys nothing, with `c` in the
slot after it. -/
theorem Orderly.switch (h : Orderly m) (ht : m.tThreadFiber = some t)
    (ht' : m'.tThreadFiber = some t) (hctx : m'.mainCtx = some c)
    (hstays : ∀ g gb, m'.fibers g = some gb → ∃ gb', m.fibers g = some gb' ∧ gb'.stack = gb.stack)
    (hrun : m'.Seat m'.stack m'.frames) (hon : m'.left m'.stack = none)
    (hslot : m'.Pending c → m'.Seat c.stack c.frames)
    (hchild : ∀ g gb, m'.fibers g = some gb → gb.stack = true → m'.Waits g gb)
    (hcurrent : m'.Home ∨ ∃ f, m'.Visits f) : Orderly m' where
  running := hrun
  onStack := hon
  slot c' hc' hp' := by
    obtain rfl := Option.some.inj (hctx.symm.trans hc')
    exact hslot hp'
  main g gb hg hs := by
    obtain ⟨gb', hg', hsame⟩ := hstays g gb hg
    rw [ht', ← ht]
    exact h.main g gb' hg' (hsame.trans hs)
  unused hnone := by
    cases ht'.symm.trans hnone
  child := hchild
  current := hcurrent

/-- The main fiber swaps itself with itself. -/
theorem Orderly.self (h : Orderly m) (ht : m.tThreadFiber = some t) {u : Fiber → Fiber}
    (hw : WellFormed m) (hu : ∀ fb, (u fb).stack = fb.stack) :
    Orderly ((((m.modify t u).setThis (some t)).save t p).goto m.stack m.frames) := by
  obtain ⟨m', hm'⟩ :
      ∃ m', m' = (((m.modify t u).setThis (some t)).save t p).goto m.stack m.frames := ⟨_, rfl⟩
  rw [← hm']
  obtain ⟨main, hmain, hms, _⟩ := hw.thread t ht
  have hleft : m'.left = m.left := by
    have hon : Function.update m.left m.stack none = m.left :=
      Function.update_eq_self_iff.mpr h.onStack.symm
    simp [hm', hon]
  have hstack : m'.stack = m.stack := by rw [hm', goto_stack]
  have hframes : m'.frames = m.frames := by rw [hm', goto_frames]
  have hother : ∀ g, g ≠ t → m'.fibers g = m.fibers g := fun g hg ↦ by simp [hm', hg]
  have hself : m'.fibers t = some { u main with ctx := m.here p } := by
    simp [hm', hmain, here]
  have hthread : m'.tThreadFiber = some t := by simp [hm', ht]
  have hctx : m'.mainCtx = some (m.here p) := mainCtx_eq hthread hself
  have hexecs : ∀ g, m.Execs g → m'.Execs g := by
    rintro g ⟨gb, hg, hs, hst⟩
    have hgt := Orderly.ne_thread hw hg hs ht
    exact ⟨gb, by rw [hother g hgt, hg], hs, hst⟩
  refine h.switch ht hthread hctx (fun g gb hg ↦ ?_) ?_ ?_ (fun hp ↦ ?_) (fun g gb hg hs ↦ ?_)
    (.inl ⟨?_, ?_⟩)
  · rw [hm'] at hg
    exact stack_of_switch hg hu
  · rw [hstack, hframes]
    exact h.running.mono fun g _ ↦ hexecs g
  · rw [hleft, hstack]
    exact h.onStack
  · have hp : m'.left m.stack = some (m.here p) := hp
    rw [hleft, h.onStack] at hp
    cases hp
  · have hgt : g ≠ t := by
      rintro rfl
      rw [hself, Option.some.injEq] at hg
      rw [← hg] at hs
      cases (hu main).symm.trans hs ▸ hms
    exact (h.child g gb (hother g hgt ▸ hg) hs).of_left fun _ ↦ by rw [hleft]
  · rw [hm', goto_tThreadFiber]
    exact ht.symm
  · intro c hc
    rw [hctx, Option.some.injEq] at hc
    rw [← hc, hstack, here_stack]

/-- Control is given to a child that can be switched to. -/
theorem Orderly.enter (h : Orderly m) (hw : WellFormed m) (hf : m.fibers f = some fb)
    (hs : fb.stack = true) (hst : fb.state ≠ .EXEC) (ht : m.tThreadFiber = some t) :
    Orderly ((m.enter f t).goto (some f) [f]) := by
  obtain ⟨m', hm'⟩ : ∃ m', m' = (m.enter f t).goto (some f) [f] := ⟨_, rfl⟩
  rw [← hm']
  obtain ⟨main, hmain, hms, _⟩ := hw.thread t ht
  have hft : f ≠ t := Orderly.ne_thread hw hf hs ht
  have hidle : m.stack ≠ some f := h.idle_ne hf hst
  have hthread : m'.tThreadFiber = some t := by simp [hm', Machine.enter, ht]
  have hctx : m'.mainCtx = some (m.here (.afterSwapIn m.clock)) := by
    rw [hm']
    exact enter_mainCtx ht hmain
  have hself : m'.fibers f = some { fb with state := .EXEC } := by
    simp [hm', Machine.enter, hft, hf]
  have hother : ∀ g, g ≠ f → g ≠ t → m'.fibers g = m.fibers g := fun g hgf hgt ↦ by
    simp [hm', Machine.enter, hgf, hgt]
  have hstays : ∀ g gb, m'.fibers g = some gb → ∃ gb', m.fibers g = some gb' ∧
      gb'.stack = gb.stack := by
    intro g gb hg
    rw [hm'] at hg
    exact stack_of_switch (m := m) hg fun _ ↦ rfl
  have hexecs : ∀ g, m.Execs g → m'.Execs g := by
    rintro g ⟨gb, hg, hgs, hgst⟩
    have hgf : g ≠ f := by
      rintro rfl
      rw [hf, Option.some.injEq] at hg
      exact hst (hg ▸ hgst)
    exact ⟨gb, by rw [hother g hgf (Orderly.ne_thread hw hg hgs ht), hg], hgs, hgst⟩
  -- the caller's stack is left, and that of `f` runs
  have hleft : m'.left = Function.update
      (Function.update m.left m.stack (some (m.here (.afterSwapIn m.clock)))) (some f) none := by
    rw [hm']
    rfl
  have hstack : m'.stack = some f := by rw [hm', goto_stack]
  refine h.switch ht hthread hctx hstays ?_ ?_ (fun _ ↦ ?_) (fun g gb hg hgs ↦ ?_)
    (.inr ⟨f, ?_, hstack, _, m.clock, hctx, rfl, ?_⟩)
  · rw [hstack, hm']
    refine ⟨rfl, fun g hg ↦ ?_⟩
    rw [← hm', ← Option.some.inj hg]
    exact ⟨_, hself, hs, rfl⟩
  · rw [hleft, hstack, Function.update_self]
  · exact h.running.mono fun g _ ↦ hexecs g
  · by_cases hgf : g = f
    · subst hgf
      rw [hself, Option.some.injEq] at hg
      rw [← hg]
      trivial
    · have hgt : g ≠ t := by
        obtain ⟨gb', hg', hsame⟩ := hstays g gb hg
        exact Orderly.ne_thread hw hg' (hsame.trans hgs) ht
      rw [hother g hgf hgt] at hg
      refine (h.child g gb hg hgs).of_left fun hgst ↦ ?_
      rw [hleft, Function.update_of_ne (by simpa using hgf),
        Function.update_of_ne (h.idle_ne hg hgst).symm]
  · rw [hm']
    rfl
  · show m'.left m.stack = _
    rw [hleft, Function.update_of_ne hidle, Function.update_self]

/-- Control goes from the child that runs back to the slot. -/
theorem Orderly.leave (h : Orderly m) (hw : WellFormed m) (hv : m.Visits f)
    (ht : m.tThreadFiber = some t) (hc : m.mainCtx = some c) (hp : m.Pending c)
    {u : Fiber → Fiber} (hu : ∀ fb, (u fb).stack = fb.stack)
    (hm' : m' = (((m.modify f u).setThis (some t)).save f p).goto c.stack c.frames)
    (hwaits : ∀ fb, m'.left (some f) = some (m.here p) →
      m'.Waits f { u fb with ctx := m.here p }) : Orderly m' := by
  obtain ⟨_, hrun, -⟩ := hv
  obtain ⟨fb, hf, hs, hst⟩ := h.running.execs f hrun
  have hft : f ≠ t := Orderly.ne_thread hw hf hs ht
  have hcs : c.stack ≠ some f := hrun ▸ h.pending_ne hp
  have hthread : m'.tThreadFiber = some t := by simp [hm', ht]
  have hself : m'.fibers f = some { u fb with ctx := m.here p } := by
    simp [hm', hf, here]
  have hother : ∀ g, g ≠ f → m'.fibers g = m.fibers g := fun g hgf ↦ by simp [hm', hgf]
  have hctx : m'.mainCtx = some c := by
    have hsame : m'.mainCtx = (m.modify f u).mainCtx := by
      rw [hm']
      exact mainCtx_modify_ne (m := (m.modify f u).setThis (some t)) (by simp [ht, hft.symm])
    rw [hsame, mainCtx_modify_ne (by simp [ht, hft.symm]), hc]
  have hexecs : ∀ g, g ≠ f → m.Execs g → m'.Execs g := by
    rintro g hgf ⟨gb, hg, hgs, hgst⟩
    exact ⟨gb, by rw [hother g hgf, hg], hgs, hgst⟩
  have hleft : m'.left = Function.update
      (Function.update m.left (some f) (some (m.here p))) c.stack none := by
    rw [hm', ← hrun]
    rfl
  have hstack : m'.stack = c.stack := by rw [hm', goto_stack]
  have hframes : m'.frames = c.frames := by rw [hm', goto_frames]
  have hseat : m.Seat c.stack c.frames := h.slot c hc hp
  refine h.switch ht hthread hctx (fun g gb hg ↦ ?_) ?_ ?_ (fun hp' ↦ ?_) (fun g gb hg hgs ↦ ?_)
    (.inl ⟨?_, ?_⟩)
  · rw [hm'] at hg
    exact stack_of_switch hg hu
  · rw [hstack, hframes]
    exact hseat.mono fun g hg ↦ hexecs g fun e ↦ hcs (e ▸ hg)
  · rw [hleft, hstack, Function.update_self]
  · have hp' : m'.left c.stack = some c := hp'
    rw [hleft, Function.update_self] at hp'
    cases hp'
  · by_cases hgf : g = f
    · subst hgf
      rw [hself, Option.some.injEq] at hg
      rw [← hg]
      refine hwaits fb ?_
      rw [hleft, Function.update_of_ne hcs.symm, Function.update_self]
    · rw [hother g hgf] at hg
      refine (h.child g gb hg hgs).of_left fun hgst ↦ ?_
      have hgc : some g ≠ c.stack := fun e ↦ hgst ((hseat.execs g e.symm).state_eq hg)
      rw [hleft, Function.update_of_ne hgc, Function.update_of_ne (by simpa using hgf)]
  · rw [hthread, hm']
    rfl
  · intro c' hc'
    rw [hctx, Option.some.injEq] at hc'
    rw [← hc', hstack]

/-- `GetThis` in front of a call that is made while the main fiber is current. -/
theorem Orderly.getThis (h : Orderly m) (hw : WellFormed m) : Orderly m.getThis.2 ∧
    (m.CurrentIsMain → ∃ t main, m.getThis.2.tFiber = some t ∧
      m.getThis.2.tThreadFiber = some t ∧ m.getThis.2.fibers t = some main) := by
  cases htf : m.tFiber with
  | some f =>
      rw [getThis_of_some htf]
      refine ⟨h, fun hc ↦ ?_⟩
      have ht : m.tThreadFiber = some f := by
        rcases hc with hc | hc
        · cases htf.symm.trans hc
        · rw [← hc, htf]
      obtain ⟨main, hf, _⟩ := hw.thread f ht
      exact ⟨f, main, htf, ht, hf⟩
  | none =>
      have hthread : m.tThreadFiber = none := by
        rcases h.current with hc | ⟨f, hc, _⟩
        · rw [← hc.1, htf]
        · cases htf.symm.trans hc
      have hstack := h.unused hthread
      obtain ⟨m', hm'⟩ : ∃ m', m' = { m.newMain with tThreadFiber := some m.next } := ⟨_, rfl⟩
      have heq : m.getThis.2 = m' := by simp [Machine.getThis, htf, hm']
      have hfib : m'.fibers = Function.update m.fibers m.next (some
          ⟨0, 0, false, .EXEC, m.here .construction, none⟩) := by
        rw [hm']
        rfl
      have hthread' : m'.tThreadFiber = some m.next := by rw [hm']
      have hctx : m'.mainCtx = some (m.here .construction) :=
        mainCtx_eq hthread' (by rw [hfib, Function.update_self])
      have hleft : m'.left = m.left := by
        rw [hm']
        rfl
      have hstack' : m'.stack = none := hm' ▸ hstack
      rw [heq]
      refine ⟨⟨?_, ?_, fun c hc hp ↦ ?_, fun g gb hg hs ↦ ?_, fun _ ↦ hstack',
        fun g gb hg hs ↦ ?_, .inl ⟨by rw [hm']; rfl, fun c hc ↦ ?_⟩⟩, fun _ ↦ ?_⟩
      · rw [hstack', hm']
        exact ⟨h.running.frames.trans (by rw [hstack]), fun f hf ↦ by cases hf⟩
      · rw [hleft, hstack', ← hstack]
        exact h.onStack
      · rw [hctx, Option.some.injEq] at hc
        have hp : m'.left c.stack = some c := hp
        rw [hleft, ← hc, here_stack, h.onStack] at hp
        cases hp
      · by_cases hgn : g = m.next
        · rw [hgn, hthread']
        · rw [hfib, Function.update_of_ne hgn] at hg
          cases hthread.symm.trans (h.main g gb hg hs)
      · rcases insert_cases hfib hg with rfl | hg
        · cases hs
        · exact (h.child g gb hg hs).of_left fun _ ↦ by rw [hleft]
      · rw [hctx, Option.some.injEq] at hc
        rw [← hc, hstack', here_stack, hstack]
      · exact ⟨m.next, _, by rw [hm']; rfl, hthread', by rw [hfib, Function.update_self]⟩

/-! ## The calls keep the invariant -/

/-- The child that runs can be left. -/
theorem Orderly.swapOut (h : Orderly m) (hw : WellFormed m) (hv : m.Visits f)
    {u : Fiber → Fiber} (hu : ∀ fb, (u fb).stack = fb.stack)
    (hwaits : ∀ fb (m' : Machine), m'.left (some f) = some (m.here p) →
      m'.Waits f { u fb with ctx := m.here p }) :
    ∃ l m', (m.modify f u).swapOut f p = .ok (l, m') ∧ Orderly m' := by
  obtain ⟨_, hrun, c, k, hc, hpoint, hp⟩ := id hv
  obtain ⟨fb, hf, hs, _⟩ := h.running.execs f hrun
  obtain ⟨main, hbind, hctx⟩ := Option.map_eq_some_iff.mp hc
  obtain ⟨t, ht, hm⟩ := Option.bind_eq_some_iff.mp hbind
  have htf : t ≠ f := (Orderly.ne_thread hw hf hs ht).symm
  have hm' : (m.modify f u).fibers t = some main := by simp [htf, hm]
  have hpending : (((m.modify f u).setThis (some t)).save f p).Pending c :=
    (pending_save _ f p (h.pending_ne hp)).mpr hp
  have hok : (m.modify f u).swapOut f p = .ok (.resumed c,
      (((m.modify f u).setThis (some t)).save f p).goto c.stack c.frames) := by
    rw [swapOut_eq (m := m.modify f u) ht hm', if_neg htf, hctx]
    exact resume_suspended (by rw [Context.Suspended, hpoint]; trivial) hpending
  exact ⟨_, _, hok, h.leave hw hv ht hc hp hu rfl fun fb hl ↦ hwaits fb _ hl⟩

/-- A yield is always possible. -/
theorem Orderly.yieldTo (h : Orderly m) (hw : WellFormed m) (hst : st = .READY ∨ st = .HOLD) :
    ∃ l m', m.yieldTo st = .ok (l, m') ∧ Orderly m' := by
  rcases h.current with hc | ⟨f, hv⟩
  · obtain ⟨h', hmain⟩ := h.getThis hw
    obtain ⟨t, main, hthis, ht, hm⟩ := hmain (.inr hc.1)
    refine ⟨_, _, (yieldTo_getThis (m := m)).symm.trans (yieldTo_self _ hthis ht hm),
      h'.self ht hw.getThis fun _ ↦ rfl⟩
  · rw [yieldTo_eq hv.1]
    refine h.swapOut hw hv (fun _ ↦ rfl) fun fb m' hl ↦ ?_
    have hctx : m.here (.afterYield m.clock) = ⟨some f, [f], .afterYield m.clock⟩ := by
      simp [here, h.running.frames, hv.2.1]
    rcases hst with rfl | rfl <;> exact ⟨m.clock, hctx, hl⟩

/-- A callback can end while its fiber is current, and must not otherwise. -/
theorem Orderly.finish (h : Orderly m) (hw : WellFormed m) {cur : FiberId} {rest : List FiberId}
    (hfr : m.frames = cur :: rest) {u : Fiber → Fiber} (hu : ∀ fb, (u fb).stack = fb.stack)
    (hst : ∀ fb, (u fb).state = .TERM ∨ (u fb).state = .EXCEPT) :
    (¬ m.CurrentIsMain ∧ ∃ l m', (m.modify cur u).swapOut cur .afterFinal = .ok (l, m') ∧
      Orderly m') ∨
    m.CurrentIsMain ∧ (m.modify cur u).swapOut cur .afterFinal = .error .deadFrame := by
  have hstack : m.stack = some cur := by
    have hframes := h.running.frames
    rw [hfr] at hframes
    cases hs : m.stack with
    | none => simp [hs] at hframes
    | some f => simp [hs] at hframes; rw [hframes.1]
  obtain ⟨fb, hf, hs, _⟩ := h.running.execs cur hstack
  rcases h.current with hc | ⟨f, hv⟩
  · refine .inr ⟨.inr hc.1, ?_⟩
    have hne : m.tThreadFiber ≠ none := fun hnone ↦ by
      cases hstack.symm.trans (h.unused hnone)
    obtain ⟨t, ht⟩ := Option.ne_none_iff_exists'.mp hne
    obtain ⟨main, hm, _, hfinal⟩ := hw.thread t ht
    have htf : t ≠ cur := (Orderly.ne_thread hw hf hs ht).symm
    have hm' : (m.modify cur u).fibers t = some main := by simp [htf, hm]
    rw [swapOut_eq (m := m.modify cur u) ht hm', if_neg htf]
    -- what the slot had to go on with has been gone on with
    refine resume_dead fun hp ↦ hfinal ?_
    have hslot : main.ctx.stack = m.stack := hc.2 main.ctx (mainCtx_eq ht hm)
    have hp : Function.update m.left m.stack (some (m.here .afterFinal)) main.ctx.stack =
      some main.ctx := hp
    rw [hslot, Function.update_self, Option.some.injEq] at hp
    rw [← hp, here_point]
  · have hfc : f = cur := Option.some.inj (hv.2.1.symm.trans hstack)
    subst hfc
    refine .inl ⟨fun hmain ↦ ?_, h.swapOut hw hv hu fun fb m' _ ↦ ?_⟩
    · rcases hmain with hnone | hthread
      · cases hv.1.symm.trans hnone
      · exact hw.thread_not_child (hthread.symm.trans hv.1) ⟨fb, hf, hs⟩
    · rcases hst fb with hst | hst <;> simp [Waits, hst]

/-- `swapIn` switches to a fiber that can be resumed, and the main fiber to itself. -/
theorem Orderly.swapIn (h : Orderly m) (hw : WellFormed m) (hf : m.fibers f = some fb)
    (hst : fb.state ≠ .EXEC) (ht : m.tThreadFiber = some t) (hres : f = t ∨ fb.Resumable) :
    ∃ l m', m.swapIn f = .ok (l, m') ∧ Orderly m' := by
  by_cases hft : f = t
  · subst hft
    rw [swapIn_eq hf hst ht (if_pos rfl).symm, if_neg (by simp)]
    exact ⟨_, _, resume_suspended trivial (pending_save_here _ _ _),
      h.self ht hw (u := fun fb ↦ { fb with state := .EXEC }) fun _ ↦ rfl⟩
  · have hs : fb.stack = true := by
      by_contra hs
      exact hft (Option.some.inj ((h.main f fb hf (by simpa using hs)).symm.trans ht))
    have henter := h.enter hw hf hs hst ht
    have hwaits := h.child f fb hf hs
    have hself : (m.enter f t).fibers f = some { fb with state := .EXEC } := by
      simp [Machine.enter, hft, hf]
    -- the stack of `f` is another one than the caller's
    have hleft : (m.enter f t).left (some f) = m.left (some f) :=
      Function.update_of_ne (h.idle_ne hf hst).symm _ _
    rw [swapIn_eq hf hst ht (if_neg hft).symm]
    rcases hres.resolve_left hft with hres | hres | hres <;> simp only [Waits, hres] at hwaits
    · obtain ⟨hctx, hcb⟩ := hwaits
      obtain ⟨cb, hcb⟩ := Option.isSome_iff_exists.mp hcb
      rw [hctx, if_pos rfl]
      refine ⟨_, _, mainFunc_started rfl hself hcb, ?_⟩
      simpa only [goto_stack, goto_frames, goto_goto] using henter
    · obtain ⟨k, hctx, hl⟩ := hwaits
      rw [hctx] at hl ⊢
      exact ⟨_, _, resume_suspended trivial (hleft.trans hl), henter⟩
    · obtain ⟨k, hctx, hl⟩ := hwaits
      rw [hctx] at hl ⊢
      exact ⟨_, _, resume_suspended trivial (hleft.trans hl), henter⟩

/-! ## Which calls come back -/

/-- The calls that come back into `MainFunc` after its last `swapOut`: `swapIn` on
a fiber in state `TERM` or `EXCEPT`, and the end of a callback while `t_fiber` does
not designate a child. -/
def Misuses (m : Machine) (a : Action) : Prop :=
  (∃ f fb, a = .swapIn f ∧ m.fibers f = some fb ∧ fb.Finished) ∨
    (a = .callbackReturns ∨ a = .callbackThrows) ∧ m.frames ≠ [] ∧ m.CurrentIsMain

/-- A finished child was left at the end of `MainFunc`. -/
theorem Orderly.finished_fails (h : Orderly m) (hf : m.fibers f = some fb)
    (hfin : fb.Finished) (hmain : m.tThreadFiber ≠ some f) : m.swapIn f ≠ .ok (l, m') := by
  intro hok
  obtain ⟨fb', t, c, hf', _, ht, hc, hnext⟩ := swapIn_ok hok
  rw [hf, Option.some.injEq] at hf'
  subst hf'
  have hft : f ≠ t := fun e ↦ hmain (e ▸ ht)
  have hs : fb.stack = true := by
    by_contra hs
    exact hmain (h.main f fb hf (by simpa using hs))
  have hwaits := h.child f fb hf hs
  have hpoint : c.point = .afterFinal := by
    rw [if_neg hft] at hc
    rcases hfin with hfin | hfin <;> simpa [Waits, hfin, ← hc] using hwaits
  rcases hnext with ⟨hp, _⟩ | ⟨hsus, _⟩
  · rw [hpoint] at hp
    cases hp
  · exact hsus.ne_final hpoint

/-- The two ends of a callback. -/
theorem Orderly.callback (h : Orderly m) (hw : WellFormed m)
    (ha : a = .callbackReturns ∨ a = .callbackThrows) :
    (m.frames = [] ∧ m.perform a = .error .noObject) ∨
    (m.frames ≠ [] ∧ ¬ m.CurrentIsMain ∧ ∃ l m', m.perform a = .ok (l, m') ∧ Orderly m') ∨
    m.frames ≠ [] ∧ m.CurrentIsMain ∧ m.perform a = .error .deadFrame := by
  cases hfr : m.frames with
  | nil =>
      refine .inl ⟨rfl, ?_⟩
      rcases ha with rfl | rfl
      · simp [Machine.perform, callbackReturns, hfr]
      · simp [Machine.perform, callbackThrows, hfr]
  | cons cur rest =>
      refine .inr ?_
      have hne : cur :: rest ≠ [] := List.cons_ne_nil _ _
      rcases ha with rfl | rfl
      · rw [Machine.perform, callbackReturns_eq hfr, setCb, setState, modify_modify]
        refine (h.finish hw hfr ?_ ?_).imp (fun hx ↦ ⟨hne, hx⟩) fun hx ↦ ⟨hne, hx⟩
        · exact fun _ ↦ rfl
        · exact fun _ ↦ .inl rfl
      · rw [Machine.perform, callbackThrows_eq hfr, setState]
        refine (h.finish hw hfr ?_ ?_).imp (fun hx ↦ ⟨hne, hx⟩) fun hx ↦ ⟨hne, hx⟩
        · exact fun _ ↦ rfl
        · exact fun _ ↦ .inr rfl

/-- **Step lemma.**  A listed call keeps the invariant or fails, and what it fails
for is not that it comes back. -/
theorem Orderly.perform (h : Orderly m) (hw : WellFormed m) (ha : a.Listed)
    (hnot : ¬ m.Misuses a) : (∃ l m', m.perform a = .ok (l, m') ∧ Orderly m') ∨
      ∃ x, m.perform a = .error x ∧ x ≠ .neverReach ∧ x ≠ .deadFrame := by
  have callback : a = .callbackReturns ∨ a = .callbackThrows →
      (∃ l m', m.perform a = .ok (l, m') ∧ Orderly m') ∨
        ∃ x, m.perform a = .error x ∧ x ≠ .neverReach ∧ x ≠ .deadFrame := by
    intro hcb
    rcases h.callback hw hcb with ⟨_, herr⟩ | ⟨_, _, hok⟩ | ⟨hfr, hmain, _⟩
    · exact .inr ⟨_, herr, by simp, by simp⟩
    · exact .inl hok
    · exact absurd (.inr ⟨hcb, hfr, hmain⟩) hnot
  cases a with
  | construct k => exact .inl ⟨_, _, rfl, h.newFiber hw k⟩
  | reset f =>
      cases hr : m.reset f with
      | ok m' => exact .inl ⟨_, m', by rw [Machine.perform, hr]; rfl, h.reset hw hr⟩
      | error x =>
          refine .inr ⟨x, by rw [Machine.perform, hr]; rfl, ?_⟩
          unfold Machine.reset at hr
          repeat' split at hr
          all_goals cases hr
          all_goals simp
  | swapIn f =>
      cases hf : m.fibers f with
      | none => exact .inr ⟨.noObject, by simp [Machine.perform, Machine.swapIn, hf], by simp⟩
      | some fb =>
          by_cases hst : fb.state = .EXEC
          · exact .inr ⟨_, by simp only [Machine.perform, Machine.swapIn, hf, if_pos hst]; rfl,
              by simp⟩
          · have hres : fb.Resumable := (Fiber.not_exec_iff.mp hst).resolve_right fun hfin ↦
              hnot (.inl ⟨f, fb, rfl, hf, hfin⟩)
            cases ht : m.tThreadFiber with
            | none =>
                exact .inr ⟨.nullPointer, by simp [Machine.perform, Machine.swapIn, hf, hst, ht],
                  by simp⟩
            | some t => exact .inl (h.swapIn hw hf hst ht (.inr hres))
  | yieldToReady => exact .inl (h.yieldTo hw (.inl rfl))
  | yieldToHold => exact .inl (h.yieldTo hw (.inr rfl))
  | callbackReturns => exact callback (.inl rfl)
  | callbackThrows => exact callback (.inr rfl)
  | getThis => exact .inl ⟨_, _, rfl, (h.getThis hw).1⟩
  | totalFibers => exact .inl ⟨_, _, rfl, h⟩
  | getFiberID => exact .inl ⟨_, _, rfl, h⟩
  | swapOut f => exact ha.elim
  | setThis q => exact ha.elim
  | mainFunc => exact ha.elim
  | forget f => exact ha.elim

theorem Orderly.step (h : Orderly m) (hw : WellFormed m) (ha : e.act.Listed)
    (hs : Step m e m') : Orderly m' := by
  obtain ⟨m₁, hok, rfl⟩ := step_ok_iff.mp hs.1
  have same : ∀ {r}, m.perform e.act = .ok r → Orderly r.2 → Orderly m₁ := fun hr h ↦ by
    cases hok.symm.trans hr
    exact h
  refine Orderly.tick ?_ _
  by_cases hnot : m.Misuses e.act
  · rcases hnot with ⟨f, fb, hf, hfb, hfin⟩ | ⟨hcb, hfr, hmain⟩
    · rw [hf] at hok
      by_cases ht : m.tThreadFiber = some f
      · have hst : fb.state ≠ .EXEC := Fiber.not_exec_iff.mpr (.inr hfin)
        obtain ⟨l, m₂, hok₂, h₂⟩ := h.swapIn hw hfb hst ht (.inl rfl)
        exact same (by rw [hf]; exact hok₂) h₂
      · exact absurd hok (h.finished_fails hfb hfin ht)
    · rcases h.callback hw hcb with ⟨hnil, _⟩ | ⟨_, hchild, _⟩ | ⟨_, _, herr⟩
      · exact absurd hnil hfr
      · exact absurd hmain hchild
      · cases hok.symm.trans herr
  · rcases h.perform hw ha hnot with ⟨l, m₂, hok₂, h₂⟩ | ⟨x, herr, _⟩
    · exact same hok₂ h₂
    · cases hok.symm.trans herr

theorem orderly_fresh (n : Nat) : Orderly (fresh n) where
  running := ⟨rfl, nofun⟩
  onStack := rfl
  slot := nofun
  main := nofun
  unused _ := rfl
  child := nofun
  current := .inl ⟨rfl, nofun⟩

/-- **Run lemma.** -/
theorem orderly_of_run (h : Run Step (fresh n) tr m) (hl : ∀ e ∈ tr, e.act.Listed) :
    Orderly m := by
  refine Run.history (P := fun tr m ↦ (∀ e ∈ tr, e.act.Listed) → Orderly m)
    (fun _ ↦ orderly_fresh n) ?_ h hl
  intro tr m e m' hr hpre hs hl
  simp only [List.mem_append, List.mem_singleton] at hl
  exact (hpre fun x hx ↦ hl x (.inl hx)).step (wellFormed_of_run hr) (hl e (.inr rfl)) hs

/-- `swapIn` passes the assertion on the state. -/
def LetsThrough (m : Machine) (f : FiberId) : Prop := ∀ text, m.swapIn f ≠ .error (.assertion text)

theorem resume_no_assertion {text : String} : m.resume c ≠ .error (.assertion text) := by
  unfold resume
  split
  · cases c.point <;> simp
  · simp

theorem swapOut_no_assertion {text : String} : m.swapOut f p ≠ .error (.assertion text) := by
  intro h
  unfold Machine.swapOut at h
  split at h
  · cases h
  · dsimp only at h
    split at h
    · cases h
    · exact resume_no_assertion h

/-- The assertion forbids the state `EXEC` and no other. -/
theorem letsThrough_iff (hf : m.fibers f = some fb) : m.LetsThrough f ↔ fb.state ≠ .EXEC := by
  constructor
  · rintro h hs
    exact h "m_state != EXEC" (by simp [swapIn, hf, hs])
  · intro hs text h
    cases ht : m.tThreadFiber with
    | none => simp [swapIn, hf, hs, ht] at h
    | some t =>
        obtain ⟨c, hc⟩ : ∃ c, c = if f = t then m.here (.afterSwapIn m.clock) else fb.ctx :=
          ⟨_, rfl⟩
        rw [swapIn_eq hf hs ht hc] at h
        split at h
        · exact swapOut_no_assertion (mainFunc_error rfl h)
        · exact resume_no_assertion h

/-- The calls `calls` lead a new thread to `m`. -/
def Reached (n : Nat) (calls : List Action) (m : Machine) : Prop :=
  ∃ tr, tr.map Event.act = calls ∧ Run Step (fresh n) tr m

/-- What is expected of a call: it does not come back into `MainFunc` after the
last `swapOut`, to the assertion there or to what the callback had called before it
ended; and as a `swapIn` it lets exactly the resumable fibers through. -/
def Admits (m : Machine) (a : Action) : Prop :=
  m.step a ≠ .error .neverReach ∧ m.step a ≠ .error .deadFrame ∧
    ∀ f fb, a = .swapIn f → m.fibers f = some fb → (m.LetsThrough f ↔ fb.Resumable)

/-- One call in a state that calls have led to. -/
theorem admits_iff (hw : WellFormed m) (h : Orderly m) (ha : a.Listed) :
    m.Admits a ↔ ¬ m.Misuses a := by
  unfold Admits
  rw [Ne, Ne, step_error_iff, step_error_iff]
  constructor
  · rintro ⟨_, hdead, hlets⟩ (⟨f, fb, rfl, hf, hfin⟩ | ⟨hcb, hfr, hmain⟩)
    · have hres : fb.Resumable := (hlets f fb rfl hf).mp
        ((letsThrough_iff hf).mpr (Fiber.not_exec_iff.mpr (.inr hfin)))
      rcases hfin with hfin | hfin <;> simp [Fiber.Resumable, hfin] at hres
    · rcases h.callback hw hcb with ⟨hnil, _⟩ | ⟨_, hchild, _⟩ | ⟨_, _, herr⟩
      · exact hfr hnil
      · exact hchild hmain
      · exact hdead herr
  · intro hnot
    have hlets : ∀ f fb, a = .swapIn f → m.fibers f = some fb →
        (m.LetsThrough f ↔ fb.Resumable) := by
      rintro f fb rfl hf
      rw [letsThrough_iff hf, Fiber.not_exec_iff]
      exact or_iff_left fun hfin ↦ hnot (.inl ⟨f, fb, rfl, hf, hfin⟩)
    rcases h.perform hw ha hnot with ⟨l, m', hok, _⟩ | ⟨x, herr, hnever, hdead⟩
    · rw [hok]
      exact ⟨nofun, nofun, hlets⟩
    · rw [herr, Except.error.injEq, Except.error.injEq]
      exact ⟨hnever, hdead, hlets⟩

/-- **Every call of a run is admitted exactly if none is a `swapIn` on a finished
fiber, or the end of a callback while the main fiber is current.** -/
theorem swapIn_admits_iff (n : Nat) {calls : List Action} (hl : ∀ a ∈ calls, a.Listed) :
    (∀ pre a post m, calls = pre ++ a :: post → Reached n pre m → m.Admits a) ↔
      ∀ pre a post m, calls = pre ++ a :: post → Reached n pre m → ¬ m.Misuses a := by
  have hiff : ∀ pre a post m, calls = pre ++ a :: post → Reached n pre m →
      (m.Admits a ↔ ¬ m.Misuses a) := by
    rintro pre a post m heq ⟨tr, rfl, hr⟩
    have hpre : ∀ e ∈ tr, e.act.Listed := fun e he ↦
      hl e.act (by simp [heq, List.mem_map_of_mem he])
    exact admits_iff (wellFormed_of_run hr) (orderly_of_run hr hpre) (hl a (by simp [heq]))
  exact ⟨fun h pre a post m heq hr ↦ (hiff pre a post m heq hr).mp (h pre a post m heq hr),
    fun h pre a post m heq hr ↦ (hiff pre a post m heq hr).mpr (h pre a post m heq hr)⟩

/-- The calls of a thread whose only fiber runs to its end. -/
def toTheEnd : List Action := [.getThis, .construct 0, .swapIn 1, .callbackReturns]

theorem swapIn_admits_iff_toTheEnd :
    (∀ pre a post m, toTheEnd = pre ++ a :: post → Reached 1024 pre m → m.Admits a) ↔
      ∀ pre a post m, toTheEnd = pre ++ a :: post → Reached 1024 pre m → ¬ m.Misuses a :=
  swapIn_admits_iff 1024 (by simp [toTheEnd, Action.Listed])

/-- A fiber that has run to its end is switched in again. -/
theorem swapIn_finished : ∃ m fb, Reached 1024 toTheEnd m ∧ m.fibers 1 = some fb ∧
    fb.state = .TERM ∧ m.LetsThrough 1 ∧ m.step (.swapIn 1) = .error .neverReach := by
  refine ⟨_, _, ⟨[⟨0, none, .getThis, .returns⟩, ⟨1, none, .construct 0, .created 1⟩,
    ⟨2, none, .swapIn 1, .started 1 1⟩,
    ⟨3, some 1, .callbackReturns, .resumed ⟨none, [], .afterSwapIn 2⟩⟩], rfl,
    .cons ⟨rfl, rfl, rfl⟩ (.cons ⟨rfl, rfl, rfl⟩ (.cons ⟨rfl, rfl, rfl⟩
      (.cons ⟨rfl, rfl, rfl⟩ (.nil _))))⟩, rfl, rfl, (letsThrough_iff rfl).mpr (by decide), rfl⟩

/-- A fiber that was switched in by another one's callback ends, and then so does the
callback. -/
example : ∃ m, Reached 1024 [.getThis, .construct 0, .construct 0, .swapIn 1, .swapIn 2,
    .callbackReturns] m ∧ m.step .callbackReturns = .error .deadFrame := by
  refine ⟨_, ⟨[⟨0, none, .getThis, .returns⟩, ⟨1, none, .construct 0, .created 1⟩,
    ⟨2, none, .construct 0, .created 2⟩, ⟨3, none, .swapIn 1, .started 1 1⟩,
    ⟨4, some 1, .swapIn 2, .started 2 2⟩,
    ⟨5, some 2, .callbackReturns, .resumed ⟨some 1, [1], .afterSwapIn 4⟩⟩], rfl,
    .cons ⟨rfl, rfl, rfl⟩ (.cons ⟨rfl, rfl, rfl⟩ (.cons ⟨rfl, rfl, rfl⟩ (.cons ⟨rfl, rfl, rfl⟩
      (.cons ⟨rfl, rfl, rfl⟩ (.cons ⟨rfl, rfl, rfl⟩ (.nil _))))))⟩, rfl⟩

end Machine

end Sylar.Fibers
