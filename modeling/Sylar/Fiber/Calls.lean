import Sylar.Fiber.Machine
import Sylar.Foundation.Fallible

/-!
# What each fiber call does

One lemma per function of `Machine.lean`, giving its result where the objects it
uses exist.  The proofs about runs cite these and never unfold the functions.
-/

namespace Sylar.Fibers

open Foundation

namespace Machine

variable (m : Machine) (f g : FiberId)

/-! ## Field lemmas of the writes -/

theorem modify_fibers (u : Fiber → Fiber) :
    (m.modify f u).fibers g = if g = f then (m.fibers f).map u else m.fibers g := by
  simp [modify, Function.update_apply]

@[simp] theorem modify_fibers_self (u : Fiber → Fiber) :
    (m.modify f u).fibers f = (m.fibers f).map u := by simp [modify_fibers]

@[simp] theorem modify_fibers_ne {g : FiberId} (h : g ≠ f) (u : Fiber → Fiber) :
    (m.modify f u).fibers g = m.fibers g := by simp [modify_fibers, h]

/-- A fiber after the write is the one that is written or was there before. -/
theorem modify_cases {u : Fiber → Fiber} {fb : Fiber} {m : Machine} {f g : FiberId}
    (h : (m.modify f u).fibers g = some fb) :
    (g = f ∧ ∃ fb', m.fibers f = some fb' ∧ fb = u fb') ∨ g ≠ f ∧ m.fibers g = some fb := by
  by_cases hgf : g = f
  · subst hgf
    rw [modify_fibers_self, Option.map_eq_some_iff] at h
    obtain ⟨fb', hf, rfl⟩ := h
    exact .inl ⟨rfl, fb', hf, rfl⟩
  · exact .inr ⟨hgf, by rwa [modify_fibers_ne m f hgf] at h⟩

@[simp] theorem modify_modify (u v : Fiber → Fiber) :
    (m.modify f u).modify f v = m.modify f fun fb ↦ v (u fb) := by
  simp [modify, Function.comp_def]

attribute [simp] setState setCtx setCb

@[simp] theorem modify_tFiber (u : Fiber → Fiber) : (m.modify f u).tFiber = m.tFiber := rfl
@[simp] theorem modify_tThreadFiber (u : Fiber → Fiber) :
    (m.modify f u).tThreadFiber = m.tThreadFiber := rfl
@[simp] theorem modify_stack (u : Fiber → Fiber) : (m.modify f u).stack = m.stack := rfl
@[simp] theorem modify_frames (u : Fiber → Fiber) : (m.modify f u).frames = m.frames := rfl
@[simp] theorem modify_clock (u : Fiber → Fiber) : (m.modify f u).clock = m.clock := rfl
@[simp] theorem modify_next (u : Fiber → Fiber) : (m.modify f u).next = m.next := rfl
@[simp] theorem modify_left (u : Fiber → Fiber) : (m.modify f u).left = m.left := rfl
@[simp] theorem modify_here (u : Fiber → Fiber) (p : Point) : (m.modify f u).here p = m.here p :=
  rfl

variable (t : Option FiberId) (fs : List FiberId)

@[simp] theorem setThis_fibers : (m.setThis t).fibers = m.fibers := rfl
@[simp] theorem setThis_tFiber : (m.setThis t).tFiber = t := rfl
@[simp] theorem setThis_tThreadFiber : (m.setThis t).tThreadFiber = m.tThreadFiber := rfl
@[simp] theorem setThis_stack : (m.setThis t).stack = m.stack := rfl
@[simp] theorem setThis_frames : (m.setThis t).frames = m.frames := rfl
@[simp] theorem setThis_clock : (m.setThis t).clock = m.clock := rfl
@[simp] theorem setThis_next : (m.setThis t).next = m.next := rfl
@[simp] theorem setThis_left : (m.setThis t).left = m.left := rfl
@[simp] theorem setThis_here (p : Point) : (m.setThis t).here p = m.here p := rfl

@[simp] theorem goto_fibers : (m.goto t fs).fibers = m.fibers := rfl
@[simp] theorem goto_tFiber : (m.goto t fs).tFiber = m.tFiber := rfl
@[simp] theorem goto_tThreadFiber : (m.goto t fs).tThreadFiber = m.tThreadFiber := rfl
@[simp] theorem goto_stack : (m.goto t fs).stack = t := rfl
@[simp] theorem goto_frames : (m.goto t fs).frames = fs := rfl
@[simp] theorem goto_clock : (m.goto t fs).clock = m.clock := rfl
@[simp] theorem goto_next : (m.goto t fs).next = m.next := rfl
@[simp] theorem goto_left : (m.goto t fs).left = Function.update m.left t none := rfl

@[simp] theorem goto_goto (fs' : List FiberId) : (m.goto t fs).goto t fs' = m.goto t fs' := by
  simp [goto]

variable (p : Point)

@[simp] theorem save_fibers : (m.save f p).fibers = (m.setCtx f (m.here p)).fibers := rfl
@[simp] theorem save_tFiber : (m.save f p).tFiber = m.tFiber := rfl
@[simp] theorem save_tThreadFiber : (m.save f p).tThreadFiber = m.tThreadFiber := rfl
@[simp] theorem save_stack : (m.save f p).stack = m.stack := rfl
@[simp] theorem save_frames : (m.save f p).frames = m.frames := rfl
@[simp] theorem save_clock : (m.save f p).clock = m.clock := rfl
@[simp] theorem save_next : (m.save f p).next = m.next := rfl
@[simp] theorem save_left :
    (m.save f p).left = Function.update m.left m.stack (some (m.here p)) := rfl

@[simp] theorem here_stack : (m.here p).stack = m.stack := rfl
@[simp] theorem here_frames : (m.here p).frames = m.frames := rfl
@[simp] theorem here_point : (m.here p).point = p := rfl

/-- What has just been saved can be gone on with. -/
theorem pending_save_here : (m.save f p).Pending (m.here p) := by simp [Pending]

/-- On other stacks a save changes nothing. -/
theorem pending_save {c : Context} (h : c.stack ≠ m.stack) :
    (m.save f p).Pending c ↔ m.Pending c := by simp [Pending, h]

end Machine

/-- The points a continuation goes on from. -/
@[simp] def Point.Suspended : Point → Prop
  | .afterSwapIn _ | .afterYield _ | .afterSwapOut _ => True
  | .construction | .entry | .afterFinal => False

/-- A context that `swapIn`, `swapOut` or a yield saved. -/
def Context.Suspended (c : Context) : Prop := c.point.Suspended

theorem Context.Suspended.ne_final {c : Context} (h : c.Suspended) : c.point ≠ .afterFinal := by
  intro hp
  rw [Context.Suspended, hp] at h
  exact h

namespace Machine

variable {m m' : Machine} {f t : FiberId} {p : Point} {l : Landing} {fb main : Fiber}

/-! ## Spec lemmas -/

theorem getThis_of_some (h : m.tFiber = some f) : m.getThis = (f, m) := by
  simp [getThis, h]

theorem resume_suspended {c : Context} (h : c.Suspended) (hc : m.Pending c) :
    m.resume c = .ok (.resumed c, m.goto c.stack c.frames) := by
  cases hp : c.point <;> simp_all [resume, Context.Suspended, Point.Suspended]

/-- Only a suspended context can be resumed, and only once. -/
theorem resume_ok_iff {c : Context} : m.resume c = .ok (l, m') ↔
    c.Suspended ∧ m.Pending c ∧ l = .resumed c ∧ m' = m.goto c.stack c.frames := by
  constructor
  · intro h
    by_cases hc : m.Pending c
    · cases hp : c.point <;> simp only [resume, if_pos hc, hp, reduceCtorEq] at h <;> cases h <;>
        exact ⟨by rw [Context.Suspended, hp]; trivial, hc, rfl, rfl⟩
    · simp [resume, hc] at h
  · rintro ⟨h, hc, rfl, rfl⟩
    exact resume_suspended h hc

/-- Nothing is left of a context that is not pending. -/
theorem resume_dead {c : Context} (hc : ¬ m.Pending c) : m.resume c = .error .deadFrame := by
  simp [resume, hc]

/-- `swapOut` on `f` resumes the context the main fiber has after the write to
`f`. -/
theorem swapOut_eq (ht : m.tThreadFiber = some t) (hm : m.fibers t = some main) :
    m.swapOut f p = ((m.setThis (some t)).save f p).resume
      (if t = f then m.here p else main.ctx) := by
  by_cases e : t = f
  · subst e; simp [swapOut, ht, hm]
  · simp [swapOut, ht, hm, e]

/-- A successful `swapOut` on `f` saves the running continuation in `f` and goes
on in the context of the main fiber. -/
theorem swapOut_ok (h : m.swapOut f p = .ok (l, m')) :
    ∃ t main c, m.tThreadFiber = some t ∧ m.fibers t = some main ∧
      c = (if t = f then m.here p else main.ctx) ∧ c.Suspended ∧ (m.save f p).Pending c ∧
      l = .resumed c ∧ m' = ((m.setThis (some t)).save f p).goto c.stack c.frames := by
  cases ht : m.tThreadFiber with
  | none => simp [swapOut, ht] at h
  | some t =>
      cases hm : m.fibers t with
      | none =>
          by_cases e : t = f
          · subst e; simp [swapOut, ht, hm] at h
          · simp [swapOut, ht, hm, e] at h
      | some main =>
          rw [swapOut_eq ht hm, resume_ok_iff] at h
          exact ⟨t, main, _, rfl, hm, rfl, h⟩

/-- `swapIn` on a child enters `MainFunc` if `makecontext` was the last to set
its context. -/
theorem swapIn_entry (hf : m.fibers f = some fb) (hs : fb.state ≠ .EXEC)
    (ht : m.tThreadFiber = some t) (hne : f ≠ t) (hp : fb.ctx.point = .entry) :
    m.swapIn f = ((((m.setThis (some f)).setState f .EXEC).save t (.afterSwapIn m.clock)).goto
      fb.ctx.stack fb.ctx.frames).mainFunc := by
  simp [swapIn, hf, hs, ht, hne, hp]

/-- Otherwise `swapIn` on a child resumes the context the child saved. -/
theorem swapIn_saved (hf : m.fibers f = some fb) (hs : fb.state ≠ .EXEC)
    (ht : m.tThreadFiber = some t) (hne : f ≠ t) (hp : fb.ctx.point ≠ .entry) :
    m.swapIn f = (((m.setThis (some f)).setState f .EXEC).save t (.afterSwapIn m.clock)).resume
      fb.ctx := by
  simp [swapIn, hf, hs, ht, hne, hp]

/-- `MainFunc` starts the callback of the fiber `t_fiber` designates. -/
theorem mainFunc_started {cb : Nat} {x : Fiber} (ht : m.tFiber = some f)
    (hf : m.fibers f = some x) (hcb : x.cb = some cb) :
    m.mainFunc = .ok (.started f cb, m.goto m.stack (f :: m.frames)) := by
  simp [mainFunc, getThis_of_some ht, hf, hcb]

/-- `MainFunc` either starts the callback or, where there is none, ends at once. -/
theorem mainFunc_eq : m.mainFunc =
    match (m.getThis.2.fibers m.getThis.1).bind Fiber.cb with
    | some cb => .ok (.started m.getThis.1 cb,
        m.getThis.2.goto m.getThis.2.stack (m.getThis.1 :: m.getThis.2.frames))
    | none => ((m.getThis.2.goto m.getThis.2.stack
        (m.getThis.1 :: m.getThis.2.frames)).setState m.getThis.1 .EXCEPT).swapOut
          m.getThis.1 .afterFinal := rfl

/-- A successful `MainFunc` runs in the fiber `t_fiber` designates.  Without a
callback it has been left through the `swapOut` at its end. -/
theorem mainFunc_ok (h : m.mainFunc = .ok (l, m')) : ∃ f, m.tFiber = some f ∧
    ((∃ fb cb, m.fibers f = some fb ∧ fb.cb = some cb ∧ l = .started f cb ∧
        m' = m.goto m.stack (f :: m.frames)) ∨
      (m.fibers f).bind Fiber.cb = none ∧
        ((m.goto m.stack (f :: m.frames)).setState f .EXCEPT).swapOut f .afterFinal =
          .ok (l, m')) := by
  cases ht : m.tFiber with
  | none =>
      -- the main fiber `GetThis` creates would be resumed at the end of `MainFunc`
      exfalso
      have hcb : (m.getThis.2.fibers m.getThis.1).bind Fiber.cb = none := by
        simp [getThis, ht, newMain]
      rw [mainFunc_eq, hcb] at h
      obtain ⟨t, _, c, ht', _, hc, hs, _⟩ := swapOut_ok h
      have e : t = m.getThis.1 := by
        simpa [getThis, ht, eq_comm] using ht'
      rw [if_pos e] at hc
      exact hs.ne_final (by rw [hc]; rfl)
  | some f =>
      refine ⟨f, rfl, ?_⟩
      rw [mainFunc_eq, getThis_of_some ht] at h
      cases hcb : (m.fibers f).bind Fiber.cb with
      | some cb =>
          obtain ⟨fb, hf, hfcb⟩ := Option.bind_eq_some_iff.mp hcb
          simp only [hcb, Except.ok.injEq, Prod.mk.injEq] at h
          exact .inl ⟨fb, cb, hf, hfcb, h.1.symm, h.2.symm⟩
      | none =>
          simp only [hcb] at h
          exact .inr ⟨rfl, h⟩

/-- `MainFunc` fails only in the `swapOut` at its end. -/
theorem mainFunc_error {x : Fault} (ht : m.tFiber = some f) (h : m.mainFunc = .error x) :
    ((m.goto m.stack (f :: m.frames)).setState f .EXCEPT).swapOut f .afterFinal = .error x := by
  rw [mainFunc_eq, getThis_of_some ht] at h
  cases hcb : (m.fibers f).bind Fiber.cb with
  | some cb => simp [hcb] at h
  | none => simpa only [hcb] using h

/-- The state in which `swapIn` on `f` loads `f`'s context. -/
def enter (m : Machine) (f t : FiberId) : Machine :=
  ((m.setThis (some f)).setState f .EXEC).save t (.afterSwapIn m.clock)

/-- What is left when `f` is destroyed. -/
def without (m : Machine) (f : FiberId) : Machine :=
  { m with
    fibers := Function.update m.fibers f none
    left := Function.update m.left (some f) none
    sFiberCount := m.sFiberCount - 1 }

/-- The destructor takes its object away, and may set `t_fiber` to null. -/
theorem destroy_ok (hok : m.destroy f = .ok m') :
    ∃ t, m' = (m.without f).setThis t := by
  unfold destroy at hok
  split at hok
  · cases hok
  · split at hok
    · split at hok <;> cases hok
      exact ⟨m.tFiber, rfl⟩
    · split at hok
      · cases hok
      · split at hok
        · cases hok
        · simp only [Except.ok.injEq] at hok
          split at hok
          · exact ⟨none, hok.symm⟩
          · exact ⟨m.tFiber, hok.symm⟩

/-- The destructor brings no object about. -/
theorem without_cases (hg : (m.without f).fibers g = some fb) : g ≠ f ∧ m.fibers g = some fb := by
  have hg : Function.update m.fibers f none g = some fb := hg
  by_cases hgf : g = f
  · simp [hgf] at hg
  · exact ⟨hgf, by simpa [hgf] using hg⟩

theorem without_fibers_ne (h : g ≠ f) : (m.without f).fibers g = m.fibers g :=
  Function.update_of_ne h _ _

/-- `swapIn` on any fiber, as a case distinction on the context it loads. -/
theorem swapIn_eq (hf : m.fibers f = some fb) (hs : fb.state ≠ .EXEC)
    (ht : m.tThreadFiber = some t) {c : Context}
    (hc : c = if f = t then m.here (.afterSwapIn m.clock) else fb.ctx) :
    m.swapIn f =
      if c.point = .entry then ((m.enter f t).goto c.stack c.frames).mainFunc
      else (m.enter f t).resume c := by
  subst hc
  by_cases e : f = t
  · subst e; simp [swapIn, enter, hf, hs, ht]
  · simp [swapIn, enter, hf, hs, ht, e]

/-- What a successful `swapIn` has found and done. -/
theorem swapIn_ok (h : m.swapIn f = .ok (l, m')) :
    ∃ fb t c, m.fibers f = some fb ∧ fb.state ≠ .EXEC ∧ m.tThreadFiber = some t ∧
      c = (if f = t then m.here (.afterSwapIn m.clock) else fb.ctx) ∧
      (c.point = .entry ∧ ((m.enter f t).goto c.stack c.frames).mainFunc = .ok (l, m') ∨
        c.Suspended ∧ (m.enter f t).Pending c ∧ l = .resumed c ∧
          m' = (m.enter f t).goto c.stack c.frames) := by
  cases hf : m.fibers f with
  | none => simp [swapIn, hf] at h
  | some fb =>
      by_cases hs : fb.state = .EXEC
      · simp [swapIn, hf, hs] at h
      · cases ht : m.tThreadFiber with
        | none => simp [swapIn, hf, hs, ht] at h
        | some t =>
            refine ⟨fb, t, _, rfl, hs, rfl, rfl, ?_⟩
            rw [swapIn_eq hf hs ht rfl] at h
            by_cases hp : (if f = t then m.here (.afterSwapIn m.clock) else fb.ctx).point = .entry
            · rw [if_pos hp] at h
              exact .inl ⟨hp, h⟩
            · rw [if_neg hp] at h
              exact .inr (resume_ok_iff.mp h)

/-- A yield is a `swapOut` of the fiber `t_fiber` designates. -/
theorem yieldTo_eq {st : State} (ht : m.tFiber = some f) :
    m.yieldTo st = (m.setState f st).swapOut f (.afterYield m.clock) := by
  simp [yieldTo, getThis_of_some ht]

/-- A yield calls `GetThis` before it does anything else. -/
theorem yieldTo_getThis {st : State} : m.getThis.2.yieldTo st = m.yieldTo st := by
  cases ht : m.tFiber with
  | none => simp [yieldTo, getThis, ht, newMain]
  | some f => rw [getThis_of_some ht]

/-- A yield of the main fiber swaps it with itself, and goes on. -/
theorem yieldTo_self (st : State) (hthis : m.tFiber = some t) (ht : m.tThreadFiber = some t)
    (hm : m.fibers t = some main) :
    m.yieldTo st = .ok (.resumed (m.here (.afterYield m.clock)),
      (((m.setState t st).setThis (some t)).save t (.afterYield m.clock)).goto m.stack
        m.frames) := by
  have hset : (m.setState t st).fibers t = some { main with state := st } := by simp [hm]
  rw [yieldTo_eq hthis, swapOut_eq (m := m.setState t st) ht hset, if_pos rfl]
  exact resume_suspended trivial (pending_save_here (m.setState t st) t _)

theorem callbackReturns_eq {fs : List FiberId} (h : m.frames = f :: fs) :
    m.callbackReturns = ((m.setCb f none).setState f .TERM).swapOut f .afterFinal := by
  simp [callbackReturns, h]

theorem callbackThrows_eq {fs : List FiberId} (h : m.frames = f :: fs) :
    m.callbackThrows = (m.setState f .EXCEPT).swapOut f .afterFinal := by
  simp [callbackThrows, h]

theorem reset_eq (hf : m.fibers f = some fb) (hs : fb.stack = true)
    (hst : fb.state = .TERM ∨ fb.state = .EXCEPT ∨ fb.state = .INIT) :
    m.reset f =
      .ok (((m.setCb f (some m.clock)).setCtx f ⟨some f, [], .entry⟩).setState f .INIT) := by
  simp [reset, hf, hs, hst]

theorem perform_reset_ok (h : m.perform (.reset f) = .ok (l, m')) :
    l = .returns ∧ m.reset f = .ok m' := by
  obtain ⟨m₁, hr, heq⟩ := Except.map_ok_iff.mp h
  cases heq
  exact ⟨rfl, hr⟩

theorem perform_setThis_ok {q : Option FiberId} (h : m.perform (.setThis q) = .ok (l, m')) :
    l = .returns ∧ m' = m.setThis q := by
  simp only [perform] at h
  split at h
  · simp only [Except.ok.injEq, Prod.mk.injEq] at h
    exact ⟨h.1.symm, h.2.symm⟩
  · cases h

theorem perform_swapOut_ok (h : m.perform (.swapOut f) = .ok (l, m')) :
    m.fibers f ≠ none ∧ m.swapOut f (.afterSwapOut m.clock) = .ok (l, m') := by
  cases hf : m.fibers f with
  | none => simp [perform, hf] at h
  | some fb => exact ⟨by simp, by simpa [perform, hf] using h⟩

/-- Only a main fiber that has been replaced is given up. -/
theorem perform_forget_ok (h : m.perform (.forget f) = .ok (l, m')) :
    ∃ fb, m.fibers f = some fb ∧ fb.stack = false ∧ m.tThreadFiber ≠ some f ∧
      m.destroy f = .ok m' := by
  obtain ⟨m₁, hforget, heq⟩ := Except.map_ok_iff.mp h
  cases heq
  unfold forget at hforget
  split at hforget
  · cases hforget
  · rename_i fb hf
    split at hforget
    · rename_i hmain
      exact ⟨fb, hf, hmain.1, hmain.2, hforget⟩
    · cases hforget

/-- A call succeeds when what it performs does. -/
theorem step_ok {a : Action} (h : m.perform a = .ok (l, m')) :
    m.step a = .ok (l, { m' with clock := m.clock + 1 }) := by
  simp [step, h, Except.map]

theorem step_ok_iff {a : Action} : m.step a = .ok (l, m') ↔
    ∃ m₁, m.perform a = .ok (l, m₁) ∧ m' = { m₁ with clock := m.clock + 1 } := by
  rw [step, Except.map_ok_iff]
  constructor
  · rintro ⟨⟨l₁, m₁⟩, hok, heq⟩
    cases heq
    exact ⟨m₁, hok, rfl⟩
  · rintro ⟨m₁, hok, rfl⟩
    exact ⟨(l, m₁), hok, rfl⟩

/-- A call fails when what it performs does. -/
theorem step_error_iff {a : Action} {e : Fault} :
    m.step a = .error e ↔ m.perform a = .error e := by
  cases h : m.perform a <;> simp [step, h, Except.map]

end Machine

end Sylar.Fibers
