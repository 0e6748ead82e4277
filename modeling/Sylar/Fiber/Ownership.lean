import Sylar.Fiber.References
import Sylar.Foundation.Fallible
import Mathlib.Data.Finset.Card
import Mathlib.Data.Finset.Range
import Mathlib.Tactic.Tauto

/-!
# What keeps a fiber alive

`Good` ties the state of every child fiber to the pointers there are to it: the
count is the number of places that hold one, a fiber that is running is held by
the `cur` of its `MainFunc`, a suspended one by that and by the `cur` of its
yield, and one that is in `INIT`, `TERM` or `EXCEPT` by none on its own stack.

What turns on this is the release of the last pointer: it can only come from
outside, for a fiber that has no activation of `MainFunc`.
-/

namespace Sylar.Fibers

open Foundation

namespace Shared

variable {s s' : Shared} {f g cur : FiberId} {fb : Fiber} {m : Machine} {l : Landing} {n : Nat}

/-! ## Field lemmas -/

@[simp] theorem withMachine_machine : (s.withMachine m).machine = m := rfl
@[simp] theorem withMachine_uses : (s.withMachine m).uses = s.uses := rfl
@[simp] theorem withMachine_outside : (s.withMachine m).outside = s.outside := rfl
@[simp] theorem withMachine_captured : (s.withMachine m).captured = s.captured := rfl
@[simp] theorem withMachine_curs : (s.withMachine m).curs = s.curs := rfl

@[simp] theorem retain_machine : (s.retain f).machine = s.machine := rfl
@[simp] theorem retain_uses : (s.retain f).uses = Function.update s.uses f (s.uses f + 1) := rfl
@[simp] theorem retain_outside : (s.retain f).outside = s.outside := rfl
@[simp] theorem retain_captured : (s.retain f).captured = s.captured := rfl
@[simp] theorem retain_curs : (s.retain f).curs = s.curs := rfl

@[simp] theorem keep_machine : (s.keep f).machine = s.machine := rfl
@[simp] theorem keep_uses : (s.keep f).uses = s.uses := rfl
@[simp] theorem keep_outside :
    (s.keep f).outside = Function.update s.outside f (s.outside f + 1) := rfl
@[simp] theorem keep_captured : (s.keep f).captured = s.captured := rfl
@[simp] theorem keep_curs : (s.keep f).curs = s.curs := rfl

@[simp] theorem pushCur_machine : (s.pushCur f).machine = s.machine := rfl
@[simp] theorem pushCur_uses : (s.pushCur f).uses = s.uses := rfl
@[simp] theorem pushCur_outside : (s.pushCur f).outside = s.outside := rfl
@[simp] theorem pushCur_captured : (s.pushCur f).captured = s.captured := rfl

theorem getThis_of_some (h : s.machine.tFiber = some f) : s.getThis = .ok (f, s.retain f) := by
  simp [getThis, h]

/-! ## Releasing pointers -/

/-- The object stays, since there are other pointers to it. -/
theorem release_lt (h : n < s.uses f) :
    s.release f n = .ok { s with uses := Function.update s.uses f (s.uses f - n) } := by
  have hn : ¬ (0 < n ∧ s.uses f ≤ n) := fun h' ↦ absurd h'.2 (Nat.not_le.mpr h)
  simp only [release, if_neg hn]

/-- The last pointers go away. -/
theorem release_last (hn : 0 < n) (h : s.uses f = n) :
    s.release f n = (s.machine.destroy f).map
      { s with uses := Function.update s.uses f 0 }.withMachine := by
  simp [release, h, hn]

theorem popCur_cons {stack : Option FiberId} {rest : List FiberId}
    (h : s.curs stack = cur :: rest) :
    s.popCur stack = { s with curs := Function.update s.curs stack rest }.release cur 1 := by
  simp [popCur, h]

/-- A release leaves the objects alone, or destroys the one it is about. -/
theorem release_ok (hok : s.release f n = .ok s') : s'.captured = s.captured ∧
    (s'.machine = s.machine ∨ s.machine.destroy f = .ok s'.machine) := by
  unfold release at hok
  split at hok
  · obtain ⟨m, hd, rfl⟩ := Except.map_ok_iff.mp hok
    exact ⟨rfl, .inr hd⟩
  · cases hok
    exact ⟨rfl, .inl rfl⟩

/-- `GetThis` copies a pointer, or makes a main fiber and gives up the one before. -/
theorem getThis_ok (hok : s.getThis = .ok (f, s')) :
    f = s.machine.getThis.1 ∧ ((s.machine.tFiber = some f ∧ s' = s.retain f) ∨
      ∃ uses, let s₁ : Shared := { s with machine := s.machine.getThis.2, uses }
        s' = s₁ ∨ ∃ t, s₁.release t 1 = .ok s') := by
  cases ht : s.machine.tFiber with
  | some g =>
      rw [getThis_of_some ht] at hok
      cases hok
      exact ⟨by rw [Machine.getThis_of_some ht], .inl ⟨rfl, rfl⟩⟩
  | none =>
      simp only [getThis, ht] at hok
      split at hok
      · cases hok
        exact ⟨rfl, .inr ⟨_, .inl rfl⟩⟩
      · obtain ⟨s₁, hrel, heq⟩ := Except.map_ok_iff.mp hok
        cases heq
        exact ⟨rfl, .inr ⟨_, .inr ⟨_, hrel⟩⟩⟩

/-- Where control goes on, at most the `cur` of a yield goes away. -/
theorem transfer_ok {r : Except Fault (Landing × Machine)} (hok : s.transfer r = .ok (l, s')) :
    ∃ m, r = .ok (l, m) ∧
      (s' = s.withMachine m ∨ ∃ stack, (s.withMachine m).popCur stack = .ok s') := by
  obtain ⟨⟨l₁, m⟩, hr, hok⟩ := Except.bind_ok_iff.mp hok
  obtain ⟨s₁, harrive, heq⟩ := Except.bind_ok_iff.mp hok
  cases heq
  refine ⟨m, hr, ?_⟩
  unfold arrive at harrive
  split at harrive
  · split at harrive
    · exact .inr ⟨_, harrive⟩
    · exact .inl (Except.ok.inj harrive).symm
  · exact .inl (Except.ok.inj harrive).symm

/-! ## What is carried along -/

/-- A property that releases keep, and the `swapOut` of the machine. -/
structure Carried (I : Shared → Prop) : Prop where
  release : ∀ {s s' f n}, I s → s.release f n = .ok s' → I s'
  curs : ∀ {s} (curs : Option FiberId → List FiberId), I s → I { s with curs }
  uses : ∀ {s} (uses : FiberId → Nat), I s → I { s with uses }
  main : ∀ {s}, I s → I (s.withMachine s.machine.getThis.2)
  switch : ∀ {s f p l m}, I s → s.machine.swapOut f p = .ok (l, m) → I (s.withMachine m)

namespace Carried

variable {I : Shared → Prop} {p : Point}

theorem popCur (hI : Carried I) {stack : Option FiberId} (h : I s)
    (hok : s.popCur stack = .ok s') : I s' := by
  cases hc : s.curs stack with
  | nil => simp [Shared.popCur, hc] at hok
  | cons cur rest =>
      rw [popCur_cons hc] at hok
      exact hI.release (hI.curs _ h) hok

theorem getThis (hI : Carried I) (h : I s) (hok : s.getThis = .ok (f, s')) : I s' := by
  obtain ⟨-, ⟨-, rfl⟩ | ⟨uses, rfl | ⟨t, hrel⟩⟩⟩ := getThis_ok hok
  · exact hI.uses _ h
  · exact hI.uses uses (hI.main h)
  · exact hI.release (hI.uses uses (hI.main h)) hrel

theorem transfer (hI : Carried I) {r : Except Fault (Landing × Machine)}
    (h : ∀ m, r = .ok (l, m) → I (s.withMachine m)) (hok : s.transfer r = .ok (l, s')) :
    I s' := by
  obtain ⟨m, hr, rfl | ⟨stack, hpop⟩⟩ := transfer_ok hok
  · exact h m hr
  · exact hI.popCur (h m hr) hpop

theorem swapOut (hI : Carried I) (h : I s) (hok : s.swapOut f p = .ok (l, s')) : I s' := by
  unfold Shared.swapOut at hok
  split at hok
  · cases hok
  · exact hI.transfer (fun _ hr ↦ hI.switch h hr) hok

/-- The end of `MainFunc`. -/
theorem finish (hI : Carried I) (h : I s) (hok : s.finish f = .ok (l, s')) : I s' := by
  obtain ⟨s₁, hpop, hok⟩ := Except.bind_ok_iff.mp hok
  exact hI.swapOut (hI.popCur h hpop) hok

end Carried

end Shared

namespace Machine

/-- The fibers that exist. -/
def live (m : Machine) : Finset FiberId :=
  (Finset.range m.next).filter fun f ↦ (m.fibers f).isSome

variable {m : Machine} {f : FiberId} {fb : Fiber}

theorem mem_live : f ∈ m.live ↔ f < m.next ∧ (m.fibers f).isSome = true := by
  rw [live, Finset.mem_filter, Finset.mem_range]

@[simp] theorem live_modify (u : Fiber → Fiber) : (m.modify f u).live = m.live := by
  refine Finset.filter_congr fun g _ ↦ ?_
  by_cases h : g = f
  · subst h; simp
  · simp [h]

@[simp] theorem live_setThis (t : Option FiberId) : (m.setThis t).live = m.live := rfl

@[simp] theorem live_save (p : Point) : (m.save f p).live = m.live :=
  live_modify fun fb ↦ { fb with ctx := m.here p }

@[simp] theorem live_goto (t : Option FiberId) (fs : List FiberId) : (m.goto t fs).live = m.live :=
  rfl

@[simp] theorem modify_sFiberCount (u : Fiber → Fiber) :
    (m.modify f u).sFiberCount = m.sFiberCount := rfl

@[simp] theorem setThis_sFiberCount (t : Option FiberId) :
    (m.setThis t).sFiberCount = m.sFiberCount := rfl

@[simp] theorem save_sFiberCount (p : Point) : (m.save f p).sFiberCount = m.sFiberCount := rfl

@[simp] theorem goto_sFiberCount (t : Option FiberId) (fs : List FiberId) :
    (m.goto t fs).sFiberCount = m.sFiberCount := rfl

theorem destroy_child (hf : m.fibers f = some fb) (hs : fb.stack = true)
    (hst : fb.state = .INIT ∨ fb.state = .TERM ∨ fb.state = .EXCEPT) :
    m.destroy f = .ok (m.without f) := by
  have hst' : fb.state = .TERM ∨ fb.state = .INIT ∨ fb.state = .EXCEPT := by tauto
  simp [destroy, hf, hs, hst', without]

/-- The destructor brings no object about. -/
theorem destroy_fibers {m' : Machine} (hok : m.destroy f = .ok m') (hg : m'.fibers g = some fb) :
    m.fibers g = some fb := by
  obtain ⟨t, rfl⟩ := destroy_ok hok
  exact (without_cases hg).2

theorem live_without : (m.without f).live = m.live.erase f := by
  ext g
  rw [Finset.mem_erase, mem_live, mem_live]
  by_cases h : g = f
  · simp [without, h]
  · simp [without, h]

theorem live_insert {m' : Machine} {x : Fiber}
    (hf : m'.fibers = Function.update m.fibers m.next (some x)) (hn : m'.next = m.next + 1) :
    m'.live = insert m.next m.live := by
  ext g
  rw [Finset.mem_insert, mem_live, mem_live, hf, hn]
  by_cases h : g = m.next
  · simp [h]
  · simp only [Function.update_of_ne h, h, false_or, and_congr_left_iff]
    exact fun _ ↦ ⟨fun hlt ↦ Nat.lt_of_le_of_ne (Nat.le_of_lt_succ hlt) h, Nat.lt_succ_of_lt⟩

end Machine

namespace Shared

variable {s s' : Shared} {f g cur : FiberId} {fb : Fiber} {m : Machine} {l : Landing} {n : Nat}

/-! ## The invariant -/

/-- What is on the stack of a child fiber, by its state. -/
def Activation (s : Shared) (f : FiberId) (fb : Fiber) : Prop :=
  match fb.state with
  | .INIT => fb.ctx = ⟨some f, [], .entry⟩ ∧ fb.cb.isSome = true ∧ s.curs (some f) = []
  | .READY | .HOLD =>
      (∃ k, fb.ctx = ⟨some f, [f], .afterYield k⟩ ∧ s.machine.Pending fb.ctx) ∧
        s.curs (some f) = [f, f]
  | .EXEC => s.machine.stack = some f ∧ s.curs (some f) = [f]
  | .TERM | .EXCEPT => fb.ctx.point = .afterFinal ∧ s.curs (some f) = []

/-- The pointers to a child fiber are counted, and there is one. -/
structure Owned (s : Shared) (f : FiberId) (fb : Fiber) : Prop where
  stack : fb.stack = true
  counted : s.uses f = s.outside f + s.captured f + (s.curs (some f)).length
  used : 0 < s.uses f
  activation : s.Activation f fb
  context : fb.ctx.stack = some f
  emptied : fb.state = .TERM → fb.cb = none ∧ s.captured f = 0

/-- Control is on the thread's own stack. -/
def InMain (s : Shared) : Prop :=
  s.machine.stack = none ∧ s.machine.frames = [] ∧ s.machine.tFiber = s.machine.tThreadFiber

/-- Control is in a child, to which the main fiber has given it in a `swapIn`. -/
structure InChild (s : Shared) (f : FiberId) : Prop where
  stack : s.machine.stack = some f
  frames : s.machine.frames = [f]
  this : s.machine.tFiber = some f
  child : s.machine.tThreadFiber ≠ some f
  exec : ∃ fb, s.machine.fibers f = some fb ∧ fb.state = .EXEC
  saved : ∃ t k main, s.machine.tThreadFiber = some t ∧ s.machine.fibers t = some main ∧
    main.ctx = ⟨none, [], .afterSwapIn k⟩ ∧ s.machine.Pending main.ctx

/-- No pointer is left to what does not exist. -/
structure Unowned (s : Shared) (f : FiberId) : Prop where
  uses : s.uses f = 0
  outside : s.outside f = 0
  captured : s.captured f = 0
  curs : s.curs (some f) = []

/-- The main fiber is held by `t_threadFiber`. -/
structure MainOk (s : Shared) (t : FiberId) : Prop where
  object : ∃ main, s.machine.fibers t = some main ∧ main.stack = false ∧ main.cb = none
  counted : s.uses t = s.outside t + 1
  captured : s.captured t = 0

/-- The pointers and the states agree. -/
structure Good (s : Shared) : Prop where
  main : ∀ t, s.machine.tThreadFiber = some t → s.MainOk t
  curs : s.curs none = []
  unused : ∀ f, s.machine.next ≤ f → s.machine.fibers f = none
  dead : ∀ f, s.machine.fibers f = none → s.Unowned f
  child : ∀ f fb, s.machine.fibers f = some fb → s.machine.tThreadFiber ≠ some f → s.Owned f fb
  count : s.machine.sFiberCount = s.machine.live.card
  control : s.InMain ∨ ∃ f, s.InChild f

/-- Nothing but the main fiber and `f` differs. -/
structure Elsewhere (s s' : Shared) (f : FiberId) : Prop where
  thread : s'.machine.tThreadFiber = s.machine.tThreadFiber
  next : s'.machine.next = s.machine.next
  curs : s'.curs none = s.curs none
  others : ∀ g, s.machine.tThreadFiber ≠ some g → g ≠ f →
    s'.machine.fibers g = s.machine.fibers g ∧ s'.uses g = s.uses g ∧
      s'.outside g = s.outside g ∧ s'.captured g = s.captured g ∧
      s'.curs (some g) = s.curs (some g)
  left : ∀ g, g ≠ f → s'.machine.left (some g) = s.machine.left (some g)

theorem Activation.of_eq (h : s.Activation g fb) (hc : s'.curs (some g) = s.curs (some g))
    (hl : s'.machine.left (some g) = s.machine.left (some g))
    (hs : s.machine.stack = some g → s'.machine.stack = some g) : s'.Activation g fb := by
  have paused : (∃ k, fb.ctx = ⟨some g, [g], .afterYield k⟩ ∧ s.machine.Pending fb.ctx) →
      ∃ k, fb.ctx = ⟨some g, [g], .afterYield k⟩ ∧ s'.machine.Pending fb.ctx := by
    rintro ⟨k, hctx, hp⟩
    refine ⟨k, hctx, ?_⟩
    rw [hctx, Machine.Pending] at hp ⊢
    exact hl.trans hp
  unfold Activation at h ⊢
  rw [hc]
  cases hst : fb.state <;> simp only [hst] at h ⊢
  · exact h
  · exact ⟨paused h.1, h.2⟩
  · exact ⟨hs h.1, h.2⟩
  · exact h
  · exact ⟨paused h.1, h.2⟩
  · exact h

/-! ## What the invariant says -/

theorem Good.main_alive (h : s.Good) {t : FiberId} (ht : s.machine.tThreadFiber = some t) :
    s.machine.fibers t ≠ none := by
  obtain ⟨main, hm, _⟩ := (h.main t ht).object
  simp [hm]

theorem Good.lt_next (h : s.Good) (hf : s.machine.fibers f ≠ none) : f < s.machine.next := by
  by_contra hle
  exact hf (h.unused f (Nat.not_lt.mp hle))

theorem Good.is_child (h : s.Good) (hf : s.machine.fibers f = some fb) (hs : fb.stack = true) :
    s.machine.tThreadFiber ≠ some f := by
  intro ht
  obtain ⟨main, hm, hms, _⟩ := (h.main f ht).object
  rw [hf, Option.some.injEq] at hm
  rw [← hm, hs] at hms
  cases hms

/-- What is left to show when one child and the main fiber change. -/
theorem Good.change (h : s.Good) (he : s.Elsewhere s' f)
    (hmain : ∀ t, s.machine.tThreadFiber = some t → s'.MainOk t)
    (hlt : s'.machine.fibers f ≠ none → f < s.machine.next)
    (hdead : s'.machine.fibers f = none → s.machine.tThreadFiber ≠ some f → s'.Unowned f)
    (hchild : ∀ fb, s'.machine.fibers f = some fb → s.machine.tThreadFiber ≠ some f →
      s'.Owned f fb)
    (hcount : s'.machine.sFiberCount = s'.machine.live.card)
    (hstack : ∀ g, g ≠ f → s.machine.stack = some g → s'.machine.stack = some g)
    (hcontrol : s'.InMain ∨ ∃ f, s'.InChild f) : s'.Good := by
  refine ⟨fun t ht ↦ hmain t (he.thread ▸ ht), he.curs.trans h.curs, fun g hg ↦ ?_,
    fun g hg ↦ ?_, fun g fb hg hg0 ↦ ?_, hcount, hcontrol⟩
  · rw [he.next] at hg
    have hg0 : s.machine.tThreadFiber ≠ some g := fun ht ↦
      h.main_alive ht (h.unused g hg)
    by_cases hgf : g = f
    · subst hgf
      by_contra hsome
      exact absurd (hlt hsome) (Nat.not_lt.mpr hg)
    · rw [(he.others g hg0 hgf).1]
      exact h.unused g hg
  · have hg0 : s.machine.tThreadFiber ≠ some g := fun ht ↦ by
      obtain ⟨main, hm, _⟩ := (hmain g ht).object
      rw [hm] at hg
      cases hg
    by_cases hgf : g = f
    · exact hgf ▸ hdead (hgf ▸ hg) (hgf ▸ hg0)
    · obtain ⟨hfib, hu, ho, hc, hcs⟩ := he.others g hg0 hgf
      have hd := h.dead g (hfib.symm.trans hg)
      exact ⟨hu.trans hd.uses, ho.trans hd.outside, hc.trans hd.captured, hcs.trans hd.curs⟩
  · rw [he.thread] at hg0
    by_cases hgf : g = f
    · subst hgf
      exact hchild fb hg hg0
    · obtain ⟨hfib, hu, ho', hc, hcs⟩ := he.others g hg0 hgf
      have ho := h.child g fb (hfib.symm.trans hg) hg0
      refine ⟨ho.stack, ?_, ?_, ho.activation.of_eq hcs (he.left g hgf) (hstack g hgf),
        ho.context, hc ▸ ho.emptied⟩
      · rw [hu, ho', hc, hcs]
        exact ho.counted
      · rw [hu]
        exact ho.used

/-- The control part of the invariant only reads the machine. -/
theorem control_of_eq (hm : s'.machine = s.machine) (h : s.InMain ∨ ∃ f, s.InChild f) :
    s'.InMain ∨ ∃ f, s'.InChild f := by
  rcases h with h | ⟨f, h⟩
  · left
    unfold InMain
    rwa [hm]
  · exact .inr ⟨f, hm ▸ h.stack, hm ▸ h.frames, hm ▸ h.this, hm ▸ h.child, hm ▸ h.exec,
      hm ▸ h.saved⟩

/-- Control stays where it is while objects other than those two are written. -/
theorem control_of_objects (h : s.InMain ∨ ∃ f, s.InChild f)
    (hst : s'.machine.stack = s.machine.stack)
    (hfr : s'.machine.frames = s.machine.frames) (hth : s'.machine.tFiber = s.machine.tFiber)
    (hmain : s'.machine.tThreadFiber = s.machine.tThreadFiber)
    (hleft : s'.machine.left none = s.machine.left none)
    (hfib : ∀ g fb, s.machine.fibers g = some fb →
      s.machine.tThreadFiber = some g ∨ s.InChild g → s'.machine.fibers g = some fb) :
    s'.InMain ∨ ∃ f, s'.InChild f := by
  rcases h with ⟨h₁, h₂, h₃⟩ | ⟨f, h⟩
  · exact .inl ⟨hst.trans h₁, hfr.trans h₂, by rw [hth, hmain, h₃]⟩
  · obtain ⟨fb, hf, hexec⟩ := h.exec
    obtain ⟨t, k, main, ht, hm, hctx, hp⟩ := h.saved
    have hp' : s'.machine.Pending main.ctx := by
      rw [hctx, Machine.Pending] at hp ⊢
      exact hleft.trans hp
    exact .inr ⟨f, hst.trans h.stack, hfr.trans h.frames, hth.trans h.this, hmain ▸ h.child,
      ⟨fb, hfib f fb hf (.inr h), hexec⟩,
      ⟨t, k, main, hmain.trans ht, hfib t main hm (.inl ht), hctx, hp'⟩⟩

/-- Without a pointer on its own stack a child has no activation that could go
on. -/
theorem Owned.idle (h : s.Owned f fb) (hc : s.curs (some f) = []) :
    fb.state = .INIT ∨ fb.state = .TERM ∨ fb.state = .EXCEPT := by
  have ha := h.activation
  unfold Activation at ha
  cases hst : fb.state <;> simp_all

theorem Owned.curs_idle (h : s.Owned f fb)
    (hst : fb.state = .INIT ∨ fb.state = .TERM ∨ fb.state = .EXCEPT) : s.curs (some f) = [] := by
  have ha := h.activation
  unfold Activation at ha
  rcases hst with hst | hst | hst <;> simp only [hst] at ha
  · exact ha.2.2
  · exact ha.2
  · exact ha.2

theorem Owned.suspended (h : s.Owned f fb) (hst : fb.state = .READY ∨ fb.state = .HOLD) :
    (∃ k, fb.ctx = ⟨some f, [f], .afterYield k⟩ ∧ s.machine.Pending fb.ctx) ∧
      s.curs (some f) = [f, f] := by
  have ha := h.activation
  unfold Activation at ha
  rcases hst with hst | hst <;> simpa only [hst] using ha

theorem Owned.finished (h : s.Owned f fb) (hst : fb.state = .TERM ∨ fb.state = .EXCEPT) :
    fb.ctx.point = .afterFinal := by
  have ha := h.activation
  unfold Activation at ha
  rcases hst with hst | hst <;> simp only [hst] at ha <;> exact ha.1

theorem Owned.init (h : s.Owned f fb) (hst : fb.state = .INIT) :
    fb.ctx = ⟨some f, [], .entry⟩ ∧ fb.cb.isSome = true := by
  have ha := h.activation
  simp only [Activation, hst] at ha
  exact ⟨ha.1, ha.2.1⟩

theorem Owned.running (h : s.Owned f fb) (hst : fb.state = .EXEC) :
    s.machine.stack = some f ∧ s.curs (some f) = [f] := by
  have ha := h.activation
  simpa only [Activation, hst] using ha

/-! ## Actions on pointers -/

/-- Pointers to one fiber are made, moved or destroyed, and one is left. -/
theorem Good.recount (h : s.Good) (hm : s'.machine = s.machine) (hc : s'.curs = s.curs)
    (hne : ∀ g, g ≠ f → s'.uses g = s.uses g ∧ s'.outside g = s.outside g ∧
      s'.captured g = s.captured g)
    (halive : s.machine.fibers f ≠ none)
    (hcap : s'.captured f ≤ s.captured f ∨ ∃ fb, s.machine.fibers f = some fb ∧ fb.cb ≠ none)
    (hsum : s'.uses f + (s.outside f + s.captured f) = s.uses f + (s'.outside f + s'.captured f))
    (hpos : 0 < s'.uses f) : s'.Good := by
  refine h.change (f := f) ⟨by rw [hm], by rw [hm], by rw [hc], fun g _ hg ↦
    ⟨by rw [hm], (hne g hg).1, (hne g hg).2.1, (hne g hg).2.2, by rw [hc]⟩, fun _ _ ↦ by rw [hm]⟩
    (fun t ht ↦ ?_) (fun _ ↦ h.lt_next halive)
    (fun hnone ↦ absurd (hm ▸ hnone) halive) (fun fb hf hf0 ↦ ?_) (hm ▸ h.count)
    (fun g _ hg ↦ hm ▸ hg) (control_of_eq hm h.control)
  · have hmain := h.main t ht
    have hcount := hmain.counted
    have hcap' := hmain.captured
    by_cases hf : t = f
    · subst hf
      have hzero : s'.captured t = 0 := by
        rcases hcap with hle | ⟨fb, hf, hcb⟩
        · omega
        · obtain ⟨main, hobj, -, hnone⟩ := hmain.object
          obtain rfl := Option.some.inj (hobj.symm.trans hf)
          exact absurd hnone hcb
      exact ⟨hm ▸ hmain.object, by omega, hzero⟩
    · obtain ⟨hu, ho, hc'⟩ := hne t hf
      exact ⟨hm ▸ hmain.object, by rw [hu, ho, hcount], hc'.trans hcap'⟩
  · have ho := h.child f fb (hm ▸ hf) hf0
    have hcount := ho.counted
    refine ⟨ho.stack, by rw [hc]; omega, hpos,
      ho.activation.of_eq (by rw [hc]) (by rw [hm]) (fun hs ↦ hm ▸ hs), ho.context,
      fun hterm ↦ ?_⟩
    obtain ⟨hcb, hzero⟩ := ho.emptied hterm
    rcases hcap with hle | ⟨fb', hf', hcb'⟩
    · exact ⟨hcb, by omega⟩
    · obtain rfl := Option.some.inj (hf'.symm.trans (hm ▸ hf))
      exact absurd hcb hcb'

theorem Good.keep (h : s.Good) (hf : s.machine.fibers f ≠ none) : ((s.retain f).keep f).Good := by
  refine h.recount (f := f) rfl rfl (fun g hg ↦ ?_) hf (.inl (Nat.le_refl _)) ?_ (by simp)
  · simp [hg]
  · simp only [keep_uses, retain_uses, keep_outside, retain_outside, keep_captured,
      retain_captured, Function.update_self]
    omega

/-- The state after the last pointer has gone. -/
def bury (s : Shared) (f : FiberId) : Shared :=
  { s with
    machine := s.machine.without f, uses := Function.update s.uses f 0
    outside := Function.update s.outside f 0 }

/-- A fiber with no activation is neither the main fiber nor the one that runs. -/
theorem idle_ne (h : s.machine.tThreadFiber = some g ∨ s.InChild g)
    (hf : s.machine.fibers f = some fb) (hf0 : s.machine.tThreadFiber ≠ some f)
    (hst : fb.state = .INIT ∨ fb.state = .TERM ∨ fb.state = .EXCEPT) : g ≠ f := by
  rintro rfl
  rcases h with h | h
  · exact hf0 h
  · obtain ⟨fb', hf', hexec⟩ := h.exec
    rw [hf, Option.some.injEq] at hf'
    rcases hst with hst | hst | hst <;> rw [hf', hexec] at hst <;> cases hst

theorem Good.bury (h : s.Good) (hf : s.machine.fibers f = some fb)
    (hf0 : s.machine.tThreadFiber ≠ some f)
    (hst : fb.state = .INIT ∨ fb.state = .TERM ∨ fb.state = .EXCEPT) (hcap : s.captured f = 0) :
    (s.bury f).Good := by
  have ho := h.child f fb hf hf0
  have hmem : f ∈ s.machine.live := Machine.mem_live.mpr ⟨h.lt_next (by simp [hf]), by simp [hf]⟩
  refine h.change (f := f) ⟨rfl, rfl, rfl, fun g _ hg ↦ ⟨Function.update_of_ne hg _ _,
    Function.update_of_ne hg _ _, Function.update_of_ne hg _ _, rfl, rfl⟩,
    fun g hg ↦ Function.update_of_ne (by simpa using hg) _ _⟩ (fun t ht ↦ ?_)
    (fun hne ↦ absurd (Function.update_self _ _ _) hne)
    (fun _ _ ↦ ⟨Function.update_self _ _ _, Function.update_self _ _ _, hcap, ho.curs_idle hst⟩)
    (fun fb' hf' _ ↦ ?_) ?_ (fun _ _ hg ↦ hg) ?_
  · have hmain := h.main t ht
    obtain ⟨main, hm, hrest⟩ := hmain.object
    have htf : t ≠ f := idle_ne (.inl ht) hf hf0 hst
    exact ⟨⟨main, (Function.update_of_ne htf _ _).trans hm, hrest⟩,
      by simpa [Shared.bury, htf] using hmain.counted, hmain.captured⟩
  · have hnone : (s.bury f).machine.fibers f = none := Function.update_self _ _ _
    rw [hnone] at hf'
    cases hf'
  · change s.machine.sFiberCount - 1 = (s.machine.without f).live.card
    rw [Machine.live_without, Finset.card_erase_of_mem hmem, h.count]
  · refine control_of_objects h.control rfl rfl rfl rfl rfl fun g fbg hg hgs ↦ ?_
    exact (Function.update_of_ne (idle_ne hgs hf hf0 hst) _ _).trans hg

/-- What dropping a pointer does. -/
theorem Good.drop_eq (h : s.Good) (hout : s.outside f ≠ 0) :
    s.perform (.drop f) = .ok (.returns, { s with
        outside := Function.update s.outside f (s.outside f - 1)
        uses := Function.update s.uses f (s.uses f - 1) }) ∧ 1 < s.uses f ∨
      s.perform (.drop f) = .ok (.returns, s.bury f) ∧ s.machine.tThreadFiber ≠ some f ∧
        s.uses f = 1 ∧ s.captured f = 0 ∧ ∃ fb, s.machine.fibers f = some fb ∧
          (fb.state = .INIT ∨ fb.state = .TERM ∨ fb.state = .EXCEPT) := by
  by_cases hlt : 1 < s.uses f
  · refine .inl ⟨?_, hlt⟩
    have hrel := release_lt (s := { s with
      outside := Function.update s.outside f (s.outside f - 1) }) hlt
    rw [perform, if_neg hout, hrel]
    rfl
  · right
    have hf0 : s.machine.tThreadFiber ≠ some f := fun ht ↦ by
      have := (h.main f ht).counted
      omega
    cases hf : s.machine.fibers f with
    | none => exact absurd (h.dead f hf).outside hout
    | some fb =>
        have ho := h.child f fb hf hf0
        have hcount := ho.counted
        have hcurs : s.curs (some f) = [] := List.length_eq_zero_iff.mp (by omega)
        have hst := ho.idle hcurs
        refine ⟨?_, hf0, by omega, by omega, fb, rfl, hst⟩
        rw [perform, if_neg hout, release_last (by decide) (by show s.uses f = 1; omega),
          Machine.destroy_child hf ho.stack hst]
        have hone : s.outside f = 1 := by omega
        simp [Except.map, Shared.bury, withMachine, hone]

theorem Good.drop (h : s.Good) (hok : s.perform (.drop f) = .ok (l, s')) : s'.Good := by
  by_cases hout : s.outside f = 0
  · simp [perform, hout] at hok
  · rcases h.drop_eq hout with ⟨heq, hlt⟩ | ⟨heq, hf0, _, hcap, fb, hf, hst⟩ <;> rw [heq] at hok <;>
      cases hok
    · have hf : s.machine.fibers f ≠ none := fun hnone ↦ hout (h.dead f hnone).outside
      refine h.recount (f := f) rfl rfl (fun g hg ↦ by simp [hg]) hf (.inl (Nat.le_refl _)) ?_ ?_
      · simp only [Function.update_self]
        omega
      · simp only [Function.update_self]
        omega
    · exact h.bury hf hf0 hst hcap

theorem Good.capture (h : s.Good) (hok : s.perform (.capture f) = .ok (l, s')) : s'.Good := by
  cases hcb : (s.machine.fibers f).bind Fiber.cb with
  | none => simp [perform, hcb] at hok
  | some cb =>
      by_cases hout : s.outside f = 0
      · simp [perform, hcb, hout] at hok
      · simp only [perform, hcb, if_neg hout, Except.ok.injEq, Prod.mk.injEq] at hok
        obtain ⟨-, rfl⟩ := hok
        obtain ⟨fb, hf, hfcb⟩ := Option.bind_eq_some_iff.mp hcb
        have hf0 : s.machine.tThreadFiber ≠ some f := fun ht ↦ by
          obtain ⟨main, hm, _, hmcb⟩ := (h.main f ht).object
          rw [hf, Option.some.injEq] at hm
          rw [hm, hmcb] at hfcb
          cases hfcb
        refine h.recount (f := f) rfl rfl (fun g hg ↦ by simp [hg]) (by simp [hf])
          (.inr ⟨fb, hf, by simp [hfcb]⟩) ?_ (h.child f fb hf hf0).used
        simp only [Function.update_self]
        omega

theorem Good.uncapture (h : s.Good) (hok : s.perform (.uncapture f) = .ok (l, s')) :
    s'.Good := by
  by_cases hcap : s.captured f = 0
  · simp [perform, hcap] at hok
  · simp only [perform, if_neg hcap, Except.ok.injEq, Prod.mk.injEq] at hok
    obtain ⟨-, rfl⟩ := hok
    have hf0 : s.machine.tThreadFiber ≠ some f := fun ht ↦ hcap (h.main f ht).captured
    cases hf : s.machine.fibers f with
    | none => exact absurd (h.dead f hf).captured hcap
    | some fb =>
        refine h.recount (f := f) rfl rfl (fun g hg ↦ by simp [hg]) (by simp [hf])
          (.inl ?_) ?_ (h.child f fb hf hf0).used
        · simp
        · simp only [Function.update_self]
          omega

/-! ## New objects -/

/-- `x` is constructed at the next address, with `n` pointers outside. -/
structure Added (s s' : Shared) (x : Fiber) (n : Nat) : Prop where
  fibers : s'.machine.fibers = Function.update s.machine.fibers s.machine.next (some x)
  next : s'.machine.next = s.machine.next + 1
  count : s'.machine.sFiberCount = s.machine.sFiberCount + 1
  stack : s'.machine.stack = s.machine.stack
  frames : s'.machine.frames = s.machine.frames
  left : s'.machine.left = s.machine.left
  curs : s'.curs = s.curs
  captured : s'.captured = s.captured
  outside : s'.outside = Function.update s.outside s.machine.next n
  others : ∀ g, g ≠ s.machine.next → s'.uses g = s.uses g
  same : s.machine.tThreadFiber = s'.machine.tThreadFiber ∨
    s.machine.tThreadFiber = none ∧ s'.machine.tThreadFiber = some s.machine.next

theorem Good.added {x : Fiber} (h : s.Good) (ha : s.Added s' x n)
    (hmain : s'.machine.tThreadFiber = some s.machine.next →
      x.stack = false ∧ x.cb = none ∧ s'.uses s.machine.next = n + 1)
    (hchild : s'.machine.tThreadFiber ≠ some s.machine.next →
      s'.Owned s.machine.next x)
    (hcontrol : s'.InMain ∨ ∃ f, s'.InChild f) : s'.Good := by
  have hnone : s.machine.fibers s.machine.next = none := h.unused _ (Nat.le_refl _)
  have hdead := h.dead _ hnone
  have hold : ∀ {f}, f ≠ s.machine.next → s'.machine.fibers f = s.machine.fibers f := fun hf ↦ by
    rw [ha.fibers, Function.update_of_ne hf]
  have hnew : s'.machine.fibers s.machine.next = some x := by
    rw [ha.fibers, Function.update_self]
  have hout : ∀ {f}, f ≠ s.machine.next → s'.outside f = s.outside f := fun hf ↦ by
    rw [ha.outside, Function.update_of_ne hf]
  have hthread : ∀ {f}, f ≠ s.machine.next → s'.machine.tThreadFiber = some f →
      s.machine.tThreadFiber = some f := fun hf ht ↦ by
    rcases ha.same with he | ⟨_, he⟩
    · exact he.trans ht
    · rw [ht, Option.some.injEq] at he
      exact absurd he hf
  refine ⟨fun t ht ↦ ?_, (congrFun ha.curs _).trans h.curs, fun f hf ↦ ?_, fun f hf ↦ ?_,
    fun f fb hf hf0 ↦ ?_, ?_, hcontrol⟩
  · by_cases htn : t = s.machine.next
    · subst htn
      obtain ⟨hs, hcb, hu⟩ := hmain ht
      exact ⟨⟨x, hnew, hs, hcb⟩, by rw [hu, ha.outside, Function.update_self],
        by rw [ha.captured, hdead.captured]⟩
    · have hm := h.main t (hthread htn ht)
      exact ⟨(hold htn).symm ▸ hm.object, by rw [ha.others t htn, hout htn, hm.counted],
        by rw [ha.captured, hm.captured]⟩
  · rw [ha.next] at hf
    exact (hold (Nat.ne_of_gt hf)).trans (h.unused f (Nat.le_of_lt hf))
  · by_cases hfn : f = s.machine.next
    · rw [hfn, hnew] at hf
      cases hf
    · have hd := h.dead f ((hold hfn).symm.trans hf)
      exact ⟨(ha.others f hfn).trans hd.uses, (hout hfn).trans hd.outside,
        by rw [ha.captured, hd.captured], by rw [ha.curs, hd.curs]⟩
  · by_cases hfn : f = s.machine.next
    · subst hfn
      rw [hnew, Option.some.injEq] at hf
      exact hf ▸ hchild hf0
    · have hft : s.machine.tThreadFiber ≠ some f := fun ht ↦ by
        rcases ha.same with he | ⟨he, _⟩
        · exact hf0 (he.symm.trans ht)
        · rw [he] at ht
          cases ht
      have ho := h.child f fb ((hold hfn).symm.trans hf) hft
      exact ⟨ho.stack, by rw [ha.others f hfn, hout hfn, ha.captured, ha.curs, ho.counted],
        by rw [ha.others f hfn]; exact ho.used,
        ho.activation.of_eq (by rw [ha.curs]) (by rw [ha.left]) fun hs ↦ ha.stack.trans hs,
        ho.context,
        ha.captured ▸ ho.emptied⟩
  · have hmem : s.machine.next ∉ s.machine.live := fun hmem ↦
      Nat.lt_irrefl _ (Machine.mem_live.mp hmem).1
    rw [ha.count, Machine.live_insert ha.fibers ha.next, Finset.card_insert_of_notMem hmem,
      h.count]

theorem Good.construct (h : s.Good) (n : Nat) :
    ((({ s with machine := s.machine.newFiber n } : Shared).retain s.machine.next).keep
      s.machine.next).Good := by
  have hnone : s.machine.fibers s.machine.next = none := h.unused _ (Nat.le_refl _)
  have hdead := h.dead _ hnone
  have hne : ∀ {f fb}, s.machine.fibers f = some fb → f ≠ s.machine.next := by
    rintro f fb hf rfl
    rw [hnone] at hf
    cases hf
  refine h.added (n := s.outside s.machine.next + 1) ⟨rfl, rfl, rfl, rfl, rfl, rfl, rfl, rfl, rfl,
    fun g hg ↦ Function.update_of_ne hg _ _, .inl rfl⟩ (fun ht ↦ ?_) (fun _ ↦ ?_) ?_
  · exact absurd hnone (h.main_alive ht)
  · exact ⟨rfl, by simp [hdead.uses, hdead.outside, hdead.captured, hdead.curs], by simp,
      ⟨rfl, rfl, hdead.curs⟩, rfl, nofun⟩
  · exact control_of_objects h.control rfl rfl rfl rfl rfl
      fun g fb hg _ ↦ (Function.update_of_ne (hne hg) _ _).trans hg

/-- `t_fiber` designates a fiber that exists, or there is no main fiber yet. -/
theorem Good.current (h : s.Good) :
    (∃ f fb, s.machine.tFiber = some f ∧ s.machine.fibers f = some fb) ∨
      s.machine.tFiber = none ∧ s.machine.tThreadFiber = none ∧ s.InMain := by
  rcases h.control with hc | ⟨f, hc⟩
  · cases ht : s.machine.tThreadFiber with
    | none => exact .inr ⟨hc.2.2.trans ht, rfl, hc⟩
    | some t =>
        obtain ⟨main, hm, _⟩ := (h.main t ht).object
        exact .inl ⟨t, main, hc.2.2.trans ht, hm⟩
  · obtain ⟨fb, hf, _⟩ := hc.exec
    exact .inl ⟨f, fb, hc.this, hf⟩

/-- The first `GetThis` of the thread, apart from its result. -/
def started (s : Shared) : Shared :=
  { s with
    machine := s.machine.getThis.2
    uses := Function.update s.uses s.machine.next 1 }

theorem getThis_first (ht : s.machine.tFiber = none) (hthread : s.machine.tThreadFiber = none) :
    s.getThis = .ok (s.machine.next, s.started.retain s.machine.next) := by
  simp [getThis, Machine.getThis, ht, hthread, started, retain]

theorem Good.started (h : s.Good) (hin : s.InMain) (ht : s.machine.tFiber = none) :
    s.started.Good ∧ s.started.InMain ∧ s.started.machine.tThreadFiber = some s.machine.next := by
  have hthread : s.started.machine.tThreadFiber = some s.machine.next := by
    simp [Shared.started, Machine.getThis, ht]
  have hnone : s.machine.tThreadFiber = none := hin.2.2.symm.trans ht
  have hout : s.outside s.machine.next = 0 := (h.dead _ (h.unused _ (Nat.le_refl _))).outside
  have hmain : s.started.InMain := by
    simp [InMain, Shared.started, Machine.getThis, ht, Machine.newMain, hin.1, hin.2.1]
  refine ⟨h.added (n := 0) (x := ⟨0, 0, false, .EXEC, s.machine.here .construction, none⟩)
    ⟨?_, ?_, ?_, ?_, ?_, ?_, rfl, rfl, ?_, fun g hg ↦ Function.update_of_ne hg _ _,
      .inr ⟨hnone, hthread⟩⟩ (fun _ ↦ ?_)
    (fun hne ↦ absurd hthread hne) (.inl hmain), hmain, hthread⟩
  · simp [Shared.started, Machine.getThis, ht, Machine.newMain]
  · simp [Shared.started, Machine.getThis, ht, Machine.newMain]
  · simp [Shared.started, Machine.getThis, ht, Machine.newMain]
  · simp [Shared.started, Machine.getThis, ht, Machine.newMain]
  · simp [Shared.started, Machine.getThis, ht, Machine.newMain]
  · simp [Shared.started, Machine.getThis, ht, Machine.newMain]
  · change s.outside = _
    rw [← hout, Function.update_eq_self]
  · exact ⟨rfl, rfl, Function.update_self _ _ _⟩

/-- `GetThis` gives the fiber that is current, or the first one of the thread. -/
theorem Good.getThis (h : s.Good) : ∃ f s₁, s.getThis = .ok (f, s₁) ∧ (s₁.keep f).Good ∧
    ((s.machine.fibers f ≠ none ∧ s₁ = s.retain f) ∨
      s.machine.tFiber = none ∧ f = s.machine.next ∧ s₁ = s.started.retain s.machine.next) := by
  rcases h.current with ⟨f, fb, ht, hf⟩ | ⟨ht, hthread, hin⟩
  · have hlive : s.machine.fibers f ≠ none := by simp [hf]
    exact ⟨f, _, getThis_of_some ht, h.keep hlive, .inl ⟨hlive, rfl⟩⟩
  · obtain ⟨hgood, -, hmain⟩ := h.started hin ht
    exact ⟨_, _, getThis_first ht hthread, hgood.keep (hgood.main_alive hmain),
      .inr ⟨ht, rfl, rfl⟩⟩

/-! ## `reset` -/

/-- The state after `reset`. -/
def renewed (s : Shared) (f : FiberId) : Shared :=
  { s with
    machine := s.machine.modify f fun fb ↦
      { fb with cb := some s.machine.clock, ctx := ⟨some f, [], .entry⟩, state := .INIT }
    uses := Function.update s.uses f (s.uses f - s.captured f)
    captured := Function.update s.captured f 0 }

/-- `reset` on a child that is held from outside.  With the old callback its last
pointer may go away otherwise, and nothing is left to write to. -/
theorem Good.reset_eq (h : s.Good) (hf : s.machine.fibers f = some fb)
    (hf0 : s.machine.tThreadFiber ≠ some f)
    (hst : fb.state = .INIT ∨ fb.state = .TERM ∨ fb.state = .EXCEPT) :
    s.reset f = if s.outside f = 0 then .error .noObject else .ok (s.renewed f) := by
  have ho := h.child f fb hf hf0
  have hcurs := ho.curs_idle hst
  have hcount : s.uses f = s.outside f + s.captured f := by simpa [hcurs] using ho.counted
  have hst' : fb.state = .TERM ∨ fb.state = .EXCEPT ∨ fb.state = .INIT := by tauto
  have hreset := Machine.reset_eq hf ho.stack hst'
  unfold reset
  rw [hreset]
  by_cases hout : s.outside f = 0
  · rw [if_pos hout]
    have hpos := ho.used
    have hlast : s.uses f = s.captured f := by omega
    simp only [dropCallback]
    rw [release_last (s := { s with captured := Function.update s.captured f 0 })
      (by omega) hlast, Machine.destroy_child hf ho.stack hst]
    simp [Except.map, withMachine, Machine.reset, Machine.without]
  · rw [if_neg hout]
    have hlt : s.captured f < s.uses f := by omega
    simp only [dropCallback]
    rw [release_lt (s := { s with captured := Function.update s.captured f 0 }) hlt]
    simp only [Except.ok_bind, hreset]
    simp [renewed, withMachine]

theorem Good.renewed (h : s.Good) (hf : s.machine.fibers f = some fb)
    (hf0 : s.machine.tThreadFiber ≠ some f)
    (hst : fb.state = .INIT ∨ fb.state = .TERM ∨ fb.state = .EXCEPT) (hout : s.outside f ≠ 0) :
    (s.renewed f).Good := by
  have ho := h.child f fb hf hf0
  have hcurs := ho.curs_idle hst
  have hcount : s.uses f = s.outside f + s.captured f := by simpa [hcurs] using ho.counted
  refine h.change (f := f) ⟨rfl, rfl, rfl, fun g _ hg ↦ ⟨by simp [Shared.renewed, hg],
    Function.update_of_ne hg _ _, rfl, Function.update_of_ne hg _ _, rfl⟩, fun _ _ ↦ rfl⟩
    (fun t ht ↦ ?_) (fun _ ↦ h.lt_next (by simp [hf])) (fun hnone _ ↦ ?_) (fun fb' hf' _ ↦ ?_) ?_
    (fun _ _ hg ↦ hg) ?_
  · have hmain := h.main t ht
    obtain ⟨main, hm, hrest⟩ := hmain.object
    have htf : t ≠ f := idle_ne (.inl ht) hf hf0 hst
    exact ⟨⟨main, by simp [Shared.renewed, htf, hm], hrest⟩,
      by simpa [Shared.renewed, htf] using hmain.counted,
      by simpa [Shared.renewed, htf] using hmain.captured⟩
  · simp [Shared.renewed, hf] at hnone
  · simp only [Shared.renewed, Machine.modify_fibers_self, hf, Option.map_some,
      Option.some.injEq] at hf'
    subst hf'
    refine ⟨ho.stack, ?_, ?_, ⟨rfl, rfl, hcurs⟩, rfl, nofun⟩
    · simp only [Shared.renewed, Function.update_self, hcurs, List.length_nil]
      omega
    · simp only [Shared.renewed, Function.update_self]
      omega
  · simpa [Shared.renewed] using h.count
  · refine control_of_objects h.control rfl rfl rfl rfl rfl fun g fbg hg hgs ↦ ?_
    simp [Shared.renewed, idle_ne hgs hf hf0 hst, hg]

end Shared

end Sylar.Fibers
