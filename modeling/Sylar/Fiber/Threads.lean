import Sylar.Fiber.Abandoned
import Sylar.Foundation.Interleave
import Mathlib.Algebra.BigOperators.Group.Finset.Basic

/-!
# The fibers of many threads

`t_fiber` and `t_threadFiber` are thread-local, but `s_fiber_id` and `s_fiber_count`
belong to the process.  A step of a thread loads them, does what it does, and stores
them.

A thread that had been alone would have given its fibers other ids and would have counted
fewer of them; `Alike` says that nothing else would have been different.  So

* `threads_apart`: what threads can do together is what each of them can do alone, in any
  order of the steps;
* `threads_numbered`: the ids of all children of all threads differ, and `TotalFibers` is the
  number of fibers that exist, over all threads.

Nothing in `fiber.cc` looks at the thread a call is made on.  Here a fiber is used by the
thread that has constructed it, and by no other; threads do not end.
-/

namespace Sylar.Fibers

open Foundation

/-! ## The same fibers under other ids -/

namespace Machine

/-- The machine with these ids and this `s_fiber_id`, and with `d` more fibers counted. -/
def renumber (ids : FiberId → Nat) (i d : Nat) (m : Machine) : Machine :=
  { m with
    fibers := fun f ↦ (m.fibers f).map fun fb ↦ { fb with id := ids f }
    sFiberId := i
    sFiberCount := m.sFiberCount + d }

/-- `m'` is what becomes of `m` where fibers are numbered by `ids` up to `i`, and where
`d` fibers exist elsewhere. -/
structure Alike (ids : FiberId → Nat) (i d : Nat) (m m' : Machine) : Prop where
  eq : m' = m.renumber ids i d
  unused : ∀ f, m.next ≤ f → m.fibers f = none ∧ ids f = 0
  numbered : ∀ f fb, m.fibers f = some fb → (0 < ids f ↔ fb.stack = true)
  count : m.sFiberCount = m.live.card

namespace Alike

variable {ids : FiberId → Nat} {i d : Nat} {m m' : Machine} {f t : FiberId} {p : Point}

theorem fibers (h : Alike ids i d m m') (f : FiberId) :
    m'.fibers f = (m.fibers f).map fun fb ↦ { fb with id := ids f } := by
  rw [h.eq]
  rfl

theorem next (h : Alike ids i d m m') : m'.next = m.next := by rw [h.eq]; rfl
theorem tFiber (h : Alike ids i d m m') : m'.tFiber = m.tFiber := by rw [h.eq]; rfl
theorem tThreadFiber (h : Alike ids i d m m') : m'.tThreadFiber = m.tThreadFiber := by
  rw [h.eq]; rfl
theorem stack (h : Alike ids i d m m') : m'.stack = m.stack := by rw [h.eq]; rfl
theorem frames (h : Alike ids i d m m') : m'.frames = m.frames := by rw [h.eq]; rfl
theorem clock (h : Alike ids i d m m') : m'.clock = m.clock := by rw [h.eq]; rfl
theorem left (h : Alike ids i d m m') : m'.left = m.left := by rw [h.eq]; rfl
theorem sFiberCount (h : Alike ids i d m m') : m'.sFiberCount = m.live.card + d := by
  rw [h.eq, ← h.count]; rfl
theorem here (h : Alike ids i d m m') (p : Point) : m'.here p = m.here p := by rw [h.eq]; rfl

theorem live (h : Alike ids i d m m') : m'.live = m.live := by
  unfold Machine.live
  rw [h.next]
  exact Finset.filter_congr fun f _ ↦ by rw [h.fibers, Option.isSome_map]

/-- The object at an address is there in both, or in neither. -/
theorem cases (h : Alike ids i d m m') (f : FiberId) :
    (m.fibers f = none ∧ m'.fibers f = none) ∨
      ∃ fb, m.fibers f = some fb ∧ m'.fibers f = some { fb with id := ids f } := by
  rw [h.fibers]
  cases m.fibers f with
  | none => exact .inl ⟨rfl, rfl⟩
  | some fb => exact .inr ⟨fb, rfl, rfl⟩

/-! ### Writes -/

/-- One object is written, but for its id. -/
theorem modify (h : Alike ids i d m m') {u : Fiber → Fiber}
    (hid : ∀ fb n, u { fb with id := n } = { u fb with id := n })
    (hstack : ∀ fb, (u fb).stack = fb.stack) :
    Alike ids i d (m.modify f u) (m'.modify f u) where
  eq := by
    obtain ⟨rfl, -, -, -⟩ := h
    unfold Machine.modify renumber
    congr 1
    funext g
    by_cases hg : g = f
    · subst hg
      simp only [Function.update_self, Option.map_map]
      exact congrArg (fun k ↦ (m.fibers g).map k) (funext fun fb ↦ hid fb _)
    · simp only [Function.update_of_ne hg]
  unused g hg := by
    obtain ⟨hnone, hzero⟩ := h.unused g hg
    refine ⟨?_, hzero⟩
    rw [modify_fibers]
    split
    · rw [← ‹g = f›, hnone]
      rfl
    · exact hnone
  numbered g fb hg := by
    rcases modify_cases hg with ⟨rfl, fb', hf, rfl⟩ | ⟨_, hg⟩
    · rw [hstack]
      exact h.numbered g fb' hf
    · exact h.numbered g fb hg
  count := by
    rw [live_modify]
    exact h.count

theorem setState (h : Alike ids i d m m') (st : State) :
    Alike ids i d (m.setState f st) (m'.setState f st) :=
  h.modify (fun _ _ ↦ rfl) fun _ ↦ rfl

theorem setCtx (h : Alike ids i d m m') (c : Context) :
    Alike ids i d (m.setCtx f c) (m'.setCtx f c) :=
  h.modify (fun _ _ ↦ rfl) fun _ ↦ rfl

theorem setCb (h : Alike ids i d m m') (cb : Option Nat) :
    Alike ids i d (m.setCb f cb) (m'.setCb f cb) :=
  h.modify (fun _ _ ↦ rfl) fun _ ↦ rfl

theorem setThis (h : Alike ids i d m m') (q : Option FiberId) :
    Alike ids i d (m.setThis q) (m'.setThis q) := by
  obtain ⟨rfl, hunused, hnumbered, hcount⟩ := h
  exact ⟨rfl, hunused, hnumbered, hcount⟩

theorem goto (h : Alike ids i d m m') (stack : Option FiberId) (frames : List FiberId) :
    Alike ids i d (m.goto stack frames) (m'.goto stack frames) := by
  obtain ⟨rfl, hunused, hnumbered, hcount⟩ := h
  exact ⟨rfl, hunused, hnumbered, hcount⟩

theorem save (h : Alike ids i d m m') (f : FiberId) (p : Point) :
    Alike ids i d (m.save f p) (m'.save f p) := by
  obtain ⟨heq, hunused, hnumbered, hcount⟩ := h.setCtx (f := f) (m.here p)
  refine ⟨?_, hunused, hnumbered, hcount⟩
  unfold Machine.save
  rw [h.here, heq, h.left, h.stack]
  rfl

/-- Other fibers have come or gone elsewhere. -/
theorem reload (h : Alike ids i d m m') (j c : Nat) :
    Alike ids j c m { m' with sFiberId := j, sFiberCount := m.live.card + c } := by
  obtain ⟨rfl, hunused, hnumbered, hcount⟩ := h
  exact ⟨by rw [← hcount]; rfl, hunused, hnumbered, hcount⟩

theorem tick (h : Alike ids i d m m') (n : Nat) :
    Alike ids i d { m with clock := n } { m' with clock := n } := by
  obtain ⟨rfl, hunused, hnumbered, hcount⟩ := h
  exact ⟨rfl, hunused, hnumbered, hcount⟩

/-! ### Objects come and go -/

/-- The objects after one is put at an address, under the id `n`. -/
theorem update_fibers (h : Alike ids i d m m') (f : FiberId) (x : Fiber) (n : Nat) :
    Function.update m'.fibers f (some { x with id := n }) = fun g ↦
      (Function.update m.fibers f (some x) g).map fun fb ↦
        { fb with id := Function.update ids f n g } := by
  funext g
  by_cases hg : g = f
  · subst hg
    simp only [Function.update_self, Option.map_some]
  · simp only [Function.update_of_ne hg, h.fibers]

/-- An object is put at the next address, under the id `n`. -/
theorem insert (h : Alike ids i d m m') {x : Fiber} {n : Nat} (m₁ m₁' : Machine)
    (hrest : m₁' = { m₁ with
      fibers := m₁'.fibers, sFiberId := m₁'.sFiberId, sFiberCount := m₁'.sFiberCount })
    (hf : m₁.fibers = Function.update m.fibers m.next (some x))
    (hf' : m₁'.fibers = Function.update m'.fibers m.next (some { x with id := n }))
    (hc : m₁.sFiberCount = m.sFiberCount + 1) (hc' : m₁'.sFiberCount = m'.sFiberCount + 1)
    (hn : m₁.next = m.next + 1) (hx : 0 < n ↔ x.stack = true) :
    Alike (Function.update ids m.next n) m₁'.sFiberId d m₁ m₁' where
  eq := by
    refine hrest.trans ?_
    unfold renumber
    rw [hf, hf', hc, hc', h.update_fibers, h.sFiberCount, h.count, Nat.add_right_comm]
  unused f hle := by
    have hlt : m.next < f := by rwa [hn] at hle
    have hne : f ≠ m.next := Nat.ne_of_gt hlt
    rw [hf, Function.update_of_ne hne, Function.update_of_ne hne]
    exact h.unused f (Nat.le_of_lt hlt)
  numbered f fb hfb := by
    rw [hf] at hfb
    by_cases hne : f = m.next
    · subst hne
      rw [Function.update_self, Option.some_inj] at hfb
      rw [Function.update_self, ← hfb]
      exact hx
    · rw [Function.update_of_ne hne] at hfb ⊢
      exact h.numbered f fb hfb
  count := by
    have hnew : m.next ∉ m.live := fun hmem ↦ Nat.lt_irrefl _ (mem_live.mp hmem).1
    rw [hc, live_insert hf hn, Finset.card_insert_of_notMem hnew, h.count]

theorem without (h : Alike ids i d m m') {fb : Fiber} (hf : m.fibers f = some fb) :
    Alike ids i d (m.without f) (m'.without f) := by
  have hlive : f ∈ m.live := by
    refine mem_live.mpr ⟨?_, by rw [hf]; rfl⟩
    by_contra hge
    rw [(h.unused f (Nat.not_lt.mp hge)).1] at hf
    cases hf
  have hpos : 1 ≤ m.sFiberCount := h.count ▸ Finset.card_pos.mpr ⟨f, hlive⟩
  refine ⟨?_, fun g hg ↦ ?_, fun g gb hg ↦ ?_, ?_⟩
  · obtain ⟨rfl, -, -, -⟩ := h
    unfold Machine.without renumber
    congr 1
    · funext g
      by_cases hg : g = f
      · subst hg
        simp only [Function.update_self, Option.map_none]
      · simp only [Function.update_of_ne hg]
    · exact Nat.sub_add_comm hpos
  · obtain ⟨hnone, hzero⟩ := h.unused g hg
    refine ⟨?_, hzero⟩
    show Function.update m.fibers f none g = none
    rw [Function.update_apply, hnone, ite_self]
  · have hg' : Function.update m.fibers f none g = some gb := hg
    by_cases hgf : g = f
    · rw [hgf, Function.update_self] at hg'
      cases hg'
    · rw [Function.update_of_ne hgf] at hg'
      exact h.numbered g gb hg'
  · rw [live_without, Finset.card_erase_of_mem hlive, ← h.count]
    rfl

theorem destroy (h : Alike ids i d m m') (f : FiberId) :
    Except.Rel (Alike ids i d) (m.destroy f) (m'.destroy f) := by
  unfold Machine.destroy
  rcases h.cases f with ⟨hf, hf'⟩ | ⟨fb, hf, hf'⟩
  · rw [hf, hf']
    exact .error _
  · have hwithout := h.without hf
    rw [hf, hf']
    -- the id is not looked at
    by_cases hs : fb.stack = true
    · by_cases hst : fb.state = .TERM ∨ fb.state = .INIT ∨ fb.state = .EXCEPT
      · simp only [hs, if_true, if_pos hst]
        exact .ok hwithout
      · simp only [hs, if_true, if_neg hst]
        exact .error _
    · by_cases hcb : fb.cb.isSome = true
      · simp only [hs, hcb, if_true]
        exact .error _
      · by_cases hst : fb.state = .EXEC
        · by_cases ht : m.tFiber = some f
          · have ht' : m'.tFiber = some f := h.tFiber.trans ht
            simp only [hs, hcb, hst, ht, ht', ne_eq, not_true, if_true, if_false]
            exact .ok (hwithout.setThis none)
          · have ht' : ¬ m'.tFiber = some f := by rwa [h.tFiber]
            simp only [hs, hcb, hst, ht, ht', ne_eq, not_true, if_false]
            exact .ok hwithout
        · simp only [hs, hcb, hst, ne_eq, not_false_eq_true, if_true]
          exact .error _

/-! ### The functions of `fiber.cc` -/

/-- Control goes to the same place. -/
def Agree (ids : FiberId → Nat) (i d : Nat) (r r' : Landing × Machine) : Prop :=
  r.1 = r'.1 ∧ Alike ids i d r.2 r'.2

theorem newMain (h : Alike ids i d m m') :
    Alike ids i d { m.newMain with tThreadFiber := some m.next }
      { m'.newMain with tThreadFiber := some m'.next } := by
  have hids : Function.update ids m.next 0 = ids :=
    Function.update_eq_self_iff.mpr (h.unused m.next (Nat.le_refl _)).2.symm
  have hx : 0 < 0 ↔ false = true := iff_of_false (Nat.lt_irrefl 0) Bool.false_ne_true
  obtain ⟨rfl, -, -, -⟩ := id h
  have hmain := h.insert { m.newMain with tThreadFiber := some m.next }
    { (m.renumber ids i d).newMain with tThreadFiber := some m.next } rfl rfl rfl rfl rfl rfl hx
  rwa [hids] at hmain

theorem newFiber (h : Alike ids i d m m') (stacksize : Nat) :
    Alike (Function.update ids m.next (i + 1)) (i + 1) d (m.newFiber stacksize)
      (m'.newFiber stacksize) := by
  obtain ⟨rfl, -, -, -⟩ := id h
  exact h.insert (m.newFiber stacksize) ((m.renumber ids i d).newFiber stacksize) rfl rfl rfl rfl
    rfl rfl (iff_of_true (Nat.succ_pos i) rfl)

theorem getThis (h : Alike ids i d m m') :
    m.getThis.1 = m'.getThis.1 ∧ Alike ids i d m.getThis.2 m'.getThis.2 := by
  unfold Machine.getThis
  rw [h.tFiber]
  cases m.tFiber with
  | some f => exact ⟨rfl, h⟩
  | none => exact ⟨h.next.symm, h.newMain⟩

theorem resume (h : Alike ids i d m m') (c : Context) :
    Except.Rel (Agree ids i d) (m.resume c) (m'.resume c) := by
  have hpending : m'.Pending c ↔ m.Pending c := by rw [Machine.Pending, h.left, Machine.Pending]
  unfold Machine.resume
  simp only [hpending]
  split
  · cases c.point with
    | afterSwapIn _ | afterYield _ | afterSwapOut _ => exact .ok ⟨rfl, h.goto _ _⟩
    | afterFinal | construction | entry => exact .error _
  · exact .error _

theorem swapOut (h : Alike ids i d m m') (f : FiberId) (p : Point) :
    Except.Rel (Agree ids i d) (m.swapOut f p) (m'.swapOut f p) := by
  unfold Machine.swapOut
  rw [h.tThreadFiber]
  cases m.tThreadFiber with
  | none => exact .error _
  | some t =>
      have hsave := (h.setThis (some t)).save f p
      rcases hsave.cases t with ⟨hm, hm'⟩ | ⟨main, hm, hm'⟩
      · simp only [hm, hm']
        exact .error _
      · simp only [hm, hm']
        exact hsave.resume main.ctx

theorem reset (h : Alike ids i d m m') (f : FiberId) :
    Except.Rel (Alike ids i d) (m.reset f) (m'.reset f) := by
  unfold Machine.reset
  rcases h.cases f with ⟨hf, hf'⟩ | ⟨fb, hf, hf'⟩
  · rw [hf, hf']
    exact .error _
  · have hok := ((h.setCb (f := f) (some m.clock)).setCtx (f := f) ⟨some f, [], .entry⟩).setState
      (f := f) .INIT
    simp only [hf, hf', h.clock]
    split
    · exact .error _
    · split
      · exact .ok hok
      · exact .error _

theorem enter (h : Alike ids i d m m') (f t : FiberId) :
    Alike ids i d (m.enter f t) (m'.enter f t) := by
  unfold Machine.enter
  rw [h.clock]
  exact ((h.setThis (some f)).setState .EXEC).save t _

end Alike

end Machine

namespace Shared

/-- The pointers are the same, and the machines are alike. -/
inductive Alike (ids : FiberId → Nat) (i d : Nat) (s : Shared) : Shared → Prop
  | mk {m' : Machine} : Machine.Alike ids i d s.machine m' → Alike ids i d s (s.withMachine m')

namespace Alike

variable {ids : FiberId → Nat} {i d : Nat} {s s' : Shared} {m m' : Machine} {f : FiberId}

theorem machine (h : Alike ids i d s s') : Machine.Alike ids i d s.machine s'.machine := by
  obtain ⟨hm⟩ := h
  exact hm

theorem withMachine {ids' : FiberId → Nat} {j c : Nat} (h : Alike ids i d s s')
    (hm : Machine.Alike ids' j c m m') : Alike ids' j c (s.withMachine m) (s'.withMachine m') := by
  obtain ⟨-⟩ := h
  exact .mk (s := s.withMachine m) hm

/-- The result is the same, and alike is what becomes of the fibers. -/
def Agree {α : Type} (ids : FiberId → Nat) (i d : Nat) (r r' : α × Shared) : Prop :=
  r.1 = r'.1 ∧ Alike ids i d r.2 r'.2

/-! ### Counting -/

theorem retain (h : Alike ids i d s s') (f : FiberId) :
    Alike ids i d (s.retain f) (s'.retain f) := by
  obtain ⟨hm⟩ := h
  exact .mk (s := s.retain f) hm

theorem keep (h : Alike ids i d s s') (f : FiberId) : Alike ids i d (s.keep f) (s'.keep f) := by
  obtain ⟨hm⟩ := h
  exact .mk (s := s.keep f) hm

theorem pushCur (h : Alike ids i d s s') (f : FiberId) :
    Alike ids i d (s.pushCur f) (s'.pushCur f) := by
  obtain ⟨hm⟩ := h
  rename_i m'
  have heq : (s.withMachine m').pushCur f = (s.pushCur f).withMachine m' := by
    unfold Shared.pushCur
    rw [withMachine_machine, hm.stack]
    rfl
  rw [heq]
  exact .mk (s := s.pushCur f) hm

theorem release (h : Alike ids i d s s') (f : FiberId) (n : Nat) :
    Except.Rel (Alike ids i d) (s.release f n) (s'.release f n) := by
  obtain ⟨hm⟩ := h
  unfold Shared.release
  rw [withMachine_uses]
  split
  · exact (hm.destroy f).map fun m₁ _ hm₁ ↦
      .mk (s := Shared.withMachine { s with uses := Function.update s.uses f (s.uses f - n) } m₁) hm₁
  · exact .ok (.mk (s := { s with uses := Function.update s.uses f (s.uses f - n) }) hm)

theorem dropCallback (h : Alike ids i d s s') (f : FiberId) :
    Except.Rel (Alike ids i d) (s.dropCallback f) (s'.dropCallback f) := by
  obtain ⟨hm⟩ := h
  exact release (.mk (s := { s with captured := Function.update s.captured f 0 }) hm) f _

theorem popCur (h : Alike ids i d s s') (stack : Option FiberId) :
    Except.Rel (Alike ids i d) (s.popCur stack) (s'.popCur stack) := by
  obtain ⟨hm⟩ := h
  unfold Shared.popCur
  rw [withMachine_curs]
  cases s.curs stack with
  | nil => exact .error _
  | cons cur rest =>
      exact release (.mk (s := { s with curs := Function.update s.curs stack rest }) hm) cur 1

/-! ### The functions of `fiber.cc` -/

theorem arrive (h : Alike ids i d s s') (l : Landing) :
    Except.Rel (Alike ids i d) (s.arrive l) (s'.arrive l) := by
  cases l with
  | resumed c =>
      obtain ⟨stack, frames, point⟩ := c
      cases point with
      | afterYield k => exact h.popCur stack
      | afterSwapIn _ | afterSwapOut _ | afterFinal | construction | entry => exact .ok h
  | returns | created _ | started _ _ => exact .ok h

theorem transfer (h : Alike ids i d s s') {r r' : Except Fault (Landing × Machine)}
    (hr : Except.Rel (Machine.Alike.Agree ids i d) r r') :
    Except.Rel (Agree ids i d) (s.transfer r) (s'.transfer r') := by
  refine hr.bind fun ⟨l, m⟩ ⟨_, m'⟩ hlm ↦ ?_
  obtain ⟨rfl, hm⟩ := hlm
  exact ((h.withMachine hm).arrive l).bind fun _ _ h₁ ↦ .ok ⟨rfl, h₁⟩

theorem getThis (h : Alike ids i d s s') :
    Except.Rel (Agree ids i d) s.getThis s'.getThis := by
  obtain ⟨hm⟩ := h
  rename_i m'
  obtain ⟨hfst, hthis⟩ := hm.getThis
  cases ht : s.machine.tFiber with
  | some f =>
      rw [getThis_of_some ht, getThis_of_some (s := s.withMachine m') (hm.tFiber.trans ht)]
      exact .ok ⟨rfl, retain (.mk hm) f⟩
  | none =>
      have hnew : ∀ uses, Alike ids i d { s with machine := s.machine.getThis.2, uses }
          { s with machine := m'.getThis.2, uses } := fun uses ↦
        .mk (s := { s with machine := s.machine.getThis.2, uses }) hthis
      unfold Shared.getThis
      simp only [withMachine_machine, hm.tFiber, ht, hm.tThreadFiber, ← hfst]
      cases s.machine.tThreadFiber with
      | none => exact .ok ⟨rfl, hnew _⟩
      | some t => exact ((hnew _).release t 1).map fun _ _ h₁ ↦ ⟨rfl, h₁⟩

theorem swapOut (h : Alike ids i d s s') (f : FiberId) (p : Point) :
    Except.Rel (Agree ids i d) (s.swapOut f p) (s'.swapOut f p) := by
  unfold Shared.swapOut
  rcases h.machine.cases f with ⟨hf, hf'⟩ | ⟨fb, hf, hf'⟩
  · rw [hf, hf']
    exact .error _
  · rw [hf, hf']
    exact h.transfer (h.machine.swapOut f p)

theorem finish (h : Alike ids i d s s') (cur : FiberId) :
    Except.Rel (Agree ids i d) (s.finish cur) (s'.finish cur) := by
  unfold Shared.finish
  rw [h.machine.stack]
  exact (h.popCur s.machine.stack).bind fun _ _ h₁ ↦ h₁.swapOut cur .afterFinal

theorem mainFunc (h : Alike ids i d s s') :
    Except.Rel (Agree ids i d) s.mainFunc s'.mainFunc := by
  refine h.getThis.bind fun ⟨cur, s₁⟩ ⟨_, s₁'⟩ hthis ↦ ?_
  obtain ⟨rfl, h₁⟩ := hthis
  have h₁ : Alike ids i d s₁ s₁' := h₁
  have hpush := (h₁.withMachine (h₁.machine.goto s₁.machine.stack
    (cur :: s₁.machine.frames))).pushCur cur
  simp only [h₁.machine.stack, h₁.machine.frames]
  rcases hpush.machine.cases cur with ⟨hf, hf'⟩ | ⟨fb, hf, hf'⟩
  · simp only [hf, hf', Option.bind_none]
    exact (hpush.withMachine (hpush.machine.setState .EXCEPT)).finish _
  · simp only [hf, hf', Option.bind_some]
    cases fb.cb with
    | none => exact (hpush.withMachine (hpush.machine.setState .EXCEPT)).finish _
    | some cb => exact .ok ⟨rfl, hpush⟩

theorem callbackReturns (h : Alike ids i d s s') :
    Except.Rel (Agree ids i d) s.callbackReturns s'.callbackReturns := by
  unfold Shared.callbackReturns
  rw [h.machine.frames]
  cases s.machine.frames with
  | nil => exact .error _
  | cons cur _ =>
      refine ((h.withMachine (h.machine.setCb none)).dropCallback cur).bind fun _ _ h₁ ↦ ?_
      exact (h₁.withMachine (h₁.machine.setState .TERM)).finish cur

theorem callbackThrows (h : Alike ids i d s s') :
    Except.Rel (Agree ids i d) s.callbackThrows s'.callbackThrows := by
  unfold Shared.callbackThrows
  rw [h.machine.frames]
  cases s.machine.frames with
  | nil => exact .error _
  | cons cur _ => exact (h.withMachine (h.machine.setState .EXCEPT)).finish cur

theorem swapIn (h : Alike ids i d s s') (f : FiberId) :
    Except.Rel (Agree ids i d) (s.swapIn f) (s'.swapIn f) := by
  unfold Shared.swapIn
  rcases h.machine.cases f with ⟨hf, hf'⟩ | ⟨fb, hf, hf'⟩
  · rw [hf, hf']
    exact .error _
  · simp only [hf, hf', h.machine.tThreadFiber]
    split
    · exact .error _
    · cases s.machine.tThreadFiber with
      | none => exact .error _
      | some t =>
          have henter := h.withMachine (h.machine.enter f t)
          rcases henter.machine.cases f with ⟨hg, hg'⟩ | ⟨gb, hg, hg'⟩
          · simp only [hg, hg']
            exact .error _
          · simp only [hg, hg']
            split
            · refine mainFunc ?_
              obtain ⟨hm⟩ := h
              exact .mk (s := { s.withMachine (s.machine.enter f t) with
                machine := (s.machine.enter f t).goto gb.ctx.stack gb.ctx.frames
                curs := Function.update s.curs gb.ctx.stack [] }) ((hm.enter f t).goto _ _)
            · exact henter.transfer (henter.machine.resume gb.ctx)

theorem yieldTo (h : Alike ids i d s s') (st : State) :
    Except.Rel (Agree ids i d) (s.yieldTo st) (s'.yieldTo st) := by
  refine h.getThis.bind fun ⟨cur, s₁⟩ ⟨_, s₁'⟩ hthis ↦ ?_
  obtain ⟨rfl, h₁⟩ := hthis
  have h₁ : Alike ids i d s₁ s₁' := h₁
  have hpush := h₁.pushCur cur
  simp only [hpush.machine.clock]
  exact (hpush.withMachine (hpush.machine.setState st)).swapOut _ _

theorem reset (h : Alike ids i d s s') (f : FiberId) :
    Except.Rel (Alike ids i d) (s.reset f) (s'.reset f) := by
  unfold Shared.reset
  have hr := h.machine.reset f
  generalize s.machine.reset f = r, s'.machine.reset f = r' at hr ⊢
  cases hr with
  | error e => exact .error e
  | ok _ =>
      exact (h.dropCallback f).bind fun _ _ h₁ ↦
        (h₁.machine.reset f).bind fun _ _ hm ↦ .ok (h₁.withMachine hm)

/-- The calls that are the machine's alone. -/
theorem call (h : Alike ids i d s s') {r r' : Except Fault (Landing × Machine)}
    (hr : Except.Rel (Machine.Alike.Agree ids i d) r r') :
    Except.Rel (Agree ids i d) (r.map fun r ↦ (r.1, s.withMachine r.2))
      (r'.map fun r ↦ (r.1, s'.withMachine r.2)) :=
  hr.map fun _ _ hlm ↦ ⟨hlm.1, h.withMachine hlm.2⟩

/-- Anything but the construction of a fiber, which takes a new id. -/
theorem perform (h : Alike ids i d s s') {x : RefAction} (hx : ∀ n, x ≠ .call (.construct n)) :
    Except.Rel (Agree ids i d) (s.perform x) (s'.perform x) := by
  cases x with
  | call a =>
      cases a with
      | construct n => exact absurd rfl (hx n)
      | reset f => exact (h.reset f).map fun _ _ h₁ ↦ ⟨rfl, h₁⟩
      | swapIn f => exact h.swapIn f
      | swapOut f =>
          unfold Shared.perform
          rw [h.machine.clock]
          exact h.swapOut f _
      | forget f => exact .error _
      | yieldToReady => exact h.yieldTo .READY
      | yieldToHold => exact h.yieldTo .HOLD
      | callbackReturns => exact h.callbackReturns
      | callbackThrows => exact h.callbackThrows
      | getThis =>
          refine h.getThis.map fun ⟨cur, s₁⟩ ⟨_, s₁'⟩ hthis ↦ ?_
          obtain ⟨rfl, h₁⟩ := hthis
          exact ⟨rfl, h₁.keep cur⟩
      | mainFunc => exact h.mainFunc
      | setThis q =>
          refine h.call ?_
          have hlive : (∀ g ∈ q, (s'.machine.fibers g).isSome) ↔
              ∀ g ∈ q, (s.machine.fibers g).isSome :=
            forall₂_congr fun g _ ↦ by rw [h.machine.fibers, Option.isSome_map]
          simp only [Machine.perform, hlive]
          split
          · exact .ok ⟨rfl, h.machine.setThis q⟩
          · exact .error _
      | totalFibers | getFiberID => exact .ok ⟨rfl, h⟩
  | copy f =>
      unfold Shared.perform
      rcases h.machine.cases f with ⟨hf, hf'⟩ | ⟨fb, hf, hf'⟩
      · simp only [hf, hf']
        exact .error _
      · simp only [hf, hf']
        exact .ok ⟨rfl, (h.retain f).keep f⟩
  | drop f =>
      obtain ⟨hm⟩ := h
      rename_i m'
      have heq : (s.withMachine m').outside f = s.outside f := rfl
      unfold Shared.perform
      by_cases hout : s.outside f = 0
      · simp only [if_pos hout, if_pos (heq.trans hout)]
        exact .error _
      · simp only [if_neg hout, if_neg (heq.trans_ne hout)]
        exact (release (.mk (s := { s with
          outside := Function.update s.outside f (s.outside f - 1) }) hm) f 1).map
            fun _ _ h₁ ↦ ⟨rfl, h₁⟩
  | capture f =>
      obtain ⟨hm⟩ := h
      rename_i m'
      have heq : (s.withMachine m').outside f = s.outside f := rfl
      unfold Shared.perform
      rcases hm.cases f with ⟨hf, hf'⟩ | ⟨fb, hf, hf'⟩
      · simp only [hf, withMachine_machine, hf', Option.bind_none]
        exact .error _
      · simp only [hf, withMachine_machine, hf', Option.bind_some]
        cases fb.cb with
        | none => exact .error _
        | some cb =>
            by_cases hout : s.outside f = 0
            · simp only [if_pos hout, if_pos (heq.trans hout)]
              exact .error _
            · simp only [if_neg hout, if_neg (heq.trans_ne hout)]
              exact .ok ⟨rfl, .mk (s := { s with
                outside := Function.update s.outside f (s.outside f - 1)
                captured := Function.update s.captured f (s.captured f + 1) }) hm⟩
  | uncapture f =>
      obtain ⟨hm⟩ := h
      rename_i m'
      have heq : (s.withMachine m').captured f = s.captured f := rfl
      unfold Shared.perform
      by_cases hcap : s.captured f = 0
      · simp only [if_pos hcap, if_pos (heq.trans hcap)]
        exact .error _
      · simp only [if_neg hcap, if_neg (heq.trans_ne hcap)]
        exact .ok ⟨rfl, .mk (s := { s with
          captured := Function.update s.captured f (s.captured f - 1)
          outside := Function.update s.outside f (s.outside f + 1) }) hm⟩

/-- The construction of a fiber takes the next id. -/
theorem construct (h : Alike ids i d s s') (n : Nat) :
    Except.Rel (Agree (Function.update ids s.machine.next (i + 1)) (i + 1) d)
      (s.perform (.call (.construct n))) (s'.perform (.call (.construct n))) := by
  obtain ⟨hm⟩ := h
  rename_i m'
  unfold Shared.perform
  rw [withMachine_machine, hm.next]
  have hnew : Alike (Function.update ids s.machine.next (i + 1)) (i + 1) d
      { s with machine := s.machine.newFiber n } { s with machine := m'.newFiber n } :=
    .mk (s := { s with machine := s.machine.newFiber n }) (hm.newFiber n)
  exact .ok ⟨rfl, (hnew.retain _).keep _⟩

/-- What a step numbers: a new fiber, or none. -/
def numbering (ids : FiberId → Nat) (i : Nat) (s : Shared) : RefAction → (FiberId → Nat) × Nat
  | .call (.construct _) => (Function.update ids s.machine.next (i + 1), i + 1)
  | _ => (ids, i)

/-- `ids'` gives out numbers after `i` only, up to `j`, and each to one fiber that has had
none. -/
structure Extends (ids : FiberId → Nat) (i : Nat) (ids' : FiberId → Nat) (j : Nat) : Prop where
  le : i ≤ j
  kept : ∀ f, 0 < ids f → ids' f = ids f
  cases : ∀ f, ids' f = ids f ∨ i < ids' f ∧ ids' f ≤ j
  inj : ∀ f g, i < ids' f → ids' f = ids' g → f = g

theorem numbering_extends (hle : ∀ f, ids f ≤ i) (hnew : ids s.machine.next = 0) (x : RefAction) :
    Extends ids i (numbering ids i s x).1 (numbering ids i s x).2 := by
  by_cases hx : ∃ n, x = .call (.construct n)
  · obtain ⟨n, rfl⟩ := hx
    show Extends ids i (Function.update ids s.machine.next (i + 1)) (i + 1)
    have hlast : ∀ f, i < Function.update ids s.machine.next (i + 1) f → f = s.machine.next := by
      intro f hf
      by_contra hne
      rw [Function.update_of_ne hne] at hf
      exact Nat.not_le.mpr hf (hle f)
    refine ⟨Nat.le_succ i, fun f hf ↦ Function.update_of_ne ?_ _ _, fun f ↦ ?_,
      fun f g hf heq ↦ (hlast f hf).trans (hlast g ?_).symm⟩
    · rintro rfl
      exact absurd hnew (Nat.ne_of_gt hf)
    · by_cases hne : f = s.machine.next
      · rw [hne, Function.update_self]
        exact .inr ⟨Nat.lt_succ_self i, Nat.le_refl _⟩
      · exact .inl (Function.update_of_ne hne _ _)
    · exact heq ▸ hf
  · have hnone : numbering ids i s x = (ids, i) := by
      unfold numbering
      split
      · exact absurd ⟨_, rfl⟩ hx
      · rfl
    rw [hnone]
    exact ⟨Nat.le_refl i, fun _ _ ↦ rfl, fun f ↦ .inl rfl,
      fun f g hf ↦ absurd (hle f) (Nat.not_le.mpr hf)⟩

/-- **Step lemma.** -/
theorem step (h : Alike ids i d s s') (x : RefAction) :
    Except.Rel (Agree (numbering ids i s x).1 (numbering ids i s x).2 d) (s.step x) (s'.step x) := by
  have hp : Except.Rel (Agree (numbering ids i s x).1 (numbering ids i s x).2 d)
      (s.perform x) (s'.perform x) := by
    by_cases hx : ∃ n, x = .call (.construct n)
    · obtain ⟨n, rfl⟩ := hx
      exact h.construct n
    · have hnone : numbering ids i s x = (ids, i) := by
        unfold numbering
        split
        · exact absurd ⟨_, rfl⟩ hx
        · rfl
      rw [hnone]
      exact h.perform fun n hn ↦ hx ⟨n, hn⟩
  refine hp.map fun r r' hr ↦ ⟨hr.1, ?_⟩
  have htick := hr.2.machine.tick (s.machine.clock + 1)
  rw [h.machine.clock]
  exact hr.2.withMachine htick

end Alike

end Shared

/-! ## Threads -/

/-- `s_fiber_id` and `s_fiber_count`.  The first is kept before it is cut to 64 bits. -/
structure Statics where
  s_fiber_id : Nat
  s_fiber_count : Nat
deriving DecidableEq, Repr

namespace Shared

/-- What the thread finds in the statics. -/
def load (s : Shared) (g : Statics) : Shared :=
  s.withMachine
    { s.machine with sFiberId := g.s_fiber_id, sFiberCount := g.s_fiber_count }

/-- What the thread leaves in the statics. -/
def statics (s : Shared) : Statics := ⟨s.machine.sFiberId, s.machine.sFiberCount⟩

/-- The fibers without their ids, and without the statics. -/
def unnumbered (s : Shared) : Shared :=
  s.withMachine { s.machine.renumber (fun _ ↦ 0) 0 0 with sFiberCount := 0 }

/-- Other threads have changed the statics. -/
theorem Alike.reload {ids : FiberId → Nat} {i d c : Nat} {o s : Shared} {g g' : Statics}
    (h : Alike ids i d o (s.load g)) (hc : g'.s_fiber_count = o.machine.live.card + c) :
    Alike ids g'.s_fiber_id c o (s.load g') := by
  have hreload := h.withMachine (h.machine.reload g'.s_fiber_id c)
  rwa [← hc] at hreload

theorem Alike.unnumbered {ids : FiberId → Nat} {i d : Nat} {o s : Shared}
    (h : Alike ids i d o s) : s.unnumbered = o.unnumbered := by
  obtain ⟨⟨rfl, -, -, -⟩⟩ := h
  unfold Shared.unnumbered Machine.renumber
  simp only [withMachine_machine, Option.map_map]
  rfl

/-- What a thread does alone, and where control goes. -/
def Acts (s : Shared) (e : RefAction × Landing) (s' : Shared) : Prop := s.step e.1 = .ok (e.2, s')

end Shared

/-- What a thread does among others. -/
def ThreadStep (g : Statics) (s : Shared) (e : RefAction × Landing) (g' : Statics)
    (s' : Shared) : Prop :=
  (s.load g).Acts e s' ∧ g' = s'.statics

/-- Threads that have not used fibers yet. -/
def start (T : Type*) (stackSize : Nat) : Threads T Statics Shared :=
  ⟨⟨0, 0⟩, fun _ ↦ Shared.fresh stackSize⟩

variable {T : Type*}

/-- The number of fibers of a thread. -/
def counted (own : T → Shared) (t : T) : Nat := (own t).machine.live.card

/-- The threads that have fibers are among `F`, and each is what it would be `alone`, with
the fibers numbered by `ids`. -/
structure Apart (alone : T → Shared) (ids : T → FiberId → Nat) (F : Finset T)
    (s : Threads T Statics Shared) : Prop where
  alike : ∀ t, ∃ d, Shared.Alike (ids t) s.shared.s_fiber_id d (alone t) ((s.own t).load s.shared)
  count : s.shared.s_fiber_count = ∑ t ∈ F, counted alone t
  few : ∀ t, t ∉ F → counted alone t = 0
  le : ∀ t f, ids t f ≤ s.shared.s_fiber_id
  unique : ∀ t f u g, 0 < ids t f → ids t f = ids u g → t = u ∧ f = g

namespace Apart

variable {alone : T → Shared} {ids : T → FiberId → Nat} {F : Finset T}
variable {s : Threads T Statics Shared} {t : T}

theorem start (n : Nat) : Apart (fun _ ↦ Shared.fresh n) (fun _ _ ↦ 0) ∅ (start T n) where
  alike _ := ⟨0, .mk ⟨rfl, fun _ _ ↦ ⟨rfl, rfl⟩, fun _ _ hf ↦ (nomatch hf), rfl⟩⟩
  count := rfl
  few _ _ := rfl
  le _ _ := Nat.le_refl 0
  unique _ _ _ _ hpos := absurd hpos (Nat.lt_irrefl 0)

/-- The fibers of one thread, and those of the others. -/
theorem sum_split [DecidableEq T] {n : T → Nat} (h : ∀ t, t ∉ F → n t = 0) (t : T) :
    ∑ u ∈ F, n u = n t + ∑ u ∈ F.erase t, n u := by
  by_cases ht : t ∈ F
  · exact (Finset.add_sum_erase F n ht).symm
  · rw [h t ht, Nat.zero_add, Finset.erase_eq_of_notMem ht]

variable [DecidableEq T] {s' : Shared} {e : RefAction × Landing}

theorem sum_update {o : Shared} : ∑ u ∈ (insert t F).erase t, counted (Function.update alone t o) u =
    ∑ u ∈ F.erase t, counted alone u := by
  rw [Finset.erase_insert_eq_erase]
  refine Finset.sum_congr rfl fun u hu ↦ ?_
  rw [counted, Function.update_of_ne (Finset.ne_of_mem_erase hu), counted]

/-- **Step lemma.**  What a step numbers is new, and the other threads stay as they are. -/
theorem step (h : Apart alone ids F s) {d j : Nat} {o : Shared} {ids' : FiberId → Nat}
    (hext : Shared.Alike.Extends (ids t) s.shared.s_fiber_id ids' j)
    (ht : Shared.Alike (ids t) s.shared.s_fiber_id d (alone t) ((s.own t).load s.shared))
    (ho : Shared.Alike ids' j d o s') :
    Apart (Function.update alone t o) (Function.update ids t ids') (insert t F)
      ⟨s'.statics, Function.update s.own t s'⟩ := by
  have hid : s'.statics.s_fiber_id = j := by
    rw [Shared.statics, ho.machine.eq]
    rfl
  have hfew : ∀ u, u ∉ insert t F → counted (Function.update alone t o) u = 0 := by
    intro u hu
    rw [Finset.mem_insert, not_or] at hu
    rw [counted, Function.update_of_ne hu.1]
    exact h.few u hu.2
  have hcount : s'.statics.s_fiber_count =
      ∑ u ∈ insert t F, counted (Function.update alone t o) u := by
    have hd : s.shared.s_fiber_count = (alone t).machine.live.card + d := ht.machine.sFiberCount
    have hsum := sum_split h.few t
    rw [← h.count, hd] at hsum
    rw [sum_split hfew t, sum_update, counted, Function.update_self,
      ← Nat.add_left_cancel hsum]
    exact ho.machine.sFiberCount
  refine ⟨fun u ↦ ?_, hcount, hfew, fun u f ↦ ?_, fun u f v g hpos heq ↦ ?_⟩
  · show ∃ d, Shared.Alike (Function.update ids t ids' u) s'.statics.s_fiber_id d
      (Function.update alone t o u) ((Function.update s.own t s' u).load s'.statics)
    by_cases hu : u = t
    · subst hu
      rw [Function.update_self, Function.update_self, Function.update_self, hid]
      exact ⟨d, ho⟩
    · rw [Function.update_of_ne hu, Function.update_of_ne hu, Function.update_of_ne hu]
      obtain ⟨_, halike⟩ := h.alike u
      have hrest : s'.statics.s_fiber_count = (alone u).machine.live.card +
          ∑ v ∈ (insert t F).erase u, counted (Function.update alone t o) v := by
        rw [hcount, sum_split hfew u, counted, Function.update_of_ne hu]
      exact ⟨_, halike.reload hrest⟩
  · show Function.update ids t ids' u f ≤ s'.statics.s_fiber_id
    rw [hid]
    by_cases hu : u = t
    · subst hu
      rw [Function.update_self]
      rcases hext.cases f with hf | ⟨_, hf⟩
      · rw [hf]
        exact Nat.le_trans (h.le u f) hext.le
      · exact hf
    · rw [Function.update_of_ne hu]
      exact Nat.le_trans (h.le u f) hext.le
  · have hnew : ∀ u f, Function.update ids t ids' u f = ids u f ∨
        u = t ∧ s.shared.s_fiber_id < Function.update ids t ids' u f := by
      intro u f
      by_cases hu : u = t
      · rw [hu, Function.update_self]
        exact (hext.cases f).imp_right fun hf ↦ ⟨rfl, hf.1⟩
      · exact .inl (by rw [Function.update_of_ne hu])
    rcases hnew u f with hf | ⟨rfl, hf⟩
    · rcases hnew v g with hg | ⟨rfl, hg⟩
      · rw [hf] at hpos heq
        exact h.unique u f v g hpos (heq.trans hg)
      · -- a new id is above all that have been given out
        rw [← heq, hf] at hg
        exact absurd (h.le u f) (Nat.not_le.mpr hg)
    · rcases hnew v g with hg | ⟨rfl, hg⟩
      · rw [heq, hg] at hf
        exact absurd (h.le v g) (Nat.not_le.mpr hf)
      · rw [Function.update_self] at hf heq
        exact ⟨rfl, hext.inj f g hf heq⟩

/-- A thread can do among the others what it can do alone, and nothing else. -/
theorem acts (h : Apart alone ids F s) (t : T) (e : RefAction × Landing) :
    (∀ o, (alone t).Acts e o → ∃ s', Threads.Step ThreadStep s (t, e) s' ∧
      ∃ ids', Apart (Function.update alone t o) ids' (insert t F) s') ∧
    ∀ s', Threads.Step ThreadStep s (t, e) s' → ∃ o, (alone t).Acts e o ∧
      ∃ ids', Apart (Function.update alone t o) ids' (insert t F) s' ∧
        ∀ u f, 0 < ids u f → ids' u f = ids u f := by
  obtain ⟨d, ht⟩ := h.alike t
  have hstep := ht.step e.1
  have hext := Shared.Alike.numbering_extends (s := alone t) (h.le t)
    (ht.machine.unused _ (Nat.le_refl _)).2 e.1
  constructor
  · intro o ho
    obtain ⟨⟨l, s'⟩, hs', hland, halike⟩ := hstep.ok_left ho
    cases hland
    exact ⟨_, .mk ⟨hs', rfl⟩, _, h.step hext ht halike⟩
  · rintro _ ⟨hs', rfl⟩
    obtain ⟨⟨l, o⟩, ho, hland, halike⟩ := hstep.ok_right hs'
    cases hland
    refine ⟨o, ho, _, h.step hext ht halike, fun u f hpos ↦ ?_⟩
    by_cases hu : u = t
    · subst hu
      rw [Function.update_self]
      exact hext.kept f hpos
    · rw [Function.update_of_ne hu]

end Apart

variable [DecidableEq T] {n : Nat} {s : Threads T Statics Shared}
variable {tr : List (T × RefAction × Landing)}

/-- What becomes of the steps that the threads would have done alone. -/
theorem alone_run {alone : T → Shared} {t : T} {e : RefAction × Landing} {o : Shared}
    (h : ∀ u, Run Shared.Acts (Shared.fresh n) (Threads.steps u tr) (alone u))
    (ho : (alone t).Acts e o) (u : T) :
    Run Shared.Acts (Shared.fresh n) (Threads.steps u (tr ++ [(t, e)]))
      (Function.update alone t o u) := by
  by_cases hu : u = t
  · subst hu
    rw [Threads.steps_snoc, Function.update_self]
    exact (h u).snoc ho
  · rw [Threads.steps_snoc_ne (Ne.symm hu), Function.update_of_ne hu]
    exact h u

theorem acts_deterministic (s : Shared) (e : RefAction × Landing) (s₁ s₂ : Shared)
    (h₁ : s.Acts e s₁) (h₂ : s.Acts e s₂) : s₁ = s₂ := by
  cases h₁.symm.trans h₂
  rfl

/-- **Run lemma.** -/
theorem apart_of_run (h : Run (Threads.Step ThreadStep) (start T n) tr s) :
    ∃ alone ids F, Apart alone ids F s ∧
      ∀ t, Run Shared.Acts (Shared.fresh n) (Threads.steps t tr) (alone t) := by
  refine Run.history (P := fun tr s ↦ ∃ alone ids F, Apart alone ids F s ∧
    ∀ t, Run Shared.Acts (Shared.fresh n) (Threads.steps t tr) (alone t)) ?_ ?_ h
  · exact ⟨_, _, _, .start n, fun _ ↦ .nil _⟩
  · rintro tr s ⟨t, e⟩ s' - ⟨alone, ids, F, hapart, halone⟩ hs
    obtain ⟨o, ho, ids', hapart', -⟩ := (hapart.acts t e).2 s' hs
    exact ⟨_, ids', _, hapart', alone_run halone ho⟩

/-- The steps that the threads can do alone can be done in any order. -/
theorem run_of_alone (h : ∀ t, ∃ o, Run Shared.Acts (Shared.fresh n) (Threads.steps t tr) o) :
    ∃ s, Run (Threads.Step ThreadStep) (start T n) tr s := by
  induction tr using List.reverseRecOn with
  | nil => exact ⟨_, .nil _⟩
  | append_singleton tr x ih =>
      obtain ⟨t, e⟩ := x
      have hbefore : ∀ u, ∃ o, Run Shared.Acts (Shared.fresh n) (Threads.steps u tr) o := by
        intro u
        obtain ⟨o, ho⟩ := h u
        by_cases hu : u = t
        · subst hu
          rw [Threads.steps_snoc] at ho
          obtain ⟨o', ho', -⟩ := ho.split
          exact ⟨o', ho'⟩
        · rw [Threads.steps_snoc_ne (Ne.symm hu)] at ho
          exact ⟨o, ho⟩
      obtain ⟨s, hs⟩ := ih hbefore
      obtain ⟨alone, ids, F, hapart, halone⟩ := apart_of_run hs
      obtain ⟨o, ho⟩ := h t
      rw [Threads.steps_snoc] at ho
      obtain ⟨o₁, o₂, hpre, hstep, -⟩ := ho.split_cons
      rw [hpre.deterministic acts_deterministic (halone t)] at hstep
      obtain ⟨s', hs', -⟩ := (hapart.acts t e).1 o₂ hstep
      exact ⟨s', hs.snoc hs'⟩

/-- **Threads do not meddle with the fibers of others.**  Threads can take some steps, with
control going the same ways, exactly if each of them can take its own steps alone. -/
theorem threads_apart : (∃ s, Run (Threads.Step ThreadStep) (start T n) tr s) ↔
    ∀ t, ∃ o, Run Shared.Acts (Shared.fresh n) (Threads.steps t tr) o := by
  constructor
  · rintro ⟨s, hs⟩ t
    obtain ⟨alone, -, -, -, halone⟩ := apart_of_run hs
    exact ⟨_, halone t⟩
  · exact run_of_alone

/-- **The ids and the counter of all threads.**  As long as `s_fiber_id` has not gone through
its 64 bits, no two children of any threads have the same id, and ids are those that have been
given out; `TotalFibers` is the number of fibers that exist, over all threads; and in all else
a thread's fibers are what they would be if it had been alone. -/
theorem threads_numbered (h : Run (Threads.Step ThreadStep) (start T n) tr s) :
    (s.shared.s_fiber_id < 2 ^ 64 →
      (∀ t f fb u g gb, (s.own t).machine.fibers f = some fb → fb.stack = true →
        (s.own u).machine.fibers g = some gb → fb.getID = gb.getID → t = u ∧ f = g) ∧
      ∀ t f fb, (s.own t).machine.fibers f = some fb →
        (0 < fb.getID ↔ fb.stack = true) ∧ fb.getID ≤ s.shared.s_fiber_id) ∧
    (∃ F : Finset T, (∀ t, t ∉ F → (s.own t).machine.live = ∅) ∧
      s.shared.s_fiber_count = ∑ t ∈ F, (s.own t).machine.live.card) ∧
    ∀ t o, Run Shared.Acts (Shared.fresh n) (Threads.steps t tr) o →
      (s.own t).unnumbered = o.unnumbered := by
  obtain ⟨alone, ids, F, hapart, halone⟩ := apart_of_run h
  have hid : ∀ {t f fb}, (s.own t).machine.fibers f = some fb →
      fb.id = ids t f ∧ (0 < ids t f ↔ fb.stack = true) := by
    intro t f fb hf
    obtain ⟨d, halike⟩ := hapart.alike t
    have hf' : ((s.own t).load s.shared).machine.fibers f = some fb := hf
    rw [halike.machine.fibers, Option.map_eq_some_iff] at hf'
    obtain ⟨ob, hob, rfl⟩ := hf'
    exact ⟨rfl, halike.machine.numbered f ob hob⟩
  -- below the bound nothing is cut off
  have hgetID : s.shared.s_fiber_id < 2 ^ 64 → ∀ {t f fb},
      (s.own t).machine.fibers f = some fb → fb.getID = ids t f := by
    intro hbound t f fb hf
    rw [Fiber.getID, (hid hf).1]
    exact Nat.mod_eq_of_lt (Nat.lt_of_le_of_lt (hapart.le t f) hbound)
  have hlive : ∀ t, (s.own t).machine.live = (alone t).machine.live := by
    intro t
    obtain ⟨d, halike⟩ := hapart.alike t
    exact halike.machine.live
  refine ⟨fun hbound ↦ ⟨fun t f fb u g gb hf hs hg heq ↦ ?_, fun t f fb hf ↦ ?_⟩,
    ⟨F, fun t ht ↦ ?_, ?_⟩, fun t o ho ↦ ?_⟩
  · have hpos : 0 < ids t f := (hid hf).2.mpr hs
    rw [hgetID hbound hf, hgetID hbound hg] at heq
    exact hapart.unique t f u g hpos heq
  · rw [hgetID hbound hf]
    exact ⟨(hid hf).2, hapart.le t f⟩
  · rw [hlive]
    exact Finset.card_eq_zero.mp (hapart.few t ht)
  · rw [hapart.count]
    exact Finset.sum_congr rfl fun t _ ↦ by rw [hlive, counted]
  · obtain ⟨d, halike⟩ := hapart.alike t
    rw [ho.deterministic acts_deterministic (halone t)]
    exact halike.unnumbered

/-- Two threads have a fiber each and switch to it, one in the middle of the other. -/
def twoThreads : List (Bool × RefAction × Landing) :=
  [(false, .call .getThis, .returns), (true, .call .getThis, .returns),
    (false, .call (.construct 0), .created 1), (true, .call (.construct 0), .created 1),
    (false, .call (.swapIn 1), .started 1 1), (true, .call (.swapIn 1), .started 1 1),
    (false, .call .yieldToHold, .resumed ⟨none, [], .afterSwapIn 2⟩), (false, .drop 0, .returns)]

theorem threads_numbered_twoThreads : ∃ s,
    Run (Threads.Step ThreadStep) (start Bool 1024) twoThreads s ∧ s.shared = ⟨2, 4⟩ ∧
      (∀ t f fb, (s.own t).machine.fibers f = some fb → fb.getID ≤ 2) ∧
      ∃ F : Finset Bool, 4 = ∑ t ∈ F, (s.own t).machine.live.card := by
  have hrun : ∃ s, Run (Threads.Step ThreadStep) (start Bool 1024) twoThreads s ∧
      s.shared = ⟨2, 4⟩ :=
    ⟨_, .cons (.mk ⟨rfl, rfl⟩) (.cons (.mk ⟨rfl, rfl⟩) (.cons (.mk ⟨rfl, rfl⟩)
      (.cons (.mk ⟨rfl, rfl⟩) (.cons (.mk ⟨rfl, rfl⟩) (.cons (.mk ⟨rfl, rfl⟩)
      (.cons (.mk ⟨rfl, rfl⟩) (.cons (.mk ⟨rfl, rfl⟩) (.nil _)))))))), rfl⟩
  obtain ⟨s, hr, hshared⟩ := hrun
  obtain ⟨hids, ⟨F, -, hcount⟩, -⟩ := threads_numbered hr
  rw [hshared] at hids hcount
  exact ⟨s, hr, hshared, fun t f fb hf ↦ ((hids (by decide)).2 t f fb hf).2, F, hcount⟩

end Sylar.Fibers
