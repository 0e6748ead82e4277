import Sylar.Fiber.Calls

/-!
# Invariants of every fiber run

`WellFormed` holds in every state a thread reaches by any calls whatsoever,
nested `swapIn`s, `SetThis` and direct calls of `MainFunc` included: every
activation of `MainFunc` that is running or can be resumed belongs to a child
fiber, and control on a child's stack is inside such an activation.

The part about the `Fiber` objects, `Table`, is separate because it also holds
in the middle of a call.  A second kind of invariant speaks about each object on
its own; `AllFibers` packages the argument for those.
-/

namespace Sylar.Fibers

open Foundation

namespace Machine

/-- The object at `f` is a child fiber: it has a stack of its own. -/
def IsChild (m : Machine) (f : FiberId) : Prop := ∃ fb, m.fibers f = some fb ∧ fb.stack = true

/-- `t_fiber` designates a child fiber. -/
def CurrentIsChild (m : Machine) : Prop := ∃ f, m.tFiber = some f ∧ m.IsChild f

/-- `t_fiber` designates the main fiber, or `GetThis` will create one. -/
def CurrentIsMain (m : Machine) : Prop := m.tFiber = none ∨ m.tFiber = m.tThreadFiber

/-- The context in the slot of `t_threadFiber`. -/
def mainCtx (m : Machine) : Option Context := (m.tThreadFiber.bind m.fibers).map Fiber.ctx

/-- The activations on a stack belong to children, and a child's stack has one. -/
def ValidFrames (m : Machine) (stack : Option FiberId) (frames : List FiberId) : Prop :=
  (∀ f ∈ frames, m.IsChild f) ∧ (stack ≠ none → frames ≠ [])

/-- A saved context is the entry of `MainFunc` on an empty stack, or can be
resumed, or will never be. -/
def ValidCtx (m : Machine) (c : Context) : Prop :=
  (c.point = .entry → c.frames = []) ∧ (c.Suspended → m.ValidFrames c.stack c.frames)

/-- What holds of the `Fiber` objects, also in the middle of a call. -/
structure Table (m : Machine) : Prop where
  unused : ∀ f, m.next ≤ f → m.fibers f = none
  thread : ∀ t, m.tThreadFiber = some t → ∃ fb, m.fibers t = some fb ∧ fb.stack = false ∧
    fb.ctx.point ≠ .afterFinal
  main_cb : ∀ f fb, m.fibers f = some fb → fb.stack = false → fb.cb = none
  saved : ∀ g fb, m.fibers g = some fb → m.ValidCtx fb.ctx

/-- What holds in every reachable state. -/
structure WellFormed (m : Machine) : Prop extends m.Table where
  running : m.ValidFrames m.stack m.frames

/-- `Q` holds of every `Fiber` object. -/
def AllFibers (Q : Fiber → Prop) (m : Machine) : Prop := ∀ f fb, m.fibers f = some fb → Q fb

variable {m m' : Machine} {f g t : FiberId} {fb : Fiber} {u : Fiber → Fiber} {p : Point}
variable {l : Landing} {Q : Fiber → Prop} {stk : Option FiberId} {fs : List FiberId}

/-! ## The slot of the main fiber -/

theorem mainCtx_eq {main : Fiber} (ht : m.tThreadFiber = some t) (hf : m.fibers t = some main) :
    m.mainCtx = some main.ctx := by
  simp [mainCtx, ht, hf]

theorem mainCtx_modify_ne {u : Fiber → Fiber} (h : m.tThreadFiber ≠ some f) :
    (m.modify f u).mainCtx = m.mainCtx := by
  cases ht : m.tThreadFiber with
  | none => simp [mainCtx, ht]
  | some t =>
      have hne : t ≠ f := fun e ↦ h (by rw [ht, e])
      simp [mainCtx, ht, hne]

theorem enter_mainCtx {main : Fiber} (ht : m.tThreadFiber = some t)
    (hf : m.fibers t = some main) :
    (m.enter f t).mainCtx = some (m.here (.afterSwapIn m.clock)) := by
  by_cases e : t = f
  · subst e; simp [mainCtx, enter, ht, hf]
  · simp [mainCtx, enter, ht, hf, e]

/-! ## Child fibers stay child fibers -/

theorem IsChild.of_eq (hf : m'.fibers = m.fibers) (h : m.IsChild g) : m'.IsChild g := by
  obtain ⟨fb, hg, hs⟩ := h
  exact ⟨fb, hf ▸ hg, hs⟩

theorem IsChild.modify (hu : ∀ fb, (u fb).stack = fb.stack) (h : m.IsChild g) :
    (m.modify f u).IsChild g := by
  obtain ⟨fb, hg, hs⟩ := h
  by_cases e : g = f
  · subst e; exact ⟨u fb, by simp [hg], by simp [hu, hs]⟩
  · exact ⟨fb, by simpa [e] using hg, hs⟩

theorem IsChild.stack_eq (h : m.IsChild f) (hf : m.fibers f = some fb) : fb.stack = true := by
  obtain ⟨fb', hf', hs⟩ := h
  rw [hf', Option.some.injEq] at hf
  exact hf ▸ hs

theorem ValidFrames.of_child (hc : ∀ g, m.IsChild g → m'.IsChild g)
    (h : m.ValidFrames stk fs) : m'.ValidFrames stk fs :=
  ⟨fun f hf ↦ hc f (h.1 f hf), h.2⟩

theorem ValidCtx.of_child (hc : ∀ g, m.IsChild g → m'.IsChild g) {c : Context}
    (h : m.ValidCtx c) : m'.ValidCtx c :=
  ⟨h.1, fun hs ↦ (h.2 hs).of_child hc⟩

theorem validCtx_entry : m.ValidCtx ⟨stk, [], .entry⟩ :=
  ⟨fun _ ↦ rfl, by simp [Context.Suspended]⟩

theorem validCtx_construction : m.ValidCtx (m.here .construction) :=
  ⟨by simp [here], by simp [Context.Suspended, here]⟩

/-- The running continuation may be saved.  At the end of `MainFunc` nothing is
asked of it, since it is never resumed. -/
theorem validCtx_here (hp : p ≠ .entry)
    (hrun : p ≠ .afterFinal → m.ValidFrames m.stack m.frames) : m.ValidCtx (m.here p) := by
  exact ⟨fun h ↦ absurd h hp, fun hs ↦ hrun hs.ne_final⟩

/-- The thread's main fiber is no child. -/
theorem Table.thread_not_child (h : Table m) (ht : m.tThreadFiber = some t) :
    ¬ m.IsChild t := by
  intro hc
  obtain ⟨fb, hf, hs, _⟩ := h.thread t ht
  simp [hc.stack_eq hf] at hs

theorem Table.ne_next (h : Table m) (hf : m.fibers f = some fb) : f ≠ m.next := by
  rintro rfl
  rw [h.unused m.next (Nat.le_refl _)] at hf
  cases hf

/-! ## The writes keep `Table` -/

/-- One object is written. -/
theorem Table.modify (h : Table m) (hstack : ∀ fb, (u fb).stack = fb.stack)
    (hcb : ∀ fb, m.fibers f = some fb → fb.stack = false → (u fb).cb = none)
    (hfinal : m.tThreadFiber = some f → ∀ fb, m.fibers f = some fb →
      (u fb).ctx.point ≠ .afterFinal)
    (hsaved : ∀ fb, m.fibers f = some fb → m.ValidCtx (u fb).ctx) :
    Table (m.modify f u) := by
  have hchild : ∀ g, m.IsChild g → (m.modify f u).IsChild g := fun g ↦ IsChild.modify hstack
  refine ⟨fun g hg ↦ ?_, fun t ht ↦ ?_, fun g fb' hg hs ↦ ?_, fun g fb' hg ↦ ?_⟩
  · have hnone := h.unused g hg
    by_cases e : g = f
    · subst e; simp [hnone]
    · simpa [e] using hnone
  · obtain ⟨fb, hf, hs, hnf⟩ := h.thread t ht
    by_cases e : t = f
    · subst e
      exact ⟨u fb, by simp [hf], by simp [hstack, hs], hfinal ht fb hf⟩
    · exact ⟨fb, by simpa [e] using hf, hs, hnf⟩
  · rcases modify_cases hg with ⟨rfl, fb, hf, rfl⟩ | ⟨_, hg⟩
    · exact hcb fb hf (by rw [← hs, hstack])
    · exact h.main_cb g fb' hg hs
  · rcases modify_cases hg with ⟨rfl, fb, hf, rfl⟩ | ⟨_, hg⟩
    · exact (hsaved fb hf).of_child hchild
    · exact (h.saved g fb' hg).of_child hchild

/-- Nothing `Table` speaks about is written. -/
theorem Table.of_eq (h : Table m) (hf : m'.fibers = m.fibers) (hn : m'.next = m.next)
    (ht : m'.tThreadFiber = m.tThreadFiber) : Table m' := by
  refine ⟨?_, ?_, ?_, fun g fb hg ↦ ?_⟩
  · rw [hf, hn]; exact h.unused
  · rw [hf, ht]; exact h.thread
  · rw [hf]; exact h.main_cb
  · exact (h.saved g fb (hf ▸ hg)).of_child fun _ ↦ IsChild.of_eq hf

/-- The main fiber has not been left at the end of `MainFunc`. -/
theorem Table.thread_final (h : Table m) (ht : m.tThreadFiber = some f)
    (hf : m.fibers f = some fb) : fb.ctx.point ≠ .afterFinal := by
  obtain ⟨fb', hf', _, hnf⟩ := h.thread f ht
  rw [hf, Option.some.injEq] at hf'
  exact hf' ▸ hnf

theorem Table.setState (h : Table m) (f : FiberId) (st : State) : Table (m.setState f st) :=
  h.modify (fun _ ↦ rfl) (fun fb hf hs ↦ h.main_cb f fb hf hs)
    (fun ht fb hf ↦ (h.thread_final ht hf : fb.ctx.point ≠ _)) (fun fb hf ↦ h.saved f fb hf)

theorem Table.clearCb (h : Table m) (f : FiberId) : Table (m.setCb f none) :=
  h.modify (fun _ ↦ rfl) (fun _ _ _ ↦ rfl)
    (fun ht fb hf ↦ (h.thread_final ht hf : fb.ctx.point ≠ _)) (fun fb hf ↦ h.saved f fb hf)

theorem Table.save (h : Table m) (hfinal : m.tThreadFiber = some f → p ≠ .afterFinal)
    (hc : m.ValidCtx (m.here p)) : Table (m.save f p) := by
  have hset : Table (m.setCtx f (m.here p)) := h.modify (fun _ ↦ rfl)
    (fun fb hf hs ↦ h.main_cb f fb hf hs) (fun ht _ _ ↦ hfinal ht) fun _ _ ↦ hc
  exact hset.of_eq rfl rfl rfl

/-- A fiber after an insertion is the new one or was there before. -/
theorem insert_cases {x : Fiber} {m' : Machine}
    (hf : m'.fibers = Function.update m.fibers m.next (some x)) (hg : m'.fibers g = some fb) :
    fb = x ∨ m.fibers g = some fb := by
  rw [hf] at hg
  by_cases hgn : g = m.next
  · rw [hgn, Function.update_self, Option.some.injEq] at hg
    exact .inl hg.symm
  · exact .inr ((Function.update_of_ne hgn _ _).symm.trans hg)

/-- A new object is put at the next address. -/
theorem Table.insert (h : Table m) {x : Fiber} (hx : x.stack = false → x.cb = none)
    (hctx : m.ValidCtx x.ctx) {m' : Machine}
    (hf : m'.fibers = Function.update m.fibers m.next (some x)) (hn : m'.next = m.next + 1)
    (ht : ∀ t, m'.tThreadFiber = some t → m.tThreadFiber = some t ∨
      t = m.next ∧ x.stack = false ∧ x.ctx.point ≠ .afterFinal) :
    Table m' ∧ ∀ g, m.IsChild g → m'.IsChild g := by
  have hchild : ∀ g, m.IsChild g → m'.IsChild g := by
    rintro g ⟨fb, hg, hs⟩
    exact ⟨fb, by simp [hf, h.ne_next hg, hg], hs⟩
  refine ⟨⟨fun g hg ↦ ?_, fun t htt ↦ ?_, fun g fb hg hs ↦ ?_, fun g fb hg ↦ ?_⟩, hchild⟩
  · have hlt : m.next < g := by rw [hn] at hg; exact hg
    simpa [hf, Nat.ne_of_gt hlt] using h.unused g (Nat.le_of_lt hlt)
  · rcases ht t htt with ht | ⟨rfl, hxs, hxp⟩
    · obtain ⟨fb, hft, hrest⟩ := h.thread t ht
      exact ⟨fb, by simp [hf, h.ne_next hft, hft], hrest⟩
    · exact ⟨x, by simp [hf], hxs, hxp⟩
  · rcases insert_cases hf hg with rfl | hg
    · exact hx hs
    · exact h.main_cb g fb hg hs
  · rcases insert_cases hf hg with rfl | hg
    · exact hctx.of_child hchild
    · exact (h.saved g fb hg).of_child hchild

/-! ## The functions keep `WellFormed` -/

theorem WellFormed.of_eq (h : WellFormed m) (hf : m'.fibers = m.fibers) (hn : m'.next = m.next)
    (ht : m'.tThreadFiber = m.tThreadFiber) (hs : m'.stack = m.stack)
    (hfr : m'.frames = m.frames) : WellFormed m' :=
  ⟨h.toTable.of_eq hf hn ht, by
    rw [hs, hfr]; exact h.running.of_child fun _ ↦ IsChild.of_eq hf⟩

theorem WellFormed.setThis (h : WellFormed m) (t : Option FiberId) : WellFormed (m.setThis t) :=
  h.of_eq rfl rfl rfl rfl rfl

theorem WellFormed.tick (h : WellFormed m) (n : Nat) : WellFormed { m with clock := n } :=
  h.of_eq rfl rfl rfl rfl rfl

/-- A write that keeps `Table` keeps `WellFormed`. -/
theorem WellFormed.of_table (h : WellFormed m) (hstack : ∀ fb, (u fb).stack = fb.stack)
    (ht : Table (m.modify f u)) : WellFormed (m.modify f u) :=
  ⟨ht, h.running.of_child fun _ ↦ IsChild.modify hstack⟩

theorem WellFormed.setState (h : WellFormed m) (f : FiberId) (st : State) :
    WellFormed (m.setState f st) :=
  h.of_table (fun _ ↦ rfl) (h.toTable.setState f st)

theorem WellFormed.newFiber (h : WellFormed m) (n : Nat) : WellFormed (m.newFiber n) := by
  have hins : Table (m.newFiber n) ∧ _ := h.toTable.insert (by simp) validCtx_entry rfl rfl
    fun t ht ↦ .inl ht
  exact ⟨hins.1, h.running.of_child hins.2⟩

theorem WellFormed.getThis (h : WellFormed m) : WellFormed m.getThis.2 := by
  cases htf : m.tFiber with
  | some f => simpa [getThis_of_some htf] using h
  | none =>
      have e : m.getThis.2 = { m.newMain with tThreadFiber := some m.next } := by
        simp [Machine.getThis, htf]
      have hins : Table m.getThis.2 ∧ _ := h.toTable.insert (x := ⟨0, 0, false, .EXEC,
        m.here .construction, none⟩) (by simp) validCtx_construction (by rw [e]; rfl)
        (by rw [e]; rfl) fun t ht ↦ .inr ⟨by simpa [e, eq_comm] using ht, rfl, by simp [here]⟩
      refine ⟨hins.1, ?_⟩
      have hrun := h.running.of_child hins.2
      rw [e] at hrun ⊢
      exact hrun

/-- Control may go to the context of any fiber that is suspended. -/
theorem Table.resumed (h : Table m) (hv : m.ValidFrames stk fs) : WellFormed (m.goto stk fs) :=
  ⟨h.of_eq rfl rfl rfl, hv.of_child fun _ ↦ IsChild.of_eq rfl⟩

theorem Table.swapOut (h : Table m) (hp : p ≠ .entry)
    (hrun : p ≠ .afterFinal → m.ValidFrames m.stack m.frames)
    (hok : m.swapOut f p = .ok (l, m')) : WellFormed m' := by
  obtain ⟨t, main, c, ht, hm, hc, hsus, -, -, rfl⟩ := swapOut_ok hok
  have hhere : m.ValidCtx (m.here p) := validCtx_here hp hrun
  have hne : t = f → p ≠ .afterFinal := by
    rintro e rfl
    rw [if_pos e] at hc
    exact hsus.ne_final (by rw [hc]; rfl)
  have hthis : Table (m.setThis (some t)) := h.of_eq rfl rfl rfl
  have hsave : Table ((m.setThis (some t)).save f p) :=
    hthis.save (fun htf ↦ hne (by simpa [ht] using htf))
      (hhere.of_child fun _ ↦ IsChild.of_eq rfl)
  have hvalid : m.ValidCtx c := by
    rw [hc]
    split
    · exact hhere
    · exact h.saved t main hm
  exact hsave.resumed ((hvalid.2 hsus).of_child fun _ hg ↦
    IsChild.modify (fun _ ↦ rfl) (hg.of_eq rfl))

/-- `MainFunc` may be entered on a stack that has no activation yet. -/
theorem Table.mainFunc (h : Table m) (hfr : ∀ f ∈ m.frames, m.IsChild f)
    (hok : m.mainFunc = .ok (l, m')) : WellFormed m' := by
  obtain ⟨f, _, ⟨fb, cb, hf, hcb, -, rfl⟩ | ⟨_, hout⟩⟩ := mainFunc_ok hok
  · have hchild : m.IsChild f := by
      refine ⟨fb, hf, ?_⟩
      by_contra hs
      rw [h.main_cb f fb hf (by simpa using hs)] at hcb
      cases hcb
    exact h.resumed ⟨fun g hg ↦ (List.mem_cons.mp hg).elim (fun e ↦ e ▸ hchild) (hfr g),
      fun _ ↦ List.cons_ne_nil _ _⟩
  · have hgo : Table (m.goto m.stack (f :: m.frames)) := h.of_eq rfl rfl rfl
    exact (hgo.setState f .EXCEPT).swapOut (by simp) (fun hne ↦ absurd rfl hne) hout

theorem WellFormed.yieldTo (h : WellFormed m) {st : State} (hok : m.yieldTo st = .ok (l, m')) :
    WellFormed m' := by
  have hst := h.getThis.setState m.getThis.1 st
  exact hst.toTable.swapOut (by simp) (fun _ ↦ hst.running) hok

theorem WellFormed.callbackReturns (h : WellFormed m) (hok : m.callbackReturns = .ok (l, m')) :
    WellFormed m' := by
  cases hfr : m.frames with
  | nil => simp [Machine.callbackReturns, hfr] at hok
  | cons cur rest =>
      rw [callbackReturns_eq hfr] at hok
      exact ((h.toTable.clearCb cur).setState cur .TERM).swapOut (by simp)
        (fun hne ↦ absurd rfl hne) hok

theorem WellFormed.callbackThrows (h : WellFormed m) (hok : m.callbackThrows = .ok (l, m')) :
    WellFormed m' := by
  cases hfr : m.frames with
  | nil => simp [Machine.callbackThrows, hfr] at hok
  | cons cur rest =>
      rw [callbackThrows_eq hfr] at hok
      exact (h.toTable.setState cur .EXCEPT).swapOut (by simp) (fun hne ↦ absurd rfl hne) hok

/-- A successful `reset` is made on a child that has no suspended activation. -/
theorem reset_ok (h : m.reset f = .ok m') : ∃ fb, m.fibers f = some fb ∧ fb.stack = true ∧
    (fb.state = .TERM ∨ fb.state = .EXCEPT ∨ fb.state = .INIT) ∧
    m' = m.modify f fun fb ↦
      { fb with cb := some m.clock, ctx := ⟨some f, [], .entry⟩, state := .INIT } := by
  cases hf : m.fibers f with
  | none => simp [Machine.reset, hf] at h
  | some fb =>
      by_cases hs : fb.stack = true
      · by_cases hst : fb.state = .TERM ∨ fb.state = .EXCEPT ∨ fb.state = .INIT
        · rw [reset_eq hf hs hst, Except.ok.injEq] at h
          refine ⟨fb, rfl, hs, hst, h.symm.trans ?_⟩
          simp [Machine.modify, hf]
        · simp [Machine.reset, hf, hs, hst] at h
      · simp [Machine.reset, hf, hs] at h

theorem WellFormed.reset (h : WellFormed m) (hok : m.reset f = .ok m') : WellFormed m' := by
  obtain ⟨fb, hf, hs, _, rfl⟩ := reset_ok hok
  refine h.of_table (fun _ ↦ rfl) (h.toTable.modify (fun _ ↦ rfl) (fun fb' hf' hs' ↦ ?_)
    (fun _ _ _ ↦ by simp) fun _ _ ↦ validCtx_entry)
  rw [hf, Option.some.injEq] at hf'
  rw [← hf', hs] at hs'
  cases hs'

/-- The state `swapIn` has prepared when it loads a context. -/
theorem WellFormed.enter (h : WellFormed m) (f t : FiberId) : Table (m.enter f t) ∧
    ∀ g, m.IsChild g → (m.enter f t).IsChild g := by
  have hst : WellFormed ((m.setThis (some f)).setState f .EXEC) := (h.setThis _).setState f .EXEC
  have hhere := @validCtx_here m (.afterSwapIn m.clock) (by simp) fun _ ↦ h.running
  have hchild : ∀ g, m.IsChild g → ((m.setThis (some f)).setState f .EXEC).IsChild g :=
    fun g hg ↦ IsChild.modify (fun _ ↦ rfl) (hg.of_eq rfl)
  exact ⟨hst.toTable.save (fun _ ↦ by simp) (hhere.of_child hchild),
    fun g hg ↦ IsChild.modify (fun _ ↦ rfl) (hchild g hg)⟩

theorem WellFormed.swapIn (h : WellFormed m) (hok : m.swapIn f = .ok (l, m')) :
    WellFormed m' := by
  obtain ⟨fb, t, c, hf, _, _, hc, hnext⟩ := swapIn_ok hok
  obtain ⟨henter, hchild⟩ := h.enter f t
  have hvalid : m.ValidCtx c := by
    rw [hc]
    split
    · exact validCtx_here (by simp) fun _ ↦ h.running
    · exact h.saved f fb hf
  rcases hnext with ⟨hp, hmain⟩ | ⟨hsus, -, -, rfl⟩
  · rw [hvalid.1 hp] at hmain
    have hgo : Table ((m.enter f t).goto c.stack []) := henter.of_eq rfl rfl rfl
    exact hgo.mainFunc (by simp) hmain
  · exact henter.resumed ((hvalid.2 hsus).of_child hchild)

/-- A fiber without a stack that is not the main fiber may go. -/
theorem WellFormed.forget (h : WellFormed m) (hf : m.fibers f = some fb) (hs : fb.stack = false)
    (ht : m.tThreadFiber ≠ some f) (hok : m.destroy f = .ok m') : WellFormed m' := by
  obtain ⟨q, rfl⟩ := destroy_ok hok
  have hchild : ∀ g, m.IsChild g → (m.without f).IsChild g := by
    rintro g ⟨gb, hg, hgs⟩
    have hgf : g ≠ f := by
      rintro rfl
      rw [hf, Option.some.injEq] at hg
      rw [← hg, hs] at hgs
      cases hgs
    exact ⟨gb, by rwa [without_fibers_ne hgf], hgs⟩
  have hwithout : WellFormed (m.without f) := by
    refine ⟨⟨fun g hg ↦ ?_, fun t htt ↦ ?_, fun g gb hg ↦ ?_, fun g gb hg ↦ ?_⟩,
      h.running.of_child hchild⟩
    · by_cases hgf : g = f
      · rw [hgf]
        exact Function.update_self _ _ _
      · rw [without_fibers_ne hgf]
        exact h.unused g hg
    · have htf : t ≠ f := by
        rintro rfl
        exact ht htt
      obtain ⟨main, hm, hrest⟩ := h.thread t htt
      exact ⟨main, by rwa [without_fibers_ne htf], hrest⟩
    · exact h.main_cb g gb (without_cases hg).2
    · exact (h.saved g gb (without_cases hg).2).of_child hchild
  exact hwithout.setThis q

/-! ## Steps and runs -/

theorem WellFormed.perform (h : WellFormed m) {a : Action} (hok : m.perform a = .ok (l, m')) :
    WellFormed m' := by
  cases a with
  | construct n => cases hok; exact h.newFiber n
  | reset f => exact h.reset (perform_reset_ok hok).2
  | swapIn f => exact h.swapIn hok
  | swapOut f => exact h.toTable.swapOut (by simp) (fun _ ↦ h.running) (perform_swapOut_ok hok).2
  | yieldToReady => exact h.yieldTo hok
  | yieldToHold => exact h.yieldTo hok
  | callbackReturns => exact h.callbackReturns hok
  | callbackThrows => exact h.callbackThrows hok
  | getThis => cases hok; exact h.getThis
  | setThis q => exact (perform_setThis_ok hok).2 ▸ h.setThis q
  | mainFunc => exact h.toTable.mainFunc h.running.1 hok
  | totalFibers => cases hok; exact h
  | getFiberID => cases hok; exact h
  | forget f =>
      obtain ⟨fb, hf, hs, ht, hok⟩ := perform_forget_ok hok
      exact h.forget hf hs ht hok

theorem wellFormed_fresh (n : Nat) : WellFormed (fresh n) :=
  ⟨⟨fun _ _ ↦ rfl, by simp [fresh], by simp [fresh], by simp [fresh]⟩, by simp [fresh, ValidFrames]⟩

theorem WellFormed.step (h : WellFormed m) {e : Event} (hs : Step m e m') : WellFormed m' := by
  obtain ⟨m₁, hp, rfl⟩ := step_ok_iff.mp hs.1
  exact (h.perform hp).tick _

/-- Every state a thread reaches is well formed. -/
theorem wellFormed_of_run {n : Nat} {tr : List Event} (h : Run Step (fresh n) tr m) :
    WellFormed m :=
  h.invariant (fun _ _ _ hI hs ↦ hI.step hs) (wellFormed_fresh n)

/-! ## Invariants of single objects -/

theorem AllFibers.of_eq (h : AllFibers Q m) (hf : m'.fibers = m.fibers) : AllFibers Q m' :=
  fun g fb hg ↦ h g fb (hf ▸ hg)

theorem AllFibers.modify (h : AllFibers Q m) (hu : ∀ fb, m.fibers f = some fb → Q (u fb)) :
    AllFibers Q (m.modify f u) := by
  intro g fb hg
  rcases modify_cases hg with ⟨_, fb', hf, rfl⟩ | ⟨_, hg⟩
  · exact hu fb' hf
  · exact h g fb hg

theorem AllFibers.insert (h : AllFibers Q m) {x : Fiber} (hx : Q x)
    (hf : m'.fibers = Function.update m.fibers m.next (some x)) : AllFibers Q m' := by
  intro g fb hg
  rcases insert_cases hf hg with rfl | hg
  · exact hx
  · exact h g fb hg

theorem AllFibers.newFiber (h : AllFibers Q m) {n : Nat}
    (hx : ∀ i s, Q ⟨i, s, true, .INIT, ⟨some m.next, [], .entry⟩, some m.clock⟩) :
    AllFibers Q (m.newFiber n) :=
  h.insert (hx _ _) rfl

theorem AllFibers.getThis (h : AllFibers Q m)
    (hx : Q ⟨0, 0, false, .EXEC, m.here .construction, none⟩) : AllFibers Q m.getThis.2 := by
  cases htf : m.tFiber with
  | some f => simpa [getThis_of_some htf] using h
  | none => exact h.insert hx (by simp only [Machine.getThis, htf]; rfl)

theorem AllFibers.save (h : AllFibers Q m)
    (hu : ∀ fb, m.fibers f = some fb → Q { fb with ctx := m.here p }) : AllFibers Q (m.save f p) :=
  h.modify hu

theorem AllFibers.destroy (h : AllFibers Q m) (hok : m.destroy f = .ok m') : AllFibers Q m' := by
  obtain ⟨q, rfl⟩ := destroy_ok hok
  exact fun g fb hg ↦ h g fb (without_cases hg).2

theorem AllFibers.swapOut (hu : AllFibers Q (m.save f p)) (hok : m.swapOut f p = .ok (l, m')) :
    AllFibers Q m' := by
  obtain ⟨t, _, c, _, _, _, _, _, _, rfl⟩ := swapOut_ok hok
  exact hu

/-- A fiber is written and left: only what is true of it in the end matters. -/
theorem AllFibers.leave (h : AllFibers Q m)
    (hu : ∀ fb, m.fibers f = some fb → Q { u fb with ctx := m.here p })
    (hok : (m.modify f u).swapOut f p = .ok (l, m')) : AllFibers Q m' := by
  refine AllFibers.swapOut ?_ hok
  have hw : AllFibers Q ((m.modify f u).setCtx f (m.here p)) := by
    rw [setCtx, modify_modify]
    exact h.modify hu
  exact hw

theorem AllFibers.mainFunc (h : AllFibers Q m)
    (hu : ∀ f fb, m.tFiber = some f → m.fibers f = some fb → fb.cb = none →
      Q { fb with state := .EXCEPT, ctx := ⟨m.stack, f :: m.frames, .afterFinal⟩ })
    (hok : m.mainFunc = .ok (l, m')) : AllFibers Q m' := by
  obtain ⟨f, ht, ⟨_, _, _, _, _, rfl⟩ | ⟨hcb, hout⟩⟩ := mainFunc_ok hok
  · exact h
  · have hgo : AllFibers Q (m.goto m.stack (f :: m.frames)) := h
    refine hgo.leave (fun fb hf ↦ hu f fb ht hf ?_) hout
    have hf : m.fibers f = some fb := hf
    simpa [hf] using hcb

end Machine

end Sylar.Fibers
