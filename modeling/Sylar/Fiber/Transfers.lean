import Sylar.Fiber.Ownership

/-!
# The pointers when control changes hands

What `swapIn`, the yields and the ends of a callback do to the pointers, in a
state where these agree with the fibers.  Each call has one equation for its
result, and the states these lead to are good again.

Control is given to a child as `inside`, and taken back as `back`.
-/

namespace Sylar.Fibers

open Foundation

namespace Shared

variable {s s' : Shared} {f g t : FiberId} {fb : Fiber} {l : Landing} {n : Nat}

/-! ## To a child -/

/-- Control has been given to a child with one activation of `MainFunc`. -/
def inside (s : Shared) (t f : FiberId) (n : Nat) : Shared :=
  { s with
    machine := (s.machine.enter f t).goto (some f) [f]
    uses := Function.update s.uses f n
    curs := Function.update s.curs (some f) [f] }

theorem enter_fibers (hf : s.machine.fibers f = some fb) (htf : t ≠ f) :
    (s.machine.enter f t).fibers f = some { fb with state := .EXEC } := by
  simp [Machine.enter, Ne.symm htf, hf]

/-- The main fiber is not a child. -/
theorem main_ne (ht : s.machine.tThreadFiber = some t) (hf0 : s.machine.tThreadFiber ≠ some f) :
    t ≠ f := fun h ↦ hf0 (h ▸ ht)

theorem Good.inside (h : s.Good) (hin : s.InMain) (ht : s.machine.tThreadFiber = some t)
    (hf : s.machine.fibers f = some fb) (hf0 : s.machine.tThreadFiber ≠ some f)
    (hn : n = s.outside f + s.captured f + 1) : (s.inside t f n).Good := by
  obtain ⟨hstack, hframes, -⟩ := hin
  have htf := main_ne ht hf0
  have ho := h.child f fb hf hf0
  have hmain := h.main t ht
  obtain ⟨main, hm, hms, hmcb⟩ := hmain.object
  have hsaved : (s.inside t f n).machine.fibers t =
      some { main with ctx := ⟨none, [], .afterSwapIn s.machine.clock⟩ } := by
    simp [Shared.inside, Machine.enter, htf, hm, Machine.here, hstack, hframes]
  have hself : (s.inside t f n).machine.fibers f = some { fb with state := .EXEC } :=
    enter_fibers hf htf
  have hleft : ∀ g, (s.inside t f n).machine.left g = Function.update (Function.update
      s.machine.left none (some ⟨none, [], .afterSwapIn s.machine.clock⟩)) (some f) none g := by
    intro g
    simp [Shared.inside, Machine.enter, Machine.here, hstack, hframes]
  refine h.change (f := f) ⟨rfl, rfl, by simp [Shared.inside], fun g hg0 hg ↦ ⟨?_,
    Function.update_of_ne hg _ _, rfl, rfl, by simp [Shared.inside, hg]⟩,
    fun g hg ↦ by simp [hleft, hg]⟩ (fun t' ht' ↦ ?_)
    (fun _ ↦ h.lt_next (by simp [hf])) (fun hnone _ ↦ absurd hnone (by simp [hself]))
    (fun fb' hf' _ ↦ ?_) ?_ (fun g _ hg ↦ absurd hg (by simp [hstack]))
    (.inr ⟨f, rfl, rfl, rfl, hf0, ⟨_, hself, rfl⟩, t, _, _, ht, hsaved, rfl, by
      simp [Machine.Pending, hleft]⟩)
  · simp [Shared.inside, Machine.enter, hg, (main_ne ht hg0).symm]
  · obtain rfl := Option.some.inj (ht.symm.trans ht')
    exact ⟨⟨_, hsaved, hms, hmcb⟩, by simpa [Shared.inside, htf] using hmain.counted,
      hmain.captured⟩
  · obtain rfl := Option.some.inj (hself.symm.trans hf')
    exact ⟨ho.stack, by simp [Shared.inside, hn], by simp [Shared.inside, hn],
      ⟨rfl, by simp [Shared.inside]⟩, ho.context, by simp⟩
  · simpa [Shared.inside, Machine.enter] using h.count

/-- `MainFunc` takes a pointer to the fiber it runs in. -/
theorem mainFunc_started {cb : Nat} (hthis : s.machine.tFiber = some f)
    (hf : s.machine.fibers f = some fb) (hcb : fb.cb = some cb) :
    s.mainFunc = .ok (.started f cb, { s with
      machine := s.machine.goto s.machine.stack (f :: s.machine.frames)
      uses := Function.update s.uses f (s.uses f + 1)
      curs := Function.update s.curs s.machine.stack (f :: s.curs s.machine.stack) }) := by
  unfold mainFunc
  rw [getThis_of_some hthis, Except.ok_bind]
  simp [pushCur, withMachine, retain, hf, hcb]

/-- `swapIn` starts a child in `INIT`. -/
theorem Good.swapIn_init (h : s.Good) (ht : s.machine.tThreadFiber = some t)
    (hf : s.machine.fibers f = some fb) (hf0 : s.machine.tThreadFiber ≠ some f)
    (hst : fb.state = .INIT) : ∃ cb, s.swapIn f =
      .ok (.started f cb, s.inside t f (s.outside f + s.captured f + 1)) := by
  have ho := h.child f fb hf hf0
  have hcount : s.uses f = s.outside f + s.captured f := by
    simpa [ho.curs_idle (.inl hst)] using ho.counted
  obtain ⟨hctx, hcb⟩ := ho.init hst
  obtain ⟨cb, hcb⟩ := Option.isSome_iff_exists.mp hcb
  refine ⟨cb, ?_⟩
  have hself := enter_fibers hf (main_ne ht hf0)
  have hexec : fb.state ≠ .EXEC := by simp [hst]
  simp only [swapIn, hf, if_neg hexec, ht, withMachine_machine, hself, hctx, if_true]
  have hcb' : ({ fb with state := .EXEC } : Fiber).cb = some cb := hcb
  refine (mainFunc_started (f := f) rfl hself hcb').trans ?_
  simp [Shared.inside, hcount, withMachine]

/-- `swapIn` goes on in a child that has yielded, and its yield returns. -/
theorem Good.swapIn_suspended (h : s.Good) (hin : s.InMain) (ht : s.machine.tThreadFiber = some t)
    (hf : s.machine.fibers f = some fb) (hf0 : s.machine.tThreadFiber ≠ some f)
    (hst : fb.state = .READY ∨ fb.state = .HOLD) : ∃ k, s.swapIn f =
      .ok (.resumed ⟨some f, [f], .afterYield k⟩,
        s.inside t f (s.outside f + s.captured f + 1)) := by
  have ho := h.child f fb hf hf0
  obtain ⟨⟨k, hctx, hpending⟩, hcurs⟩ := ho.suspended hst
  have hcount : s.uses f = s.outside f + s.captured f + 2 := by simpa [hcurs] using ho.counted
  have hexec : fb.state ≠ .EXEC := by rcases hst with hst | hst <;> simp [hst]
  refine ⟨k, ?_⟩
  rw [hctx] at hpending
  have hresume : (s.machine.enter f t).resume ⟨some f, [f], .afterYield k⟩ =
      .ok (.resumed ⟨some f, [f], .afterYield k⟩, (s.machine.enter f t).goto (some f) [f]) :=
    Machine.resume_suspended trivial
      ((Machine.pending_save _ t _ (by simp [hin.1])).mpr hpending)
  simp only [swapIn, hf, if_neg hexec, ht, enter_fibers hf (main_ne ht hf0), hctx, reduceCtorEq,
    if_false, transfer, hresume, Except.ok_bind, arrive, withMachine]
  have hlt : 1 < s.uses f := by omega
  rw [popCur_cons (s := { s with machine := (s.machine.enter f t).goto (some f) [f] }) hcurs,
    release_lt (s := { s with
      machine := (s.machine.enter f t).goto (some f) [f]
      curs := Function.update s.curs (some f) [f] }) hlt, Except.ok_bind]
  simp [Shared.inside, hcount]

/-- `swapIn` does not switch to a finished child. -/
theorem Good.swapIn_fails (h : s.Good) (ht : s.machine.tThreadFiber = some t)
    (hf : s.machine.fibers f = some fb) (hf0 : s.machine.tThreadFiber ≠ some f)
    (hst : fb.state = .TERM ∨ fb.state = .EXCEPT) : s.swapIn f ≠ .ok (l, s') := by
  intro hok
  have ho := h.child f fb hf hf0
  have hctx := ho.finished hst
  have hexec : fb.state ≠ .EXEC := by rcases hst with hst | hst <;> simp [hst]
  simp only [swapIn, hf, if_neg hexec, ht, withMachine_machine, enter_fibers hf (main_ne ht hf0),
    hctx, reduceCtorEq, if_false] at hok
  obtain ⟨_, hresume, -⟩ := transfer_ok hok
  exact (Machine.resume_ok_iff.mp hresume).1.ne_final hctx

/-! ## Back to the main fiber -/

/-- Control has gone back to the main fiber. -/
def back (s : Shared) (f : FiberId) (u : Fiber → Fiber) (p : Point) (n c : Nat)
    (cs : List FiberId) : Shared :=
  { s with
    machine := (((s.machine.modify f u).setThis s.machine.tThreadFiber).save f p).goto none []
    uses := Function.update s.uses f n
    captured := Function.update s.captured f c
    curs := Function.update s.curs (some f) cs }

theorem Good.back (h : s.Good) (hin : s.InChild f) {u : Fiber → Fiber} {p : Point} {c : Nat}
    {cs : List FiberId}
    (hown : ∀ fb, s.machine.fibers f = some fb →
      (s.back f u p n c cs).Owned f { u fb with ctx := s.machine.here p }) :
    (s.back f u p n c cs).Good := by
  obtain ⟨fb, hf, hexec⟩ := hin.exec
  have hself : (s.back f u p n c cs).machine.fibers f =
      some { u fb with ctx := s.machine.here p } := by
    simp [Shared.back, hf, Machine.here]
  refine h.change (f := f) ⟨rfl, rfl, by simp [Shared.back], fun g _ hg ↦
    ⟨by simp [Shared.back, hg], Function.update_of_ne hg _ _, rfl, Function.update_of_ne hg _ _,
      by simp [Shared.back, hg]⟩, fun g hg ↦ by simp [Shared.back, hin.stack, hg]⟩ (fun t ht ↦ ?_)
    (fun _ ↦ h.lt_next (by simp [hf])) (fun hnone _ ↦ absurd hnone (by simp [hself]))
    (fun fb' hf' _ ↦ ?_) ?_ (fun g hg hst ↦ ?_) (.inl ⟨rfl, rfl, rfl⟩)
  · have hmain := h.main t ht
    have htf := main_ne ht hin.child
    obtain ⟨main, hm, hrest⟩ := hmain.object
    exact ⟨⟨main, by simp [Shared.back, htf, hm], hrest⟩,
      by simpa [Shared.back, htf] using hmain.counted,
      by simpa [Shared.back, htf] using hmain.captured⟩
  · obtain rfl := Option.some.inj (hself.symm.trans hf')
    exact hown fb hf
  · simpa [Shared.back] using h.count
  · rw [hin.stack, Option.some.injEq] at hst
    exact absurd hst.symm hg

/-- A `swapOut` of the running child goes back to the main fiber. -/
theorem InChild.swapOut (hin : s.InChild f) (u : Fiber → Fiber) (p : Point)
    (hm : s'.machine = s.machine.modify f u) : ∃ k, s'.swapOut f p =
      .ok (.resumed ⟨none, [], .afterSwapIn k⟩, s'.withMachine
        ((((s.machine.modify f u).setThis s.machine.tThreadFiber).save f p).goto none [])) := by
  obtain ⟨fb, hf, _⟩ := hin.exec
  obtain ⟨t, k, main, ht, hmain, hctx, hpending⟩ := hin.saved
  have htf := main_ne ht hin.child
  have hm' : (s.machine.modify f u).fibers t = some main := by simp [htf, hmain]
  have hself : (s.machine.modify f u).fibers f = some (u fb) := by simp [hf]
  refine ⟨k, ?_⟩
  rw [hctx] at hpending
  have hsave : (((s.machine.modify f u).setThis (some t)).save f p).Pending
      ⟨none, [], .afterSwapIn k⟩ :=
    (Machine.pending_save _ f p (by simp [hin.stack])).mpr hpending
  rw [Shared.swapOut, hm, hself]
  simp only [Machine.swapOut_eq (m := s.machine.modify f u) ht hm', if_neg htf, hctx, ht]
  rw [Machine.resume_suspended (c := ⟨none, [], .afterSwapIn k⟩) trivial hsave]
  rfl

/-- A yield of the running child. -/
theorem Good.yieldTo_child (h : s.Good) (hin : s.InChild f) (st : State) : ∃ k, s.yieldTo st =
      .ok (.resumed ⟨none, [], .afterSwapIn k⟩, s.back f (fun fb ↦ { fb with state := st })
        (.afterYield s.machine.clock) (s.uses f + 1) (s.captured f) [f, f]) := by
  obtain ⟨fb, hf, hexec⟩ := hin.exec
  have hcurs := ((h.child f fb hf hin.child).running hexec).2
  have hm : (((s.retain f).pushCur f).withMachine (s.machine.setState f st)).machine =
      s.machine.modify f fun fb ↦ { fb with state := st } := rfl
  obtain ⟨k, hk⟩ := hin.swapOut (fun fb ↦ { fb with state := st })
    (.afterYield s.machine.clock) hm
  unfold yieldTo
  rw [getThis_of_some hin.this, Except.ok_bind]
  refine ⟨k, hk.trans ?_⟩
  simp [pushCur, withMachine, retain, Shared.back, hin.stack, hcurs]

theorem Good.yield_child (h : s.Good) (hin : s.InChild f) {st : State}
    (hst : st = .READY ∨ st = .HOLD) (hok : s.yieldTo st = .ok (l, s')) : s'.Good := by
  obtain ⟨k, hk⟩ := h.yieldTo_child hin st
  rw [hk] at hok
  cases hok
  refine h.back hin fun fb hf ↦ ?_
  have ho := h.child f fb hf hin.child
  obtain ⟨fb', hf', hexec⟩ := hin.exec
  obtain rfl := Option.some.inj (hf'.symm.trans hf)
  have hcurs := (ho.running hexec).2
  have hcount := ho.counted
  refine ⟨ho.stack, ?_, by simp [Shared.back], ?_, hin.stack, ?_⟩
  · simp only [hcurs, List.length_cons, List.length_nil] at hcount
    simp only [Shared.back, Function.update_self, List.length_cons, List.length_nil]
    omega
  · have hctx : s.machine.here (.afterYield s.machine.clock) =
        ⟨some f, [f], .afterYield s.machine.clock⟩ := by
      simp [Machine.here, hin.stack, hin.frames]
    have hpending : (s.back f (fun fb ↦ { fb with state := st }) (.afterYield s.machine.clock)
        (s.uses f + 1) (s.captured f) [f, f]).machine.Pending
          (s.machine.here (.afterYield s.machine.clock)) := by
      simp [Machine.Pending, Shared.back, hin.stack, Machine.here]
    rcases hst with rfl | rfl <;>
      exact ⟨⟨_, hctx, hpending⟩, Function.update_self _ _ _⟩
  · rcases hst with rfl | rfl <;> simp

/-- The end of `MainFunc`, from the moment its callback has ended and with `c` of
the pointers in the callback left. -/
theorem Good.finish_child (h : s.Good) (hin : s.InChild f) (u : Fiber → Fiber) (c : Nat)
    (hu : ∀ fb, (u fb).stack = fb.stack)
    (hst : ∀ fb, (u fb).state = .TERM ∨ (u fb).state = .EXCEPT) :
    let s₁ : Shared := { s with
      machine := s.machine.modify f u
      uses := Function.update s.uses f (s.outside f + c + 1)
      captured := Function.update s.captured f c }
    (s.outside f + c = 0 ∧ s₁.finish f = .error .noObject) ∨
      (0 < s.outside f + c ∧ ∃ k, s₁.finish f = .ok (.resumed ⟨none, [], .afterSwapIn k⟩,
        s.back f u .afterFinal (s.outside f + c) c [])) := by
  intro s₁
  obtain ⟨fb, hf, hexec⟩ := hin.exec
  have ho := h.child f fb hf hin.child
  have hcurs : s₁.curs (some f) = [f] := (ho.running hexec).2
  have hself : s₁.machine.fibers f = some (u fb) := by simp [s₁, hf]
  have huses : s₁.uses f = s.outside f + c + 1 := Function.update_self _ _ _
  have hstk : s₁.machine.stack = some f := hin.stack
  unfold finish
  rw [hstk, popCur_cons hcurs]
  by_cases hzero : s.outside f + c = 0
  · left
    have hdestroy := Machine.destroy_child hself ((hu fb).trans ho.stack) (.inr (hst fb))
    refine ⟨hzero, ?_⟩
    rw [release_last (by decide) (by rw [huses, hzero]), hdestroy]
    simp [Except.map, swapOut, withMachine, Machine.without]
  · right
    have hlt : 1 < s₁.uses f := by omega
    have hm : ({ s₁ with
      curs := Function.update s₁.curs (some f) []
      uses := Function.update s₁.uses f (s₁.uses f - 1) } : Shared).machine =
        s.machine.modify f u := rfl
    obtain ⟨k, hk⟩ := hin.swapOut u .afterFinal hm
    refine ⟨Nat.pos_of_ne_zero hzero, k, ?_⟩
    rw [release_lt (s := { s₁ with curs := Function.update s₁.curs (some f) [] }) hlt,
      Except.ok_bind, hk]
    simp [s₁, withMachine, Shared.back]

/-- The callback has ended: normally, which also destroys it, or not. -/
theorem Good.callbackReturns_eq (h : s.Good) (hin : s.InChild f) :
    (s.outside f = 0 ∧ s.callbackReturns = .error .noObject) ∨
      (0 < s.outside f ∧ ∃ k, s.callbackReturns = .ok (.resumed ⟨none, [], .afterSwapIn k⟩,
        s.back f (fun fb ↦ { fb with cb := none, state := .TERM }) .afterFinal (s.outside f) 0
          [])) := by
  obtain ⟨fb, hf, hexec⟩ := hin.exec
  have ho := h.child f fb hf hin.child
  have hcount : s.uses f = s.outside f + s.captured f + 1 := by
    simpa [(ho.running hexec).2] using ho.counted
  have heq : s.callbackReturns = Shared.finish { s with
      machine := s.machine.modify f fun fb ↦ { fb with cb := none, state := .TERM }
      uses := Function.update s.uses f (s.outside f + 0 + 1)
      captured := Function.update s.captured f 0 } f := by
    have hlt : s.captured f < s.uses f := by omega
    have hleft : s.uses f - s.captured f = s.outside f + 1 := by omega
    simp only [callbackReturns, hin.frames, dropCallback, withMachine]
    rw [release_lt (s := { s with
      machine := s.machine.setCb f none, captured := Function.update s.captured f 0 }) hlt,
      Except.ok_bind]
    simp only [Machine.setCb, Machine.setState, Machine.modify_modify, hleft, Nat.add_zero]
  rw [heq]
  simpa using h.finish_child hin (fun fb ↦ { fb with cb := none, state := .TERM }) 0
    (fun _ ↦ rfl) (fun _ ↦ .inl rfl)

theorem Good.callbackThrows_eq (h : s.Good) (hin : s.InChild f) :
    (s.outside f + s.captured f = 0 ∧ s.callbackThrows = .error .noObject) ∨
      (0 < s.outside f + s.captured f ∧ ∃ k,
        s.callbackThrows = .ok (.resumed ⟨none, [], .afterSwapIn k⟩,
          s.back f (fun fb ↦ { fb with state := .EXCEPT }) .afterFinal
            (s.outside f + s.captured f) (s.captured f) [])) := by
  obtain ⟨fb, hf, hexec⟩ := hin.exec
  have ho := h.child f fb hf hin.child
  have hcount : s.uses f = s.outside f + s.captured f + 1 := by
    simpa [(ho.running hexec).2] using ho.counted
  have heq : s.callbackThrows = Shared.finish { s with
      machine := s.machine.modify f fun fb ↦ { fb with state := .EXCEPT }
      uses := Function.update s.uses f (s.outside f + s.captured f + 1)
      captured := Function.update s.captured f (s.captured f) } f := by
    simp only [callbackThrows, hin.frames, withMachine, Machine.setState, ← hcount,
      Function.update_eq_self]
  rw [heq]
  exact h.finish_child hin (fun fb ↦ { fb with state := .EXCEPT }) (s.captured f)
    (fun _ ↦ rfl) (fun _ ↦ .inr rfl)

theorem Good.finished (h : s.Good) (hin : s.InChild f) {u : Fiber → Fiber} {c : Nat}
    (hpos : 0 < s.outside f + c) (hu : ∀ fb, (u fb).stack = fb.stack)
    (hst : ∀ fb, (u fb).state = .TERM ∧ (u fb).cb = none ∧ c = 0 ∨ (u fb).state = .EXCEPT) :
    (s.back f u .afterFinal (s.outside f + c) c []).Good := by
  refine h.back hin fun fb hf ↦ ⟨?_, by simp [Shared.back], by simpa [Shared.back] using hpos, ?_,
    hin.stack, fun hterm ↦ ?_⟩
  · exact (hu fb).trans (h.child f fb hf hin.child).stack
  · rcases hst fb with ⟨hst, -⟩ | hst <;>
      simp [Activation, hst, Machine.here, Shared.back]
  · rcases hst fb with ⟨-, hcb, rfl⟩ | hst
    · exact ⟨hcb, Function.update_self _ _ _⟩
    · cases hterm.symm.trans hst

/-! ## The main fiber and itself -/

/-- The main fiber has saved its context and gone on. -/
def stay (s : Shared) (t : FiberId) (st : State) (p : Point) : Shared :=
  { s with
    machine := (((s.machine.setState t st).setThis (some t)).save t p).goto none [] }

theorem Good.stay (h : s.Good) (hin : s.InMain) (ht : s.machine.tThreadFiber = some t)
    (st : State) (p : Point) : (s.stay t st p).Good := by
  obtain ⟨hstack, _, _⟩ := hin
  have hmain := h.main t ht
  obtain ⟨main, hm, hms, hmcb⟩ := hmain.object
  refine h.change (f := t) ⟨rfl, rfl, rfl, fun g _ hg ↦ ⟨by simp [Shared.stay, hg], rfl, rfl, rfl,
    rfl⟩, fun g _ ↦ by simp [Shared.stay, hstack]⟩ (fun t' ht' ↦ ?_)
    (fun _ ↦ h.lt_next (h.main_alive ht)) (fun _ h0 ↦ absurd ht h0) (fun _ _ h0 ↦ absurd ht h0) ?_
    (fun g _ hg ↦ absurd hg (by simp [hstack])) (.inl ⟨rfl, rfl, ht.symm⟩)
  · obtain rfl := Option.some.inj (ht.symm.trans ht')
    exact ⟨⟨{ main with state := st, ctx := s.machine.here p },
      by simp [Shared.stay, Machine.here, hm], hms, hmcb⟩, hmain.counted, hmain.captured⟩
  · simpa [Shared.stay] using h.count

/-- A yield of the main fiber returns at once. -/
theorem Good.yieldTo_main (h : s.Good) (hin : s.InMain) (ht : s.machine.tThreadFiber = some t)
    (st : State) :
    ∃ c, s.yieldTo st = .ok (.resumed c, s.stay t st (.afterYield s.machine.clock)) := by
  obtain ⟨hstack, hframes, hthis⟩ := hin
  have hmain := h.main t ht
  obtain ⟨main, hm, _⟩ := hmain.object
  have hcount := hmain.counted
  have hself : (s.machine.modify t fun fb ↦ { fb with state := st }).fibers t =
      some { main with state := st } := by simp [hm]
  have hctx : (s.machine.modify t fun fb ↦ { fb with state := st }).here
      (.afterYield s.machine.clock) = ⟨none, [], .afterYield s.machine.clock⟩ := by
    simp [Machine.here, hstack, hframes]
  have hpending : (((s.machine.modify t fun fb ↦ { fb with state := st }).setThis (some t)).save t
      (.afterYield s.machine.clock)).Pending ⟨none, [], .afterYield s.machine.clock⟩ := by
    rw [← hctx]
    exact Machine.pending_save_here _ _ _
  refine ⟨⟨none, [], .afterYield s.machine.clock⟩, ?_⟩
  unfold yieldTo
  rw [getThis_of_some (hthis.trans ht), Except.ok_bind]
  simp only [swapOut, withMachine, pushCur, retain, Machine.setState, hself, hstack, transfer]
  rw [Machine.swapOut_eq (m := s.machine.modify t fun fb ↦ { fb with state := st })
    ht hself, if_pos rfl, hctx, Machine.resume_suspended
      (c := ⟨none, [], .afterYield s.machine.clock⟩) trivial hpending, Except.ok_bind]
  have hpop : ∀ m, Shared.popCur { s with
      machine := m, uses := Function.update s.uses t (s.uses t + 1)
      curs := Function.update s.curs none (t :: s.curs none) } none = .ok (s.withMachine m) := by
    intro m
    simp [popCur, release, hcount, withMachine]
  simp only [arrive, hpop, Except.ok_bind]
  rfl

/-- A yield that is the first use of fibers makes the main fiber first. -/
theorem Good.yieldTo_first (h : s.Good) (hin : s.InMain) (hthis : s.machine.tFiber = none)
    (st : State) : s.yieldTo st = s.started.yieldTo st := by
  obtain ⟨-, hin', ht⟩ := h.started hin hthis
  unfold yieldTo
  rw [getThis_first hthis (hin.2.2.symm.trans hthis),
    getThis_of_some (s := s.started) (hin'.2.2.trans ht)]

/-- `swapIn` on the main fiber, which a yield has put in another state. -/
theorem Good.swapIn_main (hin : s.InMain) (ht : s.machine.tThreadFiber = some t) {main : Fiber}
    (hm : s.machine.fibers t = some main) (hst : main.state ≠ .EXEC) :
    ∃ c, s.swapIn t = .ok (.resumed c, s.stay t .EXEC (.afterSwapIn s.machine.clock)) := by
  obtain ⟨hstack, hframes, hthis⟩ := hin
  have hself : (s.machine.enter t t).fibers t =
      some { main with state := .EXEC, ctx := s.machine.here (.afterSwapIn s.machine.clock) } := by
    simp [Machine.enter, hm]
  refine ⟨s.machine.here (.afterSwapIn s.machine.clock), ?_⟩
  simp only [swapIn, hm, if_neg hst, ht, withMachine, hself, Machine.here, reduceCtorEq,
    if_false, transfer]
  have hresume : (s.machine.enter t t).resume
      ⟨s.machine.stack, s.machine.frames, .afterSwapIn s.machine.clock⟩ = _ :=
    Machine.resume_suspended trivial
      (Machine.pending_save_here ((s.machine.setThis (some t)).setState t .EXEC) t _)
  rw [hresume, Except.ok_bind]
  simp only [arrive, hstack, hframes, Except.ok_bind]
  rfl

end Shared

end Sylar.Fibers
