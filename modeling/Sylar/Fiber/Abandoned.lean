import Sylar.Fiber.Lifetime

/-!
# Which fibers are left

Between two calls of `swapIn` the fibers that exist are the main fiber, those
with a pointer outside, those that are suspended, which the two `cur`s on their
own stack keep, and those whose callback has a pointer to them and was neither
called nor returned from.

A program may also call `swapIn` from a child.  The context of the main fiber is
then overwritten, and the thread's own stack is never run again: `Stray`.
-/

namespace Sylar.Fibers

open Foundation

/-- The context was not saved on the thread's own stack. -/
def Fiber.Away (fb : Fiber) : Prop := fb.ctx.stack ≠ none

namespace Machine

variable {m m' : Machine} {f g t : FiberId} {l : Landing} {p : Point}

/-- Neither control nor a saved context is on the thread's own stack. -/
structure Stray (m : Machine) : Prop where
  stack : m.stack ≠ none
  away : m.AllFibers Fiber.Away

theorem Stray.of_eq (h : m.Stray) (hs : m'.stack = m.stack) (hf : m'.fibers = m.fibers) :
    m'.Stray :=
  ⟨hs ▸ h.stack, h.away.of_eq hf⟩

theorem Stray.modify (h : m.Stray) {u : Fiber → Fiber}
    (hu : ∀ fb, fb.Away → (u fb).Away) : (m.modify f u).Stray :=
  ⟨h.stack, h.away.modify fun fb hf ↦ hu fb (h.away f fb hf)⟩

theorem Stray.setCtx (h : m.Stray) {c : Context} (hc : c.stack ≠ none) : (m.setCtx f c).Stray :=
  h.modify fun _ _ ↦ hc

theorem Stray.save (h : m.Stray) : (m.save f p).Stray :=
  ⟨h.stack, (h.setCtx (c := m.here p) h.stack).away⟩

theorem Stray.setState (h : m.Stray) (st : State) : (m.setState f st).Stray :=
  h.modify fun _ h ↦ h

theorem Stray.setCb (h : m.Stray) (cb : Option Nat) : (m.setCb f cb).Stray :=
  h.modify fun _ h ↦ h

theorem Stray.swapOut (h : m.Stray) (hok : m.swapOut f p = .ok (l, m')) : m'.Stray := by
  obtain ⟨t, main, c, -, hm, rfl, -, -, -, rfl⟩ := swapOut_ok hok
  refine ⟨?_, (h.save (f := f) (p := p)).away⟩
  by_cases e : t = f
  · simpa [e, here] using h.stack
  · simpa [e, Fiber.Away] using h.away t main hm

theorem Stray.getThis (h : m.Stray) : m.getThis.2.Stray := by
  refine ⟨?_, h.away.getThis h.stack⟩
  cases ht : m.tFiber with
  | some f => simpa [getThis_of_some ht] using h.stack
  | none => simpa [Machine.getThis, ht, newMain] using h.stack

theorem Stray.destroy (h : m.Stray) (hok : m.destroy f = .ok m') : m'.Stray := by
  refine ⟨?_, fun g fb hg ↦ h.away g fb (destroy_fibers hok hg)⟩
  obtain ⟨t, rfl⟩ := destroy_ok hok
  exact h.stack

end Machine

namespace Shared

open Machine

variable {s s' : Shared} {f g t : FiberId} {fb : Fiber} {l : Landing} {x : RefAction} {n : Nat}
variable {p : Point}

/-! ## The thread's own stack is not run again -/

theorem stray_release (h : s.machine.Stray) (hok : s.release f n = .ok s') : s'.machine.Stray := by
  obtain ⟨-, hsame | hd⟩ := release_ok hok
  · exact hsame ▸ h
  · exact h.destroy hd

theorem carried_stray : Carried fun s ↦ s.machine.Stray where
  release h hok := stray_release h hok
  curs _ h := h
  uses _ h := h
  main h := h.getThis
  switch h hok := h.swapOut hok

theorem stray_dropCallback (h : s.machine.Stray) (hok : s.dropCallback f = .ok s') :
    s'.machine.Stray :=
  stray_release (s := { s with captured := Function.update s.captured f 0 }) h hok

theorem stray_mainFunc (h : s.machine.Stray) (hok : s.mainFunc = .ok (l, s')) :
    s'.machine.Stray := by
  obtain ⟨⟨cur, s₁⟩, hthis, hok⟩ := Except.bind_ok_iff.mp hok
  have h₁ : s₁.machine.Stray := carried_stray.getThis h hthis
  have hgo : ∀ fs, (s₁.machine.goto s₁.machine.stack fs).Stray := fun fs ↦ h₁.of_eq rfl rfl
  simp only at hok
  split at hok
  · cases hok
    exact hgo _
  · refine carried_stray.finish ?_ hok
    exact (hgo _).setState .EXCEPT

theorem stray_yieldTo {st : State} (h : s.machine.Stray) (hok : s.yieldTo st = .ok (l, s')) :
    s'.machine.Stray := by
  obtain ⟨⟨cur, s₁⟩, hthis, hok⟩ := Except.bind_ok_iff.mp hok
  refine carried_stray.swapOut ?_ hok
  exact (carried_stray.getThis h hthis).setState st

theorem stray_callback (h : s.machine.Stray)
    (hok : s.callbackReturns = .ok (l, s') ∨ s.callbackThrows = .ok (l, s')) :
    s'.machine.Stray := by
  rcases hok with hok | hok
  · unfold callbackReturns at hok
    split at hok
    · cases hok
    · obtain ⟨s₁, hdrop, hok⟩ := Except.bind_ok_iff.mp hok
      have h₁ : s₁.machine.Stray := by
        refine stray_dropCallback ?_ hdrop
        exact h.setCb none
      refine carried_stray.finish ?_ hok
      exact h₁.setState .TERM
  · unfold callbackThrows at hok
    split at hok
    · cases hok
    · refine carried_stray.finish ?_ hok
      exact h.setState .EXCEPT

/-- `swapIn` called anywhere but on the thread's own stack. -/
theorem stray_swapIn (hst : s.machine.stack ≠ none)
    (haway : ∀ g fb, s.machine.fibers g = some fb → s.machine.tThreadFiber ≠ some g → fb.Away)
    (hok : s.swapIn f = .ok (l, s')) : s'.machine.Stray := by
  unfold swapIn at hok
  split at hok
  · cases hok
  · split at hok
    · cases hok
    · split at hok
      · cases hok
      · rename_i t ht
        have henter : (s.machine.enter f t).Stray := by
          refine ⟨hst, fun g fb hg ↦ ?_⟩
          rcases modify_cases hg with ⟨_, fb', _, rfl⟩ | ⟨hgt, hg⟩
          · exact hst
          · have hg0 : s.machine.tThreadFiber ≠ some g := fun h ↦
              hgt (Option.some.inj (h.symm.trans ht))
            rcases modify_cases hg with ⟨rfl, fb', hf, rfl⟩ | ⟨_, hg⟩
            · exact haway g fb' hf hg0
            · exact haway g fb hg hg0
        simp only at hok
        split at hok
        · cases hok
        · rename_i fb' hf
          have hctx : fb'.ctx.stack ≠ none := henter.away f fb' hf
          split at hok
          · refine stray_mainFunc ?_ hok
            exact ⟨hctx, henter.away⟩
          · refine carried_stray.transfer (fun m hr ↦ ?_) hok
            obtain ⟨-, -, -, rfl⟩ := resume_ok_iff.mp hr
            exact ⟨hctx, henter.away⟩

theorem stray_perform (h : s.machine.Stray) (hok : s.perform x = .ok (l, s')) :
    s'.machine.Stray := by
  cases x with
  | call a =>
      cases a with
      | construct n =>
          cases hok
          exact ⟨h.stack, h.away.newFiber fun _ _ h ↦ by cases h⟩
      | reset f =>
          obtain ⟨s₁, hr, heq⟩ := Except.map_ok_iff.mp hok
          cases heq
          unfold reset at hr
          split at hr
          · cases hr
          · obtain ⟨s₂, hdrop, hr⟩ := Except.bind_ok_iff.mp hr
            obtain ⟨m, hm, hr⟩ := Except.bind_ok_iff.mp hr
            cases hr
            obtain ⟨_, _, _, _, rfl⟩ := reset_ok hm
            exact (stray_dropCallback h hdrop).modify fun _ _ h ↦ by cases h
      | swapOut f => exact carried_stray.swapOut h hok
      | forget f => cases hok
      | swapIn f => exact stray_swapIn h.stack (fun g fb hg _ ↦ h.away g fb hg) hok
      | yieldToReady => exact stray_yieldTo h hok
      | yieldToHold => exact stray_yieldTo h hok
      | callbackReturns => exact stray_callback h (.inl hok)
      | callbackThrows => exact stray_callback h (.inr hok)
      | getThis =>
          obtain ⟨⟨cur, s₁⟩, hthis, heq⟩ := Except.map_ok_iff.mp hok
          cases heq
          have h₁ : s₁.machine.Stray := carried_stray.getThis h hthis
          exact h₁
      | setThis q =>
          obtain ⟨⟨l₁, m⟩, hr, heq⟩ := Except.map_ok_iff.mp hok
          cases heq
          rw [(perform_setThis_ok hr).2]
          exact h.of_eq rfl rfl
      | mainFunc => exact stray_mainFunc h hok
      | totalFibers | getFiberID =>
          cases hok
          exact h
  | copy f =>
      simp only [perform] at hok
      split at hok <;> cases hok
      exact h
  | drop f =>
      by_cases hout : s.outside f = 0
      · simp [perform, hout] at hok
      · rw [perform, if_neg hout] at hok
        obtain ⟨s₁, hr, heq⟩ := Except.map_ok_iff.mp hok
        cases heq
        exact stray_release (s := { s with
          outside := Function.update s.outside f (s.outside f - 1) }) h hr
  | capture f =>
      simp only [perform] at hok
      split at hok
      · cases hok
      · split at hok <;> cases hok
        exact h
  | uncapture f =>
      simp only [perform] at hok
      split at hok <;> cases hok
      exact h

/-! ## What is left on the thread's own stack -/

/-- A `swapIn` from a child is the last that the thread's own stack has seen. -/
theorem good_or_stray {tr : List RefAction}
    (hr : Run (Guarded (fun _ x ↦ x.Plain) RefStep) (fresh n) tr s) :
    s.Good ∨ s.machine.Stray := by
  refine hr.invariant (I := fun s ↦ s.Good ∨ s.machine.Stray) ?_ (.inl (good_fresh n))
  rintro s x s' h ⟨hx, l, hok⟩
  obtain ⟨s₁, hp, rfl⟩ := step_ok_iff.mp hok
  have htick : s₁.machine.Stray → Stray { s₁.machine with clock := s.machine.clock + 1 } :=
    fun h ↦ h.of_eq rfl rfl
  rcases h with h | h
  · by_cases hnest : ∀ f, x = .call (.swapIn f) → s.machine.stack = none
    · exact .inl ((h.effect hx hnest hp).good.tick _)
    · push Not at hnest
      obtain ⟨f, rfl, hst⟩ := hnest
      exact .inr (htick (stray_swapIn hst
        (fun g fb hg hg0 ↦ by simp [Fiber.Away, (h.child g fb hg hg0).context]) hp))
  · exact .inr (htick (stray_perform h hp))

/-- A fiber that is there without a pointer from outside: the `cur`s on its own
stack hold it, or its own callback does. -/
def Lingers (s : Shared) (f : FiberId) : Prop :=
  ∃ fb, s.machine.fibers f = some fb ∧
    ((fb.state = .READY ∨ fb.state = .HOLD) ∧ s.curs (some f) = [f, f] ∨
      (fb.state = .INIT ∨ fb.state = .EXCEPT) ∧ 0 < s.captured f)

theorem Good.lingers (h : s.Good) (hst : s.machine.stack = none)
    (hf : s.machine.fibers f = some fb) (hf0 : s.machine.tThreadFiber ≠ some f)
    (hout : s.outside f = 0) : s.Lingers f := by
  have ho := h.child f fb hf hf0
  have hcount := ho.counted
  have hused := ho.used
  have hcaptured : fb.Idle → 0 < s.captured f := by
    intro hidle
    simp only [ho.curs_idle hidle, List.length_nil] at hcount
    omega
  refine ⟨fb, hf, ?_⟩
  cases hfb : fb.state with
  | READY => exact .inl ⟨.inl rfl, (ho.suspended (.inl hfb)).2⟩
  | HOLD => exact .inl ⟨.inr rfl, (ho.suspended (.inr hfb)).2⟩
  | INIT => exact .inr ⟨.inl rfl, hcaptured (.inl hfb)⟩
  | EXCEPT => exact .inr ⟨.inr rfl, hcaptured (.inr (.inr hfb))⟩
  | TERM =>
      have hzero := (ho.emptied hfb).2
      have hpos := hcaptured (.inr (.inl hfb))
      omega
  | EXEC => cases hst.symm.trans (ho.running hfb).1

/-- **What is left when the thread's own stack runs.**  A child that no pointer
from outside designates has been destroyed, apart from the suspended ones, which
nothing destroys, and those that their own callback holds; and `TotalFibers`
counts what is left. -/
theorem abandoned_destroyed {tr : List RefAction}
    (hr : Run (Guarded (fun _ x ↦ x.Plain) RefStep) (fresh n) tr s)
    (hst : s.machine.stack = none) :
    (∀ f, s.machine.tThreadFiber ≠ some f → s.outside f = 0 → ¬ s.Lingers f →
      s.machine.fibers f = none) ∧
      (∀ f fb x l s', s.machine.fibers f = some fb → fb.state = .READY ∨ fb.state = .HOLD →
        x.Plain → s.step x = .ok (l, s') → s'.machine.fibers f ≠ none) ∧
      s.machine.totalFibers = s.machine.live.card ∧
      ∀ f ∈ s.machine.live, s.machine.tThreadFiber = some f ∨ 0 < s.outside f ∨ s.Lingers f := by
  have h : s.Good := (good_or_stray hr).resolve_right fun h ↦ h.stack hst
  refine ⟨fun f hf0 hout hling ↦ ?_, fun f fb x l s' hf hfb hx hok hgone ↦ ?_, h.count,
    fun f hf ↦ ?_⟩
  · cases hf : s.machine.fibers f with
    | none => rfl
    | some fb => exact absurd (h.lingers hst hf hf0 hout) hling
  · obtain ⟨s₁, hp, rfl⟩ := step_ok_iff.mp hok
    obtain ⟨-, -, -, hidle⟩ := (h.effect hx (fun _ _ ↦ hst) hp).gone f fb hf hgone
    rcases hfb with hfb | hfb <;> simp [Fiber.Idle, hfb] at hidle
  · obtain ⟨fb, hf⟩ := Option.isSome_iff_exists.mp (Machine.mem_live.mp hf).2
    by_cases hf0 : s.machine.tThreadFiber = some f
    · exact .inl hf0
    · by_cases hout : s.outside f = 0
      · exact .inr (.inr (h.lingers hst hf hf0 hout))
      · exact .inr (.inl (Nat.pos_of_ne_zero hout))

/-- A fiber is suspended, and the last pointer from outside goes away. -/
def untilDropped : List RefAction := untilYield ++ [.drop 1]

theorem untilDropped_run : ∃ s,
    Run (Guarded (fun _ x ↦ x.Plain) RefStep) (fresh 1024) untilDropped s ∧
      s.machine.stack = none ∧ s.outside 1 = 0 ∧ s.captured 1 = 0 ∧
      s.machine.tThreadFiber = some 0 ∧ (∃ fb, s.machine.fibers 1 = some fb ∧ fb.state = .HOLD) ∧
      s.machine.totalFibers = 2 ∧ s.machine.next = 2 :=
  ⟨_, .cons ⟨trivial, _, rfl⟩ (.cons ⟨trivial, _, rfl⟩ (.cons ⟨trivial, _, rfl⟩
    (.cons ⟨trivial, _, rfl⟩ (.cons ⟨trivial, _, rfl⟩ (.nil _))))),
    rfl, rfl, rfl, rfl, ⟨_, rfl, rfl⟩, rfl, rfl⟩

theorem abandoned_destroyed_untilDropped : ∃ s,
    Run (Guarded (fun _ x ↦ x.Plain) RefStep) (fresh 1024) untilDropped s ∧
      s.machine.stack = none ∧ s.machine.totalFibers = s.machine.live.card ∧
      ∀ f ∈ s.machine.live, s.machine.tThreadFiber = some f ∨ 0 < s.outside f ∨ s.Lingers f := by
  obtain ⟨s, hr, hst, -⟩ := untilDropped_run
  exact ⟨s, hr, hst, (abandoned_destroyed hr hst).2.2⟩

/-- The suspended fiber is still there, and `TotalFibers` counts it. -/
theorem abandoned_alive : ∃ s,
    Run (Guarded (fun _ x ↦ x.Plain) RefStep) (fresh 1024)
      [.call .getThis, .call (.construct 0), .call (.swapIn 1), .call .yieldToHold, .drop 1] s ∧
      s.machine.stack = none ∧ s.machine.tThreadFiber ≠ some 1 ∧ s.outside 1 = 0 ∧
      s.captured 1 = 0 ∧ s.machine.fibers 1 ≠ none ∧ s.machine.totalFibers = 2 := by
  obtain ⟨s, hr, hst, hout, hcap, ht, ⟨fb, hf, -⟩, htotal, -⟩ := untilDropped_run
  exact ⟨s, hr, hst, by simp [ht], hout, hcap, by simp [hf], htotal⟩

end Shared

end Sylar.Fibers
