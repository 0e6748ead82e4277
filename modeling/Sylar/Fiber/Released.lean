import Sylar.Fiber.Lifetime

/-!
# Giving up the callback

`MainFunc` clears `m_cb` on the exit it takes when the callback returns.  Its two
`catch` blocks set the state only, so a fiber whose callback has thrown keeps the
callback and everything the callback holds.  If that is a pointer to the fiber
itself, the fiber and its stack are never given back.

On every other way `m_cb` is given up in time: in a run in which no callback
throws, a finished child has neither a callback nor pointers held by it.
-/

namespace Sylar.Fibers

open Foundation

/-- A child that is finished does not have its callback any more. -/
def Fiber.Released (fb : Fiber) : Prop := fb.stack = true → fb.Finished → fb.cb = none

namespace Machine

variable {m m' : Machine} {f g : FiberId} {l : Landing} {e : Event} {a : Action} {n : Nat}
variable {tr : List Event} {p : Point}

/-- Every finished child has given up its callback. -/
def Released (m : Machine) : Prop := AllFibers Fiber.Released m

/-- The running callback is left through a `catch` block of `MainFunc`, and
`m_cb` still has it. -/
def ThrowsHolding (m : Machine) (a : Action) : Prop :=
  a = .callbackThrows ∧ ∃ cur rest fb, m.frames = cur :: rest ∧ m.fibers cur = some fb ∧
    fb.cb ≠ none

/-! ## What a call does to the callbacks -/

theorem Released.getThis (h : Released m) : Released m.getThis.2 :=
  AllFibers.getThis h fun hs ↦ nomatch hs

theorem Released.yieldTo (h : Released m) {st : State} (hst : st ≠ .TERM ∧ st ≠ .EXCEPT)
    (hok : m.yieldTo st = .ok (l, m')) : Released m' := by
  refine AllFibers.leave h.getThis (fun fb _ _ hfin ↦ ?_) hok
  rcases hfin with hfin | hfin
  · exact absurd hfin hst.1
  · exact absurd hfin hst.2

theorem Released.mainFunc (h : Released m) (hok : m.mainFunc = .ok (l, m')) : Released m' :=
  AllFibers.mainFunc h (fun _ _ _ _ hcb _ _ ↦ hcb) hok

theorem Released.callbackReturns (h : Released m) (hok : m.callbackReturns = .ok (l, m')) :
    Released m' := by
  cases hfr : m.frames with
  | nil => simp [Machine.callbackReturns, hfr] at hok
  | cons cur rest =>
      rw [callbackReturns_eq hfr, setCb, setState, modify_modify] at hok
      exact AllFibers.leave h (fun _ _ _ _ ↦ rfl) hok

theorem Released.callbackThrows (h : Released m) (hnot : ¬ m.ThrowsHolding .callbackThrows)
    (hok : m.callbackThrows = .ok (l, m')) : Released m' := by
  cases hfr : m.frames with
  | nil => simp [Machine.callbackThrows, hfr] at hok
  | cons cur rest =>
      rw [callbackThrows_eq hfr] at hok
      refine AllFibers.leave h (fun fb hf _ _ ↦ ?_) hok
      by_contra hcb
      exact hnot ⟨rfl, cur, rest, fb, hfr, hf, hcb⟩

theorem Released.enter (h : Released m) (f t : FiberId) : Released (m.enter f t) := by
  have hset : Released ((m.setThis (some f)).setState f .EXEC) :=
    AllFibers.modify h fun _ _ _ hfin ↦ by rcases hfin with hfin | hfin <;> cases hfin
  exact AllFibers.modify hset fun fb hf ↦ hset t fb hf

theorem Released.swapIn (h : Released m) (hok : m.swapIn f = .ok (l, m')) : Released m' := by
  obtain ⟨_, t, c, _, _, _, _, ⟨_, hmain⟩ | ⟨_, _, _, rfl⟩⟩ := swapIn_ok hok
  · have hgo : Released ((m.enter f t).goto c.stack c.frames) := h.enter f t
    exact hgo.mainFunc hmain
  · exact h.enter f t

theorem Released.perform (h : Released m) (hnot : ¬ m.ThrowsHolding a)
    (hok : m.perform a = .ok (l, m')) : Released m' := by
  cases a with
  | construct n =>
      cases hok
      exact AllFibers.newFiber h fun _ _ _ hfin ↦ by rcases hfin with hfin | hfin <;> cases hfin
  | reset f =>
      obtain ⟨_, _, _, _, rfl⟩ := reset_ok (perform_reset_ok hok).2
      exact AllFibers.modify h fun _ _ _ hfin ↦ by rcases hfin with hfin | hfin <;> cases hfin
  | swapIn f => exact h.swapIn hok
  | swapOut f => exact AllFibers.swapOut (h.save fun fb hf ↦ h f fb hf) (perform_swapOut_ok hok).2
  | yieldToReady => exact h.yieldTo (by simp) hok
  | yieldToHold => exact h.yieldTo (by simp) hok
  | callbackReturns => exact h.callbackReturns hok
  | callbackThrows => exact h.callbackThrows hnot hok
  | getThis => cases hok; exact h.getThis
  | setThis q => exact (perform_setThis_ok hok).2 ▸ h
  | mainFunc => exact h.mainFunc hok
  | totalFibers => cases hok; exact h
  | getFiberID => cases hok; exact h
  | forget f =>
      obtain ⟨_, _, _, _, hd⟩ := perform_forget_ok hok
      exact AllFibers.destroy h hd

/-- A callback that throws stays with its fiber. -/
theorem ThrowsHolding.not_released (hw : WellFormed m) (hthrow : m.ThrowsHolding a)
    (hok : m.perform a = .ok (l, m')) : ¬ Released m' := by
  obtain ⟨rfl, cur, rest, fb, hfr, hf, hcb⟩ := hthrow
  have hok : m.callbackThrows = .ok (l, m') := hok
  rw [callbackThrows_eq hfr] at hok
  obtain ⟨t, _, c, _, _, _, _, _, _, rfl⟩ := swapOut_ok hok
  intro h
  refine hcb (h cur { fb with state := .EXCEPT, ctx := m.here .afterFinal } ?_ ?_ (.inr rfl))
  · simp [hf, here]
  · cases hs : fb.stack with
    | true => rfl
    | false => exact absurd (hw.main_cb cur fb hf hs) hcb

/-- **Step lemma.**  A call leaves a finished child with its callback exactly if
it ends a callback by an exception. -/
theorem Released.step_iff (hw : WellFormed m) (h : Released m) (hs : Step m e m') :
    Released m' ↔ ¬ m.ThrowsHolding e.act := by
  obtain ⟨m₁, hok, rfl⟩ := step_ok_iff.mp hs.1
  constructor
  · intro h₁ hthrow
    exact hthrow.not_released hw hok h₁
  · intro hnot
    have h₁ : Released m₁ := h.perform hnot hok
    exact h₁

theorem released_fresh (n : Nat) : Released (fresh n) := nofun

/-- The machine part of a run, whatever becomes of the objects. -/
theorem run_released_iff : Run (Ending Released Step) (fresh n) tr m ↔
    Run (Guarded (fun m e ↦ ¬ m.ThrowsHolding e.act) Step) (fresh n) tr m := by
  have hinit : WellFormed (fresh n) ∧ Released (fresh n) := ⟨wellFormed_fresh n, released_fresh n⟩
  constructor
  · intro h
    refine h.mono_given (J := fun m ↦ WellFormed m ∧ Released m) ?_ ?_ hinit
    · rintro m e m' ⟨hw, _⟩ ⟨hs, h'⟩
      exact ⟨hw.step hs, h'⟩
    · rintro m e m' ⟨hw, h⟩ ⟨hs, h'⟩
      exact ⟨(h.step_iff hw hs).mp h', hs⟩
  · intro h
    refine h.mono_given (J := fun m ↦ WellFormed m ∧ Released m) ?_ ?_ hinit
    · rintro m e m' ⟨hw, h⟩ ⟨hnot, hs⟩
      exact ⟨hw.step hs, (h.step_iff hw hs).mpr hnot⟩
    · rintro m e m' ⟨hw, h⟩ ⟨hnot, hs⟩
      exact ⟨hs, (h.step_iff hw hs).mpr hnot⟩

end Machine

/-- A child gives up its callback when it is finished, and the pointers the
callback holds with it. -/
structure Fiber.Tidy (captured : Nat) (fb : Fiber) : Prop where
  released : fb.Released
  emptied : fb.stack = true → fb.cb = none → captured = 0

namespace Shared

variable {s s' : Shared} {f g : FiberId} {fb : Fiber} {l : Landing} {x : RefAction} {n k : Nat}
variable {p : Point}

/-- A finished child has no callback, and none of its pointers is left. -/
def Released (s : Shared) : Prop :=
  ∀ f fb, s.machine.fibers f = some fb → fb.stack = true → fb.Finished →
    fb.cb = none ∧ s.captured f = 0

/-- The running callback throws, and `m_cb` has it. -/
def ThrowsHolding (s : Shared) : RefAction → Prop
  | .call a => s.machine.ThrowsHolding a
  | _ => False

/-- The invariant: what is true of a finished child, and what makes it so. -/
def Tidy (s : Shared) : Prop := ∀ f fb, s.machine.fibers f = some fb → fb.Tidy (s.captured f)

theorem Tidy.to_released (h : s.Tidy) : s.Released := by
  intro f fb hf hs hfin
  have hcb := (h f fb hf).released hs hfin
  exact ⟨hcb, (h f fb hf).emptied hs hcb⟩

/-! ## Objects and pointers that go away -/

theorem Tidy.of_le (h : s.Tidy)
    (hf : ∀ g fb, s'.machine.fibers g = some fb → s.machine.fibers g = some fb)
    (hc : ∀ g, s'.captured g ≤ s.captured g) : s'.Tidy := by
  intro g fb hg
  have hg := h g fb (hf g fb hg)
  refine ⟨hg.released, fun hs hcb ↦ ?_⟩
  have hle := hg.emptied hs hcb ▸ hc g
  exact Nat.le_zero.mp hle

theorem release_fibers (hok : s.release f n = .ok s') (hg : s'.machine.fibers g = some fb) :
    s.machine.fibers g = some fb := by
  obtain ⟨-, hsame | hd⟩ := release_ok hok
  · exact hsame ▸ hg
  · exact Machine.destroy_fibers hd hg

theorem Tidy.release (h : s.Tidy) (hok : s.release f n = .ok s') : s'.Tidy := by
  obtain ⟨hcaptured, -⟩ := release_ok hok
  exact h.of_le (fun _ _ hg ↦ release_fibers hok hg) fun g ↦ (congrFun hcaptured g).le

/-! ## One object that is written -/

theorem Tidy.modify (h : s.Tidy) {u : Fiber → Fiber}
    (hm : s'.machine.fibers = (s.machine.modify f u).fibers)
    (hc : ∀ g, g ≠ f → s'.captured g = s.captured g)
    (hu : ∀ fb, s.machine.fibers f = some fb → (u fb).Tidy (s'.captured f)) : s'.Tidy := by
  intro g fb hg
  rw [hm] at hg
  rcases Machine.modify_cases hg with ⟨rfl, fb', hf, rfl⟩ | ⟨hgf, hg⟩
  · exact hu fb' hf
  · exact hc g hgf ▸ h g fb hg

/-- The state changes to one that is not final. -/
theorem Tidy.setState (h : s.Tidy) {st : State} (hst : st ≠ .TERM ∧ st ≠ .EXCEPT) :
    (s.withMachine (s.machine.setState f st)).Tidy := by
  refine h.modify (f := f) rfl (fun _ _ ↦ rfl) fun fb hf ↦ ⟨fun _ hfin ↦ ?_, (h f fb hf).emptied⟩
  rcases hfin with hfin | hfin
  · exact absurd hfin hst.1
  · exact absurd hfin hst.2

/-- A fiber without a callback comes to its end. -/
theorem Tidy.ends (h : s.Tidy) {st : State}
    (hcb : ∀ fb, s.machine.fibers f = some fb → fb.cb = none) :
    (s.withMachine (s.machine.setState f st)).Tidy :=
  h.modify (f := f) rfl (fun _ _ ↦ rfl) fun fb hf ↦ ⟨fun _ _ ↦ hcb fb hf, (h f fb hf).emptied⟩

theorem Tidy.setCtx (h : s.Tidy) {m : Machine} {c : Context}
    (hm : m.fibers = (s.machine.setCtx f c).fibers) : (s.withMachine m).Tidy :=
  h.modify (f := f) hm (fun _ _ ↦ rfl) fun fb hf ↦ ⟨(h f fb hf).released, (h f fb hf).emptied⟩

/-- The main fiber that `GetThis` makes has no callback and is no child. -/
theorem Tidy.newMain (h : s.Tidy) : (s.withMachine s.machine.getThis.2).Tidy := by
  cases ht : s.machine.tFiber with
  | some f =>
      rw [Machine.getThis_of_some ht]
      exact h
  | none =>
      intro g fb hg
      have hinsert : s.machine.getThis.2.fibers = Function.update s.machine.fibers s.machine.next
          (some ⟨0, 0, false, .EXEC, s.machine.here .construction, none⟩) := by
        simp [Machine.getThis, ht, Machine.newMain]
      rcases Machine.insert_cases hinsert hg with rfl | hg
      · exact ⟨fun hs ↦ absurd hs Bool.false_ne_true, fun hs ↦ absurd hs Bool.false_ne_true⟩
      · exact h g fb hg

/-! ## The functions of `fiber.cc` -/

theorem carried_tidy : Carried Tidy where
  release h hok := h.release hok
  curs _ h := h
  uses _ h := h
  main h := h.newMain
  switch {s f p _ _} h hok := by
    obtain ⟨t, _, c, _, _, _, _, _, _, rfl⟩ := Machine.swapOut_ok hok
    exact h.setCtx (f := f) (c := s.machine.here p) rfl

theorem Tidy.mainFunc (h : s.Tidy) (hok : s.mainFunc = .ok (l, s')) : s'.Tidy := by
  obtain ⟨⟨cur, s₁⟩, hthis, hok⟩ := Except.bind_ok_iff.mp hok
  have h₁ : s₁.Tidy := carried_tidy.getThis h hthis
  simp only at hok
  split at hok
  · cases hok
    exact h₁
  · rename_i hcb
    have hpush : ((s₁.withMachine (s₁.machine.goto s₁.machine.stack
        (cur :: s₁.machine.frames))).pushCur cur).Tidy := h₁
    refine carried_tidy.finish (hpush.ends fun fb hf ↦ ?_) hok
    have hf : s₁.machine.fibers cur = some fb := hf
    simpa [pushCur, hf] using hcb

theorem Tidy.yieldTo (h : s.Tidy) {st : State} (hst : st ≠ .TERM ∧ st ≠ .EXCEPT)
    (hok : s.yieldTo st = .ok (l, s')) : s'.Tidy := by
  obtain ⟨⟨cur, s₁⟩, hthis, hok⟩ := Except.bind_ok_iff.mp hok
  have h₁ : s₁.Tidy := carried_tidy.getThis h hthis
  have hpush : (s₁.pushCur cur).Tidy := h₁
  exact carried_tidy.swapOut (hpush.setState hst) hok

/-- `m_cb` is cleared before the state is set. -/
theorem Tidy.callbackReturns (h : s.Tidy) (hok : s.callbackReturns = .ok (l, s')) : s'.Tidy := by
  cases hfr : s.machine.frames with
  | nil => simp [Shared.callbackReturns, hfr] at hok
  | cons cur rest =>
      simp only [Shared.callbackReturns, hfr] at hok
      obtain ⟨s₁, hdrop, hok⟩ := Except.bind_ok_iff.mp hok
      have hclear : ({ s with machine := s.machine.setCb cur none
                              captured := Function.update s.captured cur 0 } : Shared).Tidy :=
        h.modify (f := cur) rfl (fun g hg ↦ Function.update_of_ne hg _ _)
          fun _ _ ↦ ⟨fun _ _ ↦ rfl, fun _ _ ↦ Function.update_self _ _ _⟩
      have hcb : ∀ fb, s₁.machine.fibers cur = some fb → fb.cb = none := by
        intro fb hf
        have hf := release_fibers hdrop hf
        simp only [withMachine_machine, Machine.setCb, Machine.modify_fibers_self,
          Option.map_eq_some_iff] at hf
        obtain ⟨_, _, rfl⟩ := hf
        rfl
      exact carried_tidy.finish ((hclear.release hdrop).ends hcb) hok

/-- The state is set, and `m_cb` stays as it is. -/
theorem Tidy.callbackThrows (h : s.Tidy) (hnot : ¬ s.ThrowsHolding (.call .callbackThrows))
    (hok : s.callbackThrows = .ok (l, s')) : s'.Tidy := by
  cases hfr : s.machine.frames with
  | nil => simp [Shared.callbackThrows, hfr] at hok
  | cons cur rest =>
      simp only [Shared.callbackThrows, hfr] at hok
      refine carried_tidy.finish (h.ends fun fb hf ↦ ?_) hok
      by_contra hcb
      exact hnot ⟨rfl, cur, rest, fb, hfr, hf, hcb⟩

theorem Tidy.swapIn (h : s.Tidy) (hok : s.swapIn f = .ok (l, s')) : s'.Tidy := by
  unfold Shared.swapIn at hok
  split at hok
  · cases hok
  · split at hok
    · cases hok
    · split at hok
      · cases hok
      · rename_i t _
        have hset : (s.withMachine (s.machine.setState f .EXEC)).Tidy := h.setState (by simp)
        have henter : (s.withMachine (s.machine.enter f t)).Tidy :=
          hset.setCtx (f := t) (c := s.machine.here (.afterSwapIn s.machine.clock)) rfl
        simp only at hok
        split at hok
        · cases hok
        · split at hok
          · refine Tidy.mainFunc ?_ hok
            exact henter
          · refine carried_tidy.transfer (fun m hr ↦ ?_) hok
            obtain ⟨-, -, -, rfl⟩ := Machine.resume_ok_iff.mp hr
            exact henter

theorem Tidy.reset (h : s.Tidy) (hok : s.reset f = .ok s') : s'.Tidy := by
  unfold Shared.reset at hok
  split at hok
  · cases hok
  · obtain ⟨s₁, hdrop, hok⟩ := Except.bind_ok_iff.mp hok
    obtain ⟨m, hm, hok⟩ := Except.bind_ok_iff.mp hok
    cases hok
    have hzero : ({ s with captured := Function.update s.captured f 0 } : Shared).Tidy := by
      refine h.of_le (fun _ _ hg ↦ hg) fun g ↦ ?_
      by_cases hgf : g = f
      · simp [hgf]
      · simp [hgf]
    have h₁ : s₁.Tidy := hzero.release hdrop
    obtain ⟨_, _, _, _, rfl⟩ := Machine.reset_ok hm
    refine h₁.modify (f := f) rfl (fun _ _ ↦ rfl) fun fb _ ↦ ⟨fun _ hfin ↦ ?_, fun _ hcb ↦ ?_⟩
    · rcases hfin with hfin | hfin <;> cases hfin
    · cases hcb

theorem Tidy.construct (h : s.Tidy) (n : Nat) :
    ({ s with machine := s.machine.newFiber n } : Shared).Tidy := by
  intro g fb hg
  rcases Machine.insert_cases (m := s.machine) rfl hg with rfl | hg
  · refine ⟨fun _ hfin ↦ ?_, fun _ hcb ↦ ?_⟩
    · rcases hfin with hfin | hfin <;> cases hfin
    · cases hcb
  · exact h g fb hg

/-- Only a callback that is there holds pointers. -/
theorem Tidy.capture (h : s.Tidy) (hok : s.perform (.capture f) = .ok (l, s')) : s'.Tidy := by
  simp only [perform] at hok
  split at hok
  · cases hok
  · rename_i cb hcb
    split at hok <;> cases hok
    intro g fb hg
    refine ⟨(h g fb hg).released, fun hs hnone ↦ ?_⟩
    by_cases hgf : g = f
    · subst hgf
      have hg : s.machine.fibers g = some fb := hg
      simp [hg, hnone] at hcb
    · exact (Function.update_of_ne hgf _ _).trans ((h g fb hg).emptied hs hnone)

/-! ## Runs -/

theorem Tidy.perform (h : s.Tidy) (hnot : ¬ s.ThrowsHolding x)
    (hok : s.perform x = .ok (l, s')) : s'.Tidy := by
  cases x with
  | call a =>
      cases a with
      | construct n =>
          cases hok
          exact h.construct n
      | reset f =>
          obtain ⟨s₁, hr, heq⟩ := Except.map_ok_iff.mp hok
          cases heq
          exact h.reset hr
      | swapIn f => exact h.swapIn hok
      | swapOut f => exact carried_tidy.swapOut h hok
      | forget f => cases hok
      | yieldToReady => exact h.yieldTo (by simp) hok
      | yieldToHold => exact h.yieldTo (by simp) hok
      | callbackReturns => exact h.callbackReturns hok
      | callbackThrows => exact h.callbackThrows hnot hok
      | getThis =>
          obtain ⟨⟨cur, s₁⟩, hthis, heq⟩ := Except.map_ok_iff.mp hok
          cases heq
          have h₁ : s₁.Tidy := carried_tidy.getThis h hthis
          exact h₁
      | setThis q =>
          obtain ⟨⟨l₁, m⟩, hr, heq⟩ := Except.map_ok_iff.mp hok
          cases heq
          rw [(Machine.perform_setThis_ok hr).2]
          exact h
      | mainFunc => exact h.mainFunc hok
      | totalFibers | getFiberID =>
          cases hok
          exact h
  | copy f =>
      simp only [Shared.perform] at hok
      split at hok <;> cases hok
      exact h
  | drop f =>
      by_cases hout : s.outside f = 0
      · simp [Shared.perform, hout] at hok
      · rw [Shared.perform, if_neg hout] at hok
        obtain ⟨s₁, hr, heq⟩ := Except.map_ok_iff.mp hok
        have hless : ({ s with
          outside := Function.update s.outside f (s.outside f - 1) } : Shared).Tidy := h
        cases heq
        exact hless.release hr
  | capture f => exact h.capture hok
  | uncapture f =>
      simp only [Shared.perform] at hok
      split at hok <;> cases hok
      refine h.of_le (fun _ _ hg ↦ hg) fun g ↦ ?_
      by_cases hgf : g = f
      · simp [hgf]
      · simp [hgf]

theorem Tidy.step (h : s.Tidy) (hnot : ¬ s.ThrowsHolding x) (hs : RefStep s x s') : s'.Tidy := by
  obtain ⟨l, hok⟩ := hs
  obtain ⟨s₁, hp, rfl⟩ := step_ok_iff.mp hok
  have h₁ : s₁.Tidy := h.perform hnot hp
  exact h₁

theorem tidy_fresh (n : Nat) : (fresh n).Tidy := nofun

/-- **A finished fiber has released its callback in every run in which no callback
throws while `m_cb` holds it**, and the pointers the callback had are gone.  For the
objects themselves this is exact: such runs are those whose states are all as
expected. -/
theorem released_iff (n : Nat) :
    (∀ tr s, Run (Guarded (fun s x ↦ ¬ s.ThrowsHolding x) RefStep) (fresh n) tr s →
      s.Released) ∧
    ∀ tr m, Run (Ending Machine.Released Step) (Machine.fresh n) tr m ↔
      Run (Guarded (fun m e ↦ ¬ m.ThrowsHolding e.act) Step) (Machine.fresh n) tr m := by
  constructor
  · intro tr s hr
    have h : s.Tidy := hr.invariant (fun _ _ _ h hs ↦ h.step hs.1 hs.2) (tidy_fresh n)
    exact h.to_released
  · intro tr m
    exact Machine.run_released_iff

/-- A callback has a pointer to its own fiber and throws.  Every other pointer to
the fiber goes away. -/
theorem not_released_throws : ∃ s fb, Run RefStep (fresh 1024)
      [.call .getThis, .call (.construct 0), .copy 1, .capture 1, .call (.swapIn 1),
        .call .callbackThrows, .drop 1] s ∧
    s.machine.fibers 1 = some fb ∧ fb.stack = true ∧ fb.state = .EXCEPT ∧ fb.cb = some 1 ∧
      s.captured 1 = 1 ∧ s.outside 1 = 0 ∧ s.machine.totalFibers = 2 ∧ ¬ s.Released := by
  refine ⟨_, _, .cons ⟨_, rfl⟩ (.cons ⟨_, rfl⟩ (.cons ⟨_, rfl⟩ (.cons ⟨_, rfl⟩ (.cons ⟨_, rfl⟩
    (.cons ⟨_, rfl⟩ (.cons ⟨_, rfl⟩ (.nil _))))))), rfl, rfl, rfl, rfl, rfl, rfl, rfl, ?_⟩
  intro h
  exact nomatch (h 1 _ rfl rfl (.inr rfl)).1

end Shared

end Sylar.Fibers
