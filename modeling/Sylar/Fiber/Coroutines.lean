import Sylar.Fiber.Calls
import Sylar.Foundation.Coroutine

/-!
# Fibers are coroutines of the main fiber

While `swapIn` is called from the main fiber only, and only on a fiber that can
be resumed, the machine of `Machine.lean` is a coroutine system: the main fiber
is the resumer, the child fibers are the coroutines, and every transfer of
control that `swapcontext` performs is the one the coroutine system performs.

The relation `Simulates` between the two states is what has to be kept in step:
the state of each child, its saved context and its callback on one side, its
status on the other; `t_fiber` and the running continuation on one side, the
active coroutine on the other; and the main fiber's saved context, which is
always the `swapIn` that gave control away.
-/

namespace Sylar.Fibers

open Foundation Foundation.Coroutine

/-! ## The observed coroutine operations -/

/-- The coroutine operation a call is. -/
def opOf (e : Event) : Op FiberId Nat :=
  match e.act with
  | .construct _ => match e.landing with
    | .created f => .create f e.time
    | _ => .other
  | .reset f => .renew f e.time
  | .swapIn f => .resume f
  | .yieldToReady | .yieldToHold => .suspend
  | .callbackReturns | .callbackThrows => .finish
  | _ => .other

/-- The transfer of control a landing is. -/
def outcomeOf : Landing → Outcome FiberId Nat
  | .returns | .created _ => .proceeds
  | .started f cb => .started f cb
  | .resumed c => match c.stack, c.point with
    | some f, .afterYield k => .continued f k
    | none, .afterSwapIn k => .returned k
    | _, _ => .proceeds

/-- A call as an operation of a coroutine system. -/
def obs (e : Event) : Label FiberId Nat := ⟨e.time, e.who, opOf e, outcomeOf e.landing⟩

/-! ## The permitted calls -/

/-- The calls of a program that uses fibers as coroutines of the main fiber. -/
def Machine.Permitted (m : Machine) : Action → Prop
  | .construct _ | .getThis | .totalFibers | .getFiberID => True
  | .reset f => ∃ fb, m.fibers f = some fb ∧ fb.stack = true ∧
      (fb.state = .INIT ∨ fb.state = .TERM ∨ fb.state = .EXCEPT)
  | .swapIn f => m.stack = none ∧ ∃ fb, m.fibers f = some fb ∧ fb.stack = true ∧
      (fb.state = .INIT ∨ fb.state = .READY ∨ fb.state = .HOLD)
  | .yieldToReady | .yieldToHold | .callbackReturns | .callbackThrows => m.stack ≠ none
  | .swapOut _ | .setThis _ | .mainFunc | .forget _ => False

/-- The thread right after its first `GetThis`, which creates the main fiber. -/
def Machine.begun (stackSize : Nat) : Machine := (Machine.fresh stackSize).getThis.2

/-! ## The simulation relation -/

/-- A fiber object agrees with the status of a coroutine. -/
def Matches (f : FiberId) : Option Fiber → Option (Status Nat) → Prop
  | none, none => True
  | some fb, some (.fresh c) => fb.stack = true ∧ fb.state = .INIT ∧
      fb.ctx = ⟨some f, [], .entry⟩ ∧ fb.cb = some c
  | some fb, some (.suspended k) => fb.stack = true ∧ (fb.state = .READY ∨ fb.state = .HOLD) ∧
      fb.ctx = ⟨some f, [f], .afterYield k⟩
  | some fb, some .running => fb.stack = true ∧ fb.state = .EXEC
  | some fb, some .finished => fb.stack = true ∧ (fb.state = .TERM ∨ fb.state = .EXCEPT)
  | _, _ => False

/-- The thread's state and a coroutine system are in step.  The main fiber is
the object at address `0`. -/
structure Simulates (m : Machine) (S : System FiberId Nat) : Prop where
  clock : m.clock = S.clock
  thread : m.tThreadFiber = some 0
  unused : ∀ f, m.next ≤ f → m.fibers f = none
  main : ∃ fb, m.fibers 0 = some fb ∧ fb.stack = false ∧ fb.state = .EXEC
  nonresumer : S.status 0 = none
  children : ∀ f, f ≠ 0 → Matches f (m.fibers f) (S.status f)
  current : m.tFiber = some (S.party.getD 0)
  control : m.stack = S.party ∧ m.frames = S.party.toList
  saved : ∀ f k, S.active = some (f, k) →
    ∃ fb, m.fibers 0 = some fb ∧ fb.ctx = ⟨none, [], .afterSwapIn k⟩
  running : ∀ f, S.status f = some .running ↔ S.party = some f
  waiting : ∀ f k, S.active = some (f, k) → m.left none = some ⟨none, [], .afterSwapIn k⟩
  paused : ∀ f k, S.status f = some (.suspended k) →
    m.left (some f) = some ⟨some f, [f], .afterYield k⟩

theorem Matches.exists_fresh {f : FiberId} {fb : Fiber} {st : Option (Status Nat)}
    (h : Matches f (some fb) st) (hs : fb.state = .INIT) :
    ∃ c, st = some (.fresh c) ∧ fb.ctx = ⟨some f, [], .entry⟩ ∧ fb.cb = some c := by
  cases st with
  | none => exact h.elim
  | some st => cases st <;> simp_all [Matches]

theorem Matches.exists_suspended {f : FiberId} {fb : Fiber} {st : Option (Status Nat)}
    (h : Matches f (some fb) st) (hs : fb.state = .READY ∨ fb.state = .HOLD) :
    ∃ k, st = some (.suspended k) ∧ fb.ctx = ⟨some f, [f], .afterYield k⟩ := by
  cases st with
  | none => exact h.elim
  | some st => cases st <;> rcases hs with hs | hs <;> simp_all [Matches]

theorem Matches.finished {f : FiberId} {fb : Fiber} {st : Option (Status Nat)}
    (h : Matches f (some fb) st) (hs : fb.state = .TERM ∨ fb.state = .EXCEPT) :
    st = some .finished := by
  cases st with
  | none => exact h.elim
  | some st => cases st <;> rcases hs with hs | hs <;> simp_all [Matches]

theorem Matches.running_iff {f : FiberId} {fb : Fiber} {st : Option (Status Nat)}
    (h : Matches f (some fb) st) : fb.state = .EXEC ↔ st = some .running := by
  cases st with
  | none => exact h.elim
  | some st =>
      cases st with
      | fresh _ => simp [h.2.1]
      | suspended _ => rcases h.2.1 with hst | hst <;> simp [hst]
      | running => simp [h.2]
      | finished => rcases h.2 with hst | hst <;> simp [hst]

namespace Simulates

variable {m : Machine} {S : System FiberId Nat} {f : FiberId} {fb : Fiber}

/-- Only child fibers have a stack of their own. -/
theorem child_ne (h : Simulates m S) (hf : m.fibers f = some fb) (hs : fb.stack = true) :
    f ≠ 0 := by
  rintro rfl
  obtain ⟨_, hm, hns, _⟩ := h.main
  rw [hm, Option.some.injEq] at hf
  simp [← hf, hns] at hs

/-- An address from the next one on is not that of a fiber. -/
theorem unused_ne (h : Simulates m S) (hg : m.next ≤ g) (hf : m.fibers f = some fb) : g ≠ f := by
  rintro rfl
  rw [h.unused g hg] at hf
  cases hf

/-- The next address is not the main fiber's. -/
theorem next_ne (h : Simulates m S) : m.next ≠ 0 := by
  obtain ⟨_, hm, _, _⟩ := h.main
  exact h.unused_ne (Nat.le_refl _) hm

/-- The running child. -/
theorem exists_active (h : Simulates m S) (hs : m.stack ≠ none) :
    ∃ f k fb, S.active = some (f, k) ∧ f ≠ 0 ∧ m.fibers f = some fb ∧ fb.stack = true ∧
      m.stack = some f ∧ m.frames = [f] ∧ m.tFiber = some f := by
  cases ha : S.active with
  | none => exact absurd h.control.1 (by simpa [System.party, ha] using hs)
  | some r =>
      have hp : S.party = some r.1 := by simp [System.party, ha]
      have hr := (h.running r.1).mpr hp
      have hne : r.1 ≠ 0 := by
        intro h0
        rw [h0, h.nonresumer] at hr
        cases hr
      have hm := h.children r.1 hne
      rw [hr] at hm
      cases hf : m.fibers r.1 with
      | none => simp [hf, Matches] at hm
      | some fb =>
          rw [hf] at hm
          exact ⟨r.1, r.2, fb, rfl, hne, hf, hm.1, by simp [h.control, hp],
            by simp [h.control, hp], by simp [h.current, hp]⟩

/-- The main fiber runs: no coroutine is active. -/
theorem idle (h : Simulates m S) (hs : m.stack = none) :
    S.active = none ∧ S.party = none ∧ m.frames = [] := by
  have hp : S.party = none := h.control.1.symm.trans hs
  exact ⟨Option.map_eq_none_iff.mp hp, hp, by simp [h.control, hp]⟩

end Simulates

/-! ## Each call is simulated -/

section Calls

variable {m : Machine} {S : System FiberId Nat} {f : FiberId} {fb : Fiber}

/-- A call that moves no control and writes no fiber. -/
private theorem simulated_other (h : Simulates m S) :
    Simulates { m with clock := m.clock + 1 } S.tick :=
  ⟨by simp [System.tick, h.clock], h.thread, h.unused, h.main, h.nonresumer, h.children,
    h.current, h.control, h.saved, h.running, h.waiting, h.paused⟩

private theorem simulated_construct (h : Simulates m S) (n : Nat) :
    Simulates { m.newFiber n with clock := m.clock + 1 }
      (S.advance m.next (.fresh m.clock) S.active) := by
  have hfree : S.status m.next = none := by
    have hm := h.children m.next h.next_ne
    rw [h.unused m.next (Nat.le_refl _)] at hm
    cases hst : S.status m.next with
    | none => rfl
    | some st => simp [hst, Matches] at hm
  obtain ⟨main, hm, hms, hme⟩ := h.main
  have hne := h.next_ne
  have h0 : (m.newFiber n).fibers 0 = some main := by
    simp [Machine.newFiber, hm, Ne.symm hne]
  refine ⟨by simp [h.clock], h.thread, fun f hf ↦ ?_, ⟨main, h0, hms, hme⟩,
    by simp [Ne.symm hne, h.nonresumer], fun f hf ↦ ?_, h.current, h.control,
    fun f k ha ↦ ?_, fun f ↦ ?_, h.waiting, fun f k hf ↦ ?_⟩
  · have hlt : m.next < f := hf
    simpa [Machine.newFiber, Nat.ne_of_gt hlt] using h.unused f (Nat.le_of_lt hlt)
  · by_cases e : f = m.next
    · subst e; simp [Machine.newFiber, Matches]
    · simpa [Machine.newFiber, e] using h.children f hf
  · obtain ⟨fb, hfb, hctx⟩ := h.saved f k ha
    exact ⟨fb, by simp [Machine.newFiber, Ne.symm hne, hfb], hctx⟩
  · have hparty : (S.advance m.next (.fresh m.clock) S.active).party = S.party := rfl
    by_cases e : f = m.next
    · subst e
      rw [hparty, ← h.running]
      simp [hfree]
    · rw [System.advance_status_ne _ e, hparty, h.running]
  · rcases System.advance_cases hf with ⟨_, hst⟩ | ⟨_, hf⟩
    · cases hst
    · exact h.paused f k hf

private theorem simulated_reset (h : Simulates m S) (hf : m.fibers f = some fb)
    (hs : fb.stack = true) (hnr : S.party ≠ some f) :
    Simulates { ((m.setCb f (some m.clock)).setCtx f ⟨some f, [], .entry⟩).setState f .INIT with
      clock := m.clock + 1 } (S.advance f (.fresh m.clock) S.active) := by
  have hne := h.child_ne hf hs
  obtain ⟨main, hm, hms, hme⟩ := h.main
  refine ⟨by simp [h.clock], h.thread, fun g hg ↦ ?_, ⟨main, by simp [Ne.symm hne, hm], hms, hme⟩,
    by simp [Ne.symm hne, h.nonresumer], fun g hg ↦ ?_, h.current, h.control,
    fun g k ha ↦ ?_, fun g ↦ ?_, h.waiting, fun g k hg ↦ ?_⟩
  · simpa [h.unused_ne hg hf] using h.unused g hg
  · by_cases e : g = f
    · subst e; simp [hf, hs, Matches]
    · simpa [e] using h.children g hg
  · obtain ⟨fb', hfb', hctx⟩ := h.saved g k ha
    exact ⟨fb', by simp [Ne.symm hne, hfb'], hctx⟩
  · have hparty : (S.advance f (.fresh m.clock) S.active).party = S.party := rfl
    by_cases e : g = f
    · subst e; simp [hparty, hnr]
    · rw [System.advance_status_ne _ e, hparty, h.running]
  · rcases System.advance_cases hg with ⟨_, hst⟩ | ⟨_, hg⟩
    · cases hst
    · exact h.paused g k hg

/-- Control goes to a child: the two ways a `swapIn` ends differ only in the
continuation that runs. -/
private theorem simulated_swapIn (h : Simulates m S) (hstk : m.stack = none)
    (hf : m.fibers f = some fb) (hs : fb.stack = true) :
    Simulates { (m.enter f 0).goto (some f) [f] with clock := m.clock + 1 }
      (S.advance f .running (some (f, S.clock))) := by
  have hne := h.child_ne hf hs
  obtain ⟨_, hparty, hframes⟩ := h.idle hstk
  obtain ⟨main, hm, hms, hme⟩ := h.main
  refine ⟨by simp [h.clock], h.thread, fun g hg ↦ ?_, ?_,
    by simp [Ne.symm hne, h.nonresumer], fun g hg ↦ ?_, by simp [System.party, Machine.enter],
    by simp [System.party], fun g k ha ↦ ?_, fun g ↦ ?_, fun g k ha ↦ ?_, fun g k hg ↦ ?_⟩
  · simpa [Machine.enter, h.unused_ne hg hf, h.unused_ne hg hm] using h.unused g hg
  · exact ⟨{ main with ctx := m.here (.afterSwapIn m.clock) },
      by simp [Machine.enter, Machine.here, Ne.symm hne, hm], hms, hme⟩
  · by_cases e : g = f
    · subst e; simp [Machine.enter, hf, hs, hg, Matches]
    · simpa [Machine.enter, e, hg] using h.children g hg
  · simp only [System.advance_active, Option.some.injEq, Prod.mk.injEq] at ha
    refine ⟨{ main with ctx := m.here (.afterSwapIn m.clock) },
      by simp [Machine.enter, Machine.here, Ne.symm hne, hm], ?_⟩
    simp [Machine.here, hstk, hframes, h.clock, ha.2]
  · by_cases e : g = f
    · subst e; simp [System.party]
    · rw [System.advance_status_ne _ e, h.running, hparty]
      simp [System.party, Ne.symm e]
  · simp only [System.advance_active, Option.some.injEq, Prod.mk.injEq] at ha
    simp [Machine.enter, Machine.here, hstk, hframes, h.clock, ha.2]
  · rcases System.advance_cases hg with ⟨_, hst⟩ | ⟨e, hg⟩
    · cases hst
    · simpa [Machine.enter, hstk, e] using h.paused g k hg

/-- Control goes back to the main fiber: a yield and the two ways a callback
ends differ only in what is left in the child. -/
private theorem simulated_swapOut (h : Simulates m S) {k : Nat} (ha : S.active = some (f, k))
    (hne : f ≠ 0) (hf : m.fibers f = some fb) (u : Fiber → Fiber) (p : Point)
    {st : Status Nat} (hst : st ≠ .running)
    (hmatch : Matches f (some { u fb with ctx := m.here p }) (some st)) :
    ∃ m', (m.modify f u).swapOut f p = .ok (.resumed ⟨none, [], .afterSwapIn k⟩, m') ∧
      Simulates { m' with clock := m.clock + 1 } (S.advance f st none) := by
  obtain ⟨main, hm, hctx⟩ := h.saved f k ha
  have hmain := h.main
  rw [hm] at hmain
  obtain ⟨_, hmeq, hms, hme⟩ := hmain
  rw [Option.some.injEq] at hmeq
  subst hmeq
  have hparty : S.party = some f := by simp [System.party, ha]
  have hstk : m.stack = some f := h.control.1.trans hparty
  refine ⟨((((m.modify f u).setThis (some 0)).save f p).goto none []), ?_, ?_⟩
  · have hm' : (m.modify f u).fibers 0 = some main := by simp [Ne.symm hne, hm]
    have hsave : (((m.modify f u).setThis (some 0)).save f p).Pending
        ⟨none, [], .afterSwapIn k⟩ :=
      (Machine.pending_save _ f p (by simp [hstk])).mpr (h.waiting f k ha)
    rw [Machine.swapOut_eq (m := m.modify f u) h.thread hm', if_neg (Ne.symm hne), hctx]
    exact Machine.resume_suspended trivial hsave
  · refine ⟨by simp [h.clock], h.thread, fun g hg ↦ ?_, ⟨main, by simp [Ne.symm hne, hm], hms, hme⟩,
      by simp [Ne.symm hne, h.nonresumer], fun g hg ↦ ?_, by simp [System.party],
      by simp [System.party], by simp, fun g ↦ ?_, by simp, fun g n hg ↦ ?_⟩
    · simpa [h.unused_ne hg hf] using h.unused g hg
    · by_cases e : g = f
      · subst e; simpa [hf, Machine.here] using hmatch
      · simpa [e] using h.children g hg
    · by_cases e : g = f
      · subst e; simp [System.party, hst]
      · rw [System.advance_status_ne _ e, h.running, hparty]
        simp [System.party, Ne.symm e]
    · rcases System.advance_cases hg with ⟨rfl, rfl⟩ | ⟨e, hg⟩
      · have hctx : m.here p = ⟨some g, [g], .afterYield n⟩ := hmatch.2.2
        simpa [hstk, Machine.here] using hctx
      · simpa [hstk, e] using h.paused g n hg

/-- The call succeeds, is an operation of the coroutine system and keeps the
simulation. -/
def Follows (m : Machine) (S : System FiberId Nat) (a : Action) : Prop :=
  ∃ l m' S', m.step a = .ok (l, m') ∧
    Coroutine.Step S (obs ⟨m.clock, m.stack, a, l⟩) S' ∧ Simulates m' S'

private theorem follows_other (h : Simulates m S) {a : Action}
    (ha : m.perform a = .ok (.returns, m))
    (hop : opOf ⟨m.clock, m.stack, a, .returns⟩ = .other) : Follows m S a := by
  refine ⟨_, _, _, Machine.step_ok ha, ?_, simulated_other h⟩
  change Coroutine.Step S ⟨m.clock, m.stack, opOf _, .proceeds⟩ S.tick
  rw [hop, h.clock, h.control.1]
  exact Coroutine.Step.other

private theorem follows_construct (h : Simulates m S) (n : Nat) : Follows m S (.construct n) := by
  have hfree : S.status m.next = none := by
    have hm := h.children m.next h.next_ne
    rw [h.unused m.next (Nat.le_refl _)] at hm
    cases hst : S.status m.next with
    | none => rfl
    | some st => simp [hst, Matches] at hm
  refine ⟨.created m.next, _, _, Machine.step_ok rfl, ?_, simulated_construct h n⟩
  simp only [obs, opOf, outcomeOf, h.control.1, h.clock]
  exact .create _ hfree

private theorem follows_reset (h : Simulates m S) (hf : m.fibers f = some fb) (hs : fb.stack = true)
    (hst : fb.state = .INIT ∨ fb.state = .TERM ∨ fb.state = .EXCEPT) :
    Follows m S (.reset f) := by
  have hmat : Matches f (some fb) (S.status f) := hf ▸ h.children f (h.child_ne hf hs)
  have hnr : S.party ≠ some f := by
    rw [Ne, ← h.running, ← hmat.running_iff]
    rcases hst with hst | hst | hst <;> simp [hst]
  have hok : m.perform (.reset f) = .ok (.returns,
      ((m.setCb f (some m.clock)).setCtx f ⟨some f, [], .entry⟩).setState f .INIT) := by
    have hreset := Machine.reset_eq hf hs (by tauto)
    simp only [Machine.perform, hreset, Except.map]
  refine ⟨.returns, _, _, Machine.step_ok hok, ?_, simulated_reset h hf hs hnr⟩
  simp only [obs, opOf, outcomeOf, h.control.1, h.clock]
  rcases hst with hst | hst
  · obtain ⟨c, hc, _⟩ := hmat.exists_fresh hst
    exact .renewFresh _ hc
  · exact .renewFinished _ (hmat.finished hst)

private theorem follows_swapIn (h : Simulates m S) (hstk : m.stack = none)
    (hf : m.fibers f = some fb) (hs : fb.stack = true)
    (hst : fb.state = .INIT ∨ fb.state = .READY ∨ fb.state = .HOLD) :
    Follows m S (.swapIn f) := by
  have hne := h.child_ne hf hs
  have hmat : Matches f (some fb) (S.status f) := hf ▸ h.children f hne
  have hexec : fb.state ≠ .EXEC := by rcases hst with hst | hst | hst <;> simp [hst]
  obtain ⟨hidle, _, _⟩ := h.idle hstk
  rcases hst with hst | hst
  · obtain ⟨c, hc, hctx, hcb⟩ := hmat.exists_fresh hst
    have hok : m.perform (.swapIn f) =
        .ok (.started f c, (m.enter f 0).goto (some f) [f]) := by
      rw [Machine.perform, Machine.swapIn_entry hf hexec h.thread hne (by rw [hctx]), hctx]
      rw [Machine.mainFunc_started (f := f) (x := { fb with state := .EXEC }) rfl
        (by simp [hf, hne]) hcb]
      simp [Machine.enter]
    refine ⟨_, _, _, Machine.step_ok hok, ?_, simulated_swapIn h hstk hf hs⟩
    simp only [obs, opOf, outcomeOf, hstk, h.clock]
    exact .start hidle hc
  · obtain ⟨k, hk, hctx⟩ := hmat.exists_suspended hst
    have hok : m.perform (.swapIn f) = .ok (.resumed ⟨some f, [f], .afterYield k⟩,
        (m.enter f 0).goto (some f) [f]) := by
      have henter : (m.enter f 0).Pending ⟨some f, [f], .afterYield k⟩ :=
        (Machine.pending_save _ 0 _ (by simp [hstk])).mpr (h.paused f k hk)
      rw [Machine.perform, Machine.swapIn_saved hf hexec h.thread hne (by rw [hctx]; simp), hctx]
      exact Machine.resume_suspended trivial henter
    refine ⟨_, _, _, Machine.step_ok hok, ?_, simulated_swapIn h hstk hf hs⟩
    simp only [obs, opOf, outcomeOf, hstk, h.clock]
    exact .goOn hidle hk

/-- A yield or an end of a callback, once the child's new status is known. -/
private theorem follows_leave (h : Simulates m S) {a : Action} {k : Nat} (u : Fiber → Fiber)
    (p : Point) (st : Status Nat) (ha : S.active = some (f, k)) (hne : f ≠ 0)
    (hf : m.fibers f = some fb) (hperf : m.perform a = (m.modify f u).swapOut f p)
    (hst : st ≠ .running) (hm : Matches f (some { u fb with ctx := m.here p }) (some st))
    (hstep : ∀ l, Coroutine.Step S
      ⟨S.clock, some f, opOf ⟨m.clock, m.stack, a, l⟩, .returned k⟩ (S.advance f st none)) :
    Follows m S a := by
  obtain ⟨m', hout, hsim⟩ := simulated_swapOut h ha hne hf u p hst hm
  refine ⟨_, _, _, Machine.step_ok (hperf.trans hout), ?_, hsim⟩
  have hback := hstep (.resumed ⟨none, [], .afterSwapIn k⟩)
  simpa [obs, outcomeOf, h.clock, h.control.1, System.party, ha] using hback

/-- Every permitted call succeeds and is an operation of the coroutine system. -/
theorem step_simulated {a : Action} (h : Simulates m S) (hp : m.Permitted a) :
    Follows m S a := by
  have hthis : m.getThis.2 = m := by rw [Machine.getThis_of_some h.current]
  cases a with
  | construct n => exact follows_construct h n
  | reset f =>
      obtain ⟨fb, hf, hs, hst⟩ := hp
      exact follows_reset h hf hs hst
  | swapIn f =>
      obtain ⟨hstk, fb, hf, hs, hst⟩ := hp
      exact follows_swapIn h hstk hf hs hst
  | yieldToReady =>
      obtain ⟨f, k, fb, ha, hne, hf, hs, hstk, hfr, hthis⟩ := h.exists_active hp
      refine follows_leave h (fun fb ↦ { fb with state := .READY }) (.afterYield m.clock)
        (.suspended S.clock) ha hne hf (Machine.yieldTo_eq hthis) (by simp) ?_ fun _ ↦ .suspend ha
      simp [Matches, hs, Machine.here, hstk, hfr, h.clock]
  | yieldToHold =>
      obtain ⟨f, k, fb, ha, hne, hf, hs, hstk, hfr, hthis⟩ := h.exists_active hp
      refine follows_leave h (fun fb ↦ { fb with state := .HOLD }) (.afterYield m.clock)
        (.suspended S.clock) ha hne hf (Machine.yieldTo_eq hthis) (by simp) ?_ fun _ ↦ .suspend ha
      simp [Matches, hs, Machine.here, hstk, hfr, h.clock]
  | callbackReturns =>
      obtain ⟨f, k, fb, ha, hne, hf, hs, hstk, hfr, hthis⟩ := h.exists_active hp
      refine follows_leave h (fun fb ↦ { fb with cb := none, state := .TERM }) .afterFinal
        .finished ha hne hf ?_ (by simp) ?_ fun _ ↦ .finish ha
      · have hret := Machine.callbackReturns_eq hfr
        simpa [Machine.perform, Machine.modify, hf] using hret
      · simp [Matches, hs]
  | callbackThrows =>
      obtain ⟨f, k, fb, ha, hne, hf, hs, hstk, hfr, hthis⟩ := h.exists_active hp
      refine follows_leave h (fun fb ↦ { fb with state := .EXCEPT }) .afterFinal .finished ha hne
        hf (Machine.callbackThrows_eq hfr) (by simp) ?_ fun _ ↦ .finish ha
      simp [Matches, hs]
  | getThis => exact follows_other h (by simp [Machine.perform, hthis]) rfl
  | totalFibers => exact follows_other h rfl rfl
  | getFiberID => exact follows_other h rfl rfl
  | swapOut f => exact hp.elim
  | setThis f => exact hp.elim
  | mainFunc => exact hp.elim
  | forget f => exact hp.elim

end Calls

/-! ## Runs -/

/-- Runs of permitted calls from the first `GetThis` on. -/
abbrev CoroutineRun (stackSize : Nat) : List Event → Machine → Prop :=
  Run (Guarded (fun m e ↦ m.Permitted e.act) Step) (Machine.begun stackSize)

theorem begun_simulates (stackSize : Nat) : Simulates (Machine.begun stackSize) System.empty := by
  refine ⟨rfl, rfl, fun f hf ↦ ?_, ⟨_, rfl, rfl, rfl⟩, rfl, fun f hf ↦ ?_, rfl, ⟨rfl, rfl⟩,
    by simp [System.empty], by simp [System.empty, System.party], by simp [System.empty],
    by simp [System.empty]⟩
  · have hf : 1 ≤ f := hf
    simp [Machine.begun, Machine.getThis, Machine.newMain, Machine.fresh,
      Nat.ne_of_gt (Nat.lt_of_lt_of_le Nat.one_pos hf)]
  · simp [Machine.begun, Machine.getThis, Machine.newMain, Machine.fresh, hf, System.empty, Matches]

/-- A successful permitted call is an operation of the coroutine system. -/
theorem Simulates.step {m m' : Machine} {S : System FiberId Nat} {e : Event} (h : Simulates m S)
    (hp : m.Permitted e.act) (hs : Step m e m') :
    ∃ S', Coroutine.Step S (obs e) S' ∧ Simulates m' S' := by
  obtain ⟨l, m₁, S', hok, hstep, hsim⟩ := step_simulated h hp
  obtain ⟨hok', ht, hw⟩ := hs
  rw [hok, Except.ok.injEq, Prod.mk.injEq] at hok'
  obtain ⟨rfl, rfl⟩ := hok'
  rw [← ht, ← hw] at hstep
  exact ⟨S', hstep, hsim⟩

/-- **Refinement.**  A run of permitted calls is a run of a coroutine system. -/
theorem CoroutineRun.refines {n : Nat} {tr : List Event} {m : Machine} (h : CoroutineRun n tr m) :
    ∃ S, Run Coroutine.Step System.empty (tr.map obs) S ∧ Simulates m S :=
  h.simulate (R := Simulates) (fun _ _ _ _ hR hs ↦ hR.step hs.1 hs.2) (begun_simulates n)

/-! ## What the refinement says about the fibers -/

namespace Event

/-- The call installs a callback in `f`. -/
def Installs (f : FiberId) (e : Event) : Prop :=
  (∃ n, e.act = .construct n ∧ e.landing = .created f) ∨ e.act = .reset f

/-- `f` yields. -/
def Yields (f : FiberId) (e : Event) : Prop :=
  e.who = some f ∧ (e.act = .yieldToReady ∨ e.act = .yieldToHold)

/-- `f` yields or its callback ends. -/
def Leaves (f : FiberId) (e : Event) : Prop :=
  e.Yields f ∨ e.who = some f ∧ (e.act = .callbackReturns ∨ e.act = .callbackThrows)

/-- `swapIn` is called on `f`. -/
def SwapsIn (f : FiberId) (e : Event) : Prop := e.act = .swapIn f

/-- The callback the call starts, named by the call that installed it. -/
def startedCb (e : Event) : Option Nat :=
  match e.landing with
  | .started _ cb => some cb
  | _ => none

theorem installs_obs (f : FiberId) (e : Event) : Label.Installs f (obs e) ↔ e.Installs f := by
  obtain ⟨t, w, a, l⟩ := e
  cases a with
  | construct n => cases l <;> simp [Label.Installs, Installs, obs, opOf]
  | _ => simp [Label.Installs, Installs, obs, opOf]

theorem yields_obs (f : FiberId) (e : Event) : Label.SuspendsSelf f (obs e) ↔ e.Yields f := by
  obtain ⟨t, w, a, l⟩ := e
  cases a with
  | construct n => cases l <;> simp [Label.SuspendsSelf, Yields, obs, opOf]
  | _ => simp [Label.SuspendsSelf, Yields, obs, opOf]

theorem swapsIn_obs (f : FiberId) (e : Event) : Label.Resumes f (obs e) ↔ e.SwapsIn f := by
  obtain ⟨t, w, a, l⟩ := e
  cases a with
  | construct n => cases l <;> simp [Label.Resumes, SwapsIn, obs, opOf]
  | _ => simp [Label.Resumes, SwapsIn, obs, opOf]

/-- A callback is named by the call that installed it. -/
theorem installed_obs {e : Event} {c : Nat} (h : (obs e).installed = some c) : c = e.time := by
  obtain ⟨t, w, a, l⟩ := e
  cases a with
  | construct n => cases l <;> simp_all [Label.installed, obs, opOf]
  | _ => simp_all [Label.installed, obs, opOf]

theorem startedBody_obs (e : Event) : (obs e).startedBody = e.startedCb := by
  obtain ⟨t, w, a, l⟩ := e
  cases l with
  | resumed c =>
      obtain ⟨stk, fs, p⟩ := c
      cases stk <;> cases p <;> rfl
  | _ => rfl

end Event

theorem outcomeOf_started {l : Landing} {f : FiberId} {c : Nat}
    (h : outcomeOf l = .started f c) : l = .started f c := by
  cases l with
  | started g d => simpa [outcomeOf] using h
  | resumed c =>
      obtain ⟨stk, fs, p⟩ := c
      cases stk <;> cases p <;> simp [outcomeOf] at h
  | _ => simp [outcomeOf] at h

theorem outcomeOf_continued {l : Landing} {f : FiberId} {k : Nat}
    (h : outcomeOf l = .continued f k) :
    ∃ c, l = .resumed c ∧ c.stack = some f ∧ c.point = .afterYield k := by
  cases l with
  | resumed c =>
      obtain ⟨stk, fs, p⟩ := c
      refine ⟨_, rfl, ?_⟩
      cases stk <;> cases p <;> simp_all [outcomeOf]
  | _ => simp [outcomeOf] at h

theorem outcomeOf_returned {l : Landing} {k : Nat} (h : outcomeOf l = .returned k) :
    ∃ c, l = .resumed c ∧ c.stack = none ∧ c.point = .afterSwapIn k := by
  cases l with
  | resumed c =>
      obtain ⟨stk, fs, p⟩ := c
      refine ⟨_, rfl, ?_⟩
      cases stk <;> cases p <;> simp_all [outcomeOf]
  | _ => simp [outcomeOf] at h

/-- Where a call made in state `m` after the calls `pre` transfers control. -/
structure Transfers (m : Machine) (pre : List Event) (e : Event) : Prop where
  /-- `swapIn` on an `INIT` fiber starts the callback installed last. -/
  starts : ∀ f fb, e.act = .swapIn f → m.fibers f = some fb → fb.state = .INIT →
    ∃ x, Last (Event.Installs f) pre x ∧ e.landing = .started f x.time
  /-- `swapIn` on any other fiber goes on right after the fiber's last yield. -/
  continues : ∀ f fb, e.act = .swapIn f → m.fibers f = some fb → fb.state ≠ .INIT →
    ∃ x c, Last (Event.Yields f) pre x ∧ e.landing = .resumed c ∧ c.stack = some f ∧
      c.point = .afterYield x.time
  /-- A yield or an end goes on in the main fiber, right after the `swapIn` that
  resumed the fiber. -/
  returns : ∀ f, e.Leaves f →
    ∃ x c, Last (Event.SwapsIn f) pre x ∧ e.landing = .resumed c ∧ c.stack = none ∧
      c.point = .afterSwapIn x.time

/-- `t_fiber` and the fiber states agree with the running continuation. -/
structure InStep (m : Machine) : Prop where
  current_main : m.stack = none → m.tFiber = m.tThreadFiber
  current_child : ∀ f, m.stack = some f → m.tFiber = some f
  exec_current : ∀ f fb, m.fibers f = some fb → fb.stack = true → fb.state = .EXEC →
    m.tFiber = some f

/-- The state relation contains what `t_fiber` and the states have to satisfy. -/
theorem Simulates.inStep {m : Machine} {S : System FiberId Nat} (h : Simulates m S) :
    InStep m := by
  refine ⟨fun hs ↦ ?_, fun f hs ↦ ?_, fun f fb hf hst he ↦ ?_⟩
  · rw [h.current, h.thread, (h.idle hs).2.1]
    rfl
  · rw [h.current, ← h.control.1, hs]
    rfl
  · have hm : Matches f (some fb) (S.status f) := hf ▸ h.children f (h.child_ne hf hst)
    rw [h.current, (h.running f).mp (hm.running_iff.mp he)]
    rfl

/-- One permitted call transfers control as a coroutine system does. -/
theorem transfers_of_step {m m' : Machine} {S : System FiberId Nat} {pre : List Event} {e : Event}
    (hrun : Run Coroutine.Step System.empty (pre.map obs) S) (h : Simulates m S)
    (hp : m.Permitted e.act) (hs : Step m e m') : Transfers m pre e := by
  obtain ⟨S', hstep, _⟩ := h.step hp hs
  have resumed : ∀ {f fb}, e.act = .swapIn f → m.fibers f = some fb →
      (∃ c, S.status f = some (.fresh c) ∧ e.landing = .started f c ∧
        (obs e).out = .started f c) ∨
      (∃ k, S.status f = some (.suspended k) ∧ (obs e).out = .continued f k) := by
    intro f fb ha hf
    have hop : (obs e).op = .resume f := by simp [obs, opOf, ha]
    generalize hl : obs e = l at hstep hop
    cases hstep with
    | start _ hi =>
        simp only [Op.resume.injEq] at hop
        subst hop
        have hout : outcomeOf e.landing = .started _ _ := congrArg Label.out hl
        exact .inl ⟨_, hi, outcomeOf_started hout, rfl⟩
    | goOn _ hi =>
        simp only [Op.resume.injEq] at hop
        subst hop
        exact .inr ⟨_, hi, rfl⟩
    | create | renewFresh | renewFinished | suspend | finish | other => simp at hop
  have hmat : ∀ {f fb}, e.act = .swapIn f → m.fibers f = some fb →
      Matches f (some fb) (S.status f) := by
    intro f fb ha hf
    rw [ha] at hp
    obtain ⟨_, fb', hf', hst, _⟩ := hp
    exact hf ▸ h.children f (h.child_ne hf' hst)
  refine ⟨fun f fb ha hf hst ↦ ?_, fun f fb ha hf hst ↦ ?_, fun f hl ↦ ?_⟩
  · rcases resumed ha hf with ⟨c, _, hland, hout⟩ | ⟨k, hk, _⟩
    · obtain ⟨l, hl, hc⟩ := started_last_install hrun hstep hout
      obtain ⟨x, rfl, hx⟩ := hl.of_map
      exact ⟨x, hx.congr (Event.installs_obs f), by rw [hland, Event.installed_obs hc]⟩
    · have := hmat ha hf
      rw [hk] at this
      rcases this.2.1 with h | h <;> simp [hst] at h
  · rcases resumed ha hf with ⟨c, hc, _, _⟩ | ⟨k, _, hout⟩
    · have := hmat ha hf
      rw [hc] at this
      exact absurd this.2.1 hst
    · obtain ⟨l, hl, rfl⟩ := continued_last_suspend hrun hstep hout
      obtain ⟨x, rfl, hx⟩ := hl.of_map
      obtain ⟨c, hc⟩ := outcomeOf_continued hout
      exact ⟨x, c, hx.congr (Event.yields_obs f), hc⟩
  · have hwho : (obs e).who = some f := by rcases hl with hl | hl <;> exact hl.1
    have hop : (obs e).op = .suspend ∨ (obs e).op = .finish := by
      rcases hl with ⟨_, ha | ha⟩ | ⟨_, ha | ha⟩ <;> simp [obs, opOf, ha]
    have hout : ∃ k, (obs e).out = .returned k := by
      generalize obs e = l at hstep hop
      cases hstep with
      | suspend _ => exact ⟨_, rfl⟩
      | finish _ => exact ⟨_, rfl⟩
      | create | renewFresh | renewFinished | start | goOn | other => simp at hop
    obtain ⟨k, hout⟩ := hout
    obtain ⟨l, hl, rfl⟩ := returned_last_resume hrun hstep hwho hout
    obtain ⟨x, rfl, hx⟩ := hl.of_map
    obtain ⟨c, hc⟩ := outcomeOf_returned hout
    exact ⟨x, c, hx.congr (Event.swapsIn_obs f), hc⟩

/-- The installed callbacks are named by some of the calls, in order. -/
theorem installs_sublist (tr : List Event) :
    (installs (tr.map obs)).Sublist (tr.map Event.time) := by
  induction tr with
  | nil => exact .slnil
  | cons e tr ih =>
      cases h : (obs e).installed with
      | none => simpa [installs, List.filterMap_cons, h] using ih.cons e.time
      | some c =>
          have hc := Event.installed_obs h
          subst hc
          simpa [installs, List.filterMap_cons, h] using ih.cons_cons e.time

/-- The callbacks installed in a run are all different. -/
theorem installs_nodup {tr : List Event} {S : System FiberId Nat}
    (h : Run Coroutine.Step System.empty (tr.map obs) S) : (installs (tr.map obs)).Nodup := by
  have htimes : tr.map Event.time = List.range tr.length := by
    simpa [Function.comp_def, obs] using times_eq_range h
  exact (installs_sublist tr).nodup (htimes ▸ List.nodup_range)

/-- **Fibers behave as coroutines of the main fiber.**  In every run of
permitted calls each call transfers control as a coroutine system does, `t_fiber`
and the states stay in step with the running continuation, no callback is started
twice, the next permitted call succeeds, and the run refines one of the abstract
coroutine system. -/
theorem fibers_are_coroutines {n : Nat} {tr : List Event} {m : Machine}
    (h : CoroutineRun n tr m) :
    (∀ pre e post, tr = pre ++ e :: post → ∃ m₀, CoroutineRun n pre m₀ ∧ Transfers m₀ pre e) ∧
    InStep m ∧ (tr.filterMap Event.startedCb).Nodup ∧
    (∀ a, m.Permitted a → ∃ e m', e.act = a ∧ Step m e m') ∧
    ∃ S, Run Coroutine.Step System.empty (tr.map obs) S ∧ Simulates m S := by
  obtain ⟨S, hrun, hsim⟩ := h.refines
  refine ⟨?_, hsim.inStep, ?_, fun a ha ↦ ?_, S, hrun, hsim⟩
  · rintro pre e post rfl
    obtain ⟨m₀, m₁, hpre, hs, _⟩ := h.split_cons
    obtain ⟨S₀, hrun₀, hsim₀⟩ := CoroutineRun.refines hpre
    exact ⟨m₀, hpre, transfers_of_step hrun₀ hsim₀ hs.1 hs.2⟩
  · have hstarts : starts (tr.map obs) = tr.filterMap Event.startedCb := by
      simp only [starts, List.filterMap_map, Function.comp_def, Event.startedBody_obs]
    exact hstarts ▸ starts_nodup hrun (installs_nodup hrun)
  · obtain ⟨l, m', _, hok, _, _⟩ := step_simulated hsim ha
    exact ⟨⟨m.clock, m.stack, a, l⟩, m', rfl, hok, rfl, rfl⟩

/-- The calls of a fiber that yields once and ends. -/
def yieldOnce : List Event :=
  [⟨0, none, .construct 0, .created 1⟩, ⟨1, none, .swapIn 1, .started 1 0⟩,
    ⟨2, some 1, .yieldToHold, .resumed ⟨none, [], .afterSwapIn 1⟩⟩,
    ⟨3, none, .swapIn 1, .resumed ⟨some 1, [1], .afterYield 2⟩⟩,
    ⟨4, some 1, .callbackReturns, .resumed ⟨none, [], .afterSwapIn 3⟩⟩]

theorem exists_yieldOnce_run : ∃ m, CoroutineRun 1024 yieldOnce m := by
  refine ⟨_, .cons ⟨trivial, rfl, rfl, rfl⟩ (.cons ⟨?_, rfl, rfl, rfl⟩
    (.cons ⟨?_, rfl, rfl, rfl⟩ (.cons ⟨?_, rfl, rfl, rfl⟩ (.cons ⟨?_, rfl, rfl, rfl⟩ (.nil _)))))⟩
  · exact ⟨rfl, _, rfl, rfl, .inl rfl⟩
  · exact Option.some_ne_none _
  · exact ⟨rfl, _, rfl, rfl, .inr (.inr rfl)⟩
  · exact Option.some_ne_none _

theorem fibers_are_coroutines_yieldOnce :
    ∃ m, CoroutineRun 1024 yieldOnce m ∧ InStep m ∧
      (yieldOnce.filterMap Event.startedCb).Nodup := by
  obtain ⟨m, h⟩ := exists_yieldOnce_run
  obtain ⟨_, hin, hnd, _⟩ := fibers_are_coroutines h
  exact ⟨m, h, hin, hnd⟩

end Sylar.Fibers
