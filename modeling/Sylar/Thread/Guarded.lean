import Sylar.Foundation.Sections
import Sylar.Thread.RWMutex

/-!
# What a readers–writer lock guards

The functions that share data under an `RWMutex` have one form: a `ReadLock` or a
`WriteLock` is constructed, the data is accessed, and the destructor of the guard runs when
the function returns.  Here threads execute such functions statement by statement, the
calls of `pthread_rwlock_t` and the assignments to `m_locked` included.

A `Monitor` is what the functions count on: an operation holds the lock from its beginning
to its end.  `refines` says that every run of the statements is a run of the monitor.  The
operation begins with the call that takes the lock and ends with the one that gives it
back, and all else that a guard does cannot be seen.
-/

universe u v w

namespace Sylar

open Foundation

namespace RWMutex

variable {D : Type u} {O : Type w} {R : Type v}

/-- A thread with its guard, and the function for which it has it. -/
structure Caller (D : Type u) (O : Type w) (R : Type v) where
  worker : Worker := {}
  call : Option (Monitor.Holder D O R) := none

namespace Caller

/-- What a thread does. -/
inductive Event (O : Type w) (R : Type v)
  /-- A function is called, and constructs its guard on memory where `m_locked` is `raw`. -/
  | call (o : O) (raw : Bool)
  /-- The call that takes the lock returns. -/
  | lock (o : O)
  | m_locked (b : Bool)
  /-- The data is accessed. -/
  | access
  /-- The function is about to return, and calls the destructor of its guard. -/
  | destruct
  | unlock (o : O) (r : R)
  /-- The function returns. -/
  | gone

variable (M : Monitor D O R)

/-- The steps of a thread, on the lock and the data.  The data is accessed between the
constructor of the guard and its destructor. -/
inductive Step : RWMutex × D → Caller D O R → Event O R → RWMutex × D → Caller D O R → Prop
  | call {l l' : RWMutex} {d : D} {w w' : Worker} (o : O) (raw : Bool) :
      w.Step l (.construct (M.mode o) raw) l' w' →
      Step (l, d) ⟨w, none⟩ (.call o raw) (l', d) ⟨w', some ⟨o, M.body o⟩⟩
  | lock {l l' : RWMutex} {d : D} {w w' : Worker} {o : O} {x : Section D R} :
      w.Step l (.pthread (M.mode o)) l' w' →
      Step (l, d) ⟨w, some ⟨o, x⟩⟩ (.lock o) (l', d) ⟨w', some ⟨o, x⟩⟩
  | m_locked {l l' : RWMutex} {d : D} {w w' : Worker} {c : Option (Monitor.Holder D O R)}
      {b : Bool} : w.Step l (.m_locked b) l' w' →
      Step (l, d) ⟨w, c⟩ (.m_locked b) (l', d) ⟨w', c⟩
  | access {l : RWMutex} {d : D} {w : Worker} {o : O} {write : D → D}
      {next : D → Section D R} : w.code = [] → w.ending = false →
      Step (l, d) ⟨w, some ⟨o, .access write next⟩⟩ .access (l, write d) ⟨w, some ⟨o, next d⟩⟩
  | destruct {l l' : RWMutex} {d : D} {w w' : Worker} {o : O} {r : R} :
      w.Step l .destruct l' w' →
      Step (l, d) ⟨w, some ⟨o, .done r⟩⟩ .destruct (l', d) ⟨w', some ⟨o, .done r⟩⟩
  | unlock {l l' : RWMutex} {d : D} {w w' : Worker} {o : O} {r : R} :
      w.Step l .pthread_unlock l' w' →
      Step (l, d) ⟨w, some ⟨o, .done r⟩⟩ (.unlock o r) (l', d) ⟨w', some ⟨o, .done r⟩⟩
  | gone {l l' : RWMutex} {d : D} {w w' : Worker} {o : O} {r : R} :
      w.Step l .gone l' w' →
      Step (l, d) ⟨w, some ⟨o, .done r⟩⟩ .gone (l', d) ⟨w', none⟩

/-- Where a thread can be. -/
inductive Valid : Caller D O R → Prop
  | idle : Valid {}
  | locking (o : O) (raw : Bool) :
      Valid ⟨⟨some ⟨M.mode o, raw⟩, [.m_mutex (.pthread (M.mode o)), .m_locked true], false⟩,
        some ⟨o, M.body o⟩⟩
  | locked (o : O) (raw : Bool) :
      Valid ⟨⟨some ⟨M.mode o, raw⟩, [.m_locked true], false⟩, some ⟨o, M.body o⟩⟩
  | inside (o : O) (rest : Section D R) :
      Valid ⟨⟨some ⟨M.mode o, true⟩, [], false⟩, some ⟨o, rest⟩⟩
  | unlocking (o : O) (r : R) :
      Valid ⟨⟨some ⟨M.mode o, true⟩, [.m_mutex .pthread_unlock, .m_locked false], true⟩,
        some ⟨o, .done r⟩⟩
  | unlocked (o : O) (r : R) :
      Valid ⟨⟨some ⟨M.mode o, true⟩, [.m_locked false], true⟩, some ⟨o, .done r⟩⟩
  | ended (o : O) (r : R) :
      Valid ⟨⟨some ⟨M.mode o, false⟩, [], true⟩, some ⟨o, .done r⟩⟩

/-- The function for which the thread has the lock, with what is left of it. -/
def holder (c : Caller D O R) : Option (Monitor.Holder D O R) := c.worker.has.bind fun _ ↦ c.call

/-- What the monitor sees of a step. -/
def Event.acts : Event O R → List (Monitor.Act O R)
  | lock o => [.enter o]
  | access => [.access]
  | unlock o r => [.leave o r]
  | _ => []

/-- What a step does: it is one of the monitor, or cannot be seen. -/
inductive Effect (m : RWMutex × D) (c : Caller D O R) :
    Event O R → RWMutex × D → Caller D O R → Prop
  | enter {o : O} {l : RWMutex} {c' : Caller D O R} :
      m.1.m_lock.acquire (M.mode o) = some l.m_lock → c.holder = none →
      c'.holder = some ⟨o, M.body o⟩ → Effect m c (.lock o) (l, m.2) c'
  | access {o : O} {write : D → D} {next : D → Section D R} {c' : Caller D O R} :
      c.holder = some ⟨o, .access write next⟩ → c'.holder = some ⟨o, next m.2⟩ →
      Effect m c .access (m.1, write m.2) c'
  | leave {o : O} {r : R} {l : RWMutex} {c' : Caller D O R} :
      c.holder = some ⟨o, .done r⟩ → l.m_lock = m.1.m_lock.release → c'.holder = none →
      Effect m c (.unlock o r) (l, m.2) c'
  | silent {e : Event O R} {c' : Caller D O R} : e.acts = [] → c'.holder = c.holder →
      Effect m c e m c'

variable {M} {m m' : RWMutex × D} {c c' : Caller D O R} {e : Event O R}

/-- **Step lemma.** -/
theorem Valid.step (h : c.Valid M) (hs : c.Step M m e m' c') :
    c'.Valid M ∧ Effect M m c e m' c' := by
  cases h with
  | idle =>
      cases hs with
      | call o raw hw =>
          cases hw
          rw [Worker.construct_eq]
          exact ⟨.locking o raw, .silent rfl rfl⟩
      | m_locked hw => cases hw
  | locking o raw =>
      generalize hbody : M.body o = x at hs ⊢
      cases hs with
      | lock hw =>
          subst hbody
          obtain ⟨-, hlock, rfl⟩ := Worker.next_pthread.mp hw
          exact ⟨.locked o raw, .enter hlock rfl rfl⟩
      | m_locked hw => cases hw
      | access hcode _ => cases hcode
      | destruct hw => cases hw
      | unlock hw => cases hw
      | gone hw => cases hw
  | locked o raw =>
      generalize M.body o = x at hs ⊢
      cases hs with
      | m_locked hw =>
          obtain ⟨rfl, hw⟩ := Option.ite_none_right_eq_some.mp hw
          cases hw
          exact ⟨.inside o _, .silent rfl rfl⟩
      | lock hw => cases hw
      | access hcode _ => cases hcode
      | destruct hw => cases hw
      | unlock hw => cases hw
      | gone hw => cases hw
  | inside o rest =>
      cases hs with
      | access _ _ => exact ⟨.inside o _, .access rfl rfl⟩
      | destruct hw =>
          cases hw
          rw [Worker.destruct_eq, Worker.unlock_eq]
          exact ⟨.unlocking o _, .silent rfl rfl⟩
      | lock hw => cases hw
      | m_locked hw => cases hw
      | unlock hw => cases hw
      | gone hw => cases hw
  | unlocking o r =>
      cases hs with
      | unlock hw =>
          cases hw
          exact ⟨.unlocked o r, .leave rfl rfl rfl⟩
      | lock hw => cases hw
      | m_locked hw => cases hw
      | destruct hw => cases hw
      | gone hw => cases hw
  | unlocked o r =>
      cases hs with
      | m_locked hw =>
          obtain ⟨rfl, hw⟩ := Option.ite_none_right_eq_some.mp hw
          cases hw
          exact ⟨.ended o r, .silent rfl rfl⟩
      | lock hw => cases hw
      | destruct hw => cases hw
      | unlock hw => cases hw
      | gone hw => cases hw
  | ended o r =>
      cases hs with
      | gone hw =>
          cases hw
          exact ⟨.idle, .silent rfl rfl⟩
      | lock hw => cases hw
      | m_locked hw => cases hw
      | destruct hw => cases hw
      | unlock hw => cases hw

/-! ## In any interleaving -/

/-- How a thread has the lock. -/
def has (M : Monitor D O R) (c : Caller D O R) : Option Mode := c.holder.map fun x ↦ M.mode x.op

/-- What a step has to do with the lock. -/
def Event.turn (M : Monitor D O R) : Event O R → Turn
  | lock o => .takes (M.mode o)
  | unlock _ _ => .gives
  | _ => .stays

theorem Event.turn_silent (h : e.acts = []) : e.turn M = .stays := by
  cases e with
  | lock _ | access | unlock _ _ => cases h
  | _ => rfl

theorem has_of_holder {x : Monitor.Holder D O R} (h : c.holder = some x) :
    c.has M = some (M.mode x.op) := by
  rw [has, h]
  rfl

theorem has_of_none (h : c.holder = none) : c.has M = none := by
  rw [has, h]
  rfl

/-- Threads keep to the lock. -/
theorem holding (M : Monitor D O R) :
    Threads.Holding (Step M) (Valid M) (has M) (fun m ↦ m.1.m_lock) (Event.turn M) where
  keeps h hs := (h.step hs).1
  takes h hs he := by
    cases (h.step hs).2 with
    | enter hlock hc hc' =>
        cases he
        exact ⟨hlock, has_of_none hc, has_of_holder hc'⟩
    | access _ _ => cases he
    | leave _ _ _ => cases he
    | silent hacts _ => cases he.symm.trans (Event.turn_silent hacts)
  gives h hs he := by
    cases (h.step hs).2 with
    | enter _ _ _ => cases he
    | access _ _ => cases he
    | leave hc hlock hc' => exact ⟨⟨_, has_of_holder hc⟩, hlock, has_of_none hc'⟩
    | silent hacts _ => cases he.symm.trans (Event.turn_silent hacts)
  stays h hs he := by
    cases (h.step hs).2 with
    | enter _ _ _ => cases he
    | access hc hc' => exact ⟨rfl, (has_of_holder hc').trans (has_of_holder hc).symm⟩
    | leave _ _ _ => cases he
    | silent _ hc => exact ⟨rfl, by rw [has, hc, has]⟩

end Caller

variable {T : Type*} {M : Monitor D O R} {tr : List (T × Caller.Event O R)}

/-- The lock and the data at the beginning, and threads that do nothing. -/
def begin (T : Type*) (O : Type w) (R : Type v) (d : D) : Threads T (RWMutex × D) (Caller D O R) :=
  ⟨(construct, d), fun _ ↦ {}⟩

/-- The state as the monitor sees it. -/
def seen (s : Threads T (RWMutex × D) (Caller D O R)) : Monitor.State T D O R :=
  ⟨s.shared.2, fun t ↦ (s.own t).holder⟩

/-- The steps that the monitor sees. -/
def acts (l : T × Caller.Event O R) : List (T × Monitor.Act O R) := l.2.acts.map fun a ↦ (l.1, a)

/-- The functions whose guards have given the lock back, with their threads and what they
return, in this order. -/
def unlocked (tr : List (T × Caller.Event O R)) : List (T × O × R) :=
  tr.filterMap fun l ↦
    match l.2 with
    | .unlock o r => some (l.1, o, r)
    | _ => none

theorem returns_acts : Monitor.returns (tr.flatMap acts) = unlocked tr := by
  induction tr with
  | nil => rfl
  | cons l tr ih =>
      obtain ⟨t, e⟩ := l
      rw [List.flatMap_cons, Monitor.returns, List.filterMap_append]
      cases e with
      | unlock o r => exact congrArg ((t, o, r) :: ·) ih
      | _ => exact ih

/-- The lock is granted where the monitor grants it. -/
theorem granted {s : Threads T (RWMutex × D) (Caller D O R)} {F : Finset T}
    (h : s.Agrees (Caller.has M) (fun m ↦ m.1.m_lock) F) {mode : Mode}
    (hlock : s.shared.1.m_lock.acquire mode ≠ none) : M.Granted (seen s) mode := by
  intro t x hx
  have hhas : (s.own t).has M = some (M.mode x.op) := Caller.has_of_holder hx
  cases mode with
  | exclusive => cases (h.acquire_exclusive_iff.mp hlock t).symm.trans hhas
  | shared =>
      have hnot := h.acquire_shared_iff.mp hlock t
      rw [hhas] at hnot
      cases hm : M.mode x.op with
      | shared => exact ⟨rfl, rfl⟩
      | exclusive => exact absurd (congrArg some hm) hnot

variable [DecidableEq T] {s s' : Threads T (RWMutex × D) (Caller D O R)} {d : D}
variable {l : T × Caller.Event O R}

theorem seen_update {t : T} {m : RWMutex × D} {c : Caller D O R} :
    seen ⟨m, Function.update s.own t c⟩ =
      ⟨m.2, Function.update (fun u ↦ (s.own u).holder) t c.holder⟩ :=
  congrArg (Threads.mk m.2) (Function.comp_update Caller.holder s.own t c)

/-- What holds at any time. -/
structure Orderly (M : Monitor D O R) (s : Threads T (RWMutex × D) (Caller D O R)) : Prop where
  valid : ∀ t, (s.own t).Valid M
  agrees : ∃ F, s.Agrees (Caller.has M) (fun m ↦ m.1.m_lock) F

theorem begin_orderly : Orderly M (begin T O R d) where
  valid _ := .idle
  agrees := (Caller.holding M).agrees (.nil _) ⟨fun _ ↦ ⟨.idle, rfl⟩, rfl⟩

/-- **Step lemma.**  A step is one of the monitor, or none. -/
theorem Orderly.step (h : Orderly M s) (hs : Threads.Step (Caller.Step M) s l s') :
    Orderly M s' ∧ Run M.Step (seen s) (acts l) (seen s') := by
  have hvalid := (Caller.holding M).own_invariant (.cons hs (.nil _)) h.valid
  refine ⟨⟨hvalid, (Caller.holding M).agrees_step h.valid h.agrees hs⟩, ?_⟩
  obtain ⟨F, ha⟩ := h.agrees
  obtain ⟨hstep⟩ := hs
  rename_i t e m c
  rw [seen_update]
  cases ((h.valid t).step hstep).2 with
  | enter hlock hc hc' =>
      rw [hc']
      refine .cons (.enter hc (granted ha ?_)) (.nil _)
      rw [hlock]
      nofun
  | access hc hc' =>
      rw [hc']
      exact .cons (.access hc) (.nil _)
  | leave hc hlock hc' =>
      rw [hc']
      exact .cons (.leave hc) (.nil _)
  | silent hacts hc' =>
      rw [acts, hacts, hc', Function.update_eq_self]
      exact .nil _

/-- **Refinement.**  Every run of the statements is a run of the monitor. -/
theorem refines (h : Run (Threads.Step (Caller.Step M)) (begin T O R d) tr s) :
    Run M.Step (Monitor.start T d) (tr.flatMap acts) (seen s) := by
  obtain ⟨a, hr, -, rfl⟩ := h.stutter (R := fun s a ↦ Orderly M s ∧ seen s = a)
    (fun s l s' a ⟨ho, ha⟩ hs ↦ by
      obtain ⟨ho', hrun⟩ := ho.step hs
      exact ⟨seen s', ha ▸ hrun, ho', rfl⟩) ⟨begin_orderly, rfl⟩
  exact hr

/-- The functions whose guards have given the lock back are a run of the monitor's
operations. -/
theorem linear_of_run (h : Run (Threads.Step (Caller.Step M)) (begin T O R d) tr s) :
    ∃ m, Run M.Call d (unlocked tr) m ∧ M.Linear (seen s) m := by
  obtain ⟨m, hr, hlin⟩ := Monitor.linearizable (refines h)
  rw [returns_acts] at hr
  exact ⟨m, hr, hlin⟩

/-- **Functions that lock are atomic.**  Any threads execute functions that write under a
`WriteLock` or read under a `ReadLock`, statement by statement.  Those whose guards have
given the lock back did what they do when they are performed at once, in this order; those
that have the lock will end as if performed at once on what these have left, which is the
present data unless one of them writes, and then it is alone. -/
theorem guards_linearize (h : Run (Threads.Step (Caller.Step M)) (begin T O R d) tr s) :
    ∃ m, Run M.Call d (unlocked tr) m ∧
      (∀ t x, (s.own t).holder = some x → x.rest.run s.shared.2 = (M.body x.op).run m) ∧
      ((∀ t x, (s.own t).holder = some x → M.mode x.op = .shared) → s.shared.2 = m) ∧
      ∀ t u x y, (s.own t).holder = some x → (s.own u).holder = some y →
        M.mode x.op = .exclusive → t = u := by
  obtain ⟨m, hr, hlin⟩ := linear_of_run h
  exact ⟨m, hr, hlin.resumes, hlin.settled, hlin.alone⟩

/-- A number that is read under a `ReadLock`, and counted up under a `WriteLock`. -/
def counter : Monitor Nat Mode Nat where
  mode := id
  body
    | .shared => .read id
    | .exclusive => do
        let count ← .read id
        let _ ← .write fun _ ↦ count + 1
        return count
  shared
    | .shared, _ => Section.readOnly_read
    | .exclusive, h => nomatch h

/-- One thread counts up, and another reads, which has begun to wait before. -/
def counting : List (Bool × Caller.Event Mode Nat) :=
  [(false, .call .exclusive true), (false, .lock .exclusive), (true, .call .shared false),
    (false, .m_locked true), (false, .access), (false, .access), (false, .destruct),
    (false, .unlock .exclusive 0), (true, .lock .shared), (false, .m_locked false),
    (true, .m_locked true), (false, .gone), (true, .access)]

theorem counting_run : ∃ s,
    Run (Threads.Step (Caller.Step counter)) (begin Bool Mode Nat 0) counting s ∧
      (s.own true).holder = some ⟨.shared, .done 1⟩ ∧ (s.own false).holder = none := by
  refine ⟨_, .cons (.mk (.call _ _ rfl)) <| .cons (.mk (.lock rfl)) <|
    .cons (.mk (.call _ _ rfl)) <| .cons (.mk (.m_locked rfl)) <| .cons (.mk (.access rfl rfl)) <|
    .cons (.mk (.access rfl rfl)) <| .cons (.mk (.destruct rfl)) <| .cons (.mk (.unlock rfl)) <|
    .cons (.mk (.lock rfl)) <| .cons (.mk (.m_locked rfl)) <| .cons (.mk (.m_locked rfl)) <|
    .cons (.mk (.gone rfl)) <| .cons (.mk (.access rfl rfl)) <| .nil _, rfl, rfl⟩

theorem guards_linearize_counting : ∃ s m,
    Run (Threads.Step (Caller.Step counter)) (begin Bool Mode Nat 0) counting s ∧
      Run counter.Call 0 [(false, .exclusive, 0)] m ∧ s.shared.2 = m := by
  obtain ⟨s, hs, htrue, hfalse⟩ := counting_run
  obtain ⟨m, hm, -, hsettled, -⟩ := guards_linearize hs
  refine ⟨s, m, hs, hm, hsettled fun t x hx ↦ ?_⟩
  cases t with
  | false => cases hfalse.symm.trans hx
  | true =>
      cases htrue.symm.trans hx
      rfl

end RWMutex

end Sylar
