import Sylar.Foundation.Interleave

/-!
# The CAS lock and its guard

`CASLock` is an `atomic_flag`.  `lock` sets it in a loop until it finds that it
was clear, and `unlock` clears it, whoever has set it.  That no thread clears the
flag of another is left to `ScopedLockImpl`, the guard that `CASLock::Lock` names:
it remembers in `m_locked` whether it has the lock.

`m_locked` and the flag change in separate steps, and other threads may run in
between.  A member function is therefore kept as the list of the statements that
are still to be executed, and a step of a thread executes one of them.
-/

namespace Sylar

open Foundation

/-- `std::atomic_flag`. -/
structure AtomicFlag where
  isSet : Bool
deriving DecidableEq, Repr

namespace AtomicFlag

/-- `std::atomic_flag_test_and_set_explicit`, which returns what the flag was. -/
def test_and_set (f : AtomicFlag) : Bool × AtomicFlag := (f.isSet, ⟨true⟩)

/-- `std::atomic_flag_clear_explicit`. -/
def clear (_ : AtomicFlag) : AtomicFlag := ⟨false⟩

end AtomicFlag

/-! ## The guard -/

/-- What `ScopedLockImpl` uses of a class `T`: the statements of its `lock` and
`unlock`. -/
structure Lockable (S : Type) where
  lock : List S
  unlock : List S

namespace ScopedLockImpl

/-- The statements that the member functions of a guard execute. -/
inductive Statement (S : Type)
  /-- A statement of `m_mutex`. -/
  | m_mutex (s : S)
  /-- `m_locked = b`. -/
  | m_locked (b : Bool)
deriving DecidableEq, Repr

variable {S : Type} (T : Lockable S)

/-- `ScopedLockImpl::ScopedLockImpl`. -/
def construct : List (Statement S) := T.lock.map .m_mutex ++ [.m_locked true]

/-- `ScopedLockImpl::lock`. -/
def lock (m_locked : Bool) : List (Statement S) :=
  if ¬ m_locked then T.lock.map .m_mutex ++ [.m_locked true] else []

/-- `ScopedLockImpl::unlock`. -/
def unlock (m_locked : Bool) : List (Statement S) :=
  if m_locked then T.unlock.map .m_mutex ++ [.m_locked false] else []

/-- `ScopedLockImpl::~ScopedLockImpl`. -/
def destruct (m_locked : Bool) : List (Statement S) := unlock T m_locked

end ScopedLockImpl

/-! ## The lock -/

/-- `CASLock`. -/
structure CASLock where
  m_mutex : AtomicFlag
deriving DecidableEq, Repr

namespace CASLock

/-- `CASLock::CASLock`, on memory that may hold anything. -/
def construct (raw : AtomicFlag) : CASLock := ⟨raw.clear⟩

/-- The statements of `CASLock`. -/
inductive Statement
  /-- The loop of `lock` around `std::atomic_flag_test_and_set_explicit`. -/
  | whileTestAndSet
  /-- The `std::atomic_flag_clear_explicit` of `unlock`. -/
  | clear
deriving DecidableEq, Repr

/-- `CASLock::lock` and `CASLock::unlock`. -/
def lockable : Lockable Statement where
  lock := [.whileTestAndSet]
  unlock := [.clear]

/-- A thread, with the guard it has. -/
structure Worker where
  /-- `m_locked` of the guard, if there is one. -/
  guard : Option Bool := none
  /-- What is left of the member function that is running. -/
  code : List (ScopedLockImpl.Statement Statement) := []
  /-- The destructor has been called. -/
  ending : Bool := false
deriving DecidableEq, Repr

/-- What a thread does. -/
inductive Event
  /-- A guard is constructed, on memory where `m_locked` is `raw`. -/
  | construct (raw : Bool)
  /-- `lock` is called on the guard. -/
  | lock
  /-- `unlock` is called on the guard. -/
  | unlock
  /-- The destructor is called. -/
  | destruct
  /-- A round of the loop.  The flag was `old`. -/
  | testAndSet (old : Bool)
  | clear
  | m_locked (b : Bool)
  /-- The destructor returns, and the guard is gone. -/
  | gone
deriving DecidableEq, Repr

/-- One step of a thread.  It calls a member function only after the one before has
returned, and nothing on a guard that is being destroyed. -/
def Worker.next (l : CASLock) (w : Worker) : Event → Option (CASLock × Worker)
  | .construct raw =>
      match w with
      | ⟨none, [], false⟩ =>
          some (l, ⟨some raw, ScopedLockImpl.construct lockable, false⟩)
      | _ => none
  | .lock =>
      match w with
      | ⟨some m_locked, [], false⟩ =>
          some (l, ⟨some m_locked, ScopedLockImpl.lock lockable m_locked, false⟩)
      | _ => none
  | .unlock =>
      match w with
      | ⟨some m_locked, [], false⟩ =>
          some (l, ⟨some m_locked, ScopedLockImpl.unlock lockable m_locked, false⟩)
      | _ => none
  | .destruct =>
      match w with
      | ⟨some m_locked, [], false⟩ =>
          some (l, ⟨some m_locked, ScopedLockImpl.destruct lockable m_locked, true⟩)
      | _ => none
  | .testAndSet old =>
      match w with
      | ⟨some m_locked, .m_mutex .whileTestAndSet :: rest, ending⟩ =>
          if l.m_mutex.test_and_set.1 = old then
            -- the statement is executed again while the flag was set
            some (⟨l.m_mutex.test_and_set.2⟩,
              ⟨some m_locked, if old then w.code else rest, ending⟩)
          else none
      | _ => none
  | .clear =>
      match w with
      | ⟨some m_locked, .m_mutex .clear :: rest, ending⟩ =>
          some (⟨l.m_mutex.clear⟩, ⟨some m_locked, rest, ending⟩)
      | _ => none
  | .m_locked b =>
      match w with
      | ⟨some _, .m_locked b' :: rest, ending⟩ =>
          if b' = b then some (l, ⟨some b, rest, ending⟩) else none
      | _ => none
  | .gone =>
      match w with
      | ⟨some _, [], true⟩ => some (l, {})
      | _ => none

/-- The steps of a thread as a relation. -/
def Worker.Step (l : CASLock) (w : Worker) (e : Event) (l' : CASLock) (w' : Worker) : Prop :=
  w.next l e = some (l', w')

/-! ## Who is inside -/

/-- The flag is set. -/
def Taken (l : CASLock) : Prop := l.m_mutex.isSet = true

/-- A `test_and_set` that has found the flag clear. -/
def Event.Enters (e : Event) : Prop := e = .testAndSet false

/-- The flag is cleared. -/
def Event.Leaves (e : Event) : Prop := e = .clear

namespace Worker

variable {l l' : CASLock} {w w' : Worker} {e : Event} {m_locked : Bool}

/-- The thread is in its critical section, as its next statement tells: `m_locked`
is still to be set, or the flag is still to be cleared.  Where no member function
is running it is what `m_locked` says. -/
def Inside (w : Worker) : Prop :=
  match w.code with
  | [] => w.guard = some true
  | .m_mutex .whileTestAndSet :: _ => False
  | .m_mutex .clear :: _ => True
  | .m_locked b :: _ => b = true

/-- Where a thread can be. -/
inductive Valid : Worker → Prop
  | outside : Valid {}
  | between (m_locked : Bool) : Valid ⟨some m_locked, [], false⟩
  /-- In the constructor, where `m_locked` is anything, or in `lock`. -/
  | locking (m_locked : Bool) :
      Valid ⟨some m_locked, [.m_mutex .whileTestAndSet, .m_locked true], false⟩
  | locked (m_locked : Bool) : Valid ⟨some m_locked, [.m_locked true], false⟩
  /-- In `unlock`, which the destructor calls as well. -/
  | unlocking (ending : Bool) : Valid ⟨some true, [.m_mutex .clear, .m_locked false], ending⟩
  | unlocked (ending : Bool) : Valid ⟨some true, [.m_locked false], ending⟩
  | ended : Valid ⟨some false, [], true⟩

theorem valid_lock : Valid ⟨some m_locked, ScopedLockImpl.lock lockable m_locked, false⟩ := by
  cases m_locked with
  | false => exact .locking false
  | true => exact .between true

theorem valid_unlock {ending : Bool} (h : m_locked = false → Valid ⟨some false, [], ending⟩) :
    Valid ⟨some m_locked, ScopedLockImpl.unlock lockable m_locked, ending⟩ := by
  cases m_locked with
  | false => exact h rfl
  | true => exact .unlocking ending

/-- A member function that is called does not change who is inside. -/
theorem inside_lock : Inside ⟨some m_locked, ScopedLockImpl.lock lockable m_locked, false⟩ ↔
    Inside ⟨some m_locked, [], false⟩ := by
  cases m_locked <;> simp [Inside, ScopedLockImpl.lock, lockable]

theorem inside_unlock {ending : Bool} :
    Inside ⟨some m_locked, ScopedLockImpl.unlock lockable m_locked, ending⟩ ↔
      Inside ⟨some m_locked, [], false⟩ := by
  cases m_locked <;> simp [Inside, ScopedLockImpl.unlock, lockable]

/-- What a step does: it takes the lock, gives it back, or does neither. -/
inductive Effect (l : CASLock) (w : Worker) (e : Event) (l' : CASLock) (w' : Worker) : Prop
  | enters : e.Enters → ¬ l.Taken → l'.Taken → ¬ w.Inside → w'.Inside → Effect l w e l' w'
  | leaves : e.Leaves → w.Inside → ¬ w'.Inside → ¬ l'.Taken → Effect l w e l' w'
  | stays : ¬ e.Enters → ¬ e.Leaves → (l'.Taken ↔ l.Taken) → (w'.Inside ↔ w.Inside) →
      Effect l w e l' w'

/-- A round of the loop sets the flag, and is the last if it was clear. -/
theorem next_testAndSet {rest : List (ScopedLockImpl.Statement Statement)} {ending old : Bool} :
    next l ⟨some m_locked, .m_mutex .whileTestAndSet :: rest, ending⟩ (.testAndSet old) =
        some (l', w') ↔
      l.m_mutex.isSet = old ∧ l' = ⟨⟨true⟩⟩ ∧
        w' = ⟨some m_locked, if old then .m_mutex .whileTestAndSet :: rest else rest, ending⟩ := by
  constructor
  · intro h
    obtain ⟨hold, h⟩ := Option.ite_none_right_eq_some.mp h
    cases h
    exact ⟨hold, rfl, rfl⟩
  · rintro ⟨hold, rfl, rfl⟩
    exact if_pos hold

/-- **Step lemma.** -/
theorem Valid.step (h : w.Valid) (hs : w.Step l e l' w') : w'.Valid ∧ Effect l w e l' w' := by
  unfold Step at hs
  cases h with
  | outside =>
      cases e with
      | construct raw =>
          cases hs
          exact ⟨.locking raw, .stays nofun nofun .rfl (iff_of_false id nofun)⟩
      | _ => cases hs
  | between m_locked =>
      cases e with
      | lock =>
          cases hs
          exact ⟨valid_lock, .stays nofun nofun .rfl inside_lock⟩
      | unlock =>
          cases hs
          exact ⟨valid_unlock fun _ ↦ .between false, .stays nofun nofun .rfl inside_unlock⟩
      | destruct =>
          cases hs
          exact ⟨valid_unlock fun _ ↦ .ended, .stays nofun nofun .rfl inside_unlock⟩
      | _ => cases hs
  | locking m_locked =>
      cases e with
      | testAndSet old =>
          obtain ⟨hold, rfl, rfl⟩ := next_testAndSet.mp hs
          cases old with
          | true =>
              -- another thread has the lock, and the loop goes on
              exact ⟨.locking m_locked, .stays nofun nofun (iff_of_true rfl hold) .rfl⟩
          | false =>
              have hclear : ¬ l.Taken := by simp [Taken, hold]
              exact ⟨.locked m_locked, .enters rfl hclear rfl id rfl⟩
      | _ => cases hs
  | locked m_locked =>
      cases e with
      | m_locked b =>
          obtain ⟨rfl, hs⟩ := Option.ite_none_right_eq_some.mp hs
          cases hs
          exact ⟨.between true, .stays nofun nofun .rfl (iff_of_true rfl rfl)⟩
      | _ => cases hs
  | unlocking ending =>
      cases e with
      | clear =>
          cases hs
          exact ⟨.unlocked ending, .leaves rfl trivial nofun nofun⟩
      | _ => cases hs
  | unlocked ending =>
      cases e with
      | m_locked b =>
          obtain ⟨rfl, hs⟩ := Option.ite_none_right_eq_some.mp hs
          cases hs
          cases ending with
          | false => exact ⟨.between false, .stays nofun nofun .rfl (by simp [Inside])⟩
          | true => exact ⟨.ended, .stays nofun nofun .rfl (by simp [Inside])⟩
      | _ => cases hs
  | ended =>
      cases e with
      | gone =>
          cases hs
          exact ⟨.outside, .stays nofun nofun .rfl (by simp [Inside])⟩
      | _ => cases hs

/-- The lock is a token: it is taken where it is free, and given back by the thread
that has it. -/
theorem token : Threads.Token Step Valid Inside Taken Event.Enters Event.Leaves where
  keeps h hs := (h.step hs).1
  takes h hs he := by
    cases (h.step hs).2 with
    | enters _ hfree htaken _ hin => exact ⟨hfree, htaken, hin⟩
    | leaves hl _ _ _ => cases he.symm.trans hl
    | stays hne _ _ _ => exact absurd he hne
  gives h hs he := by
    cases (h.step hs).2 with
    | enters hen _ _ _ _ => cases he.symm.trans hen
    | leaves _ hin hout hfree => exact ⟨hin, hfree, hout⟩
    | stays _ hnl _ _ => exact absurd he hnl
  others h hs hne hnl := by
    cases (h.step hs).2 with
    | enters hen _ _ _ _ => exact absurd hen hne
    | leaves hl _ _ _ => exact absurd hl hnl
    | stays _ _ htaken hin => exact ⟨htaken, hin⟩

end Worker

/-! ## Runs -/

/-- The lock after its construction, and threads without guards. -/
def start (T : Type*) (raw : AtomicFlag) : Threads T CASLock Worker := ⟨construct raw, fun _ ↦ {}⟩

/-- `t` is in its critical section: of its successful `test_and_set`s and its clears
the latest is a `test_and_set`. -/
def InCriticalSection {T : Type*} (tr : List (T × Event)) (t : T) : Prop :=
  Last (fun x ↦ x.1 = t ∧ (x.2.Enters ∨ x.2.Leaves)) tr (t, .testAndSet false)

variable {T : Type*} {raw : AtomicFlag} {tr : List (T × Event)}

theorem inCriticalSection_iff {t : T} :
    InCriticalSection tr t ↔ Threads.Inside Event.Enters Event.Leaves tr t := by
  constructor
  · intro h
    exact ⟨_, rfl, h⟩
  · rintro ⟨_, rfl, h⟩
    exact h

theorem start_free : (start T raw).Free Worker.Valid Worker.Inside Taken where
  own _ := ⟨.outside, nofun⟩
  shared := nofun

/-- Without guards the flag is clear. -/
theorem not_inside {w : Worker} (h : w.Valid) (hw : w.guard = none) : ¬ w.Inside := by
  cases h with
  | outside => nofun
  | _ => cases hw

variable [DecidableEq T] {s : Threads T CASLock Worker}

/-- **The CAS lock excludes.**  At most one thread is in its critical section, and
the flag is set exactly while one is; a thread that clears the flag is in its
critical section; and without guards the flag is clear. -/
theorem excludes (h : Run (Threads.Step Worker.Step) (start T raw) tr s) :
    (∀ t u, InCriticalSection tr t → InCriticalSection tr u → t = u) ∧
    (s.shared.m_mutex.isSet = true ↔ ∃ t, InCriticalSection tr t) ∧
    (∀ pre t post, tr = pre ++ (t, .clear) :: post → InCriticalSection pre t) ∧
    ((∀ t, (s.own t).guard = none) → s.shared.m_mutex.isSet = false) := by
  have hin : ∀ t, (s.own t).Inside ↔ InCriticalSection tr t := fun t ↦
    (Worker.token.has_iff h start_free t).trans inCriticalSection_iff.symm
  have hex := Worker.token.exclusive h start_free
  refine ⟨fun t u ht hu ↦ ?_, ?_, fun pre t post htr ↦ ?_, fun hgone ↦ ?_⟩
  · exact hex.unique t u ((hin t).mpr ht) ((hin u).mpr hu)
  · exact hex.taken.trans (exists_congr hin)
  · subst htr
    exact inCriticalSection_iff.mpr (Worker.token.given_inside h start_free rfl)
  · have hvalid := Worker.token.own_invariant h fun t ↦ (start_free.own t).1
    rw [← Bool.not_eq_true]
    intro hset
    obtain ⟨t, ht⟩ := hex.taken.mp hset
    exact not_inside (hvalid t) (hgone t) ht

/-- A thread waits in the constructor of its guard until another gives up the lock. -/
def handOver : List (Bool × Event) :=
  [(false, .construct true), (false, .testAndSet false), (true, .construct false),
    (true, .testAndSet true), (false, .m_locked true), (false, .unlock), (false, .clear),
    (true, .testAndSet false), (false, .m_locked false), (true, .m_locked true),
    (false, .destruct), (false, .gone), (true, .destruct), (true, .clear),
    (true, .m_locked false), (true, .gone)]

theorem handOver_run : ∃ s, Run (Threads.Step Worker.Step) (start Bool ⟨true⟩) handOver s ∧
    ∀ t, (s.own t).guard = none := by
  refine ⟨_, .cons (.mk rfl) (.cons (.mk rfl) (.cons (.mk rfl) (.cons (.mk rfl) (.cons (.mk rfl)
    (.cons (.mk rfl) (.cons (.mk rfl) (.cons (.mk rfl) (.cons (.mk rfl) (.cons (.mk rfl)
    (.cons (.mk rfl) (.cons (.mk rfl) (.cons (.mk rfl) (.cons (.mk rfl) (.cons (.mk rfl)
    (.cons (.mk rfl) (.nil _)))))))))))))))), ?_⟩
  intro t
  cases t <;> rfl

theorem excludes_handOver : ∃ s,
    Run (Threads.Step Worker.Step) (start Bool ⟨true⟩) handOver s ∧
      InCriticalSection (handOver.take 6) false ∧ InCriticalSection (handOver.take 13) true ∧
      s.shared.m_mutex.isSet = false := by
  obtain ⟨s, hr, hgone⟩ := handOver_run
  obtain ⟨_, _, hclear, hfree⟩ := excludes hr
  exact ⟨s, hr, hclear _ false (handOver.drop 7) rfl, hclear _ true (handOver.drop 14) rfl,
    hfree hgone⟩

end CASLock

end Sylar
