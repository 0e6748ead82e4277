import Sylar.Foundation.Readers
import Sylar.Thread.CASLock

/-!
# The readers–writer lock and its guards

`RWMutex` passes its calls on to a `pthread_rwlock_t`, which any thread can unlock.
What threads may rely on comes from the guards, `ReadLock` and `WriteLock`: that a
thread that writes is alone, that only threads which have the lock give it back, and
that it is free once the guards are gone.

The guards differ in the function that they call to lock; `unlock` is the same one for
readers and writers.
-/

namespace Sylar

open Foundation

/-! ## The guards -/

/-- What the guards use of a class `T`: the statements of its `rdlock`, `wrlock` and
`unlock`. -/
structure RWLockable (S : Type) where
  rdlock : List S
  wrlock : List S
  unlock : List S

namespace RWLockable

variable {S : Type} (T : RWLockable S)

/-- `T` as it is used for reading, or for writing. -/
def mutex : Mode → Lockable S
  | .shared => ⟨T.rdlock, T.unlock⟩
  | .exclusive => ⟨T.wrlock, T.unlock⟩

end RWLockable

namespace ReadScopedLockImpl

variable {S : Type} (T : RWLockable S)

/-- `ReadScopedLockImpl::ReadScopedLockImpl`. -/
def construct : List (ScopedLockImpl.Statement S) := ScopedLockImpl.construct (T.mutex .shared)

/-- `ReadScopedLockImpl::lock`. -/
def lock (m_locked : Bool) : List (ScopedLockImpl.Statement S) :=
  ScopedLockImpl.lock (T.mutex .shared) m_locked

/-- `ReadScopedLockImpl::unlock`. -/
def unlock (m_locked : Bool) : List (ScopedLockImpl.Statement S) :=
  ScopedLockImpl.unlock (T.mutex .shared) m_locked

/-- `ReadScopedLockImpl::~ReadScopedLockImpl`. -/
def destruct (m_locked : Bool) : List (ScopedLockImpl.Statement S) := unlock T m_locked

end ReadScopedLockImpl

namespace WriteScopedLockImpl

variable {S : Type} (T : RWLockable S)

/-- `WriteScopedLockImpl::WriteScopedLockImpl`. -/
def construct : List (ScopedLockImpl.Statement S) := ScopedLockImpl.construct (T.mutex .exclusive)

/-- `WriteScopedLockImpl::lock`. -/
def lock (m_locked : Bool) : List (ScopedLockImpl.Statement S) :=
  ScopedLockImpl.lock (T.mutex .exclusive) m_locked

/-- `WriteScopedLockImpl::unlock`. -/
def unlock (m_locked : Bool) : List (ScopedLockImpl.Statement S) :=
  ScopedLockImpl.unlock (T.mutex .exclusive) m_locked

/-- `WriteScopedLockImpl::~WriteScopedLockImpl`. -/
def destruct (m_locked : Bool) : List (ScopedLockImpl.Statement S) := unlock T m_locked

end WriteScopedLockImpl

/-! ## The lock -/

/-- `RWMutex`. -/
structure RWMutex where
  m_lock : Rwlock
deriving DecidableEq, Repr

namespace RWMutex

/-- `RWMutex::RWMutex`: `pthread_rwlock_init`. -/
def construct : RWMutex := ⟨.free⟩

/-- The statements of `RWMutex`, the calls of `pthread_rwlock_rdlock`,
`pthread_rwlock_wrlock` and `pthread_rwlock_unlock`. -/
inductive Statement
  | pthread (lock : Mode)
  | pthread_unlock
deriving DecidableEq, Repr

/-- `RWMutex::rdlock`, `RWMutex::wrlock` and `RWMutex::unlock`. -/
def lockable : RWLockable Statement where
  rdlock := [.pthread .shared]
  wrlock := [.pthread .exclusive]
  unlock := [.pthread_unlock]

/-- The member functions of a `ReadLock` or a `WriteLock`. -/
structure Members where
  construct : List (ScopedLockImpl.Statement Statement)
  lock : Bool → List (ScopedLockImpl.Statement Statement)
  unlock : Bool → List (ScopedLockImpl.Statement Statement)
  destruct : Bool → List (ScopedLockImpl.Statement Statement)

/-- `RWMutex::ReadLock` and `RWMutex::WriteLock`. -/
def Lock : Mode → Members
  | .shared =>
      { construct := ReadScopedLockImpl.construct lockable
        lock := ReadScopedLockImpl.lock lockable
        unlock := ReadScopedLockImpl.unlock lockable
        destruct := ReadScopedLockImpl.destruct lockable }
  | .exclusive =>
      { construct := WriteScopedLockImpl.construct lockable
        lock := WriteScopedLockImpl.lock lockable
        unlock := WriteScopedLockImpl.unlock lockable
        destruct := WriteScopedLockImpl.destruct lockable }

/-- A guard, of one kind or the other. -/
structure Guard where
  mode : Mode
  m_locked : Bool
deriving DecidableEq, Repr

/-- A thread, with the guard it has. -/
structure Worker where
  guard : Option Guard := none
  /-- What is left of the member function that is running. -/
  code : List (ScopedLockImpl.Statement Statement) := []
  /-- The destructor has been called. -/
  ending : Bool := false
deriving DecidableEq, Repr

/-- What a thread does. -/
inductive Event
  /-- A guard is constructed, on memory where `m_locked` is `raw`. -/
  | construct (mode : Mode) (raw : Bool)
  /-- `lock` is called on the guard. -/
  | lock
  /-- `unlock` is called on the guard. -/
  | unlock
  /-- The destructor is called. -/
  | destruct
  /-- A call of the lock returns: the thread has got it. -/
  | pthread (lock : Mode)
  | pthread_unlock
  | m_locked (b : Bool)
  /-- The destructor returns, and the guard is gone. -/
  | gone
deriving DecidableEq, Repr

/-- One step of a thread.  A thread whose call of the lock does not return has none. -/
def Worker.next (l : RWMutex) (w : Worker) : Event → Option (RWMutex × Worker)
  | .construct mode raw =>
      match w with
      | ⟨none, [], false⟩ => some (l, ⟨some ⟨mode, raw⟩, (Lock mode).construct, false⟩)
      | _ => none
  | .lock =>
      match w with
      | ⟨some g, [], false⟩ => some (l, ⟨some g, (Lock g.mode).lock g.m_locked, false⟩)
      | _ => none
  | .unlock =>
      match w with
      | ⟨some g, [], false⟩ => some (l, ⟨some g, (Lock g.mode).unlock g.m_locked, false⟩)
      | _ => none
  | .destruct =>
      match w with
      | ⟨some g, [], false⟩ => some (l, ⟨some g, (Lock g.mode).destruct g.m_locked, true⟩)
      | _ => none
  | .pthread mode =>
      match w with
      | ⟨some g, .m_mutex (.pthread mode') :: rest, ending⟩ =>
          if mode' = mode then
            (l.m_lock.acquire mode).map fun m_lock ↦ (⟨m_lock⟩, ⟨some g, rest, ending⟩)
          else none
      | _ => none
  | .pthread_unlock =>
      match w with
      | ⟨some g, .m_mutex .pthread_unlock :: rest, ending⟩ =>
          some (⟨l.m_lock.release⟩, ⟨some g, rest, ending⟩)
      | _ => none
  | .m_locked b =>
      match w with
      | ⟨some g, .m_locked b' :: rest, ending⟩ =>
          if b' = b then some (l, ⟨some { g with m_locked := b }, rest, ending⟩) else none
      | _ => none
  | .gone =>
      match w with
      | ⟨some _, [], true⟩ => some (l, {})
      | _ => none

/-- The steps of a thread as a relation. -/
def Worker.Step (l : RWMutex) (w : Worker) (e : Event) (l' : RWMutex) (w' : Worker) : Prop :=
  w.next l e = some (l', w')

/-! ## Who has the lock -/

/-- What a step has to do with the lock. -/
def Event.turn : Event → Turn
  | .pthread mode => .takes mode
  | .pthread_unlock => .gives
  | _ => .stays

namespace Worker

variable {l l' : RWMutex} {w w' : Worker} {e : Event} {mode : Mode} {m_locked : Bool}

/-- Whether the thread has the lock, as its next statement tells: `m_locked` is still to
be set, or the lock still to be given back.  Where no member function is running it is
what `m_locked` says. -/
def inside (w : Worker) (g : Guard) : Bool :=
  match w.code with
  | [] => g.m_locked
  | .m_mutex (.pthread _) :: _ => false
  | .m_mutex .pthread_unlock :: _ => true
  | .m_locked b :: _ => b

/-- How the thread has the lock. -/
def has (w : Worker) : Option Mode :=
  match w.guard with
  | none => none
  | some g => if w.inside g then some g.mode else none

/-- Where a thread can be. -/
inductive Valid : Worker → Prop
  | outside : Valid {}
  | between (mode : Mode) (m_locked : Bool) : Valid ⟨some ⟨mode, m_locked⟩, [], false⟩
  /-- In the constructor, where `m_locked` is anything, or in `lock`. -/
  | locking (mode : Mode) (m_locked : Bool) :
      Valid ⟨some ⟨mode, m_locked⟩, [.m_mutex (.pthread mode), .m_locked true], false⟩
  | locked (mode : Mode) (m_locked : Bool) :
      Valid ⟨some ⟨mode, m_locked⟩, [.m_locked true], false⟩
  /-- In `unlock`, which the destructor calls as well. -/
  | unlocking (mode : Mode) (ending : Bool) :
      Valid ⟨some ⟨mode, true⟩, [.m_mutex .pthread_unlock, .m_locked false], ending⟩
  | unlocked (mode : Mode) (ending : Bool) :
      Valid ⟨some ⟨mode, true⟩, [.m_locked false], ending⟩
  | ended (mode : Mode) : Valid ⟨some ⟨mode, false⟩, [], true⟩

/-! A reader's guard and a writer's execute the same statements but for the one that
locks. -/

theorem construct_eq : (Lock mode).construct = [.m_mutex (.pthread mode), .m_locked true] := by
  cases mode <;> rfl

theorem lock_eq : (Lock mode).lock m_locked =
    if m_locked then [] else [.m_mutex (.pthread mode), .m_locked true] := by
  cases mode <;> cases m_locked <;> rfl

theorem unlock_eq : (Lock mode).unlock m_locked =
    if m_locked then [.m_mutex .pthread_unlock, .m_locked false] else [] := by
  cases mode <;> cases m_locked <;> rfl

theorem destruct_eq : (Lock mode).destruct m_locked = (Lock mode).unlock m_locked := by
  cases mode <;> rfl

/-- What a step does: it takes the lock, gives it back, or does neither. -/
inductive Effect (l : RWMutex) (w : Worker) (e : Event) (l' : RWMutex) (w' : Worker) : Prop
  | takes {mode : Mode} : e.turn = .takes mode → l.m_lock.acquire mode = some l'.m_lock →
      w.has = none → w'.has = some mode → Effect l w e l' w'
  | gives {mode : Mode} : e.turn = .gives → w.has = some mode →
      l'.m_lock = l.m_lock.release → w'.has = none → Effect l w e l' w'
  | stays : e.turn = .stays → l'.m_lock = l.m_lock → w'.has = w.has → Effect l w e l' w'

/-- A member function that is called does not change who has the lock. -/
theorem valid_lock (mode : Mode) (m_locked : Bool) :
    Valid ⟨some ⟨mode, m_locked⟩, (Lock mode).lock m_locked, false⟩ ∧
      has ⟨some ⟨mode, m_locked⟩, (Lock mode).lock m_locked, false⟩ =
        has ⟨some ⟨mode, m_locked⟩, [], false⟩ := by
  rw [lock_eq]
  cases m_locked with
  | false => exact ⟨.locking mode false, rfl⟩
  | true => exact ⟨.between mode true, rfl⟩

theorem valid_unlock {ending : Bool}
    (h : m_locked = false → Valid ⟨some ⟨mode, false⟩, [], ending⟩) :
    Valid ⟨some ⟨mode, m_locked⟩, (Lock mode).unlock m_locked, ending⟩ ∧
      has ⟨some ⟨mode, m_locked⟩, (Lock mode).unlock m_locked, ending⟩ =
        has ⟨some ⟨mode, m_locked⟩, [], false⟩ := by
  rw [unlock_eq]
  cases m_locked with
  | false => exact ⟨h rfl, rfl⟩
  | true => exact ⟨.unlocking mode ending, rfl⟩

/-- A call that takes the lock returns once the lock can be had. -/
theorem next_pthread {mode' : Mode} {g : Guard} {ending : Bool}
    {rest : List (ScopedLockImpl.Statement Statement)} :
    next l ⟨some g, .m_mutex (.pthread mode) :: rest, ending⟩ (.pthread mode') = some (l', w') ↔
      mode = mode' ∧ l.m_lock.acquire mode' = some l'.m_lock ∧ w' = ⟨some g, rest, ending⟩ := by
  constructor
  · intro h
    obtain ⟨hmode, h⟩ := Option.ite_none_right_eq_some.mp h
    obtain ⟨m_lock, hlock, h⟩ := Option.map_eq_some_iff.mp h
    cases h
    exact ⟨hmode, hlock, rfl⟩
  · rintro ⟨hmode, hlock, rfl⟩
    exact (if_pos hmode).trans (by rw [hlock]; rfl)

/-- **Step lemma.** -/
theorem Valid.step (h : w.Valid) (hs : w.Step l e l' w') : w'.Valid ∧ Effect l w e l' w' := by
  unfold Step at hs
  cases h with
  | outside =>
      cases e with
      | construct mode raw =>
          cases hs
          rw [construct_eq]
          exact ⟨.locking mode raw, .stays rfl rfl rfl⟩
      | _ => cases hs
  | between mode m_locked =>
      cases e with
      | lock =>
          cases hs
          obtain ⟨hvalid, hhas⟩ := valid_lock mode m_locked
          exact ⟨hvalid, .stays rfl rfl hhas⟩
      | unlock =>
          cases hs
          obtain ⟨hvalid, hhas⟩ := valid_unlock fun _ ↦ .between mode false
          exact ⟨hvalid, .stays rfl rfl hhas⟩
      | destruct =>
          cases hs
          rw [destruct_eq]
          obtain ⟨hvalid, hhas⟩ := valid_unlock fun _ ↦ .ended mode
          exact ⟨hvalid, .stays rfl rfl hhas⟩
      | _ => cases hs
  | locking mode m_locked =>
      cases e with
      | pthread mode' =>
          obtain ⟨rfl, hlock, rfl⟩ := next_pthread.mp hs
          exact ⟨.locked mode m_locked, .takes rfl hlock rfl rfl⟩
      | _ => cases hs
  | locked mode m_locked =>
      cases e with
      | m_locked b =>
          obtain ⟨rfl, hs⟩ := Option.ite_none_right_eq_some.mp hs
          cases hs
          exact ⟨.between mode true, .stays rfl rfl rfl⟩
      | _ => cases hs
  | unlocking mode ending =>
      cases e with
      | pthread_unlock =>
          cases hs
          exact ⟨.unlocked mode ending, .gives rfl rfl rfl rfl⟩
      | _ => cases hs
  | unlocked mode ending =>
      cases e with
      | m_locked b =>
          obtain ⟨rfl, hs⟩ := Option.ite_none_right_eq_some.mp hs
          cases hs
          cases ending with
          | false => exact ⟨.between mode false, .stays rfl rfl rfl⟩
          | true => exact ⟨.ended mode, .stays rfl rfl rfl⟩
      | _ => cases hs
  | ended mode =>
      cases e with
      | gone =>
          cases hs
          exact ⟨.outside, .stays rfl rfl rfl⟩
      | _ => cases hs

/-- Threads with guards keep to the lock. -/
theorem holding : Threads.Holding Step Valid has RWMutex.m_lock Event.turn where
  keeps h hs := (h.step hs).1
  takes h hs he := by
    cases (h.step hs).2 with
    | takes he' hlock hw hw' =>
        cases he.symm.trans he'
        exact ⟨hlock, hw, hw'⟩
    | gives he' _ _ _ => cases he.symm.trans he'
    | stays he' _ _ => cases he.symm.trans he'
  gives h hs he := by
    cases (h.step hs).2 with
    | takes he' _ _ _ => cases he.symm.trans he'
    | gives _ hw hlock hw' => exact ⟨⟨_, hw⟩, hlock, hw'⟩
    | stays he' _ _ => cases he.symm.trans he'
  stays h hs he := by
    cases (h.step hs).2 with
    | takes he' _ _ _ => cases he.symm.trans he'
    | gives he' _ _ _ => cases he.symm.trans he'
    | stays _ hlock hw => exact ⟨hlock, hw⟩

/-- A thread that is about to lock can go on when the lock can be had. -/
theorem Valid.enabled_iff (h : w.Valid) (hw : w.code.head? = some (.m_mutex (.pthread mode))) :
    (∃ l' w', w.Step l (.pthread mode) l' w') ↔ l.m_lock.acquire mode ≠ none := by
  cases h with
  | locking mode' m_locked =>
      cases hw
      constructor
      · rintro ⟨l', w', hs⟩
        rw [(next_pthread.mp hs).2.1]
        nofun
      · intro hlock
        obtain ⟨m_lock, hlock⟩ := Option.ne_none_iff_exists'.mp hlock
        exact ⟨⟨m_lock⟩, _, next_pthread.mpr ⟨rfl, hlock, rfl⟩⟩
  | _ => cases hw

end Worker

/-! ## Runs -/

/-- The lock after its construction, and threads without guards. -/
def start (T : Type*) : Threads T RWMutex Worker := ⟨construct, fun _ ↦ {}⟩

variable {T : Type*} {tr : List (T × Event)}

/-- `t` reads: of its calls that took the lock or gave it back the latest is `rdlock`. -/
def Reads (tr : List (T × Event)) (t : T) : Prop :=
  Last (fun x ↦ x.1 = t ∧ x.2.turn ≠ .stays) tr (t, .pthread .shared)

/-- `t` writes. -/
def Writes (tr : List (T × Event)) (t : T) : Prop :=
  Last (fun x ↦ x.1 = t ∧ x.2.turn ≠ .stays) tr (t, .pthread .exclusive)

theorem held_iff {t : T} {mode : Mode} : Threads.Held Event.turn tr t mode ↔
    Last (fun x ↦ x.1 = t ∧ x.2.turn ≠ .stays) tr (t, .pthread mode) := by
  constructor
  · rintro ⟨e, he, h⟩
    cases e <;> cases he
    exact h
  · intro h
    exact ⟨_, rfl, h⟩

theorem start_unheld : (start T).Unheld Worker.Valid Worker.has RWMutex.m_lock where
  own _ := ⟨.outside, rfl⟩
  lock := rfl

/-- What the threads know of each other through the lock. -/
structure Sharing (tr : List (T × Event)) (s : Threads T RWMutex Worker) : Prop where
  /-- A thread that writes is alone. -/
  alone : ∀ t u, Writes tr t → Reads tr u ∨ Writes tr u → t = u
  apart : ∀ t, ¬ (Reads tr t ∧ Writes tr t)
  writer : s.shared.m_lock.writer = true ↔ ∃ t, Writes tr t
  readers : ∃ F : Finset T, (∀ t, t ∈ F ↔ Reads tr t) ∧ s.shared.m_lock.readers = F.card

variable [DecidableEq T] {s : Threads T RWMutex Worker}

theorem has_iff (h : Run (Threads.Step Worker.Step) (start T) tr s) {t : T} {mode : Mode} :
    (s.own t).has = some mode ↔
      Last (fun x ↦ x.1 = t ∧ x.2.turn ≠ .stays) tr (t, .pthread mode) :=
  (Worker.holding.has_iff h start_unheld t mode).trans held_iff

theorem sharing (h : Run (Threads.Step Worker.Step) (start T) tr s) : Sharing tr s := by
  obtain ⟨F, ha⟩ := Worker.holding.agrees h start_unheld
  refine ⟨fun t u ht hu ↦ ?_, fun t ⟨hr, hw⟩ ↦ ?_, ?_, F, fun t ↦ ?_, ha.readers⟩
  · obtain ⟨mode, hmode⟩ : ∃ mode, (s.own u).has = some mode :=
      hu.elim (fun hr ↦ ⟨_, (has_iff h).mpr hr⟩) fun hw ↦ ⟨_, (has_iff h).mpr hw⟩
    exact ha.alone t u mode ((has_iff h).mpr ht) hmode
  · cases ((has_iff h).mpr hr).symm.trans ((has_iff h).mpr hw)
  · exact ha.writer.trans (exists_congr fun t ↦ has_iff h)
  · exact (ha.mem t).trans (has_iff h)

/-- A thread that waits for the lock goes on as soon as the lock allows it. -/
theorem enabled_iff (h : Run (Threads.Step Worker.Step) (start T) tr s) {t : T} {mode : Mode}
    (ht : (s.own t).code.head? = some (.m_mutex (.pthread mode))) :
    (∃ s', Threads.Step Worker.Step s (t, .pthread mode) s') ↔
      s.shared.m_lock.acquire mode ≠ none := by
  have hvalid := Worker.holding.own_invariant h (fun t ↦ (start_unheld.own t).1) t
  rw [← hvalid.enabled_iff ht]
  constructor
  · rintro ⟨_, ⟨hs⟩⟩
    exact ⟨_, _, hs⟩
  · rintro ⟨l', w', hs⟩
    exact ⟨_, .mk hs⟩

/-- **Readers together, writers alone.**  A thread that writes is the only one that has
the lock; the lock counts the threads that read; a thread that waits to read goes on
exactly while none writes, and one that waits to write exactly while none has the lock;
the lock is given back by threads that have it; and without guards it is free. -/
theorem readers_or_writer (h : Run (Threads.Step Worker.Step) (start T) tr s) :
    Sharing tr s ∧
    (∀ t, (s.own t).code.head? = some (.m_mutex (.pthread .shared)) →
      ((∃ s', Threads.Step Worker.Step s (t, .pthread .shared) s') ↔ ∀ u, ¬ Writes tr u)) ∧
    (∀ t, (s.own t).code.head? = some (.m_mutex (.pthread .exclusive)) →
      ((∃ s', Threads.Step Worker.Step s (t, .pthread .exclusive) s') ↔
        ∀ u, ¬ Reads tr u ∧ ¬ Writes tr u)) ∧
    (∀ pre t post, tr = pre ++ (t, .pthread_unlock) :: post → Reads pre t ∨ Writes pre t) ∧
    ((∀ t, (s.own t).guard = none) → s.shared = construct) := by
  obtain ⟨F, ha⟩ := Worker.holding.agrees h start_unheld
  refine ⟨sharing h, fun t ht ↦ ?_, fun t ht ↦ ?_, fun pre t post htr ↦ ?_, fun hgone ↦ ?_⟩
  · rw [enabled_iff h ht, ha.acquire_shared_iff]
    exact forall_congr' fun u ↦ not_congr (has_iff h)
  · rw [enabled_iff h ht, ha.acquire_exclusive_iff]
    refine forall_congr' fun u ↦ ?_
    rw [Reads, Writes, ← has_iff h, ← has_iff h]
    cases (s.own u).has with
    | none => exact iff_of_true rfl ⟨nofun, nofun⟩
    | some mode =>
        refine iff_of_false nofun fun ⟨hr, hw⟩ ↦ ?_
        cases mode with
        | shared => exact hr rfl
        | exclusive => exact hw rfl
  · subst htr
    obtain ⟨mode, hheld⟩ := Worker.holding.given_inside h start_unheld rfl
    cases mode with
    | shared => exact .inl (held_iff.mp hheld)
    | exclusive => exact .inr (held_iff.mp hheld)
  · have hnone : ∀ t, (s.own t).has = none := fun t ↦ by rw [Worker.has, hgone t]
    obtain ⟨hwriter, hreaders⟩ :=
      Rwlock.exclusive_available.mp (ha.acquire_exclusive_iff.mpr hnone)
    rw [Bool.not_eq_true] at hwriter
    show s.shared = ⟨⟨0, false⟩⟩
    rw [← hreaders, ← hwriter]

/-- Two threads read together while a third waits to write. -/
def turns : List (Fin 3 × Event) :=
  [(0, .construct .shared true), (0, .pthread .shared), (1, .construct .shared false),
    (2, .construct .exclusive true), (1, .pthread .shared), (0, .m_locked true),
    (1, .m_locked true), (0, .destruct), (0, .pthread_unlock), (1, .unlock),
    (1, .pthread_unlock), (2, .pthread .exclusive), (0, .m_locked false), (0, .gone),
    (2, .m_locked true), (2, .destruct), (2, .pthread_unlock), (1, .m_locked false),
    (2, .m_locked false), (2, .gone), (1, .destruct), (1, .gone)]

theorem turns_run : ∃ s, Run (Threads.Step Worker.Step) (start (Fin 3)) turns s ∧
    ∀ t, (s.own t).guard = none := by
  refine ⟨_, .cons (.mk rfl) (.cons (.mk rfl) (.cons (.mk rfl) (.cons (.mk rfl) (.cons (.mk rfl)
    (.cons (.mk rfl) (.cons (.mk rfl) (.cons (.mk rfl) (.cons (.mk rfl) (.cons (.mk rfl)
    (.cons (.mk rfl) (.cons (.mk rfl) (.cons (.mk rfl) (.cons (.mk rfl) (.cons (.mk rfl)
    (.cons (.mk rfl) (.cons (.mk rfl) (.cons (.mk rfl) (.cons (.mk rfl) (.cons (.mk rfl)
    (.cons (.mk rfl) (.cons (.mk rfl) (.nil _)))))))))))))))))))))), ?_⟩
  intro t
  match t with
  | 0 => rfl
  | 1 => rfl
  | 2 => rfl

theorem readers_or_writer_turns : ∃ s, Run (Threads.Step Worker.Step) (start (Fin 3)) turns s ∧
    (Reads (turns.take 8) 0 ∨ Writes (turns.take 8) 0) ∧
      (Reads (turns.take 16) 2 ∨ Writes (turns.take 16) 2) ∧ s.shared = construct := by
  obtain ⟨s, hr, hgone⟩ := turns_run
  obtain ⟨_, _, _, hgives, hfree⟩ := readers_or_writer hr
  exact ⟨s, hr, hgives _ 0 (turns.drop 9) rfl, hgives _ 2 (turns.drop 17) rfl, hfree hgone⟩

end RWMutex

end Sylar
