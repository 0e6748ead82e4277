import Sylar.Foundation.Interleave
import Sylar.Foundation.Locks
import Mathlib.Data.Finset.Card

/-!
# Readers and writers

A readers–writer lock counts the threads that share it and knows whether a thread has it
alone.  It does not know which threads these are: who gives it back is left to the
threads.  `Holding` says that their steps take the lock where it can be had and give it
back where they have it.  Then in every run

* `Holding.agrees`: the count is the number of threads that share the lock, and a thread
  that has it alone is the only one;
* `Holding.has_iff`: a thread has the lock from the step that takes it to the one that
  gives it back;
* `Holding.given_inside`: a thread that gives the lock back has it.
-/

universe u v w

namespace Foundation

/-- A readers–writer lock. -/
structure Rwlock where
  readers : Nat
  writer : Bool
deriving DecidableEq, Repr

namespace Rwlock

/-- Nobody has it. -/
def free : Rwlock := ⟨0, false⟩

/-- The lock is taken, if it can be had. -/
def acquire : Mode → Rwlock → Option Rwlock
  | .shared, l => if l.writer then none else some { l with readers := l.readers + 1 }
  | .exclusive, l => if l.writer ∨ 0 < l.readers then none else some { l with writer := true }

/-- The lock is given back by a thread that has it. -/
def release (l : Rwlock) : Rwlock :=
  if l.writer then { l with writer := false } else { l with readers := l.readers - 1 }

theorem acquire_shared {l l' : Rwlock} :
    l.acquire .shared = some l' ↔ l.writer = false ∧ l' = { l with readers := l.readers + 1 } := by
  rw [acquire, Option.ite_none_left_eq_some, Bool.not_eq_true, Option.some_inj,
    eq_comm (a := l')]

theorem acquire_exclusive {l l' : Rwlock} : l.acquire .exclusive = some l' ↔
    l.writer = false ∧ l.readers = 0 ∧ l' = { l with writer := true } := by
  rw [acquire, Option.ite_none_left_eq_some, not_or, Bool.not_eq_true, Nat.pos_iff_ne_zero,
    not_not, and_assoc, Option.some_inj, eq_comm (a := l')]

theorem shared_available {l : Rwlock} : l.acquire .shared ≠ none ↔ ¬ l.writer = true := by
  simp only [acquire, ne_eq, ite_eq_left_iff, reduceCtorEq, imp_false, not_not]

theorem exclusive_available {l : Rwlock} :
    l.acquire .exclusive ≠ none ↔ ¬ l.writer = true ∧ l.readers = 0 := by
  simp only [acquire, ne_eq, ite_eq_left_iff, reduceCtorEq, imp_false, not_not, not_or,
    Nat.pos_iff_ne_zero]

end Rwlock

/-- What a step has to do with the lock. -/
inductive Turn
  | takes (mode : Mode)
  | gives
  | stays
deriving DecidableEq

namespace Threads

variable {T : Type u} {σ : Type v} {Λ : Type w} {ℓ : Type*}

/-- What the steps of a thread, in a state with the property `I`, do with a lock.  How
a thread has it is told by `has`. -/
structure Holding (step : σ → Λ → ℓ → σ → Λ → Prop) (I : Λ → Prop) (has : Λ → Option Mode)
    (lock : σ → Rwlock) (turn : ℓ → Turn) : Prop where
  keeps : ∀ {m w e m' w'}, I w → step m w e m' w' → I w'
  takes : ∀ {m w e m' w' mode}, I w → step m w e m' w' → turn e = .takes mode →
    (lock m).acquire mode = some (lock m') ∧ has w = none ∧ has w' = some mode
  gives : ∀ {m w e m' w'}, I w → step m w e m' w' → turn e = .gives →
    (∃ mode, has w = some mode) ∧ lock m' = (lock m).release ∧ has w' = none
  stays : ∀ {m w e m' w'}, I w → step m w e m' w' → turn e = .stays →
    lock m' = lock m ∧ has w' = has w

/-- The lock is right about the threads, of which those in `F` share it. -/
structure Agrees (has : Λ → Option Mode) (lock : σ → Rwlock) (s : Threads T σ Λ)
    (F : Finset T) : Prop where
  mem : ∀ t, t ∈ F ↔ has (s.own t) = some .shared
  readers : (lock s.shared).readers = F.card
  writer : (lock s.shared).writer = true ↔ ∃ t, has (s.own t) = some .exclusive
  alone : ∀ t u mode, has (s.own t) = some .exclusive → has (s.own u) = some mode → t = u

/-- Of the steps of `t` that take or give back the lock, the latest takes it. -/
def Held (turn : ℓ → Turn) (tr : List (T × ℓ)) (t : T) (mode : Mode) : Prop :=
  ∃ e, turn e = .takes mode ∧ Last (fun x ↦ x.1 = t ∧ turn x.2 ≠ .stays) tr (t, e)

namespace Held

variable {turn : ℓ → Turn} {tr : List (T × ℓ)} {t : T} {mode : Mode}

/-- A step of another thread, or one that leaves the lock alone, tells nothing. -/
theorem snoc_iff {x : T × ℓ} (hx : ¬ (x.1 = t ∧ turn x.2 ≠ .stays)) :
    Held turn (tr ++ [x]) t mode ↔ Held turn tr t mode :=
  exists_congr fun _ ↦ and_congr_right fun _ ↦ Last.snoc_iff hx

/-- A step that takes the lock or gives it back tells all. -/
theorem turn_iff {e : ℓ} (he : turn e ≠ .stays) :
    Held turn (tr ++ [(t, e)]) t mode ↔ turn e = .takes mode := by
  constructor
  · rintro ⟨e', htakes, hlast⟩
    rcases hlast.snoc_cases with ⟨_, heq⟩ | ⟨hno, _⟩
    · cases heq
      exact htakes
    · exact absurd ⟨rfl, he⟩ hno
  · intro htakes
    exact ⟨e, htakes, .here ⟨rfl, he⟩⟩

end Held

/-- Nobody has the lock. -/
structure Unheld (I : Λ → Prop) (has : Λ → Option Mode) (lock : σ → Rwlock)
    (s : Threads T σ Λ) : Prop where
  own : ∀ t, I (s.own t) ∧ has (s.own t) = none
  lock : lock s.shared = .free

namespace Agrees

variable {has : Λ → Option Mode} {lock : σ → Rwlock} {s : Threads T σ Λ} {F : Finset T}
/-- Whether the lock can be had. -/
theorem acquire_shared_iff (h : s.Agrees has lock F) :
    (lock s.shared).acquire .shared ≠ none ↔ ∀ t, has (s.own t) ≠ some .exclusive := by
  rw [Rwlock.shared_available, h.writer, not_exists]

theorem acquire_exclusive_iff (h : s.Agrees has lock F) :
    (lock s.shared).acquire .exclusive ≠ none ↔ ∀ t, has (s.own t) = none := by
  rw [Rwlock.exclusive_available, h.writer, h.readers, Finset.card_eq_zero]
  constructor
  · rintro ⟨hw, rfl⟩ t
    cases ht : has (s.own t) with
    | none => rfl
    | some mode =>
        cases mode with
        | shared => exact absurd ((h.mem t).mpr ht) (Finset.notMem_empty t)
        | exclusive => exact absurd ⟨t, ht⟩ hw
  · intro hall
    refine ⟨fun ⟨t, ht⟩ ↦ ?_, Finset.eq_empty_of_forall_notMem fun t ht ↦ ?_⟩
    · rw [hall t] at ht
      cases ht
    · have := (h.mem t).mp ht
      rw [hall t] at this
      cases this

variable {m' : σ} {t : T} {w : Λ} [DecidableEq T]

/-- Whether a thread has the lock after one thread, maybe itself, has gone on. -/
theorem has_update (has : Λ → Option Mode) {own : T → Λ} {u : T} :
    has (Function.update own t w u) = if u = t then has w else has (own u) := by
  by_cases hu : u = t
  · subst hu
    rw [Function.update_self, if_pos rfl]
  · rw [Function.update_of_ne hu, if_neg hu]

/-- A thread shares the lock with the others. -/
theorem share (h : s.Agrees has lock F) (hw : has (s.own t) = none)
    (hfree : (lock s.shared).writer = false) (hw' : has w = some .shared)
    (hlock : lock m' = { lock s.shared with readers := (lock s.shared).readers + 1 }) :
    (⟨m', Function.update s.own t w⟩ : Threads T σ Λ).Agrees has lock (insert t F) := by
  have hnone : ∀ u, has (s.own u) ≠ some .exclusive := by
    intro u hu
    rw [h.writer.mpr ⟨u, hu⟩] at hfree
    cases hfree
  have hnone' : ∀ u, has (Function.update s.own t w u) ≠ some .exclusive := by
    intro u
    rw [has_update has]
    split
    · rw [hw']
      nofun
    · exact hnone u
  have ht : t ∉ F := by
    rw [h.mem, hw]
    nofun
  refine ⟨fun u ↦ ?_, ?_, ?_, fun u _ _ hu ↦ absurd hu (hnone' u)⟩
  · rw [Finset.mem_insert, has_update has]
    by_cases hu : u = t
    · simp [hu, hw']
    · simp [hu, h.mem]
  · rw [hlock, Finset.card_insert_of_notMem ht, h.readers]
  · rw [hlock]
    exact iff_of_false (by simp [hfree]) fun ⟨u, hu⟩ ↦ hnone' u hu

/-- A thread has the lock alone. -/
theorem exclude (h : s.Agrees has lock F) (hfree : (lock s.shared).writer = false)
    (hzero : (lock s.shared).readers = 0) (hw' : has w = some .exclusive)
    (hlock : lock m' = { lock s.shared with writer := true }) :
    (⟨m', Function.update s.own t w⟩ : Threads T σ Λ).Agrees has lock ∅ := by
  have hnone : ∀ u, has (s.own u) = none := by
    intro u
    cases hu : has (s.own u) with
    | none => rfl
    | some mode =>
        cases mode with
        | shared =>
            have hF : F = ∅ := Finset.card_eq_zero.mp (h.readers.symm.trans hzero)
            exact absurd ((h.mem u).mpr hu) (hF ▸ Finset.notMem_empty u)
        | exclusive =>
            rw [h.writer.mpr ⟨u, hu⟩] at hfree
            cases hfree
  have honly : ∀ u mode, has (Function.update s.own t w u) = some mode →
      u = t ∧ mode = .exclusive := by
    intro u mode hu
    rw [has_update has] at hu
    split at hu
    · exact ⟨‹_›, Option.some.inj (hu.symm.trans hw')⟩
    · rw [hnone u] at hu
      cases hu
  refine ⟨fun u ↦ ?_, ?_, ?_, fun u v mode hu hv ↦ (honly u _ hu).1.trans (honly v _ hv).1.symm⟩
  · refine iff_of_false (Finset.notMem_empty u) fun hu ↦ ?_
    cases (honly u _ hu).2
  · rw [hlock, Finset.card_empty]
    exact hzero
  · rw [hlock]
    exact iff_of_true rfl ⟨t, by rw [has_update has, if_pos rfl, hw']⟩

/-- A thread gives the lock back. -/
theorem give (h : s.Agrees has lock F) (hw : ∃ mode, has (s.own t) = some mode)
    (hw' : has w = none) (hlock : lock m' = (lock s.shared).release) :
    (⟨m', Function.update s.own t w⟩ : Threads T σ Λ).Agrees has lock (F.erase t) := by
  have hother : ∀ u mode, has (Function.update s.own t w u) = some mode ↔
      u ≠ t ∧ has (s.own u) = some mode := by
    intro u mode
    rw [has_update has]
    by_cases hu : u = t
    · simp [hu, hw']
    · simp [hu]
  have hmem : ∀ u, u ∈ F.erase t ↔ has (Function.update s.own t w u) = some .shared := by
    intro u
    rw [Finset.mem_erase, hother, h.mem]
  have halone : ∀ u v mode, has (Function.update s.own t w u) = some .exclusive →
      has (Function.update s.own t w v) = some mode → u = v :=
    fun u v mode hu hv ↦ h.alone u v mode ((hother u _).mp hu).2 ((hother v _).mp hv).2
  obtain ⟨mode, hmode⟩ := hw
  cases mode with
  | shared =>
      have hfree : (lock s.shared).writer = false := by
        rw [← Bool.not_eq_true, h.writer]
        rintro ⟨u, hu⟩
        obtain rfl := h.alone u t _ hu hmode
        rw [hu] at hmode
        cases hmode
      rw [Rwlock.release, hfree] at hlock
      refine ⟨hmem, ?_, ?_, halone⟩
      · rw [hlock, Finset.card_erase_of_mem ((h.mem t).mpr hmode), ← h.readers]
        rfl
      · rw [hlock]
        refine iff_of_false (by simp) ?_
        rintro ⟨u, hu⟩
        rw [h.writer.mpr ⟨u, ((hother u _).mp hu).2⟩] at hfree
        cases hfree
  | exclusive =>
      have htaken : (lock s.shared).writer = true := h.writer.mpr ⟨t, hmode⟩
      have ht : t ∉ F := by
        rw [h.mem, hmode]
        nofun
      rw [Rwlock.release, htaken] at hlock
      refine ⟨hmem, ?_, ?_, halone⟩
      · rw [hlock, Finset.erase_eq_of_notMem ht, ← h.readers]
        rfl
      · rw [hlock]
        refine iff_of_false (by simp) ?_
        rintro ⟨u, hu⟩
        obtain ⟨hne, hu⟩ := (hother u _).mp hu
        exact hne (h.alone u t _ hu hmode)

/-- A step that leaves the lock alone. -/
theorem stay (h : s.Agrees has lock F) (hw : has w = has (s.own t))
    (hlock : lock m' = lock s.shared) :
    (⟨m', Function.update s.own t w⟩ : Threads T σ Λ).Agrees has lock F := by
  have hsame : ∀ u, has (Function.update s.own t w u) = has (s.own u) := by
    intro u
    rw [has_update has]
    split
    · rw [hw, ‹u = t›]
    · rfl
  refine ⟨fun u ↦ ?_, ?_, ?_, fun u v mode hu hv ↦ ?_⟩
  · rw [hsame]
    exact h.mem u
  · rw [hlock]
    exact h.readers
  · rw [hlock]
    exact h.writer.trans (exists_congr fun u ↦ by rw [hsame])
  · rw [hsame] at hu hv
    exact h.alone u v mode hu hv

end Agrees

namespace Holding

variable {step : σ → Λ → ℓ → σ → Λ → Prop} {I : Λ → Prop} {has : Λ → Option Mode}
variable {lock : σ → Rwlock} {turn : ℓ → Turn} {s s' : Threads T σ Λ} {tr : List (T × ℓ)}
variable {t : T} {mode : Mode} [DecidableEq T]

/-- The property of the single states is an invariant. -/
theorem own_invariant (h : Holding step I has lock turn) (hr : Run (Step step) s tr s')
    (hs : ∀ t, I (s.own t)) : ∀ t, I (s'.own t) := by
  refine hr.invariant (I := fun s ↦ ∀ t, I (s.own t)) ?_ hs
  rintro s _ _ hs ⟨hstep⟩ u
  rename_i t e m w
  by_cases hu : u = t
  · subst hu
    simpa using h.keeps (hs u) hstep
  · simpa [hu] using hs u

/-- **Step lemma.** -/
theorem agrees_step (h : Holding step I has lock turn) (hs : ∀ t, I (s.own t))
    (ha : ∃ F, s.Agrees has lock F) {x : T × ℓ} (hx : Step step s x s') :
    ∃ F, s'.Agrees has lock F := by
  obtain ⟨hstep⟩ := hx
  rename_i t e m w
  obtain ⟨F, ha⟩ := ha
  cases he : turn e with
  | takes mode =>
      obtain ⟨hlock, hw, hw'⟩ := h.takes (hs t) hstep he
      cases mode with
      | shared =>
          obtain ⟨hfree, hlock⟩ := Rwlock.acquire_shared.mp hlock
          exact ⟨_, ha.share hw hfree hw' hlock⟩
      | exclusive =>
          obtain ⟨hfree, hzero, hlock⟩ := Rwlock.acquire_exclusive.mp hlock
          exact ⟨_, ha.exclude hfree hzero hw' hlock⟩
  | gives =>
      obtain ⟨hw, hlock, hw'⟩ := h.gives (hs t) hstep he
      exact ⟨_, ha.give hw hw' hlock⟩
  | stays =>
      obtain ⟨hlock, hw⟩ := h.stays (hs t) hstep he
      exact ⟨F, ha.stay hw hlock⟩

/-- **Run lemma.** -/
theorem agrees (h : Holding step I has lock turn) (hr : Run (Step step) s tr s')
    (hs : s.Unheld I has lock) : ∃ F, s'.Agrees has lock F := by
  have hinit : s.Agrees has lock ∅ := by
    have hnone : ∀ t mode, has (s.own t) ≠ some mode := by
      intro t mode ht
      rw [(hs.own t).2] at ht
      cases ht
    refine ⟨fun t ↦ iff_of_false (Finset.notMem_empty t) (hnone t _), ?_, ?_,
      fun t _ _ ht ↦ absurd ht (hnone t _)⟩
    · rw [hs.lock]
      rfl
    · rw [hs.lock]
      exact iff_of_false nofun fun ⟨t, ht⟩ ↦ hnone t _ ht
  refine hr.invariant_given (J := fun s ↦ ∀ t, I (s.own t))
    (I := fun s ↦ ∃ F, s.Agrees has lock F) ?_ ?_ (fun t ↦ (hs.own t).1) ⟨∅, hinit⟩
  · intro s x s' hs hx
    exact h.own_invariant (.cons hx (.nil _)) hs
  · intro s x s' hs ha hx
    exact h.agrees_step hs ha hx

/-- What the trace says about who has the lock. -/
theorem has_iff (h : Holding step I has lock turn) (hr : Run (Step step) s tr s')
    (hs : s.Unheld I has lock) (t : T) (mode : Mode) :
    has (s'.own t) = some mode ↔ Held turn tr t mode := by
  refine Run.history
    (P := fun tr s' ↦ ∀ t mode, has (s'.own t) = some mode ↔ Held turn tr t mode) ?_ ?_ hr t mode
  · intro t mode
    rw [(hs.own t).2]
    refine iff_of_false nofun ?_
    rintro ⟨e, _, hlast⟩
    exact absurd hlast Last.not_nil
  · rintro tr s₁ _ _ hr₁ ih ⟨hstep⟩ u mode
    rename_i t e m w
    have hI := h.own_invariant hr₁ (fun t ↦ (hs.own t).1) t
    show has (Function.update s₁.own t w u) = some mode ↔ Held turn (tr ++ [(t, e)]) u mode
    rw [Agrees.has_update has]
    by_cases hu : u = t
    · subst hu
      rw [if_pos rfl]
      cases he : turn e with
      | takes mode' =>
          rw [Held.turn_iff (by simp [he]), he, (h.takes hI hstep he).2.2, Option.some_inj,
            Turn.takes.injEq]
      | gives =>
          rw [Held.turn_iff (by simp [he]), he, (h.gives hI hstep he).2.2]
          exact iff_of_false nofun nofun
      | stays =>
          rw [Held.snoc_iff fun hx ↦ hx.2 he, (h.stays hI hstep he).2]
          exact ih u mode
    · rw [if_neg hu, Held.snoc_iff fun hx ↦ hu hx.1.symm]
      exact ih u mode

/-- Only a thread that has the lock gives it back. -/
theorem given_inside (h : Holding step I has lock turn) {e : ℓ} {pre post : List (T × ℓ)}
    (hr : Run (Step step) s (pre ++ (t, e) :: post) s') (hs : s.Unheld I has lock)
    (he : turn e = .gives) : ∃ mode, Held turn pre t mode := by
  obtain ⟨s₁, s₂, hpre, ⟨hstep⟩, _⟩ := hr.split_cons
  have hI := h.own_invariant hpre (fun t ↦ (hs.own t).1) t
  obtain ⟨mode, hmode⟩ := (h.gives hI hstep he).1
  exact ⟨mode, (h.has_iff hpre hs t mode).mp hmode⟩

end Holding

end Threads

end Foundation
