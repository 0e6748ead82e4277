import Sylar.Thread.Startup

/-!
# What `t_thread` points to

`Thread::run` stores the address of its object in the thread-local `t_thread`, and
never takes it out again.  The object is destroyed by whoever owns it.  `join` waits
for the thread before that; without it, `~Thread` detaches the thread, which runs on.

The address stays good if and only if no object is destroyed under a thread that has
stored it, and no thread stores that of a destroyed object.
-/

namespace Sylar.Thread

open Foundation

variable {ι F : Type}

/-- An object from its construction on, with the thread started on it. -/
structure Life (ι F : Type) where
  startup : Startup F
  /-- `m_thread` is not 0. -/
  m_thread : Bool := false
  /-- `~Thread` has been called. -/
  destroyed : Bool := false
  /-- The `t_thread` of the thread started on the object. -/
  t_thread : Option ι := none

namespace Life

/-- What happens to an object and its thread. -/
inductive Act (F : Type)
  /-- What belongs to the start of the thread, and the thread's further statements. -/
  | startup (a : Thread.Act F)
  /-- `t_thread = thread`, the first statement of `run`. -/
  | enter
  /-- `join` returns, or throws. -/
  | join (success : Bool)
  /-- `~Thread`. -/
  | destroy

/-- The thread started on the object has not come to the end of `run`. -/
def Running (x : Life ι F) : Prop := ∃ t, x.startup.run = some t ∧ t.next ≠ .done

/-- The members are destroyed, by the destructor or because the constructor has
thrown. -/
def Destroyed (x : Life ι F) : Prop := x.destroyed = true ∨ x.startup.constructor = .threw

/-- The object once its start has gone on to `y`.  `pthread_create` sets `m_thread`. -/
def goto (s : Option (Life ι F)) (a : Thread.Act F) (y : Startup F) : Life ι F :=
  match s, a with
  | none, _ => { startup := y }
  | some x, .pthread_create (some _) => { x with startup := y, m_thread := true }
  | some x, _ => { x with startup := y }

/-- The steps of the object `o` and of its thread. -/
inductive Step (calls : F → Set Use) (o : ι) : Option (Life ι F) → Act F → Life ι F → Prop
  /-- Its thread goes on after `t_thread = thread`. -/
  | startup {s : Option (Life ι F)} {a : Thread.Act F} {y : Startup F} :
      Startup.Step calls (s.map startup) a y → (∀ x, s = some x → a = .run → x.t_thread ≠ none) →
      Step calls o s (.startup a) (goto s a y)
  | enter {x : Life ι F} {t : NewThread F} : x.startup.run = some t → t.next = .readName →
      x.t_thread = none → Step calls o (some x) .enter { x with t_thread := some o }
  /-- `pthread_join` returns when the thread has ended. -/
  | join {x : Life ι F} {t : NewThread F} : ¬ x.Destroyed → x.m_thread = true →
      x.startup.run = some t → t.next = .done →
      Step calls o (some x) (.join true) { x with m_thread := false }
  /-- An error of `pthread_join` is thrown. -/
  | join_error {x : Life ι F} : ¬ x.Destroyed → x.m_thread = true →
      Step calls o (some x) (.join false) x
  | join_again {x : Life ι F} : ¬ x.Destroyed → x.m_thread = false →
      Step calls o (some x) (.join true) x
  /-- A thread that has not been joined is detached, and runs on. -/
  | destroy {x : Life ι F} : ¬ x.Destroyed → x.startup.constructor = .returned →
      Step calls o (some x) .destroy { x with destroyed := true }

end Life

/-- The steps of any number of objects. -/
inductive LifeStep [DecidableEq ι] (calls : F → Set Use) :
    (ι → Option (Life ι F)) → ι × Life.Act F → (ι → Option (Life ι F)) → Prop
  | mk {s : ι → Option (Life ι F)} {o : ι} {a : Life.Act F} {x : Life ι F} :
      Life.Step calls o (s o) a x → LifeStep calls s (o, a) (Function.update s o (some x))

/-- A thread of the process. -/
inductive Caller (ι : Type)
  /-- The main thread, or another that no `Thread` object has started. -/
  | other
  /-- The thread started on an object. -/
  | startedOn (o : ι)

/-- The thread runs. -/
def Caller.Running (s : ι → Option (Life ι F)) : Caller ι → Prop
  | other => True
  | startedOn o => ∃ x, s o = some x ∧ x.Running

/-- `Thread::GetThis`, which returns the `t_thread` of the calling thread. -/
def GetThis (s : ι → Option (Life ι F)) : Caller ι → Option ι
  | .other => none
  | .startedOn o => (s o).bind Life.t_thread

/-- In each running thread, `t_thread` is null or points to an object that is not
destroyed. -/
def Designates (s : ι → Option (Life ι F)) : Prop :=
  ∀ c : Caller ι, c.Running s → ∀ p, GetThis s c = some p → ∃ y, s p = some y ∧ ¬ y.Destroyed

/-- The object is not destroyed while a thread that has stored its address runs, and
no thread stores the address when it is. -/
def Life.Outlives (s : Option (Life ι F)) : Life.Act F → Prop
  | .destroy | .startup (.sem_wait false) => ∀ x, s = some x → x.Running → x.t_thread = none
  | .enter => ∀ x, s = some x → ¬ x.Destroyed
  | _ => True

/-- The object that a step is about outlives its thread. -/
def Outlives (s : ι → Option (Life ι F)) (l : ι × Life.Act F) : Prop := Life.Outlives (s l.1) l.2

/-! ## One object -/

namespace Life

variable {calls : F → Set Use} {o : ι} {x x' : Life ι F} {s : Option (Life ι F)}
variable {a : Thread.Act F} {l : Act F} {y : Startup F}

@[simp] theorem goto_startup : (goto s a y).startup = y := by
  unfold goto
  split <;> rfl

@[simp] theorem goto_some_destroyed : (goto (some x) a y).destroyed = x.destroyed := by
  unfold goto
  split <;> simp_all

@[simp] theorem goto_some_t_thread : (goto (some x) a y).t_thread = x.t_thread := by
  unfold goto
  split <;> simp_all

/-- What holds of an object in all its steps. -/
structure Sound (o : ι) (x : Life ι F) : Prop where
  startup : x.startup.Sound
  own : ∀ p, x.t_thread = some p → p = o
  constructed : x.destroyed = true → x.startup.constructor = .returned

/-- The thread does not run with the address of a destroyed object. -/
def Safe (x : Life ι F) : Prop := x.Running → x.t_thread ≠ none → ¬ x.Destroyed

/-- An object that is constructed stays so, whatever its thread does. -/
theorem returned_of_step {y : Startup F} (hs : Startup.Step calls (some x.startup) a y)
    (hc : x.startup.constructor = .returned) : y.constructor = .returned := by
  cases hs with
  | create hc' => cases hc.symm.trans hc'
  | create_error hc' => cases hc.symm.trans hc'
  | wait hc' _ => rfl
  | wait_error hc' => cases hc.symm.trans hc'
  | run _ hex => exact (Startup.execute_keeps hex).1.trans hc
  | @use _ _ _ u _ _ _ _ => cases u <;> exact hc
  | callbackEnds _ _ => exact hc

/-- **Step lemma.** -/
theorem Sound.step (h : ∀ z, s = some z → z.Sound o) (hs : Step calls o s l x') : x'.Sound o := by
  cases hs with
  | @startup _ a y hstep _ =>
      have hy : y.Sound := Startup.Sound.step (fun z hz ↦ by
        obtain ⟨x, rfl, rfl⟩ := Option.map_eq_some_iff.mp hz
        exact (h x rfl).startup) hstep
      cases s with
      | none =>
          constructor
          · exact hy
          · intro p hp
            cases hp
          · intro hd
            cases hd
      | some x =>
          have hx := h x rfl
          constructor
          · rwa [goto_startup]
          · intro p hp
            rw [goto_some_t_thread] at hp
            exact hx.own p hp
          · intro hd
            rw [goto_some_destroyed] at hd
            rw [goto_startup]
            exact returned_of_step hstep (hx.constructed hd)
  | @enter x t _ _ _ =>
      have hx := h x rfl
      refine ⟨hx.startup, ?_, hx.constructed⟩
      intro p hp
      exact (Option.some.inj hp).symm
  | @join x _ _ _ _ _ => exact ⟨(h x rfl).startup, (h x rfl).own, (h x rfl).constructed⟩
  | @join_error x _ _ => exact h _ rfl
  | @join_again x _ _ => exact h _ rfl
  | @destroy x _ hc => exact ⟨(h x rfl).startup, (h x rfl).own, fun _ ↦ hc⟩

/-- A thread that runs after a step of its start did so before, unless it was the step
that created it. -/
theorem running_of_step (hs : Startup.Step calls (some x.startup) a y)
    (ha : ∀ tid, a ≠ .pthread_create (some tid)) (hrun : ∃ t, y.run = some t ∧ t.next ≠ .done) :
    x.Running := by
  cases hs with
  | create _ => exact absurd rfl (ha _)
  | create_error _ => exact hrun
  | wait _ _ => exact hrun
  | wait_error _ => exact hrun
  | run ht hex => exact ⟨_, ht, (Startup.execute_keeps hex).2⟩
  | use ht hn _ _ => exact ⟨_, ht, by rw [hn]; nofun⟩
  | callbackEnds ht hn => exact ⟨_, ht, by rw [hn]; nofun⟩

/-- And an object under a running thread was destroyed before, unless it was the step
that destroyed it. -/
theorem Sound.destroyed_of_step (h : x.Sound o) (hs : Startup.Step calls (some x.startup) a y)
    (ha : a ≠ .sem_wait false) (hrun : ∃ t, y.run = some t ∧ t.next ≠ .done)
    (hd : x.destroyed = true ∨ y.constructor = .threw) : x.Running ∧ x.Destroyed := by
  have hearly : x.startup.constructor ≠ .returned → x.destroyed ≠ true :=
    fun hc hd ↦ hc (h.constructed hd)
  cases hs with
  | create hc =>
      rcases hd with hd | hd
      · exact absurd hd (hearly (by rw [hc]; nofun))
      · cases hd
  | create_error hc =>
      obtain ⟨t, ht, -⟩ := hrun
      rw [show x.startup.run = none from h.startup.creating hc] at ht
      cases ht
  | wait hc _ =>
      rcases hd with hd | hd
      · exact absurd hd (hearly (by rw [hc]; nofun))
      · cases hd
  | wait_error _ => exact absurd rfl ha
  | run ht hex =>
      obtain ⟨hconstructor, hnext⟩ := Startup.execute_keeps hex
      rw [hconstructor] at hd
      exact ⟨⟨_, ht, hnext⟩, hd⟩
  | @use _ _ _ u ht hn _ _ =>
      refine ⟨⟨_, ht, by rw [hn]; nofun⟩, ?_⟩
      cases u <;> exact hd
  | callbackEnds ht hn => exact ⟨⟨_, ht, by rw [hn]; nofun⟩, hd⟩

/-- Only an interrupted waiting destroys the object at its start. -/
theorem outlives_startup (ha : a ≠ .sem_wait false) : Outlives s (.startup a) := by
  cases a with
  | sem_wait success =>
      cases success with
      | true => exact trivial
      | false => exact absurd rfl ha
  | _ => exact trivial

/-- **What a step may do.**  The address in `t_thread` stays good exactly when the
object outlives its thread. -/
theorem safe_iff_of_step (h : ∀ z, s = some z → z.Sound o) (hsafe : ∀ z, s = some z → z.Safe)
    (hs : Step calls o s l x') : x'.Safe ↔ Outlives s l := by
  cases hs with
  | @startup _ a y hstep _ =>
      by_cases ha : a = .sem_wait false
      · subst ha
        cases s with
        | none => cases hstep
        | some x =>
            cases hstep
            constructor
            · intro hx z hz hrun
              cases hz
              by_contra hnone
              exact hx hrun hnone (.inr rfl)
            · intro hout hrun hnone
              exact absurd (hout x rfl hrun) hnone
      · refine ⟨fun _ ↦ outlives_startup ha, fun _ hrun hnone hd ↦ ?_⟩
        cases s with
        | none => exact hnone rfl
        | some x =>
            rw [goto_some_t_thread] at hnone
            rw [Destroyed, goto_some_destroyed, goto_startup] at hd
            rw [Running, goto_startup] at hrun
            obtain ⟨hxrun, hxd⟩ := (h x rfl).destroyed_of_step hstep ha hrun hd
            exact hsafe x rfl hxrun hnone hxd
  | @enter x t ht hn _ =>
      constructor
      · intro hx z hz
        cases hz
        exact hx ⟨t, ht, by rw [hn]; nofun⟩ nofun
      · intro hout _ _
        exact hout x rfl
  | @join x t _ _ ht hn =>
      refine ⟨fun _ ↦ trivial, fun _ hrun ↦ ?_⟩
      obtain ⟨t', ht', hnext⟩ := hrun
      obtain rfl := Option.some.inj (ht.symm.trans ht')
      exact absurd hn hnext
  | @join_error x _ _ => exact ⟨fun _ ↦ trivial, fun _ ↦ hsafe _ rfl⟩
  | @join_again x _ _ => exact ⟨fun _ ↦ trivial, fun _ ↦ hsafe _ rfl⟩
  | @destroy x _ _ =>
      constructor
      · intro hx z hz hrun
        cases hz
        by_contra hnone
        exact hx hrun hnone (.inl rfl)
      · intro hout hrun hnone
        exact absurd (hout x rfl hrun) hnone

/-- The thread of an object that has been joined or destroyed has ended. -/
structure Joined (x : Life ι F) : Prop where
  joined : x.m_thread = false → ¬ x.Running
  destroyed : x.Destroyed → ¬ x.Running

theorem Joined.step (h : ∀ z, s = some z → z.Sound o) (hj : ∀ z, s = some z → z.Joined)
    (hs : Step calls o s l x')
    (hd : l = .destroy → ∀ z, s = some z → z.m_thread = false)
    (hw : l ≠ .startup (.sem_wait false)) : x'.Joined := by
  cases hs with
  | @startup _ a y hstep _ =>
      cases s with
      | none =>
          cases hstep
          constructor <;> (rintro - ⟨t, ht, -⟩; cases ht)
      | some x =>
          constructor
          · intro hjoined hrun
            rw [Running, goto_startup] at hrun
            have ha : ∀ tid, a ≠ .pthread_create (some tid) := by
              rintro tid rfl
              cases hjoined
            have hm : x.m_thread = false := by
              unfold goto at hjoined
              split at hjoined
              · cases ‹some x = none›
              · exact absurd rfl (ha _)
              · cases ‹some x = some _›
                exact hjoined
            exact (hj x rfl).joined hm (running_of_step hstep ha hrun)
          · intro hdestroyed hrun
            rw [Destroyed, goto_some_destroyed, goto_startup] at hdestroyed
            rw [Running, goto_startup] at hrun
            obtain ⟨hxrun, hxd⟩ := (h x rfl).destroyed_of_step hstep
              (fun ha ↦ hw (by rw [ha])) hrun hdestroyed
            exact (hj x rfl).destroyed hxd hxrun
  | @enter x _ _ _ _ => exact ⟨(hj x rfl).joined, (hj x rfl).destroyed⟩
  | @join x t hlive _ ht hn =>
      refine ⟨fun _ ↦ ?_, fun hdestroyed ↦ absurd hdestroyed hlive⟩
      rintro ⟨t', ht', hnext⟩
      obtain rfl := Option.some.inj (ht.symm.trans ht')
      exact hnext hn
  | @join_error x _ _ => exact hj _ rfl
  | @join_again x _ _ => exact hj _ rfl
  | @destroy x _ _ =>
      have hend : ¬ x.Running := (hj x rfl).joined (hd rfl x rfl)
      exact ⟨fun _ ↦ hend, fun _ ↦ hend⟩

theorem Joined.outlives (hj : ∀ z, s = some z → z.Joined) (hs : Step calls o s l x')
    (hd : l = .destroy → ∀ z, s = some z → z.m_thread = false)
    (hw : l ≠ .startup (.sem_wait false)) : Outlives s l := by
  cases hs with
  | startup _ _ => exact outlives_startup fun ha ↦ hw (by rw [ha])
  | @enter x t ht hn _ =>
      intro z hz hdestroyed
      cases hz
      exact (hj x rfl).destroyed hdestroyed ⟨t, ht, by rw [hn]; nofun⟩
  | destroy _ _ => exact fun z hz hrun ↦ absurd hrun ((hj z hz).joined (hd rfl z hz))
  | _ => exact trivial

end Life

/-! ## Any number of objects -/

variable {calls : F → Set Use} {s s' : ι → Option (Life ι F)}
variable {l : ι × Life.Act F} {tr : List (ι × Life.Act F)}

/-- Each object is sound. -/
def AllOwn (s : ι → Option (Life ι F)) : Prop := ∀ o x, s o = some x → x.Sound o

/-- No thread runs with the address of a destroyed object. -/
def AllSafe (s : ι → Option (Life ι F)) : Prop := ∀ o x, s o = some x → x.Safe

theorem AllOwn.safe_iff (h : AllOwn s) : AllSafe s ↔ Designates s := by
  constructor
  · intro hsafe c hc p hp
    cases c with
    | other => cases hp
    | startedOn o =>
        obtain ⟨x, hx, hrun⟩ := hc
        have ht : x.t_thread = some p := by simpa [GetThis, hx] using hp
        obtain rfl := (h o x hx).own p ht
        exact ⟨x, hx, hsafe p x hx hrun (by rw [ht]; nofun)⟩
  · intro hdes o x hx hrun hnone hd
    obtain ⟨p, ht⟩ := Option.ne_none_iff_exists'.mp hnone
    obtain rfl := (h o x hx).own p ht
    obtain ⟨y, hy, hlive⟩ := hdes (.startedOn p) ⟨x, hx, hrun⟩ p (by simp [GetThis, hx, ht])
    obtain rfl := Option.some.inj (hx.symm.trans hy)
    exact hlive hd

theorem allOwn_start : AllOwn (fun _ : ι ↦ (none : Option (Life ι F))) := by
  intro o x hx
  cases hx

theorem allSafe_start : AllSafe (fun _ : ι ↦ (none : Option (Life ι F))) := by
  intro o x hx
  cases hx

variable [DecidableEq ι]

theorem AllOwn.step (h : AllOwn s) (hs : LifeStep calls s l s') : AllOwn s' := by
  obtain ⟨hstep⟩ := hs
  intro o' y hy
  rcases update_cases hy with ⟨rfl, rfl⟩ | ⟨-, hy⟩
  · exact Life.Sound.step (h o') hstep
  · exact h o' y hy

theorem AllOwn.step_safe_iff (h : AllOwn s) (hsafe : AllSafe s) (hs : LifeStep calls s l s') :
    AllSafe s' ↔ Outlives s l := by
  obtain ⟨hstep⟩ := hs
  rename_i o a x
  have hiff := Life.safe_iff_of_step (h o) (hsafe o) hstep
  constructor
  · intro hsafe'
    exact hiff.mp (hsafe' o x (Function.update_self ..))
  · intro hout o' y hy
    rcases update_cases hy with ⟨rfl, rfl⟩ | ⟨-, hy⟩
    · exact hiff.mpr hout
    · exact hsafe o' y hy

theorem designates_of_outlives
    (h : Run (Guarded Outlives (LifeStep calls)) (fun _ ↦ none) tr s) :
    Run (Ending Designates (LifeStep calls)) (fun _ ↦ none) tr s := by
  have hkept : ∀ s l s', AllOwn s ∧ AllSafe s →
      Guarded Outlives (LifeStep (ι := ι) calls) s l s' → AllOwn s' ∧ AllSafe s' :=
    fun _ _ _ hj hs ↦ ⟨hj.1.step hs.2, (hj.1.step_safe_iff hj.2 hs.2).mpr hs.1⟩
  refine h.mono_given hkept (fun s l s' hj hs ↦ ⟨hs.2, ?_⟩) ⟨allOwn_start, allSafe_start⟩
  obtain ⟨hown, hsafe⟩ := hkept s l s' hj hs
  exact hown.safe_iff.mp hsafe

/-- **What `t_thread` points to.**  For any number of objects, constructed, joined and
destroyed in any order while their threads run: `t_thread` is null or points to an
object that is not destroyed, in every running thread and in all states of a run, if
and only if objects outlive the threads that have stored their addresses. -/
theorem designates_iff :
    Run (Ending Designates (LifeStep calls)) (fun _ ↦ none) tr s ↔
      Run (Guarded Outlives (LifeStep calls)) (fun _ ↦ none) tr s := by
  constructor
  · intro h
    have hkept : ∀ s l s', AllOwn s ∧ AllSafe s →
        Ending Designates (LifeStep (ι := ι) calls) s l s' → AllOwn s' ∧ AllSafe s' :=
      fun _ _ _ hj hs ↦ ⟨hj.1.step hs.1, (hj.1.step hs.1).safe_iff.mpr hs.2⟩
    refine h.mono_given hkept (fun s l s' hj hs ↦ ⟨?_, hs.1⟩) ⟨allOwn_start, allSafe_start⟩
    exact (hj.1.step_safe_iff hj.2 hs.1).mp (hkept s l s' hj hs).2
  · exact designates_of_outlives

/-- The object of a worker whose thread has stored the address. -/
def worker (c : Constructor) (m_id : Int) (m_cb : Option Unit) (m_semaphore : Nat)
    (t : NewThread Unit) : Life Unit Unit where
  startup :=
    { cb := some (), object := { m_id, m_cb, m_name := "worker", m_semaphore }
      constructor := c, run := some t }
  m_thread := true
  t_thread := some ()

theorem alone {calls : Unit → Set Use} {x y : Life Unit Unit} {a : Life.Act Unit}
    {tr : List (Unit × Life.Act Unit)} {s : Unit → Option (Life Unit Unit)}
    (hs : Life.Step calls () (some x) a y) (h : Run (LifeStep calls) (fun _ ↦ some y) tr s) :
    Run (LifeStep calls) (fun _ ↦ some x) (((), a) :: tr) s := by
  have hupdate : Function.update (fun _ : Unit ↦ some x) () (some y) = fun _ ↦ some y := by
    funext o
    exact Function.update_self ..
  refine .cons (.mk (s := fun _ ↦ some x) hs) ?_
  rwa [hupdate]

/-- The thread executes a statement of `run`. -/
theorem alone_run {calls : Unit → Set Use} {c : Constructor} {m_id m_id' : Int}
    {m_cb m_cb' : Option Unit} {n n' : Nat} {t u : NewThread Unit}
    (h : (worker c m_id m_cb n t).startup.execute t = some (worker c m_id' m_cb' n' u).startup)
    {tr : List (Unit × Life.Act Unit)} {s : Unit → Option (Life Unit Unit)}
    (hr : Run (LifeStep calls) (fun _ ↦ some (worker c m_id' m_cb' n' u)) tr s) :
    Run (LifeStep calls) (fun _ ↦ some (worker c m_id m_cb n t)) (((), .startup .run) :: tr) s := by
  refine alone (.startup (.run rfl h) ?_) hr
  intro x hx _
  cases hx
  exact nofun

/-- The thread is detached by the destructor while it executes its callback. -/
theorem not_designates : ¬ ∀ (tr : List (Unit × Life.Act Unit))
    (s : Unit → Option (Life Unit Unit)),
    Run (LifeStep fun _ ↦ ∅) (fun _ ↦ none) tr s → Designates s := by
  intro hall
  let t : NewThread Unit := { tid := 7, t_thread_name := "worker" }
  let t' : NewThread Unit := { t with next := .callback, cb := some () }
  let x : Life Unit Unit := { startup := .construct (some ()) "worker" }
  let y : Life Unit Unit := worker .waiting (-1) (some ()) 0 { tid := 7 }
  have hcreate : Life.Step (fun _ ↦ ∅) () (some x) (.startup (.pthread_create (some 7)))
      { y with t_thread := none } := by
    apply Life.Step.startup (.create rfl)
    intro x _ ha
    cases ha
  have henter : Life.Step (fun _ ↦ ∅) () (some { y with t_thread := none }) .enter y :=
    .enter rfl rfl rfl
  have hwait : Life.Step (fun _ ↦ ∅) () (some (worker .waiting 7 none 1 t'))
      (.startup (.sem_wait true)) (worker .returned 7 none 0 t') := by
    apply Life.Step.startup (.wait rfl Nat.one_pos)
    intro x _ ha
    cases ha
  have hdestroy : Life.Step (fun _ ↦ ∅) () (some (worker .returned 7 none 0 t')) .destroy
      { worker .returned 7 none 0 t' with destroyed := true } := by
    refine .destroy ?_ rfl
    rintro (hd | hd) <;> cases hd
  have hnew : Function.update (fun _ : Unit ↦ none) () (some x) = fun _ ↦ some x := by
    funext o
    exact Function.update_self ..
  have hconstruct : Life.Step (fun _ ↦ ∅) () none (.startup (.construct (some ()) "worker")) x := by
    apply Life.Step.startup .construct
    intro x hx
    cases hx
  have hdes := hall _ _ (.cons (.mk (s := fun _ ↦ none) hconstruct) <| hnew ▸
    alone hcreate <| alone henter <|
    alone_run (u := { t with next := .setId }) rfl <|
    alone_run (u := { t with next := .setName }) rfl <|
    alone_run (u := { t with next := .swap }) rfl <|
    alone_run (u := { t with next := .notify, cb := some () }) rfl <|
    alone_run (u := t') rfl <| alone hwait <| alone hdestroy <| .nil _)
  obtain ⟨z, hz, hlive⟩ := hdes (.startedOn ()) ⟨_, rfl, _, rfl, nofun⟩ () rfl
  cases hz
  exact hlive (.inl rfl)

/-! ## Objects that are joined first -/

/-- Objects are destroyed after they have been joined, and no waiting is interrupted. -/
def JoinsFirst (s : ι → Option (Life ι F)) : ι × Life.Act F → Prop
  | (o, .destroy) => ∀ x, s o = some x → x.m_thread = false
  | (_, .startup (.sem_wait false)) => False
  | _ => True

/-- Where each thread is joined before its object is destroyed, `t_thread` is good. -/
theorem designates_of_joins (h : Run (Guarded JoinsFirst (LifeStep calls)) (fun _ ↦ none) tr s) :
    Run (Ending Designates (LifeStep calls)) (fun _ ↦ none) tr s := by
  have hguard : ∀ {s : ι → Option (Life ι F)} {o : ι} {a : Life.Act F}, JoinsFirst s (o, a) →
      (a = .destroy → ∀ z, s o = some z → z.m_thread = false) ∧
        a ≠ .startup (.sem_wait false) := by
    intro s o a hg
    constructor
    · rintro rfl
      exact hg
    · rintro rfl
      exact hg
  have hkept : ∀ s l s', (AllOwn s ∧ ∀ o x, s o = some x → x.Joined) →
      Guarded JoinsFirst (LifeStep (ι := ι) calls) s l s' →
      AllOwn s' ∧ ∀ o x, s' o = some x → x.Joined := by
    rintro s l s' ⟨hown, hjoined⟩ ⟨hg, hs⟩
    refine ⟨hown.step hs, ?_⟩
    obtain ⟨hstep⟩ := hs
    intro o' y hy
    rcases update_cases hy with ⟨rfl, rfl⟩ | ⟨-, hy⟩
    · exact Life.Joined.step (hown o') (hjoined o') hstep (hguard hg).1 (hguard hg).2
    · exact hjoined o' y hy
  have hstart : AllOwn (fun _ : ι ↦ (none : Option (Life ι F))) ∧
      ∀ (_ : ι) (x : Life ι F), none = some x → x.Joined := by
    constructor <;> (intro o x hx; cases hx)
  refine designates_of_outlives (h.mono_given hkept (fun s l s' hj hs ↦ ⟨?_, hs.2⟩) hstart)
  obtain ⟨hg, ⟨hstep⟩⟩ := hs
  exact Life.Joined.outlives (hj.2 _) hstep (hguard hg).1 (hguard hg).2

end Sylar.Thread
