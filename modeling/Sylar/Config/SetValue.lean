import Sylar.Config.ConfigVar
import Sylar.Foundation.Run
import Mathlib.Logic.Function.Basic

/-!
# Threads that set one variable

`setValue` takes the lock of the variable twice: for reading while it compares
the values and calls the listeners, and for writing when it stores.  Between the
two sections it holds no lock.

The read-locked sections of several threads may overlap, so they are cut into
their steps.  The write-locked one excludes all others and is one step.
-/

namespace Sylar.SetValue

open Foundation Yaml

variable {α θ : Type}

/-- Where a thread is in `setValue(v)`. -/
inductive Phase (α : Type)
  | idle
  /-- Before the read lock. -/
  | called (v : α)
  /-- Under the read lock, with these listeners still to call. -/
  | notifying (v : α) (cbs : List (Nat × on_change_cb α))
  /-- Between the two sections. -/
  | storing (v : α)

namespace Phase

/-- The thread holds the read lock. -/
def Reading : Phase α → Prop
  | notifying _ _ => True
  | _ => False

/-- The thread has found another value and not stored its own. -/
def Active : Phase α → Prop
  | notifying _ _ => True
  | storing _ => True
  | _ => False

end Phase

/-- A variable, the threads that set it, and the calls of listeners so far. -/
structure State (α θ : Type) where
  var : ConfigVar α
  phase : θ → Phase α
  calls : List (Notification α)

/-- A step of a thread. -/
inductive Action (α θ : Type)
  | call (t : θ) (v : α)
  | enter (t : θ)
  | notify (t : θ)
  | leave (t : θ)
  | store (t : θ)

namespace State

/-- No thread has called `setValue` yet. -/
def start (c : ConfigVar α) : State α θ := ⟨c, fun _ ↦ .idle, []⟩

/-- Listeners are called. -/
def tell (s : State α θ) (ns : List (Notification α)) : State α θ :=
  { s with calls := s.calls ++ ns }

/-- A value is stored. -/
def put (s : State α θ) (v : α) : State α θ := { s with var := { s.var with val := v } }

/-- The calls of the listener with a key. -/
def told (s : State α θ) (key : Nat) : List (Notification α) :=
  s.calls.filter fun n ↦ n.key = key

variable {s : State α θ} {v : α} {key : Nat}

@[simp] theorem tell_nil : s.tell [] = s := by simp [State.tell]
@[simp] theorem tell_tell {ns ns' : List (Notification α)} :
    (s.tell ns).tell ns' = s.tell (ns ++ ns') := by simp [State.tell]
@[simp] theorem tell_phase {ns : List (Notification α)} : (s.tell ns).phase = s.phase := rfl
@[simp] theorem put_phase : (s.put v).phase = s.phase := rfl
@[simp] theorem put_val : (s.put v).var.val = v := rfl
@[simp] theorem put_told : (s.put v).told key = s.told key := rfl
@[simp] theorem tell_var {ns : List (Notification α)} : (s.tell ns).var = s.var := rfl

variable [DecidableEq θ]

/-- Thread `t` goes on to another phase. -/
def goto (s : State α θ) (t : θ) (p : Phase α) : State α θ :=
  { s with phase := Function.update s.phase t p }

end State

variable [DecidableEq θ]

/-- The steps of the threads. -/
inductive Step [BEq α] : State α θ → Action α θ → State α θ → Prop
  | call {s : State α θ} {t : θ} {v : α} : s.phase t = .idle →
      Step s (.call t v) (s.goto t (.called v))
  /-- The value is there already: the call returns. -/
  | same {s : State α θ} {t : θ} {v : α} : s.phase t = .called v → (v == s.var.val) = true →
      Step s (.enter t) (s.goto t .idle)
  | enter {s : State α θ} {t : θ} {v : α} : s.phase t = .called v → (v == s.var.val) = false →
      Step s (.enter t) (s.goto t (.notifying v s.var.cbs.toList))
  | notify {s : State α θ} {t : θ} {v : α} {i : Nat × on_change_cb α}
      {cbs : List (Nat × on_change_cb α)} : s.phase t = .notifying v (i :: cbs) →
      i.2 s.var.val v = .ok () →
      Step s (.notify t) ((s.tell [⟨i.1, s.var.val, v⟩]).goto t (.notifying v cbs))
  /-- The exception of a listener leaves `setValue`. -/
  | throws {s : State α θ} {t : θ} {v : α} {i : Nat × on_change_cb α}
      {cbs : List (Nat × on_change_cb α)} {e : Exception} :
      s.phase t = .notifying v (i :: cbs) → i.2 s.var.val v = .error e →
      Step s (.notify t) ((s.tell [⟨i.1, s.var.val, v⟩]).goto t .idle)
  | leave {s : State α θ} {t : θ} {v : α} : s.phase t = .notifying v [] →
      Step s (.leave t) (s.goto t (.storing v))
  /-- The write lock is free once no thread holds the read lock. -/
  | store {s : State α θ} {t : θ} {v : α} : s.phase t = .storing v →
      (∀ u, ¬ (s.phase u).Reading) →
      Step s (.store t) ((s.put v).goto t .idle)

variable {s s' : State α θ} {t u : θ} {v a b : α} {key : Nat} {c : ConfigVar α}

@[simp] theorem goto_self {p : Phase α} : (s.goto t p).phase t = p := Function.update_self _ _ _
@[simp] theorem goto_ne {p : Phase α} (h : u ≠ t) : (s.goto t p).phase u = s.phase u :=
  Function.update_of_ne h _ _
@[simp] theorem goto_var {p : Phase α} : (s.goto t p).var = s.var := rfl
@[simp] theorem goto_calls {p : Phase α} : (s.goto t p).calls = s.calls := rfl
@[simp] theorem goto_told {p : Phase α} : (s.goto t p).told key = s.told key := rfl
@[simp] theorem goto_goto {p q : Phase α} : (s.goto t p).goto t q = s.goto t q := by
  simp [State.goto]

theorem goto_eq_self {p : Phase α} (h : s.phase t = p) : s.goto t p = s := by
  simp [State.goto, ← h]

theorem goto_put {p : Phase α} : (s.goto t p).put v = (s.put v).goto t p := rfl
theorem goto_tell {p : Phase α} {ns : List (Notification α)} :
    (s.goto t p).tell ns = (s.tell ns).goto t p := rfl

/-! ## A call that is not interleaved -/

section Alone

variable [BEq α]

/-- Where a thread is once its listeners have been called. -/
def Phase.after (v : α) : Except Exception Unit → Phase α
  | .ok _ => .notifying v []
  | .error _ => .idle

/-- The loop over the listeners, run by one thread. -/
theorem notify_alone {cbs : List (Nat × on_change_cb α)} (hp : s.phase t = .notifying v cbs) :
    ∃ tr, Run Step s tr ((s.tell (ConfigVar.notify s.var.val v cbs).1).goto t
      (.after v (ConfigVar.notify s.var.val v cbs).2)) := by
  induction cbs generalizing s with
  | nil =>
      refine ⟨[], ?_⟩
      rw [ConfigVar.notify, State.tell_nil, Phase.after, goto_eq_self hp]
      exact .nil s
  | cons i cbs ih =>
      cases hcb : i.2 s.var.val v with
      | error e =>
          refine ⟨[.notify t], .cons (.throws hp hcb) ?_⟩
          rw [ConfigVar.notify, hcb]
          exact .nil _
      | ok _ =>
          obtain ⟨tr, htr⟩ := ih (s := (s.tell [⟨i.1, s.var.val, v⟩]).goto t (.notifying v cbs))
            goto_self
          refine ⟨.notify t :: tr, .cons (.notify hp hcb) ?_⟩
          rw [ConfigVar.notify, hcb]
          simpa [goto_tell] using htr

/-- A thread that runs while no other thread holds the lock does what `setValue`
does. -/
theorem setValue_alone (hp : s.phase t = .idle) (hread : ∀ u, ¬ (s.phase u).Reading) (v : α) :
    ∃ tr, Run Step s tr
      { s.tell (s.var.setValue v).1 with var := (s.var.setValue v).2.2 } := by
  cases heq : v == s.var.val with
  | true =>
      refine ⟨[.call t v, .enter t], .cons (.call hp) (.cons (.same goto_self heq) ?_)⟩
      rw [goto_goto, goto_eq_self hp]
      simpa [ConfigVar.setValue, heq] using Run.nil s
  | false =>
      obtain ⟨tr, htr⟩ := notify_alone (s := (s.goto t (.called v)).goto t
        (.notifying v s.var.cbs.toList)) goto_self
      have hrun := Run.cons (.call hp) (.cons (.enter goto_self heq) htr)
      simp only [goto_goto, goto_tell, goto_var] at hrun
      cases hr : (ConfigVar.notify s.var.val v s.var.cbs.toList).2 with
      | error e =>
          have hidle :
              (s.tell (ConfigVar.notify s.var.val v s.var.cbs.toList).1).phase t = .idle := hp
          rw [hr, Phase.after, goto_eq_self hidle] at hrun
          exact ⟨_, by simpa [ConfigVar.setValue, heq, hr, State.tell] using hrun⟩
      | ok _ =>
          rw [hr, Phase.after] at hrun
          have hrun := hrun.snoc (.leave goto_self)
          rw [goto_goto] at hrun
          have hrun := hrun.snoc (.store goto_self fun u ↦ by
            by_cases hu : u = t
            · simp [hu, Phase.Reading]
            · simpa [hu] using hread u)
          have hidle : ((s.tell (ConfigVar.notify s.var.val v s.var.cbs.toList).1).put v).phase t =
              .idle := hp
          rw [goto_put, goto_goto, goto_eq_self hidle] at hrun
          exact ⟨_, by simpa [ConfigVar.setValue, heq, hr, State.put] using hrun⟩

end Alone

/-! ## What the listeners are told -/

/-- The calls lead from one value to another: each starts with the value the one
before it ended with. -/
def Leads : α → List (Notification α) → α → Prop
  | a, [], b => a = b
  | a, n :: ns, b => n.old_value = a ∧ Leads n.new_value ns b

section Leads

variable {n : Notification α} {ns : List (Notification α)}

theorem Leads.snoc (h : Leads a ns n.old_value) : Leads a (ns ++ [n]) n.new_value := by
  induction ns generalizing a with
  | nil => exact ⟨h.symm, rfl⟩
  | cons m ns ih => exact ⟨h.1, ih h.2⟩

theorem Leads.isChain (h : Leads a ns b) :
    ns.IsChain fun n n' ↦ n.new_value = n'.old_value := by
  induction ns generalizing a with
  | nil => exact .nil
  | cons m ns ih =>
      cases ns with
      | nil => exact .singleton m
      | cons n ns => exact .cons_cons h.2.1.symm (ih h.2)

theorem Leads.getLast? (h : Leads a ns b) (hn : ns.getLast? = some n) : n.new_value = b := by
  induction ns generalizing a with
  | nil => cases hn
  | cons m ns ih =>
      cases ns with
      | nil =>
          cases hn
          exact h.2
      | cons m' ns => exact ih h.2 (by simpa using hn)

end Leads

/-- What a listener has been told last while the thread between compare and store
is in a phase. -/
def Phase.value (p : Phase α) (key : Nat) (val : α) : α :=
  match p with
  | .notifying v cbs => if key ∈ cbs.map Prod.fst then val else v
  | .storing v => v
  | _ => val

/-- The phase of a thread between compare and store, if there is one. -/
def State.Current (s : State α θ) (p : Phase α) : Prop :=
  (∃ t, s.phase t = p ∧ p.Active) ∨ p = .idle ∧ ∀ t, ¬ (s.phase t).Active

/-- One thread at a time is between compare and store, and the calls of each
listener lead from `a` to the value it has been told last. -/
structure Agree (a : α) (s : State α θ) : Prop where
  alone : ∀ t u, (s.phase t).Active → (s.phase u).Active → t = u
  suffix : ∀ t v cbs, s.phase t = .notifying v cbs → cbs <:+ s.var.cbs.toList
  told : ∀ i ∈ s.var.cbs, ∀ p, s.Current p → Leads a (s.told i.1) (p.value i.1 s.var.val)

/-- The listeners return normally. -/
def Returning (c : ConfigVar α) : Prop := ∀ i ∈ c.cbs, ∀ o n, i.2 o n = .ok ()

/-- A thread that finds another value than its own does so while no other thread
is between compare and store. -/
def Undisturbed [BEq α] (s : State α θ) (l : Action α θ) : Prop :=
  ∀ t v, l = .enter t → s.phase t = .called v → (v == s.var.val) = false →
    ∀ u, ¬ (s.phase u).Active

theorem active_goto {p : Phase α} :
    ((s.goto t p).phase u).Active ↔ if u = t then p.Active else (s.phase u).Active := by
  by_cases hu : u = t <;> simp [hu]

omit [DecidableEq θ] in
theorem current_idle {p : Phase α} (hnone : ∀ u, ¬ (s.phase u).Active) (h : s.Current p) :
    p = .idle := by
  rcases h with ⟨u, rfl, hu⟩ | ⟨rfl, _⟩
  · exact absurd hu (hnone u)
  · rfl

/-- After a step of the only thread between compare and store. -/
theorem current_goto {p q : Phase α} (honly : ∀ u, u ≠ t → ¬ (s.phase u).Active)
    (hq : q.Active) (h : (s.goto t q).Current p) : p = q := by
  rcases h with ⟨u, rfl, hu⟩ | ⟨_, hnone⟩
  · rw [active_goto] at hu
    by_cases hut : u = t
    · rw [hut, goto_self]
    · exact absurd (by simpa [hut] using hu) (honly u hut)
  · exact absurd hq (by simpa using hnone t)

omit [DecidableEq θ] in
theorem Agree.only (h : Agree a s) (ht : (s.phase t).Active) :
    ∀ u, u ≠ t → ¬ (s.phase u).Active :=
  fun u hu hact ↦ hu (h.alone u t hact ht)

theorem alone_goto {p : Phase α} (honly : ∀ u, u ≠ t → ¬ (s.phase u).Active) :
    ∀ u u', ((s.goto t p).phase u).Active → ((s.goto t p).phase u').Active → u = u' := by
  have heq : ∀ u, ((s.goto t p).phase u).Active → u = t := by
    intro u hu
    by_contra hne
    rw [active_goto, if_neg hne] at hu
    exact honly u hne hu
  exact fun u u' hu hu' ↦ (heq u hu).trans (heq u' hu').symm

theorem suffix_goto {p : Phase α}
    (h : ∀ u v cbs, s.phase u = .notifying v cbs → cbs <:+ s.var.cbs.toList)
    (hp : ∀ v cbs, p = .notifying v cbs → cbs <:+ s.var.cbs.toList) :
    ∀ u v cbs, (s.goto t p).phase u = .notifying v cbs → cbs <:+ s.var.cbs.toList := by
  intro u v cbs hu
  by_cases hut : u = t
  · subst hut
    exact hp v cbs (goto_self.symm.trans hu)
  · exact h u v cbs ((goto_ne hut).symm.trans hu)

/-! ## The invariant -/

/-- A step outside the sections. -/
theorem Agree.quiet {p : Phase α} (h : Agree a s) (ht : ¬ (s.phase t).Active) (hp : ¬ p.Active) :
    Agree a (s.goto t p) := by
  have hact : ∀ u, ((s.goto t p).phase u).Active ↔ (s.phase u).Active := by
    intro u
    by_cases hu : u = t
    · simp [hu, ht, hp]
    · simp [hu]
  refine ⟨fun u u' hu hu' ↦ h.alone u u' ((hact u).mp hu) ((hact u').mp hu'),
    suffix_goto h.suffix fun v cbs e ↦ absurd (e ▸ trivial) hp, fun i hi q hq ↦ h.told i hi q ?_⟩
  rcases hq with ⟨u, rfl, hu⟩ | ⟨rfl, hnone⟩
  · have hut : u ≠ t := by
      rintro rfl
      exact hp (by simpa using hu)
    exact .inl ⟨u, (goto_ne hut).symm, hu⟩
  · exact .inr ⟨rfl, fun u hu ↦ hnone u ((hact u).mpr hu)⟩

/-- The next listener is called. -/
theorem Agree.notify (h : Agree a s) {v : α} {i : Nat × on_change_cb α}
    {cbs : List (Nat × on_change_cb α)} (hp : s.phase t = .notifying v (i :: cbs)) :
    Agree a ((s.tell [⟨i.1, s.var.val, v⟩]).goto t (.notifying v cbs)) := by
  have hact : (s.phase t).Active := hp ▸ trivial
  have hsuffix := h.suffix t v (i :: cbs) hp
  refine ⟨alone_goto (s := s.tell _) (h.only hact), suffix_goto (s := s.tell _) h.suffix
    fun _ _ e ↦ ?_, fun j hj p hc ↦ ?_⟩
  · cases e
    exact (List.suffix_cons i cbs).trans hsuffix
  · have hp' : p = .notifying v cbs :=
      current_goto (s := s.tell _) (h.only hact) (by trivial) hc
    have hold := h.told j hj _ (.inl ⟨t, hp, trivial⟩)
    have hnodup : i.1 ∉ cbs.map Prod.fst := by
      intro hmem
      obtain ⟨k, hk, hki⟩ := List.mem_map.mp hmem
      have hlt := (List.pairwise_cons.mp (s.var.cbs.sorted.sublist hsuffix.sublist)).1 k hk
      exact hlt.ne hki.symm
    by_cases hij : i.1 = j.1
    · have hlast : Leads a (s.told j.1) s.var.val := by
        simpa [Phase.value, hij] using hold
      have htold : ((s.tell [⟨i.1, s.var.val, v⟩]).goto t (.notifying v cbs)).told j.1 =
          s.told j.1 ++ [⟨i.1, s.var.val, v⟩] := by
        simp [State.told, State.tell, hij]
      rw [htold, hp', Phase.value, if_neg (hij ▸ hnodup)]
      exact hlast.snoc
    · have htold : ((s.tell [⟨i.1, s.var.val, v⟩]).goto t (.notifying v cbs)).told j.1 =
          s.told j.1 := by
        simp [State.told, State.tell, hij]
      have hmem : j.1 ∈ (i :: cbs).map Prod.fst ↔ j.1 ∈ cbs.map Prod.fst := by
        rw [List.map_cons, List.mem_cons, or_iff_right (Ne.symm hij)]
      rw [htold, hp']
      simpa only [Phase.value, hmem, goto_var, State.tell_var] using hold

theorem Agree.step [BEq α] (h : Agree a s) (hret : Returning s.var) {l : Action α θ}
    (hl : Undisturbed s l) (hs : Step s l s') : Agree a s' := by
  cases hs with
  | call hp => exact h.quiet (by simp [hp, Phase.Active]) (by simp [Phase.Active])
  | same hp _ => exact h.quiet (by simp [hp, Phase.Active]) (by simp [Phase.Active])
  | @enter t v hp hne =>
      have hnone := hl t v rfl hp hne
      refine ⟨alone_goto fun u _ ↦ hnone u, suffix_goto h.suffix fun _ _ e ↦ ?_,
        fun i hi p hc ↦ ?_⟩
      · cases e
        exact List.suffix_rfl
      · have hp' : p = .notifying v s.var.cbs.toList :=
          current_goto (fun u _ ↦ hnone u) (by trivial) hc
        have hmem : i.1 ∈ s.var.cbs.toList.map Prod.fst := List.mem_map_of_mem hi
        have hold := h.told i hi .idle (.inr ⟨rfl, hnone⟩)
        simpa [hp', Phase.value, hmem] using hold
  | notify hp _ => exact h.notify hp
  | @throws t v i cbs e hp hcb =>
      have hi : i ∈ s.var.cbs := (h.suffix t v (i :: cbs) hp).subset List.mem_cons_self
      rw [hret i hi] at hcb
      cases hcb
  | @leave t v hp =>
      have hact : (s.phase t).Active := hp ▸ trivial
      refine ⟨alone_goto (h.only hact), suffix_goto h.suffix fun _ _ e ↦ (by cases e),
        fun i hi p hc ↦ ?_⟩
      have hp' : p = .storing v := current_goto (h.only hact) (by trivial) hc
      have hold := h.told i hi _ (.inl ⟨t, hp, trivial⟩)
      simpa [hp', Phase.value] using hold
  | @store t v hp hread =>
      have hact : (s.phase t).Active := hp ▸ trivial
      refine ⟨alone_goto (s := s.put v) (h.only hact), suffix_goto (s := s.put v) h.suffix
        fun _ _ e ↦ (by cases e), fun i hi p hc ↦ ?_⟩
      have hp' : p = .idle := current_idle (fun u hu ↦ by
        by_cases hut : u = t
        · simp [hut, Phase.Active] at hu
        · exact h.only hact u hut (by simpa [hut] using hu)) hc
      have hold := h.told i hi _ (.inl ⟨t, hp, trivial⟩)
      simpa [hp', Phase.value] using hold

/-- The steps leave the listeners as they are. -/
theorem step_cbs [BEq α] {l : Action α θ} (hs : Step s l s') : s'.var.cbs = s.var.cbs := by
  cases hs <;> rfl

theorem agree_of_run [BEq α] {tr : List (Action α θ)} (hret : Returning c)
    (h : Run (Guarded Undisturbed Step) (State.start c) tr s) :
    Agree c.val s ∧ s.var.cbs = c.cbs := by
  refine h.invariant (I := fun s ↦ Agree c.val s ∧ s.var.cbs = c.cbs)
    (fun s l s' hs hstep ↦ ?_) ⟨⟨fun _ _ ht ↦ (by cases ht), fun _ _ _ ht ↦ (by cases ht), ?_⟩, rfl⟩
  · have hret' : Returning s.var := fun i hi ↦ hret i (hs.2 ▸ hi)
    exact ⟨hs.1.step hret' hstep.1 hstep.2, (step_cbs hstep.2).trans hs.2⟩
  · intro i _ p hc
    obtain rfl := current_idle (fun _ hu ↦ by cases hu) hc
    exact rfl

/-- **What the listeners are told agrees with what is stored.**  In a run in which
no thread finds another value than its own while some thread is between compare
and store, each listener is told of changes that follow one another, and when all
calls have returned the last one leads to the stored value. -/
theorem told_agrees [BEq α] {tr : List (Action α θ)} (hret : Returning c)
    (h : Run (Guarded Undisturbed Step) (State.start c) tr s) {i : Nat × on_change_cb α}
    (hi : i ∈ c.cbs) :
    ((s.told i.1).IsChain fun n n' ↦ n.new_value = n'.old_value) ∧
      ((∀ t, s.phase t = .idle) → ∀ n, (s.told i.1).getLast? = some n →
        n.new_value = s.var.val) := by
  obtain ⟨hagree, hcbs⟩ := agree_of_run hret h
  have hi' : i ∈ s.var.cbs := hcbs ▸ hi
  constructor
  · by_cases hact : ∃ t, (s.phase t).Active
    · obtain ⟨t, ht⟩ := hact
      exact (hagree.told i hi' _ (.inl ⟨t, rfl, ht⟩)).isChain
    · exact (hagree.told i hi' _ (.inr ⟨rfl, not_exists.mp hact⟩)).isChain
  · intro hidle n hn
    have hnone : ∀ t, ¬ (s.phase t).Active := fun t ht ↦ by
      rw [hidle t] at ht
      exact ht
    exact (hagree.told i hi' _ (.inr ⟨rfl, hnone⟩)).getLast? hn

/-- A variable with one listener. -/
def oneListener : ConfigVar Nat :=
  { ConfigVar.new "system.port" 0 "system port" with
    cbs := Keyed.empty.insert (1, fun _ _ ↦ .ok ()) }

theorem oneListener_returning : Returning oneListener := by
  intro i hi o n
  rcases Keyed.mem_place hi with rfl | hi
  · rfl
  · cases hi

/-- Two threads call `setValue` at once, and one of them goes first. -/
theorem told_agrees_inTurn : ∃ s : State Nat Bool,
    Run (Guarded Undisturbed Step) (State.start oneListener)
      [.call true 1, .call false 2, .enter true, .notify true, .leave true, .store true,
        .enter false, .notify false, .leave false, .store false] s ∧
    (s.told 1).IsChain (fun n n' ↦ n.new_value = n'.old_value) ∧
    ∀ n, (s.told 1).getLast? = some n → n.new_value = s.var.val := by
  have hfree : ∀ {s : State Nat Bool} {l}, (∀ t, l ≠ .enter t) → Undisturbed s l :=
    fun h t _ hl ↦ absurd hl (h t)
  have hfirst : ∀ u, ¬ Phase.Active ((((State.start oneListener).goto true (.called 1)).goto
      false (.called 2)).phase u) := by
    intro u
    cases u <;> exact id
  have hrun : Run (Guarded Undisturbed Step) (State.start oneListener)
      [.call true 1, .call false 2, .enter true, .notify true, .leave true, .store true,
        .enter false, .notify false, .leave false, .store false] _ :=
    .cons ⟨hfree nofun, .call rfl⟩ <| .cons ⟨hfree nofun, .call rfl⟩ <|
    .cons ⟨fun _ _ _ _ _ ↦ hfirst, .enter rfl rfl⟩ <| .cons ⟨hfree nofun, .notify rfl rfl⟩ <|
    .cons ⟨hfree nofun, .leave rfl⟩ <|
    .cons ⟨hfree nofun, .store rfl fun u ↦ by cases u <;> exact id⟩ <|
    .cons ⟨fun _ _ _ _ _ u ↦ by cases u <;> exact id, .enter rfl rfl⟩ <|
    .cons ⟨hfree nofun, .notify rfl rfl⟩ <| .cons ⟨hfree nofun, .leave rfl⟩ <|
    .cons ⟨hfree nofun, .store rfl fun u ↦ by cases u <;> exact id⟩ <| .nil _
  obtain ⟨hchain, hlast⟩ := told_agrees oneListener_returning hrun List.mem_cons_self
  exact ⟨_, hrun, hchain, hlast fun t ↦ by cases t <;> rfl⟩

/-- Two threads compare before either of them stores. -/
theorem told_disagrees : ∃ s : State Nat Bool,
    Run Step (State.start oneListener)
      [.call true 1, .call false 2, .enter true, .enter false, .notify true, .notify false,
        .leave true, .leave false, .store false, .store true] s ∧
    (∀ t, s.phase t = .idle) ∧
    ¬ (s.told 1).IsChain (fun n n' ↦ n.new_value = n'.old_value) ∧
    ∃ n, (s.told 1).getLast? = some n ∧ n.new_value ≠ s.var.val := by
  refine ⟨_, .cons (.call rfl) <| .cons (.call rfl) <| .cons (.enter rfl rfl) <|
    .cons (.enter rfl rfl) <| .cons (.notify rfl rfl) <| .cons (.notify rfl rfl) <|
    .cons (.leave rfl) <| .cons (.leave rfl) <|
    .cons (.store rfl fun u ↦ by cases u <;> exact id) <|
    .cons (.store rfl fun u ↦ by cases u <;> exact id) <| .nil _, fun t ↦ by cases t <;> rfl,
    fun hchain ↦ ?_, ⟨1, 0, 2⟩, rfl, by decide⟩
  have hchain : List.IsChain (fun n n' ↦ n.new_value = n'.old_value)
      [(⟨1, 0, 1⟩ : Notification Nat), ⟨1, 0, 2⟩] := hchain
  revert hchain
  decide

end Sylar.SetValue
