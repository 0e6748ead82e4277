import Sylar.Foundation.Locks
import Mathlib.Order.Lattice

/-!
# Ranks of requests and of holds

A thread that asks for a lock only waits for those that have it in a way that excludes
its own.  Where readers share a lock, the order of `Locks.lean` is too strict: a block
that holds a lock for reading may well take it for reading again.

Here a request has a rank, and so has a hold, and a request is ranked no higher than the
holds that it waits for.  `Within b p` says that every request of `p` is ranked above `b`,
and above all that is held around it.  A system whose threads run such programs from
nothing held does not deadlock:

* `not_circular`: no cycle of threads wait for one another;
* `progress`: some thread at work can go on.

A thread that waits for itself stays where it is, `stays`.
-/

namespace Foundation

/-- Two holds of one lock that cannot be had together. -/
def Mode.Excludes : Mode → Mode → Prop
  | .shared, .shared => False
  | _, _ => True

theorem Mode.excludes_of_ne {mode mode' : Mode} (h : ¬ (mode = .shared ∧ mode' = .shared)) :
    mode.Excludes mode' := by
  cases mode with
  | exclusive => exact trivial
  | shared =>
      cases mode' with
      | exclusive => exact trivial
      | shared => exact absurd ⟨rfl, rfl⟩ h

/-- The ranks of what threads request and of what they hold. -/
structure Ranking (L R : Type) [LE R] where
  request : L → Mode → R
  hold : L → Mode → R
  request_le : ∀ l mode mode', mode.Excludes mode' → request l mode ≤ hold l mode'

variable {L R : Type} [LinearOrder R] (rk : Ranking L R)

namespace Prog

variable {α β : Type}

/-- All requests are ranked above `b`, and above what is held where they are made. -/
def Within {α : Type} : WithBot R → Prog L α → Prop
  | _, .pure _ => True
  | b, .scope l mode body next =>
      b < rk.request l mode ∧ body.Within (max b (rk.hold l mode)) ∧ ∀ x, (next x).Within b
  | b, .choose _ next => ∀ i, (next i).Within b

variable {rk} {b c : WithBot R} {p : Prog L α}

theorem Within.mono (h : p.Within rk b) (hc : c ≤ b) : p.Within rk c := by
  induction p generalizing b c with
  | pure a => exact trivial
  | scope l mode body next ihbody ih =>
      obtain ⟨hl, hbody, hnext⟩ := h
      exact ⟨lt_of_le_of_lt hc hl, ihbody hbody (max_le_max_right _ hc), fun x ↦ ih x (hnext x) hc⟩
  | choose _ next ih => exact fun i ↦ ih i (h i) hc

theorem Within.bind {f : α → Prog L β} (h : p.Within rk b) (hf : ∀ a, (f a).Within rk b) :
    (p >>= f).Within rk b := by
  induction p with
  | pure a => exact hf a
  | scope l mode body next _ ih =>
      obtain ⟨hl, hbody, hnext⟩ := h
      exact ⟨hl, hbody, fun x ↦ ih x (hnext x) hf⟩
  | choose _ next ih => exact fun i ↦ ih i (h i) hf

/-- Programs that keep the order of the locks, where holds and requests of the locks above
`b` are ranked in this order. -/
theorem Above.within {Q : Type} [Preorder Q] {rank : L → Q} {q : WithBot Q}
    (h : p.Above rank q) (hfree : ∀ l mode, q < rank l → b < rk.request l mode)
    (hrank : ∀ l l' mode mode', q < rank l → rank l < rank l' →
      rk.hold l mode < rk.request l' mode') : p.Within rk b := by
  induction p generalizing q b with
  | pure a => exact trivial
  | scope l mode body next ihbody ih =>
      obtain ⟨hl, hbody, hnext⟩ := h
      refine ⟨hfree l mode hl, ihbody hbody ?_ ?_, fun x ↦ ih x (hnext x) hfree hrank⟩
      · intro l' mode' hl'
        have hlt : rank l < rank l' := WithBot.coe_lt_coe.mp hl'
        exact max_lt (hfree l' mode' (hl.trans hl'))
          (WithBot.coe_lt_coe.mpr (hrank l l' mode mode' hl hlt))
      · intro l' l'' mode' mode'' hl'
        exact hrank l' l'' mode' mode'' (hl.trans hl')
  | choose _ next ih => exact fun i ↦ ih i (h i) hfree hrank

end Prog

/-! ## Programs that throw -/

namespace Throwing

variable {ε α β ι : Type}

/-- What a program comes to, be it a result or an exception. -/
def attempt (x : Throwing ε L α) : Throwing ε L (Except ε α) := .mk (x.run >>= fun r ↦ pure (.ok r))

/-- `Prog.Within` for programs that throw. -/
def Within (b : WithBot R) (x : Throwing ε L α) : Prop := x.run.Within rk b

variable {rk} {b c : WithBot R} {x : Throwing ε L α}

theorem Within.mono (h : x.Within rk b) (hc : c ≤ b) : x.Within rk c := Prog.Within.mono h hc

theorem within_pure (a : α) : (pure a : Throwing ε L α).Within rk b := trivial

theorem within_throw (e : ε) : (throw e : Throwing ε L α).Within rk b := trivial

theorem within_any [Nonempty ι] : (any ι : Throwing ε L ι).Within rk b := fun _ ↦ trivial

theorem Within.bind {f : α → Throwing ε L β} (h : x.Within rk b)
    (hf : ∀ a, (f a).Within rk b) : (x >>= f).Within rk b := by
  refine Prog.Within.bind h fun r ↦ ?_
  cases r with
  | ok a => exact hf a
  | error e => exact trivial

theorem Within.attempt (h : x.Within rk b) : x.attempt.Within rk b :=
  Prog.Within.bind h fun _ ↦ trivial

theorem Within.tryCatch {f : ε → Throwing ε L α} (h : x.Within rk b)
    (hf : ∀ e, (f e).Within rk b) : (tryCatch x f).Within rk b := by
  refine Prog.Within.bind h fun r ↦ ?_
  cases r with
  | ok a => exact trivial
  | error e => exact hf e

theorem Within.finish {last : Throwing ε L Unit} (h : x.Within rk b)
    (hlast : last.Within rk b) : (x.finish last).Within rk b :=
  (h.tryCatch fun e ↦ hlast.bind fun _ ↦ within_throw e).bind fun a ↦
    hlast.bind fun _ ↦ within_pure a

theorem Within.lock {l : L} {mode : Mode} (h : x.Within rk (max b (rk.hold l mode)))
    (hl : b < rk.request l mode) : (x.lock l mode).Within rk b :=
  ⟨hl, h, fun _ ↦ trivial⟩

/-- The lock is ranked above all that is held so far. -/
theorem Within.lock_above {l : L} {mode : Mode} (h : x.Within rk (rk.hold l mode))
    (hb : b ≤ rk.hold l mode) (hl : b < rk.request l mode) : (x.lock l mode).Within rk b :=
  .lock ((max_eq_right hb).symm ▸ h) hl

theorem Within.ite {p : Prop} [Decidable p] {y : Throwing ε L α} (hx : x.Within rk b)
    (hy : y.Within rk b) : (if p then x else y).Within rk b := by
  split
  · exact hx
  · exact hy

theorem within_forM {f : ι → Throwing ε L PUnit} (hf : ∀ i, (f i).Within rk b) (is : List ι) :
    (is.forM f).Within rk b := by
  induction is with
  | nil => exact trivial
  | cons i is ih => exact (hf i).bind fun _ ↦ ih

end Throwing

/-! ## Threads -/

/-- The highest rank of what is held. -/
def Blocks.peak {α : Type} : Blocks L α → WithBot R
  | .nil => ⊥
  | .cons l mode _ rest => max rest.peak (rk.hold l mode)

/-- What follows a block only requests locks above what is held around it. -/
def Blocks.Within {α : Type} : Blocks L α → Prop
  | .nil => True
  | .cons _ _ next rest => (∀ x, (next x).Within rk (rest.peak rk)) ∧ rest.Within

/-- A thread only requests locks above what it holds. -/
structure Worker.Within (th : Worker L) : Prop where
  prog : th.prog.Within rk (th.blocks.peak rk)
  blocks : th.blocks.Within rk

variable {rk}

theorem Blocks.le_peak {α : Type} {bs : Blocks L α} {x : L × Mode} (hx : x ∈ bs.held) :
    (rk.hold x.1 x.2 : WithBot R) ≤ bs.peak rk := by
  induction bs with
  | nil => cases hx
  | cons l mode next rest ih =>
      rcases List.mem_cons.mp hx with rfl | hx
      · exact le_max_right _ _
      · exact (ih hx).trans (le_max_left _ _)

namespace Worker

variable {ops : Set (Prog L Unit)} {th th' : Worker L} {a : Action L} {l l' : L}
variable {mode mode' : Mode}

theorem idle_within : (idle : Worker L).Within rk := ⟨trivial, trivial⟩

theorem Within.hold_lt_request (h : th.Within rk) (hreq : th.request = some (l, mode))
    (hheld : (l', mode') ∈ th.held) : rk.hold l' mode' < rk.request l mode := by
  obtain ⟨prog, bs⟩ := th
  cases prog with
  | pure b => cases hreq
  | choose hι next => cases hreq
  | scope l mode body next =>
      cases hreq
      exact WithBot.coe_lt_coe.mp (lt_of_le_of_lt (Blocks.le_peak hheld) h.prog.1)

/-- **Step lemma.** -/
theorem Within.step (hops : ∀ p ∈ ops, p.Within rk ⊥) (h : th.Within rk)
    (hs : th.Step ops a th') : th'.Within rk := by
  cases hs with
  | start hp => exact ⟨hops _ hp, trivial⟩
  | choose i => exact ⟨h.prog i, h.blocks⟩
  | acquire =>
      obtain ⟨-, hbody, hnext⟩ := h.prog
      exact ⟨hbody, hnext, h.blocks⟩
  | release =>
      obtain ⟨hnext, hrest⟩ := h.blocks
      exact ⟨hnext _, hrest⟩

/-- A thread that waits can only go on by being granted its request. -/
theorem Step.eq_acquire (hs : th.Step ops a th') (hreq : th.request = some (l, mode)) :
    a = .acquire l mode := by
  cases hs with
  | start _ => cases hreq
  | choose _ => cases hreq
  | acquire =>
      cases hreq
      rfl
  | release => cases hreq

end Worker

/-! ## Systems of threads -/

namespace Locks

variable {T : Type} {ops : Set (Prog L Unit)} {s s' : T → Worker L}
variable {tr : List (T × Action L)} {t u : T} {l : L} {mode mode' : Mode}

/-- A thread requests a lock that another has in a way that excludes its own. -/
def Blocked (s : T → Worker L) (t u : T) : Prop :=
  ∃ l mode mode', (s t).request = some (l, mode) ∧ (l, mode') ∈ (s u).held ∧ mode.Excludes mode'

/-- **Run lemma.** -/
theorem within_of_run [DecidableEq T] (hops : ∀ p ∈ ops, p.Within rk ⊥)
    (h : Run (Step ops) (fun _ : T ↦ .idle) tr s) : ∀ t, (s t).Within rk := by
  refine h.invariant (I := fun s ↦ ∀ t, (s t).Within rk) ?_ fun _ ↦ Worker.idle_within
  rintro s _ _ hs ⟨hstep, -⟩ u
  rename_i t a th
  by_cases hu : u = t
  · subst hu
    rw [Function.update_self]
    exact (hs u).step hops hstep
  · rw [Function.update_of_ne hu]
    exact hs u

variable (rk) in
/-- Who waits for a thread requests a lock ranked no higher than one that it holds. -/
theorem Blocked.request_le (h : Blocked s t u) : ∃ l mode l' mode',
    (s t).request = some (l, mode) ∧ (l', mode') ∈ (s u).held ∧
      rk.request l mode ≤ rk.hold l' mode' := by
  obtain ⟨l, mode, mode', hreq, hheld, hmode⟩ := h
  exact ⟨l, mode, l, mode', hreq, hheld, rk.request_le l mode mode' hmode⟩

/-- The same for a chain of threads that wait. -/
theorem le_of_blocked (hs : ∀ t, (s t).Within rk) (h : Relation.TransGen (Blocked s) t u) :
    ∃ l mode l' mode', (s t).request = some (l, mode) ∧ (l', mode') ∈ (s u).held ∧
      rk.request l mode ≤ rk.hold l' mode' := by
  induction h with
  | single hw => exact hw.request_le rk
  | tail _ hw ih =>
      obtain ⟨l, mode, l', mode', hreq, hheld, hle⟩ := ih
      obtain ⟨l₂, mode₂, l₃, mode₃, hreq', hheld', hle'⟩ := hw.request_le rk
      have hlt : rk.hold l' mode' < rk.request l₂ mode₂ := (hs _).hold_lt_request hreq' hheld
      exact ⟨l, mode, l₃, mode₃, hreq, hheld', (hle.trans hlt.le).trans hle'⟩

theorem not_circular_of_within (hs : ∀ t, (s t).Within rk) (t : T) :
    ¬ Relation.TransGen (Blocked s) t t := by
  intro h
  obtain ⟨l, mode, l', mode', hreq, hheld, hle⟩ := le_of_blocked hs h
  exact absurd ((hs t).hold_lt_request hreq hheld) (not_lt_of_ge hle)

/-- Of the threads at work, some does not wait. -/
theorem exists_not_blocked (hs : ∀ t, (s t).Within rk) (hfin : {t | s t ≠ .idle}.Finite)
    (hbusy : s t ≠ .idle) : ∃ u, s u ≠ .idle ∧ ∀ v, ¬ Blocked s u v := by
  by_contra hall
  push Not at hall
  -- the thread whose request is ranked highest waits for one whose own is higher still
  obtain ⟨u, hu, hmax⟩ := hfin.exists_maximalFor
    (fun u ↦ (s u).request.elim (⊥ : WithBot R) fun x ↦ rk.request x.1 x.2) _ ⟨t, hbusy⟩
  obtain ⟨v, hblocked⟩ := hall u hu
  obtain ⟨l, mode, l', mode', hreq, hheld, hle⟩ := hblocked.request_le rk
  have hv : s v ≠ .idle := by
    intro h
    rw [h] at hheld
    cases hheld
  obtain ⟨w, l₂, mode₂, mode₃, hreq', -⟩ := hall v hv
  have hlt : (rk.request l mode : WithBot R) < rk.request l₂ mode₂ :=
    WithBot.coe_lt_coe.mpr (lt_of_le_of_lt hle ((hs v).hold_lt_request hreq' hheld))
  have hge := hmax hv
  simp only [hreq, hreq', Option.elim_some] at hge
  exact absurd (hge hlt.le) (not_le_of_gt hlt)

/-- As long as threads are at work, some of them can go on. -/
theorem progress_of_within [DecidableEq T] (hs : ∀ t, (s t).Within rk)
    (hfin : {t | s t ≠ .idle}.Finite) (hbusy : s t ≠ .idle) :
    ∃ u a s', s u ≠ .idle ∧ Step ops s (u, a) s' := by
  obtain ⟨u, hu, hfree⟩ := exists_not_blocked hs hfin hbusy
  obtain ⟨a, th, hstep, hacq⟩ := Worker.exists_step ops hu
  refine ⟨u, a, _, hu, .mk hstep ?_⟩
  cases a with
  | acquire l mode =>
      intro v mode' hheld
      by_contra hmode
      exact hfree v ⟨l, mode, mode', hacq l mode rfl, hheld, Mode.excludes_of_ne hmode⟩
  | release l => trivial
  | run => trivial

/-- **A thread that waits for itself** does so for ever. -/
theorem stays [DecidableEq T] (h : Blocked s t t) (hr : Run (Step ops) s tr s') : s' t = s t := by
  refine hr.invariant (I := fun s' ↦ s' t = s t) ?_ rfl
  rintro s₁ _ _ heq ⟨hstep, hgranted⟩
  rename_i u a th
  by_cases hu : t = u
  · subst hu
    obtain ⟨l, mode, mode', hreq, hheld, hmode⟩ := h
    rw [heq] at hstep
    obtain rfl := hstep.eq_acquire hreq
    obtain ⟨rfl, rfl⟩ := hgranted t mode' (heq ▸ hheld)
    exact hmode.elim
  · rw [Function.update_of_ne hu]
    exact heq

end Locks

end Foundation
