import Sylar.Foundation.Run
import Mathlib.Data.Set.Finite.Basic
import Mathlib.Logic.Function.Basic
import Mathlib.Logic.Relation
import Mathlib.Order.Preorder.Finite
import Mathlib.Order.WithBot

/-!
# Programs with scoped locks

Threads run programs that hold a lock for the length of a block, as guard
objects do: the lock is requested where the block begins and released where it
is left, in whatever way.  What a program reads from memory shared with other
threads is taken to be any value of its type, so that the interleavings of the
programs cover those of every program that computes with such values.

Locks are ranked.  `Above b p` says that `p` only requests locks ranked above
`b`, and within a block only locks ranked above that of the block.  A system
whose threads run such programs from nothing held does not deadlock:

* `request_above`: a lock is requested above all that the thread holds;
* `not_circular`: no cycle of threads waits for one another's locks;
* `progress`: some thread at work can go on.
-/

namespace Foundation

/-- How a lock is held: together with others that share it, or alone. -/
inductive Mode
  | shared
  | exclusive
deriving DecidableEq, Repr

/-- A program over locks `L` with a result in `α`. -/
inductive Prog (L : Type) : Type → Type 1
  /-- The program returns. -/
  | pure {α : Type} (a : α) : Prog L α
  /-- A block under a lock, and what follows it. -/
  | scope {α β : Type} (l : L) (mode : Mode) (body : Prog L β) (next : β → Prog L α) : Prog L α
  /-- Some value is read. -/
  | choose {α ι : Type} (h : Nonempty ι) (next : ι → Prog L α) : Prog L α

namespace Prog

variable {L : Type} {α β : Type}

/-- One program after another. -/
protected def bind : Prog L α → (α → Prog L β) → Prog L β
  | .pure a, f => f a
  | .scope l mode body next, f => .scope l mode body fun b ↦ (next b).bind f
  | .choose h next, f => .choose h fun i ↦ (next i).bind f

instance : Monad (Prog L) where
  pure := .pure
  bind := .bind

section Above

variable {R : Type} [Preorder R] (rank : L → R)

/-- All locks that are requested are ranked above `b`, and above those requested
before them that are still held. -/
def Above {α : Type} : WithBot R → Prog L α → Prop
  | _, .pure _ => True
  | b, .scope l _ body next => b < rank l ∧ body.Above (rank l) ∧ ∀ x, (next x).Above b
  | b, .choose _ next => ∀ i, (next i).Above b

variable {rank} {b c : WithBot R}

theorem Above.mono {p : Prog L α} (h : p.Above rank b) (hc : c ≤ b) : p.Above rank c := by
  induction p generalizing b c with
  | pure a => exact trivial
  | scope l mode body next _ ih =>
      obtain ⟨hl, hbody, hnext⟩ := h
      exact ⟨lt_of_le_of_lt hc hl, hbody, fun x ↦ ih x (hnext x) hc⟩
  | choose _ next ih => exact fun i ↦ ih i (h i) hc

theorem Above.bind {p : Prog L α} {f : α → Prog L β} (h : p.Above rank b)
    (hf : ∀ a, (f a).Above rank b) : (p >>= f).Above rank b := by
  induction p with
  | pure a => exact hf a
  | scope l mode body next _ ih =>
      obtain ⟨hl, hbody, hnext⟩ := h
      exact ⟨hl, hbody, fun x ↦ ih x (hnext x) hf⟩
  | choose _ next ih => exact fun i ↦ ih i (h i) hf

end Above

end Prog

/-! ## Programs that throw -/

/-- Programs that return or throw. -/
abbrev Throwing (ε L : Type) := ExceptT ε (Prog L)

namespace Throwing

variable {ε L : Type} {α β ι : Type}

/-- A block under a lock.  The lock is released when the block throws. -/
def lock (l : L) (mode : Mode) (body : Throwing ε L α) : Throwing ε L α :=
  .mk (.scope l mode body.run .pure)

/-- Any value of a type. -/
def any (ι : Type) [h : Nonempty ι] : Throwing ε L ι := .mk (.choose h fun i ↦ .pure (.ok i))

/-- What is done on the way out, whether the first program returns or throws. -/
def finish (x : Throwing ε L α) (last : Throwing ε L Unit) : Throwing ε L α := do
  let a ← tryCatch x fun e ↦ do
    last
    throw e
  last
  return a

section Above

variable {R : Type} [Preorder R] (rank : L → R)

/-- `Prog.Above` for programs that throw. -/
def Above (b : WithBot R) (x : Throwing ε L α) : Prop := x.run.Above rank b

variable {rank} {b c : WithBot R}

theorem Above.mono {x : Throwing ε L α} (h : x.Above rank b) (hc : c ≤ b) : x.Above rank c :=
  Prog.Above.mono h hc

theorem above_pure (a : α) : (pure a : Throwing ε L α).Above rank b := trivial

theorem above_throw (e : ε) : (throw e : Throwing ε L α).Above rank b := trivial

theorem above_any [Nonempty ι] : (any ι : Throwing ε L ι).Above rank b := fun _ ↦ trivial

theorem Above.bind {x : Throwing ε L α} {f : α → Throwing ε L β} (h : x.Above rank b)
    (hf : ∀ a, (f a).Above rank b) : (x >>= f).Above rank b := by
  refine Prog.Above.bind h fun r ↦ ?_
  cases r with
  | ok a => exact hf a
  | error e => exact trivial

theorem Above.tryCatch {x : Throwing ε L α} {f : ε → Throwing ε L α} (h : x.Above rank b)
    (hf : ∀ e, (f e).Above rank b) : (tryCatch x f).Above rank b := by
  refine Prog.Above.bind h fun r ↦ ?_
  cases r with
  | ok a => exact trivial
  | error e => exact hf e

theorem Above.finish {x : Throwing ε L α} {last : Throwing ε L Unit} (h : x.Above rank b)
    (hlast : last.Above rank b) : (x.finish last).Above rank b :=
  (h.tryCatch fun e ↦ hlast.bind fun _ ↦ above_throw e).bind fun a ↦
    hlast.bind fun _ ↦ above_pure a

theorem Above.lock {l : L} {mode : Mode} {x : Throwing ε L α} (h : x.Above rank (rank l))
    (hl : b < rank l) : (x.lock l mode).Above rank b :=
  ⟨hl, h, fun _ ↦ trivial⟩

theorem Above.ite {p : Prop} [Decidable p] {x y : Throwing ε L α} (hx : x.Above rank b)
    (hy : y.Above rank b) : (if p then x else y).Above rank b := by
  split
  · exact hx
  · exact hy

theorem above_forM {f : ι → Throwing ε L PUnit} (hf : ∀ i, (f i).Above rank b) (is : List ι) :
    (is.forM f).Above rank b := by
  induction is with
  | nil => exact trivial
  | cons i is ih => exact (hf i).bind fun _ ↦ ih

end Above

end Throwing

/-! ## Threads -/

/-- The blocks a thread is in, the innermost first, with what follows each. -/
inductive Blocks (L : Type) : Type → Type 1
  | nil : Blocks L Unit
  | cons {α β : Type} (l : L) (mode : Mode) (next : β → Prog L α) (rest : Blocks L α) : Blocks L β

/-- A thread: what is left of the innermost block, and the blocks around it. -/
structure Worker (L : Type) where
  {α : Type}
  prog : Prog L α
  blocks : Blocks L α

/-- What a step of a thread does to the locks. -/
inductive Action (L : Type)
  | acquire (l : L) (mode : Mode)
  | release (l : L)
  | run

/-- The locks of some blocks. -/
def Blocks.held {L α : Type} : Blocks L α → List (L × Mode)
  | .nil => []
  | .cons l mode _ rest => (l, mode) :: rest.held

namespace Worker

variable {L : Type}

/-- The thread runs nothing. -/
def idle : Worker L := ⟨.pure (), .nil⟩

/-- The locks the thread holds. -/
def held (th : Worker L) : List (L × Mode) := th.blocks.held

/-- The lock the thread requests. -/
def request : Worker L → Option (L × Mode)
  | ⟨.scope l mode _ _, _⟩ => some (l, mode)
  | _ => none

/-- The steps of a thread that runs programs of `ops`. -/
inductive Step (ops : Set (Prog L Unit)) : Worker L → Action L → Worker L → Prop
  | start {p : Prog L Unit} : p ∈ ops → Step ops idle .run ⟨p, .nil⟩
  | choose {α ι : Type} {h : Nonempty ι} {next : ι → Prog L α} {bs : Blocks L α} (i : ι) :
      Step ops ⟨.choose h next, bs⟩ .run ⟨next i, bs⟩
  | acquire {α β : Type} {l : L} {mode : Mode} {body : Prog L β} {next : β → Prog L α}
      {bs : Blocks L α} :
      Step ops ⟨.scope l mode body next, bs⟩ (.acquire l mode) ⟨body, .cons l mode next bs⟩
  | release {α β : Type} {l : L} {mode : Mode} {b : β} {next : β → Prog L α} {bs : Blocks L α} :
      Step ops ⟨.pure b, .cons l mode next bs⟩ (.release l) ⟨next b, bs⟩

variable {ops : Set (Prog L Unit)} {th th' : Worker L} {a : Action L} {l : L} {mode : Mode}

/-- A thread that is granted what it requests goes on. -/
theorem exists_step (ops : Set (Prog L Unit)) (h : th ≠ idle) :
    ∃ a th', th.Step ops a th' ∧ ∀ l mode, a = .acquire l mode → th.request = some (l, mode) := by
  obtain ⟨prog, bs⟩ := th
  cases prog with
  | pure b =>
      cases bs with
      | nil => exact absurd rfl h
      | cons l mode next bs => exact ⟨_, _, .release, nofun⟩
  | scope l mode body next =>
      refine ⟨_, _, .acquire, ?_⟩
      rintro _ _ ⟨⟩
      rfl
  | choose hι next =>
      obtain ⟨i⟩ := hι
      exact ⟨_, _, .choose i, nofun⟩

end Worker

section Above

variable {L R : Type} [Preorder R] (rank : L → R)

/-- The rank of the innermost lock. -/
def Blocks.top {α : Type} : Blocks L α → WithBot R
  | .nil => ⊥
  | .cons l _ _ _ => rank l

/-- The locks of the blocks are ranked from the outermost up, and what follows a
block only requests locks above those around it. -/
def Blocks.Above {α : Type} : Blocks L α → Prop
  | .nil => True
  | .cons l _ next rest =>
      rest.top rank < rank l ∧ (∀ x, (next x).Above rank (rest.top rank)) ∧ rest.Above

/-- The locks of a thread are ranked, and it only requests locks above them. -/
structure Worker.Above (th : Worker L) : Prop where
  prog : th.prog.Above rank (th.blocks.top rank)
  blocks : th.blocks.Above rank

variable {rank}

theorem Blocks.Above.le_top {α : Type} {bs : Blocks L α} (h : bs.Above rank) {x : L × Mode}
    (hx : x ∈ bs.held) : (rank x.1 : WithBot R) ≤ bs.top rank := by
  induction bs with
  | nil => cases hx
  | cons l mode next rest ih =>
      obtain ⟨hl, -, hrest⟩ := h
      rcases List.mem_cons.mp hx with rfl | hx
      · exact le_refl _
      · exact (ih hrest hx).trans hl.le

namespace Worker

variable {ops : Set (Prog L Unit)} {th th' : Worker L} {a : Action L} {l l' : L}
variable {mode mode' : Mode}

theorem idle_above : (idle : Worker L).Above rank := ⟨trivial, trivial⟩

/-- What a thread requests is ranked above what it holds. -/
theorem Above.request_lt (h : th.Above rank) (hreq : th.request = some (l, mode))
    (hheld : (l', mode') ∈ th.held) : rank l' < rank l := by
  obtain ⟨prog, bs⟩ := th
  cases prog with
  | pure b => cases hreq
  | choose hι next => cases hreq
  | scope l mode body next =>
      cases hreq
      exact WithBot.coe_lt_coe.mp (lt_of_le_of_lt (h.blocks.le_top hheld) h.prog.1)

/-- **Step lemma.** -/
theorem Above.step (hops : ∀ p ∈ ops, p.Above rank ⊥) (h : th.Above rank)
    (hs : th.Step ops a th') : th'.Above rank := by
  cases hs with
  | start hp => exact ⟨hops _ hp, trivial⟩
  | choose i => exact ⟨h.prog i, h.blocks⟩
  | acquire =>
      obtain ⟨hl, hbody, hnext⟩ := h.prog
      exact ⟨hbody, hl, hnext, h.blocks⟩
  | release =>
      obtain ⟨-, hnext, hrest⟩ := h.blocks
      exact ⟨hnext _, hrest⟩

end Worker

end Above

/-! ## Systems of threads -/

namespace Locks

variable {L T : Type}

/-- The lock that is acquired, if any, can be held together with what is held. -/
def Granted (s : T → Worker L) : Action L → Prop
  | .acquire l mode =>
      ∀ t mode', (l, mode') ∈ (s t).held → mode = .shared ∧ mode' = .shared
  | _ => True

/-- The steps of a system: one thread takes a step. -/
inductive Step [DecidableEq T] (ops : Set (Prog L Unit)) :
    (T → Worker L) → T × Action L → (T → Worker L) → Prop
  | mk {s : T → Worker L} {t : T} {a : Action L} {th : Worker L} :
      (s t).Step ops a th → Granted s a → Step ops s (t, a) (Function.update s t th)

/-- A thread requests a lock that another holds. -/
def Waits (s : T → Worker L) (t u : T) : Prop :=
  ∃ l mode mode', (s t).request = some (l, mode) ∧ (l, mode') ∈ (s u).held

variable {R : Type} [Preorder R] {rank : L → R} {ops : Set (Prog L Unit)} {s : T → Worker L}
variable {tr : List (T × Action L)} {t u : T} {l l' : L} {mode mode' : Mode}

/-- **Run lemma.** -/
theorem above_of_run [DecidableEq T] (hops : ∀ p ∈ ops, p.Above rank ⊥)
    (h : Run (Step ops) (fun _ : T ↦ .idle) tr s) : ∀ t, (s t).Above rank := by
  refine h.invariant (I := fun s ↦ ∀ t, (s t).Above rank) ?_ fun _ ↦ Worker.idle_above
  rintro s _ _ hs ⟨hstep, -⟩ u
  rename_i t a th
  by_cases hu : u = t
  · subst hu
    rw [Function.update_self]
    exact (hs u).step hops hstep
  · rw [Function.update_of_ne hu]
    exact hs u

/-- A chain of threads that wait ends at a lock ranked no lower than the one that
is requested at its start. -/
theorem le_of_waits (hs : ∀ t, (s t).Above rank) (h : Relation.TransGen (Waits s) t u) :
    ∃ l mode l' mode', (s t).request = some (l, mode) ∧ (l', mode') ∈ (s u).held ∧
      rank l ≤ rank l' := by
  induction h with
  | single hw =>
      obtain ⟨l, mode, mode', hreq, hheld⟩ := hw
      exact ⟨l, mode, l, mode', hreq, hheld, le_refl _⟩
  | tail _ hw ih =>
      obtain ⟨l, mode, l', mode', hreq, hheld, hle⟩ := ih
      obtain ⟨l'', mode₂, mode₃, hreq', hheld'⟩ := hw
      exact ⟨l, mode, l'', mode₃, hreq, hheld', hle.trans ((hs _).request_lt hreq' hheld).le⟩

/-- No cycle of threads waits for one another's locks. -/
theorem not_circular (hs : ∀ t, (s t).Above rank) (t : T) :
    ¬ Relation.TransGen (Waits s) t t := by
  intro h
  obtain ⟨l, mode, l', mode', hreq, hheld, hle⟩ := le_of_waits hs h
  exact absurd ((hs t).request_lt hreq hheld) (not_lt_of_ge hle)

/-- Only finitely many threads are at work. -/
theorem finite_of_run [DecidableEq T] (h : Run (Step ops) (fun _ : T ↦ .idle) tr s) :
    {t | s t ≠ .idle}.Finite := by
  refine h.invariant (I := fun s ↦ {t | s t ≠ .idle}.Finite) ?_ (by simp)
  rintro s _ _ hs ⟨hstep, -⟩
  rename_i t a th
  refine (hs.insert t).subset fun u hu ↦ ?_
  by_cases hut : u = t
  · exact .inl hut
  · exact .inr (by simpa [Function.update_of_ne hut] using hu)

/-- Of the threads at work, some does not wait. -/
theorem exists_not_waits (hs : ∀ t, (s t).Above rank) (hfin : {t | s t ≠ .idle}.Finite)
    (hbusy : s t ≠ .idle) : ∃ u, s u ≠ .idle ∧ ∀ v, ¬ Waits s u v := by
  by_contra hall
  push Not at hall
  -- the thread whose request is ranked highest waits for one that requests a lock ranked
  -- above what it holds
  obtain ⟨u, hu, hmax⟩ := hfin.exists_maximalFor
    (fun u ↦ (s u).request.elim (⊥ : WithBot R) fun x ↦ rank x.1) _ ⟨t, hbusy⟩
  obtain ⟨v, l, mode, mode', hreq, hheld⟩ := hall u hu
  have hv : s v ≠ .idle := by
    intro h
    rw [h] at hheld
    cases hheld
  obtain ⟨w, l', mode₂, mode₃, hreq', -⟩ := hall v hv
  have hlt : (rank l : WithBot R) < rank l' :=
    WithBot.coe_lt_coe.mpr ((hs v).request_lt hreq' hheld)
  have hle := hmax hv
  simp only [hreq, hreq', Option.elim_some] at hle
  exact absurd (hle hlt.le) (not_le_of_gt hlt)

/-- **Progress.**  As long as threads are at work, some of them can go on. -/
theorem progress [DecidableEq T] (hs : ∀ t, (s t).Above rank) (hfin : {t | s t ≠ .idle}.Finite)
    (hbusy : s t ≠ .idle) : ∃ u a s', s u ≠ .idle ∧ Step ops s (u, a) s' := by
  obtain ⟨u, hu, hfree⟩ := exists_not_waits hs hfin hbusy
  obtain ⟨a, th, hstep, hacq⟩ := Worker.exists_step ops hu
  refine ⟨u, a, _, hu, .mk hstep ?_⟩
  cases a with
  | acquire l mode =>
      intro v mode' hheld
      exact absurd ⟨l, mode, mode', hacq l mode rfl, hheld⟩ (hfree v)
  | release l => trivial
  | run => trivial

end Locks

end Foundation
