import Sylar.Foundation.Run
import Mathlib.Data.List.Nodup
import Mathlib.Logic.Function.Basic

/-!
# Asymmetric coroutines

A resumer and a family of coroutines named by `ι`.  The resumer starts or
continues one coroutine at a time; a running coroutine gives control back by
suspending itself or by finishing.  Nothing is said about how control is
transferred: a point of execution is just the number of the operation that was
left there, so "it goes on right after its own last suspension" is a statement
about numbers of operations.

The four facts a client wants are

* `started_last_install`: a coroutine that is started runs the body installed
  last;
* `continued_last_suspend`: a continued coroutine goes on at its own latest
  suspension;
* `returned_last_resume`: control comes back to the resumer at the resumption
  that gave it away;
* `starts_nodup`: a body is started at most once for each time it was installed.
-/

universe u v

namespace Foundation.Coroutine

/-- What a coroutine would do if it were resumed now. -/
inductive Status (κ : Type v) where
  /-- It would start its body. -/
  | fresh (body : κ)
  /-- It would go on after the suspension it made in operation `point`. -/
  | suspended (point : Nat)
  /-- It is running already. -/
  | running
  /-- It has run to its end. -/
  | finished

/-- The operations of the resumer and of the coroutines. -/
inductive Op (ι : Type u) (κ : Type v) where
  /-- A new coroutine with a body. -/
  | create (i : ι) (body : κ)
  /-- A new body for a coroutine that is fresh or finished. -/
  | renew (i : ι) (body : κ)
  | resume (i : ι)
  | suspend
  | finish
  /-- Anything that moves no control. -/
  | other

/-- Where control is after an operation. -/
inductive Outcome (ι : Type u) (κ : Type v) where
  /-- Still with the party that performed the operation. -/
  | proceeds
  | started (i : ι) (body : κ)
  | continued (i : ι) (point : Nat)
  | returned (point : Nat)

/-- One operation as observed: its number, the party performing it (`none` is
the resumer), the operation and its outcome. -/
structure Label (ι : Type u) (κ : Type v) where
  time : Nat
  who : Option ι
  op : Op ι κ
  out : Outcome ι κ

/-- The state of all coroutines. -/
structure System (ι : Type u) (κ : Type v) where
  status : ι → Option (Status κ)
  /-- The running coroutine and the number of the operation that resumed it. -/
  active : Option (ι × Nat)
  clock : Nat

variable {ι : Type u} {κ : Type v} [DecidableEq ι]

namespace System

/-- No coroutine exists yet. -/
def empty : System ι κ := ⟨fun _ ↦ none, none, 0⟩

/-- One coroutine changes its status, control moves, time passes. -/
def advance (S : System ι κ) (i : ι) (st : Status κ) (active : Option (ι × Nat)) :
    System ι κ :=
  ⟨Function.update S.status i (some st), active, S.clock + 1⟩

/-- Nothing changes but the time. -/
def tick (S : System ι κ) : System ι κ := { S with clock := S.clock + 1 }

@[simp] theorem advance_status_self (S : System ι κ) (i : ι) (st : Status κ)
    (a : Option (ι × Nat)) : (S.advance i st a).status i = some st := by
  simp [advance]

@[simp] theorem advance_status_ne (S : System ι κ) {i j : ι} (h : j ≠ i) (st : Status κ)
    (a : Option (ι × Nat)) : (S.advance i st a).status j = S.status j := by
  simp [advance, h]

/-- A status after the step is the new one or was there before. -/
theorem advance_cases {S : System ι κ} {i j : ι} {st st' : Status κ} {a : Option (ι × Nat)}
    (h : (S.advance i st a).status j = some st') :
    j = i ∧ st' = st ∨ j ≠ i ∧ S.status j = some st' := by
  by_cases hji : j = i
  · subst hji
    rw [advance_status_self, Option.some.injEq] at h
    exact .inl ⟨rfl, h.symm⟩
  · rw [advance_status_ne S hji] at h
    exact .inr ⟨hji, h⟩

@[simp] theorem advance_active (S : System ι κ) (i : ι) (st : Status κ)
    (a : Option (ι × Nat)) : (S.advance i st a).active = a := rfl

@[simp] theorem advance_clock (S : System ι κ) (i : ι) (st : Status κ)
    (a : Option (ι × Nat)) : (S.advance i st a).clock = S.clock + 1 := rfl

end System

/-- The party that performs the next operation. -/
def System.party (S : System ι κ) : Option ι := S.active.map Prod.fst

/-- One operation of a coroutine system. -/
inductive Step : System ι κ → Label ι κ → System ι κ → Prop
  | create {S : System ι κ} {i : ι} (body : κ) : S.status i = none →
      Step S ⟨S.clock, S.party, .create i body, .proceeds⟩ (S.advance i (.fresh body) S.active)
  | renewFresh {S : System ι κ} {i : ι} {old : κ} (body : κ) :
      S.status i = some (.fresh old) →
      Step S ⟨S.clock, S.party, .renew i body, .proceeds⟩ (S.advance i (.fresh body) S.active)
  | renewFinished {S : System ι κ} {i : ι} (body : κ) : S.status i = some .finished →
      Step S ⟨S.clock, S.party, .renew i body, .proceeds⟩ (S.advance i (.fresh body) S.active)
  | start {S : System ι κ} {i : ι} {body : κ} : S.active = none →
      S.status i = some (.fresh body) →
      Step S ⟨S.clock, none, .resume i, .started i body⟩
        (S.advance i .running (some (i, S.clock)))
  | goOn {S : System ι κ} {i : ι} {k : Nat} : S.active = none →
      S.status i = some (.suspended k) →
      Step S ⟨S.clock, none, .resume i, .continued i k⟩
        (S.advance i .running (some (i, S.clock)))
  | suspend {S : System ι κ} {i : ι} {k : Nat} : S.active = some (i, k) →
      Step S ⟨S.clock, some i, .suspend, .returned k⟩ (S.advance i (.suspended S.clock) none)
  | finish {S : System ι κ} {i : ι} {k : Nat} : S.active = some (i, k) →
      Step S ⟨S.clock, some i, .finish, .returned k⟩ (S.advance i .finished none)
  | other {S : System ι κ} : Step S ⟨S.clock, S.party, .other, .proceeds⟩ S.tick

/-! ## What a trace says about a coroutine -/

namespace Label

/-- The operation installs a body in `i`. -/
def Installs (i : ι) (l : Label ι κ) : Prop :=
  ∃ body, l.op = .create i body ∨ l.op = .renew i body

/-- The operation is a suspension `i` makes of itself. -/
def SuspendsSelf (i : ι) (l : Label ι κ) : Prop := l.who = some i ∧ l.op = .suspend

/-- The operation resumes `i`. -/
def Resumes (i : ι) (l : Label ι κ) : Prop := l.op = .resume i

/-- The body an operation installs. -/
def installed (l : Label ι κ) : Option κ :=
  match l.op with
  | .create _ body | .renew _ body => some body
  | _ => none

/-- The body an operation starts. -/
def startedBody (l : Label ι κ) : Option κ :=
  match l.out with
  | .started _ body => some body
  | _ => none

end Label

/-- The statuses and the active coroutine agree with what the trace says
happened last. -/
structure Consistent (tr : List (Label ι κ)) (S : System ι κ) : Prop where
  running_active : ∀ i, S.status i = some .running → ∃ k, S.active = some (i, k)
  active_running : ∀ i k, S.active = some (i, k) → S.status i = some .running
  fresh_last : ∀ i c, S.status i = some (.fresh c) →
    ∃ l, Last (Label.Installs i) tr l ∧ l.installed = some c
  suspended_last : ∀ i k, S.status i = some (.suspended k) →
    ∃ l, Last (Label.SuspendsSelf i) tr l ∧ l.time = k
  active_last : ∀ i k, S.active = some (i, k) →
    ∃ l, Last (Label.Resumes i) tr l ∧ l.time = k

namespace Consistent

variable {tr : List (Label ι κ)} {S : System ι κ} {x : Label ι κ}

-- a status or resumption that the operation leaves alone keeps its latest label
omit [DecidableEq ι] in
theorem fresh_later (h : Consistent tr S) {i : ι} {c : κ} (hx : ¬ Label.Installs i x)
    (hi : S.status i = some (.fresh c)) :
    ∃ l, Last (Label.Installs i) (tr ++ [x]) l ∧ l.installed = some c := by
  obtain ⟨l, hl, hc⟩ := h.fresh_last i c hi
  exact ⟨l, hl.later hx, hc⟩

omit [DecidableEq ι] in
theorem suspended_later (h : Consistent tr S) {i : ι} {k : Nat} (hx : ¬ Label.SuspendsSelf i x)
    (hi : S.status i = some (.suspended k)) :
    ∃ l, Last (Label.SuspendsSelf i) (tr ++ [x]) l ∧ l.time = k := by
  obtain ⟨l, hl, ht⟩ := h.suspended_last i k hi
  exact ⟨l, hl.later hx, ht⟩

omit [DecidableEq ι] in
theorem active_later (h : Consistent tr S) {i : ι} {k : Nat} (hx : ¬ Label.Resumes i x)
    (hi : S.active = some (i, k)) :
    ∃ l, Last (Label.Resumes i) (tr ++ [x]) l ∧ l.time = k := by
  obtain ⟨l, hl, ht⟩ := h.active_last i k hi
  exact ⟨l, hl.later hx, ht⟩

/-- A body is installed, by a creation or a renewal. -/
theorem install (h : Consistent tr S) {j : ι} {body : κ} (hj : S.status j ≠ some .running)
    (hop : x.op = .create j body ∨ x.op = .renew j body) :
    Consistent (tr ++ [x]) (S.advance j (.fresh body) S.active) := by
  have hsusp : ∀ i, ¬ Label.SuspendsSelf i x := by
    rintro i ⟨_, hx⟩
    rcases hop with hop | hop <;> simp [hop] at hx
  have hres : ∀ i, ¬ Label.Resumes i x := by
    intro i hx
    rcases hop with hop | hop <;> simp [Label.Resumes, hop] at hx
  have hne : ∀ i k, S.active = some (i, k) → i ≠ j := fun i k hi he ↦
    hj (he ▸ h.active_running i k hi)
  refine ⟨fun i hi ↦ ?_, fun i k hi ↦ ?_, fun i c hi ↦ ?_, fun i k hi ↦ ?_,
    fun i k hi ↦ h.active_later (hres i) hi⟩
  · rcases System.advance_cases hi with ⟨_, hst⟩ | ⟨_, hi⟩
    · cases hst
    · exact h.running_active i hi
  · rw [System.advance_status_ne _ (hne i k hi)]
    exact h.active_running i k hi
  · rcases System.advance_cases hi with ⟨rfl, hst⟩ | ⟨hij, hi⟩
    · cases hst
      refine ⟨x, Last.here ⟨body, hop⟩, ?_⟩
      rcases hop with hop | hop <;> simp [Label.installed, hop]
    · refine h.fresh_later ?_ hi
      rintro ⟨b, hb⟩
      rcases hop with hop | hop <;> simp [hop, Ne.symm hij] at hb
  · rcases System.advance_cases hi with ⟨_, hst⟩ | ⟨_, hi⟩
    · cases hst
    · exact h.suspended_later (hsusp i) hi

/-- The resumer gives control to a coroutine. -/
theorem give (h : Consistent tr S) {j : ι} (ha : S.active = none) (hx : x.op = .resume j)
    (ht : x.time = S.clock) :
    Consistent (tr ++ [x]) (S.advance j .running (some (j, S.clock))) := by
  refine ⟨fun i hi ↦ ?_, fun i k hi ↦ ?_, fun i c hi ↦ ?_, fun i k hi ↦ ?_, fun i k hi ↦ ?_⟩
  · rcases System.advance_cases hi with ⟨rfl, _⟩ | ⟨_, hi⟩
    · exact ⟨S.clock, rfl⟩
    · obtain ⟨k, hk⟩ := h.running_active i hi
      simp [ha] at hk
  · simp only [System.advance_active, Option.some.injEq, Prod.mk.injEq] at hi
    simp [← hi.1]
  · rcases System.advance_cases hi with ⟨_, hst⟩ | ⟨_, hi⟩
    · cases hst
    · exact h.fresh_later (by simp [Label.Installs, hx]) hi
  · rcases System.advance_cases hi with ⟨_, hst⟩ | ⟨_, hi⟩
    · cases hst
    · exact h.suspended_later (by simp [Label.SuspendsSelf, hx]) hi
  · simp only [System.advance_active, Option.some.injEq, Prod.mk.injEq] at hi
    exact ⟨x, Last.here (by rw [Label.Resumes, hx, hi.1]), by rw [ht, hi.2]⟩

/-- The active coroutine gives control back, with a status that is neither
running nor fresh. -/
theorem take (h : Consistent tr S) {j : ι} {k : Nat} {st : Status κ}
    (ha : S.active = some (j, k)) (hrun : st ≠ .running) (hfresh : ∀ c, st ≠ .fresh c)
    (hins : ∀ i, ¬ Label.Installs i x)
    (hsusp : ∀ n, st = .suspended n → Label.SuspendsSelf j x ∧ x.time = n)
    (hothers : ∀ i, i ≠ j → ¬ Label.SuspendsSelf i x) :
    Consistent (tr ++ [x]) (S.advance j st none) := by
  refine ⟨fun i hi ↦ ?_, fun i n hi ↦ by simp at hi, fun i c hi ↦ ?_, fun i n hi ↦ ?_,
    fun i n hi ↦ by simp at hi⟩
  · rcases System.advance_cases hi with ⟨_, rfl⟩ | ⟨hij, hi⟩
    · exact absurd rfl hrun
    · obtain ⟨n, hn⟩ := h.running_active i hi
      rw [ha, Option.some.injEq, Prod.mk.injEq] at hn
      exact absurd hn.1.symm hij
  · rcases System.advance_cases hi with ⟨_, rfl⟩ | ⟨_, hi⟩
    · exact absurd rfl (hfresh c)
    · exact h.fresh_later (hins i) hi
  · rcases System.advance_cases hi with ⟨rfl, rfl⟩ | ⟨hij, hi⟩
    · obtain ⟨hp, ht⟩ := hsusp n rfl
      exact ⟨x, Last.here hp, ht⟩
    · exact h.suspended_later (hothers i hij) hi

theorem step {S' : System ι κ} (h : Consistent tr S) (hs : Step S x S') :
    Consistent (tr ++ [x]) S' := by
  cases hs with
  | create body hi => exact h.install (by simp [hi]) (.inl rfl)
  | renewFresh body hi => exact h.install (by simp [hi]) (.inr rfl)
  | renewFinished body hi => exact h.install (by simp [hi]) (.inr rfl)
  | start ha _ => exact h.give ha rfl rfl
  | goOn ha _ => exact h.give ha rfl rfl
  | suspend ha =>
      refine h.take ha (by simp) (by simp) (by simp [Label.Installs])
        (fun n hn ↦ ⟨⟨rfl, rfl⟩, Status.suspended.inj hn⟩) ?_
      rintro i hne ⟨hw, _⟩
      exact hne (Option.some.inj hw).symm
  | finish ha =>
      exact h.take ha (by simp) (by simp) (by simp [Label.Installs]) (by simp)
        (by simp [Label.SuspendsSelf])
  | other =>
      exact ⟨h.running_active, h.active_running,
        fun i c hi ↦ h.fresh_later (by simp [Label.Installs]) hi,
        fun i k hi ↦ h.suspended_later (by simp [Label.SuspendsSelf]) hi,
        fun i k hi ↦ h.active_later (by simp [Label.Resumes]) hi⟩

end Consistent

/-- Every run from the empty system is consistent. -/
theorem consistent_of_run {tr : List (Label ι κ)} {S : System ι κ}
    (h : Run Step System.empty tr S) : Consistent tr S := by
  refine h.history ⟨by simp [System.empty], by simp [System.empty], by simp [System.empty],
    by simp [System.empty], by simp [System.empty]⟩ fun tr S l S' _ hc hs ↦ hc.step hs

/-- A coroutine that is started runs the body installed last. -/
theorem started_last_install {tr : List (Label ι κ)} {S S' : System ι κ} {l : Label ι κ}
    (h : Run Step System.empty tr S) (hs : Step S l S') {i : ι} {c : κ}
    (hl : l.out = .started i c) :
    ∃ l', Last (Label.Installs i) tr l' ∧ l'.installed = some c := by
  cases hs with
  | start _ hi =>
      simp only [Outcome.started.injEq] at hl
      obtain ⟨rfl, rfl⟩ := hl
      exact (consistent_of_run h).fresh_last _ _ hi
  | create | renewFresh | renewFinished | goOn | suspend | finish | other => simp at hl

/-- A continued coroutine goes on at its own latest suspension. -/
theorem continued_last_suspend {tr : List (Label ι κ)} {S S' : System ι κ} {l : Label ι κ}
    (h : Run Step System.empty tr S) (hs : Step S l S') {i : ι} {k : Nat}
    (hl : l.out = .continued i k) :
    ∃ l', Last (Label.SuspendsSelf i) tr l' ∧ l'.time = k := by
  cases hs with
  | goOn _ hi =>
      simp only [Outcome.continued.injEq] at hl
      obtain ⟨rfl, rfl⟩ := hl
      exact (consistent_of_run h).suspended_last _ _ hi
  | create | renewFresh | renewFinished | start | suspend | finish | other => simp at hl

/-- Control returns to the resumer at the operation that resumed the party
giving it back. -/
theorem returned_last_resume {tr : List (Label ι κ)} {S S' : System ι κ} {l : Label ι κ}
    (h : Run Step System.empty tr S) (hs : Step S l S') {i : ι} {k : Nat}
    (hw : l.who = some i) (hl : l.out = .returned k) :
    ∃ l', Last (Label.Resumes i) tr l' ∧ l'.time = k := by
  cases hs with
  | suspend ha =>
      simp only [Option.some.injEq, Outcome.returned.injEq] at hw hl
      subst hw hl
      exact (consistent_of_run h).active_last _ _ ha
  | finish ha =>
      simp only [Option.some.injEq, Outcome.returned.injEq] at hw hl
      subst hw hl
      exact (consistent_of_run h).active_last _ _ ha
  | create | renewFresh | renewFinished | start | goOn | other => simp at hl

/-! ## Numbering -/

/-- The operations of a run are numbered in order. -/
theorem times_eq_range {tr : List (Label ι κ)} {S : System ι κ}
    (h : Run Step System.empty tr S) : tr.map Label.time = List.range tr.length := by
  have key : tr.map Label.time = List.range tr.length ∧ S.clock = tr.length := by
    refine h.history (P := fun tr S ↦
      tr.map Label.time = List.range tr.length ∧ S.clock = tr.length)
      ⟨rfl, rfl⟩ fun tr S l S' _ ih hs ↦ ?_
    have htime : l.time = S.clock := by cases hs <;> rfl
    have hclock : S'.clock = S.clock + 1 := by cases hs <;> rfl
    simp [List.range_succ, ih.1, htime, hclock, ih.2]
  exact key.1

/-! ## Each body starts at most once -/

/-- The bodies a trace installs, in order. -/
def installs (tr : List (Label ι κ)) : List κ := tr.filterMap Label.installed

/-- The bodies a trace starts, in order. -/
def starts (tr : List (Label ι κ)) : List κ := tr.filterMap Label.startedBody

omit [DecidableEq ι] in
@[simp] theorem installs_snoc (tr : List (Label ι κ)) (l : Label ι κ) :
    installs (tr ++ [l]) = installs tr ++ l.installed.toList := by
  cases h : l.installed <;> simp [installs, h]

omit [DecidableEq ι] in
@[simp] theorem starts_snoc (tr : List (Label ι κ)) (l : Label ι κ) :
    starts (tr ++ [l]) = starts tr ++ l.startedBody.toList := by
  cases h : l.startedBody <;> simp [starts, h]

/-- The installed bodies that have not been started are those of the fresh
coroutines. -/
structure Accounted (tr : List (Label ι κ)) (S : System ι κ) : Prop where
  nodup : (starts tr).Nodup
  subset : ∀ c ∈ starts tr, c ∈ installs tr
  fresh_installed : ∀ i c, S.status i = some (.fresh c) → c ∈ installs tr
  fresh_unstarted : ∀ i c, S.status i = some (.fresh c) → c ∉ starts tr
  fresh_inj : ∀ i j c, S.status i = some (.fresh c) → S.status j = some (.fresh c) → i = j

namespace Accounted

variable {tr : List (Label ι κ)} {S : System ι κ} {x : Label ι κ}

/-- A body no operation has installed before is installed. -/
theorem install (h : Accounted tr S) {j : ι} {body : κ} (hx : x.installed = some body)
    (hx' : x.startedBody = none) (hnew : body ∉ installs tr) :
    Accounted (tr ++ [x]) (S.advance j (.fresh body) S.active) := by
  have hcases : ∀ i c, (S.advance j (.fresh body) S.active).status i = some (.fresh c) →
      (i = j ∧ c = body) ∨ (i ≠ j ∧ S.status i = some (.fresh c)) := by
    intro i c hi
    exact (System.advance_cases hi).imp_left fun ⟨hij, hst⟩ ↦ ⟨hij, Status.fresh.inj hst⟩
  refine ⟨by simpa [hx'] using h.nodup, fun c hc ↦ ?_, fun i c hi ↦ ?_, fun i c hi ↦ ?_,
    fun i i' c hi hi' ↦ ?_⟩
  · simp only [starts_snoc, hx', Option.toList_none, List.append_nil] at hc
    simp [h.subset c hc]
  · rcases hcases i c hi with ⟨_, rfl⟩ | ⟨_, hi⟩
    · simp [hx]
    · simp [h.fresh_installed i c hi]
  · simp only [starts_snoc, hx', Option.toList_none, List.append_nil]
    rcases hcases i c hi with ⟨_, rfl⟩ | ⟨_, hi⟩
    · exact fun hc ↦ hnew (h.subset c hc)
    · exact h.fresh_unstarted i c hi
  · rcases hcases i c hi with ⟨rfl, rfl⟩ | ⟨_, hold⟩
    · rcases hcases i' _ hi' with ⟨rfl, _⟩ | ⟨_, hold'⟩
      · rfl
      · exact absurd (h.fresh_installed i' _ hold') hnew
    · rcases hcases i' _ hi' with ⟨_, rfl⟩ | ⟨_, hold'⟩
      · exact absurd (h.fresh_installed i _ hold) hnew
      · exact h.fresh_inj i i' c hold hold'

/-- A fresh coroutine is started: its body moves from the fresh ones to the
started ones. -/
theorem start (h : Accounted tr S) {j : ι} {body : κ} {a : Option (ι × Nat)}
    (hj : S.status j = some (.fresh body)) (hx : x.installed = none)
    (hx' : x.startedBody = some body) : Accounted (tr ++ [x]) (S.advance j .running a) := by
  have hold : ∀ i c, (S.advance j .running a).status i = some (.fresh c) →
      i ≠ j ∧ S.status i = some (.fresh c) := by
    intro i c hi
    rcases System.advance_cases hi with ⟨_, hst⟩ | hi
    · cases hst
    · exact hi
  refine ⟨?_, fun c hc ↦ ?_, fun i c hi ↦ ?_, fun i c hi ↦ ?_,
    fun i i' c hi hi' ↦ h.fresh_inj i i' c (hold i c hi).2 (hold i' c hi').2⟩
  · rw [starts_snoc, hx', Option.toList_some, List.nodup_append]
    refine ⟨h.nodup, by simp, fun c hc b hb hcb ↦ ?_⟩
    rw [List.mem_singleton] at hb
    exact h.fresh_unstarted j body hj (hb ▸ hcb ▸ hc)
  · simp only [starts_snoc, hx', Option.toList_some, List.mem_append, List.mem_singleton] at hc
    rcases hc with hc | rfl
    · simp [h.subset c hc]
    · simp [h.fresh_installed j c hj]
  · simpa [hx] using h.fresh_installed i c (hold i c hi).2
  · obtain ⟨hne, hi⟩ := hold i c hi
    simp only [starts_snoc, hx', Option.toList_some, List.mem_append, List.mem_singleton, not_or]
    exact ⟨h.fresh_unstarted i c hi, fun hc ↦ hne (h.fresh_inj i j c hi (hc ▸ hj))⟩

/-- A coroutine takes a status that is not fresh, and nothing is started. -/
theorem move (h : Accounted tr S) {j : ι} {st : Status κ} {a : Option (ι × Nat)}
    (hx : x.installed = none) (hx' : x.startedBody = none) (hst : ∀ c, st ≠ .fresh c) :
    Accounted (tr ++ [x]) (S.advance j st a) := by
  have hold : ∀ i c, (S.advance j st a).status i = some (.fresh c) →
      S.status i = some (.fresh c) := by
    intro i c hi
    rcases System.advance_cases hi with ⟨_, rfl⟩ | ⟨_, hi⟩
    · exact absurd rfl (hst c)
    · exact hi
  refine ⟨by simpa [hx'] using h.nodup, fun c hc ↦ ?_, fun i c hi ↦ ?_, fun i c hi ↦ ?_,
    fun i i' c hi hi' ↦ h.fresh_inj i i' c (hold i c hi) (hold i' c hi')⟩
  · simpa [hx] using h.subset c (by simpa [hx'] using hc)
  · simpa [hx] using h.fresh_installed i c (hold i c hi)
  · simpa [hx'] using h.fresh_unstarted i c (hold i c hi)

theorem step {S' : System ι κ} (h : Accounted tr S) (hn : (installs (tr ++ [x])).Nodup)
    (hs : Step S x S') : Accounted (tr ++ [x]) S' := by
  have hnew : ∀ body, x.installed = some body → body ∉ installs tr := by
    intro body hx hm
    rw [installs_snoc, hx, Option.toList_some, List.nodup_append] at hn
    exact hn.2.2 body hm body (by simp) rfl
  cases hs with
  | create body _ => exact h.install rfl rfl (hnew body rfl)
  | renewFresh body _ => exact h.install rfl rfl (hnew body rfl)
  | renewFinished body _ => exact h.install rfl rfl (hnew body rfl)
  | start _ hi => exact h.start hi rfl rfl
  | goOn _ _ => exact h.move rfl rfl (by simp)
  | suspend _ => exact h.move rfl rfl (by simp)
  | finish _ => exact h.move rfl rfl (by simp)
  | other =>
      refine ⟨by simpa [Label.startedBody] using h.nodup, fun c hc ↦ ?_, fun i c hi ↦ ?_,
        fun i c hi ↦ ?_, h.fresh_inj⟩
      · simpa [Label.installed] using h.subset c (by simpa [Label.startedBody] using hc)
      · simpa [Label.installed] using h.fresh_installed i c hi
      · simpa [Label.startedBody] using h.fresh_unstarted i c hi

end Accounted

/-- If no two installed bodies are the same, each is started at most once. -/
theorem starts_nodup {tr : List (Label ι κ)} {S : System ι κ}
    (h : Run Step System.empty tr S) (hn : (installs tr).Nodup) : (starts tr).Nodup := by
  have key : (installs tr).Nodup → Accounted tr S := by
    refine h.history (P := fun tr S ↦ (installs tr).Nodup → Accounted tr S) (fun _ ↦ ?_)
      fun tr S l S' _ ih hs hn ↦ ?_
    · exact ⟨by simp [starts], by simp [starts], by simp [System.empty],
        by simp [System.empty], by simp [System.empty]⟩
    · have hpre : (installs tr).Nodup := by
        rw [installs_snoc, List.nodup_append] at hn
        exact hn.1
      exact (ih hpre).step hn hs
  exact (key hn).nodup

end Foundation.Coroutine
