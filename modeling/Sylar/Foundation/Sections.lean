import Sylar.Foundation.Interleave
import Sylar.Foundation.Locks

/-!
# Objects behind one lock

Some data, a readers–writer lock, and operations that each hold the lock from their
beginning to their end.  An operation accesses the data step by step, and in between
other threads take steps of their own.  Where the operations that share the lock do
not write, no thread can tell: every run is one in which each operation is performed
at once, at the moment it gives the lock back.

* `Monitor.linearizable`: the operations that have ended, in the order in which they
  ended, are a run of the data alone, with the same results;
* `Monitor.resumes`: each operation that has begun and not ended would end as if it
  were performed at once on the data that run leads to.
-/

universe u v w

namespace Foundation

/-- What an operation does while it holds the lock: accesses to the data, one after
the other.  What follows an access may depend on the data it finds. -/
inductive Section (D : Type u) (R : Type v)
  | done (r : R)
  | access (write : D → D) (next : D → Section D R)

namespace Section

variable {D : Type u} {R S : Type v}

/-- All accesses without interruption. -/
def run : Section D R → D → R × D
  | done r, d => (r, d)
  | access write next, d => (next d).run (write d)

/-- No access changes the data. -/
def ReadOnly : Section D R → Prop
  | done _ => True
  | access write next => (∀ d, write d = d) ∧ ∀ d, (next d).ReadOnly

/-- Every access goes up in an order of the data. -/
def Grows (le : D → D → Prop) : Section D R → Prop
  | done _ => True
  | access write next => (∀ d, le d (write d)) ∧ ∀ d, (next d).Grows le

/-- One after the other. -/
protected def bind : Section D R → (R → Section D S) → Section D S
  | done r, f => f r
  | access write next, f => access write fun d ↦ (next d).bind f

instance : Monad (Section D) where
  pure := done
  bind := Section.bind

/-- The data is read. -/
def read (f : D → R) : Section D R := access id fun d ↦ done (f d)

/-- The data is changed. -/
def write (f : D → D) : Section D PUnit := access f fun _ ↦ done ⟨⟩

variable {x : Section D R} {f : R → Section D S} {d : D} {r : R}

@[simp] theorem run_pure : (pure r : Section D R).run d = (r, d) := rfl

@[simp] theorem run_read {g : D → R} : (read g).run d = (g d, d) := rfl

@[simp] theorem run_write {g : D → D} : (write g).run d = (⟨⟩, g d) := rfl

@[simp] theorem run_bind (x : Section D R) (f : R → Section D S) (d : D) :
    (x >>= f).run d = (f (x.run d).1).run (x.run d).2 := by
  induction x generalizing d with
  | done r => rfl
  | access write next ih => exact ih d (write d)

@[simp] theorem run_ite {p : Prop} [Decidable p] {x y : Section D R} :
    (if p then x else y).run d = if p then x.run d else y.run d := by
  split
  · rfl
  · rfl

/-- A section that does not write leaves the data. -/
theorem ReadOnly.run_snd (h : x.ReadOnly) : (x.run d).2 = d := by
  induction x generalizing d with
  | done r => rfl
  | access write next ih =>
      show ((next d).run (write d)).2 = d
      rw [h.1 d]
      exact ih d (h.2 d)

theorem readOnly_pure : (pure r : Section D R).ReadOnly := trivial

theorem readOnly_read {g : D → R} : (read g).ReadOnly := ⟨fun _ ↦ rfl, fun _ ↦ trivial⟩

theorem ReadOnly.bind (hx : x.ReadOnly) (hf : ∀ r, (f r).ReadOnly) : (x >>= f).ReadOnly := by
  induction x with
  | done r => exact hf r
  | access write next ih => exact ⟨hx.1, fun d ↦ ih d (hx.2 d)⟩

variable {le : D → D → Prop}

theorem grows_pure : (pure r : Section D R).Grows le := trivial

theorem grows_read [Std.Refl le] {g : D → R} : (read g).Grows le :=
  ⟨fun d ↦ Std.Refl.refl d, fun _ ↦ trivial⟩

theorem grows_write {g : D → D} (h : ∀ d, le d (g d)) : (write g).Grows le :=
  ⟨h, fun _ ↦ trivial⟩

theorem Grows.bind (hx : x.Grows le) (hf : ∀ r, (f r).Grows le) : (x >>= f).Grows le := by
  induction x with
  | done r => exact hf r
  | access write next ih => exact ⟨hx.1, fun d ↦ ih d (hx.2 d)⟩

theorem Grows.run_snd [Std.Refl le] [Trans le le le] (h : x.Grows le) : le d (x.run d).2 := by
  induction x generalizing d with
  | done r => exact Std.Refl.refl d
  | access write next ih => exact Trans.trans (h.1 d) (ih d (h.2 d))

/-- A loop whose rounds each access the data. -/
def each {ι : Type w} (f : ι → Section D S) : List ι → Section D (List S)
  | [] => done []
  | i :: is => (f i).bind fun a ↦ (each f is).bind fun as ↦ done (a :: as)

theorem readOnly_each {ι : Type w} {f : ι → Section D S} (hf : ∀ i, (f i).ReadOnly)
    (is : List ι) : (each f is).ReadOnly := by
  induction is with
  | nil => exact trivial
  | cons i is ih => exact (hf i).bind fun _ ↦ ih.bind fun _ ↦ trivial

/-- A loop that only reads collects what each round finds in the same data. -/
theorem run_each {ι : Type w} {f : ι → Section D S} (hf : ∀ i, (f i).ReadOnly) (is : List ι)
    (d : D) : (each f is).run d = (is.map fun i ↦ ((f i).run d).1, d) := by
  induction is with
  | nil => rfl
  | cons i is ih =>
      show ((f i) >>= fun a ↦ each f is >>= fun as ↦ pure (a :: as)).run d = _
      rw [run_bind, (hf i).run_snd, run_bind, ih]
      rfl

/-- A loop over a container that is part of the data, where the iterator goes to the
next entry in each round. -/
def traverse {α : Type} (f : D → List α) : Section D (List α) := do
  let size ← read fun d ↦ (f d).length
  let as ← each (fun i ↦ read fun d ↦ (f d)[i]?) (List.range size)
  return as.filterMap id

theorem readOnly_traverse {α : Type} {f : D → List α} : (traverse f).ReadOnly :=
  readOnly_read.bind fun _ ↦
    (readOnly_each (fun _ ↦ readOnly_read) _).bind fun _ ↦ readOnly_pure

/-- Without interruption it finds what is there. -/
@[simp] theorem run_traverse {α : Type} {f : D → List α} {d : D} :
    (traverse f).run d = (f d, d) := by
  have hmap : ((List.range (f d).length).map fun i ↦ (f d)[i]?) = (f d).map some :=
    List.ext_getElem (by simp) (by simp)
  rw [traverse, run_bind, run_bind, run_each fun _ ↦ readOnly_read]
  simp only [run_read, run_pure, hmap, List.filterMap_map]
  exact congrArg (fun as ↦ (as, d)) List.filterMap_some

end Section

/-- Operations behind one lock.  Each holds the lock in its mode, and those that share
it do not write. -/
structure Monitor (D : Type u) (O : Type w) (R : Type v) where
  mode : O → Mode
  body : O → Section D R
  shared : ∀ o, mode o = .shared → (body o).ReadOnly

namespace Monitor

variable {D : Type u} {O : Type w} {R : Type v} {T : Type*}

/-- A thread that holds the lock: its operation, and what is left of it. -/
structure Holder (D : Type u) (O : Type w) (R : Type v) where
  op : O
  rest : Section D R

/-- What a thread does. -/
inductive Act (O : Type w) (R : Type v)
  /-- The lock is acquired. -/
  | enter (o : O)
  /-- The next access. -/
  | access
  /-- The lock is given back, and the operation returns. -/
  | leave (o : O) (r : R)

/-- The data, and what each thread is doing. -/
abbrev State (T : Type*) (D : Type u) (O : Type w) (R : Type v) :=
  Threads T D (Option (Holder D O R))

variable (M : Monitor D O R)

/-- A thread may hold the lock in a mode next to those that hold it. -/
def Granted (s : State T D O R) (mode : Mode) : Prop :=
  ∀ t x, s.own t = some x → mode = .shared ∧ M.mode x.op = .shared

/-- The steps of the threads. -/
inductive Step [DecidableEq T] : State T D O R → T × Act O R → State T D O R → Prop
  | enter {s : State T D O R} {t : T} {o : O} : s.own t = none → M.Granted s (M.mode o) →
      Step s (t, .enter o) ⟨s.shared, Function.update s.own t (some ⟨o, M.body o⟩)⟩
  | access {s : State T D O R} {t : T} {o : O} {write : D → D} {next : D → Section D R} :
      s.own t = some ⟨o, .access write next⟩ →
      Step s (t, .access) ⟨write s.shared, Function.update s.own t (some ⟨o, next s.shared⟩)⟩
  | leave {s : State T D O R} {t : T} {o : O} {r : R} : s.own t = some ⟨o, .done r⟩ →
      Step s (t, .leave o r) ⟨s.shared, Function.update s.own t none⟩

/-- Nobody holds the lock. -/
def start (T : Type*) (d : D) : State T D O R := ⟨d, fun _ ↦ none⟩

/-- An operation that is performed at once, and its result. -/
def Call (d : D) (l : T × O × R) (d' : D) : Prop := (M.body l.2.1).run d = (l.2.2, d')

/-- The operation that ends. -/
def Act.returned : Act O R → Option (O × R)
  | leave o r => some (o, r)
  | _ => none

/-- The operations that have ended, with their threads, in the order of their ends. -/
def returns (tr : List (T × Act O R)) : List (T × O × R) :=
  tr.filterMap fun l ↦ l.2.returned.map fun x ↦ (l.1, x)

/-- What holds at any time, where `c` is the data to which the operations that have
ended lead. -/
structure Linear (s : State T D O R) (c : D) : Prop where
  /-- A thread that holds the lock alone is the only one. -/
  alone : ∀ t u x y, s.own t = some x → s.own u = some y → M.mode x.op = .exclusive → t = u
  /-- What is left of an operation that shares the lock does not write. -/
  readOnly : ∀ t x, s.own t = some x → M.mode x.op = .shared → x.rest.ReadOnly
  /-- Without a writer the data is as the operations that have ended left it. -/
  settled : (∀ t x, s.own t = some x → M.mode x.op = .shared) → s.shared = c
  /-- Every operation will end as if it were performed at once. -/
  resumes : ∀ t x, s.own t = some x → x.rest.run s.shared = (M.body x.op).run c

variable {M} {s s' : State T D O R} {c d : D} {t : T} {x : Holder D O R} {o : O} {r : R}
variable {l : T × Act O R} {tr : List (T × Act O R)}

theorem start_linear : M.Linear (start T d) d where
  alone := fun _ _ _ _ h ↦ by cases h
  readOnly := fun _ _ h ↦ by cases h
  settled := fun _ ↦ rfl
  resumes := fun _ _ h ↦ by cases h

/-- Where a thread shares the lock, all do. -/
theorem Linear.all_shared (h : M.Linear s c) (hx : s.own t = some x)
    (hm : M.mode x.op = .shared) {u : T} {y : Holder D O R} (hy : s.own u = some y) :
    M.mode y.op = .shared := by
  cases hmode : M.mode y.op with
  | shared => rfl
  | exclusive =>
      obtain rfl := h.alone u t y x hy hx hmode
      obtain rfl := Option.some.inj (hx.symm.trans hy)
      exact absurd (hm.symm.trans hmode) nofun

section Step

variable [DecidableEq T]

/-- What a thread is doing after another one, or itself, has gone on. -/
theorem own_cases {own : T → Option (Holder D O R)} {y : Option (Holder D O R)} {u : T}
    (h : Function.update own t y u = some x) : u = t ∧ y = some x ∨ u ≠ t ∧ own u = some x := by
  by_cases hu : u = t
  · subst hu
    rw [Function.update_self] at h
    exact .inl ⟨rfl, h⟩
  · rw [Function.update_of_ne hu] at h
    exact .inr ⟨hu, h⟩

/-- The lock is acquired. -/
theorem Linear.enter (h : M.Linear s c) (hg : M.Granted s (M.mode o)) :
    M.Linear ⟨s.shared, Function.update s.own t (some ⟨o, M.body o⟩)⟩ c := by
  have hsettled : s.shared = c := h.settled fun u y hy ↦ (hg u y hy).2
  refine ⟨fun u v y z hy hz hm ↦ ?_, fun u y hy hm ↦ ?_, fun _ ↦ hsettled, fun u y hy ↦ ?_⟩
  · rcases own_cases hy with ⟨rfl, hy'⟩ | ⟨-, hy⟩
    · cases hy'
      rcases own_cases hz with ⟨rfl, -⟩ | ⟨-, hz⟩
      · rfl
      · exact absurd ((hg v z hz).1.symm.trans hm) nofun
    · exact absurd ((hg u y hy).2.symm.trans hm) nofun
  · rcases own_cases hy with ⟨-, hy⟩ | ⟨-, hy⟩
    · cases hy
      exact M.shared o hm
    · exact h.readOnly u y hy hm
  · rcases own_cases hy with ⟨-, hy⟩ | ⟨-, hy⟩
    · cases hy
      show (M.body o).run s.shared = _
      rw [hsettled]
    · exact h.resumes u y hy

/-- An access of a thread that shares the lock changes nothing, and no other thread
holds the lock where it does not. -/
theorem Linear.access {write : D → D} {next : D → Section D R} (h : M.Linear s c)
    (hx : s.own t = some ⟨o, .access write next⟩) :
    M.Linear ⟨write s.shared, Function.update s.own t (some ⟨o, next s.shared⟩)⟩ c := by
  have hresumes : (next s.shared).run (write s.shared) = (M.body o).run c := h.resumes t _ hx
  have hsame : M.mode o = .shared → write s.shared = s.shared :=
    fun hm ↦ (h.readOnly t _ hx hm).1 _
  have hother : ∀ u y, u ≠ t → s.own u = some y → M.mode o = .shared := by
    intro u y hu hy
    cases hm : M.mode o with
    | shared => rfl
    | exclusive => exact absurd (h.alone t u _ y hx hy hm).symm hu
  refine ⟨fun u v y z hy hz hm ↦ ?_, fun u y hy hm ↦ ?_, fun hall ↦ ?_, fun u y hy ↦ ?_⟩
  · rcases own_cases hy with ⟨rfl, hy'⟩ | ⟨hu, hy⟩
    · cases hy'
      rcases own_cases hz with ⟨rfl, -⟩ | ⟨hv, hz⟩
      · rfl
      · exact absurd ((hother v z hv hz).symm.trans hm) nofun
    · exact absurd ((h.all_shared hx (hother u y hu hy) hy).symm.trans hm) nofun
  · rcases own_cases hy with ⟨-, hy⟩ | ⟨-, hy⟩
    · cases hy
      exact (h.readOnly t _ hx hm).2 _
    · exact h.readOnly u y hy hm
  · have hm : M.mode o = .shared := hall t ⟨o, next s.shared⟩ (Function.update_self ..)
    show write s.shared = c
    rw [hsame hm]
    exact h.settled fun u y hy ↦ h.all_shared hx hm hy
  · rcases own_cases hy with ⟨-, hy⟩ | ⟨hu, hy⟩
    · cases hy
      exact hresumes
    · show y.rest.run (write s.shared) = _
      rw [hsame (hother u y hu hy)]
      exact h.resumes u y hy

/-- The lock is given back by a thread whose operation has been performed, as if it
were so now. -/
theorem Linear.leave (h : M.Linear s c) (hx : s.own t = some ⟨o, .done r⟩) :
    M.Call c (t, o, r) s.shared ∧ M.Linear ⟨s.shared, Function.update s.own t none⟩ s.shared := by
  have hcall : (r, s.shared) = (M.body o).run c := h.resumes t _ hx
  have hold : ∀ {u y}, Function.update s.own t none u = some y → s.own u = some y := by
    intro u y hy
    rcases own_cases hy with ⟨-, hy⟩ | ⟨-, hy⟩
    · cases hy
    · exact hy
  refine ⟨hcall.symm, ?_, ?_, fun _ ↦ rfl, fun u y hy ↦ ?_⟩
  · exact fun u v y z hy hz ↦ h.alone u v y z (hold hy) (hold hz)
  · exact fun u y hy ↦ h.readOnly u y (hold hy)
  · rcases own_cases hy with ⟨-, hy⟩ | ⟨hu, hy⟩
    · cases hy
    · have hm : M.mode o = .shared := by
        cases hm : M.mode o with
        | shared => rfl
        | exclusive => exact absurd (h.alone t u _ y hx hy hm).symm hu
      have hc : s.shared = c := h.settled fun v z hz ↦ h.all_shared hx hm hz
      show y.rest.run s.shared = (M.body y.op).run s.shared
      rw [h.resumes u y hy, ← hc]

/-- **Step lemma.** -/
theorem Linear.step (h : M.Linear s c) (hs : M.Step s l s') :
    ∃ c', Run M.Call c (returns [l]) c' ∧ M.Linear s' c' := by
  cases hs with
  | enter _ hg => exact ⟨c, .nil c, h.enter hg⟩
  | access hx => exact ⟨c, .nil c, h.access hx⟩
  | leave hx =>
      obtain ⟨hcall, hlin⟩ := h.leave hx
      exact ⟨_, .cons hcall (.nil _), hlin⟩

/-- **Run lemma.**  The operations that have ended are a run of the data alone, in the
order of their ends and with the results they returned. -/
theorem linearizable (h : Run M.Step (start T d) tr s) :
    ∃ c, Run M.Call d (returns tr) c ∧ M.Linear s c := by
  refine Run.history (P := fun tr s ↦ ∃ c, Run M.Call d (returns tr) c ∧ M.Linear s c)
    ⟨d, .nil d, start_linear⟩ ?_ h
  rintro tr s l s' _ ⟨c, hr, hlin⟩ hs
  obtain ⟨c', hr', hlin'⟩ := hlin.step hs
  refine ⟨c', ?_, hlin'⟩
  rw [returns, List.filterMap_append]
  exact hr.append hr'

/-- Where all accesses go up in an order, the data is between what the operations that
have ended left and what any operation will leave. -/
theorem between {le : D → D → Prop} [Std.Refl le] [Trans le le le]
    (hle : ∀ o, (M.body o).Grows le) (h : Run M.Step (start T d) tr s) :
    ∃ c, Run M.Call d (returns tr) c ∧ M.Linear s c ∧ le c s.shared ∧
      ∀ t x, s.own t = some x → le s.shared (x.rest.run s.shared).2 := by
  suffices hgrows : ∃ c, Run M.Call d (returns tr) c ∧ M.Linear s c ∧ le c s.shared ∧
      ∀ t x, s.own t = some x → x.rest.Grows le by
    obtain ⟨c, hr, hlin, hc, hrest⟩ := hgrows
    exact ⟨c, hr, hlin, hc, fun t x hx ↦ (hrest t x hx).run_snd⟩
  refine Run.history (P := fun tr s ↦ ∃ c, Run M.Call d (returns tr) c ∧ M.Linear s c ∧
    le c s.shared ∧ ∀ t x, s.own t = some x → x.rest.Grows le) ?_ ?_ h
  · exact ⟨d, .nil d, start_linear, Std.Refl.refl d, fun _ _ hx ↦ nomatch hx⟩
  · rintro tr s l s' _ ⟨c, hr, hlin, hc, hrest⟩ hs
    cases hs with
    | enter _ hg =>
        refine ⟨c, ?_, hlin.enter hg, hc, fun u y hy ↦ ?_⟩
        · simpa [returns, Act.returned] using hr
        · rcases own_cases hy with ⟨-, hy⟩ | ⟨-, hy⟩
          · cases hy
            exact hle _
          · exact hrest u y hy
    | access hx =>
        refine ⟨c, ?_, hlin.access hx, Trans.trans hc ((hrest _ _ hx).1 _), fun u y hy ↦ ?_⟩
        · simpa [returns, Act.returned] using hr
        · rcases own_cases hy with ⟨-, hy⟩ | ⟨-, hy⟩
          · cases hy
            exact (hrest _ _ hx).2 _
          · exact hrest u y hy
    | leave hx =>
        obtain ⟨hcall, hlin'⟩ := hlin.leave hx
        refine ⟨s.shared, ?_, hlin', Std.Refl.refl _, fun u y hy ↦ ?_⟩
        · rw [returns, List.filterMap_append]
          exact hr.append (.cons hcall (.nil _))
        · rcases own_cases hy with ⟨-, hy⟩ | ⟨-, hy⟩
          · cases hy
          · exact hrest u y hy

/-- What every operation that is performed at once preserves holds of the data whenever
no thread writes. -/
theorem invariant {I : D → Prop} (hI : ∀ o d, I d → I ((M.body o).run d).2)
    (h : Run M.Step (start T d) tr s) (hd : I d)
    (hquiet : ∀ t x, s.own t = some x → M.mode x.op = .shared) : I s.shared := by
  obtain ⟨c, hr, hlin⟩ := linearizable h
  rw [hlin.settled hquiet]
  refine hr.invariant (fun d l d' hd hc ↦ ?_) hd
  have hsnd : ((M.body l.2.1).run d).2 = d' := congrArg Prod.snd hc
  exact hsnd ▸ hI _ _ hd

end Step

end Monitor

end Foundation
