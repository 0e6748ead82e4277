import Sylar.Config.Visit
import Sylar.Foundation.Sections

/-!
# The registry and many threads

`Config` guards its map with one readers–writer lock: `Lookup` with a default value
holds it for writing, `Lookup` without one, `LookupBase` and `Visit` for reading.  Each
of them accesses the map several times while it holds the lock, and the other threads
run in between.

In every interleaving they answer as the functions of `Registry.lean` do when they are
called one after the other.  What is known of such runs is therefore known of threads:
as long as each name is looked up under one type, all threads that ask for a name are
given the same variable.
-/

namespace Sylar

open Foundation Yaml

variable {τ : Type} {T : τ → Type}

/-- The calls of the functions that take the lock of the registry. -/
inductive RegistryCall (T : τ → Type)
  | lookup (c : LookupCall T)
  | LookupBase (name : String)
  | Visit

/-- What they return.  For `Visit` it is what its function was called with. -/
inductive Answer
  | pointer (r : Except Exception (Option VarPtr))
  | visited (ps : List VarPtr)

namespace Config

/-! ## What threads are told -/

section Told

variable {U : Type} {m m' : Config T} {ty : String → τ}
variable {l : U × RegistryCall T × Answer} {ls : List (U × RegistryCall T × Answer)}

/-- `Lookup` with a default value is only called with the type that the name has. -/
def Typed (ty : String → τ) (c : RegistryCall T) : Prop :=
  ∀ t name default_value description,
    c = .lookup (.Lookup t name default_value description) → t = ty name

/-- The call asks for a name, under its type or under none. -/
def AsksFor (ty : String → τ) (name : String) : RegistryCall T → Prop
  | .lookup c => c.name = name ∧ c.type = ty name
  | .LookupBase x => x = name
  | .Visit => False

/-- The name that a call is about. -/
def about : RegistryCall T → Option String
  | .lookup c => some c.name
  | .LookupBase name => some name
  | .Visit => none

/-- The call has returned a variable for the name. -/
def Gives (l : U × RegistryCall T × Answer) (name : String) (p : VarPtr) : Prop :=
  about l.2.1 = some name ∧ l.2.2 = .pointer (.ok (some p))

/-- A call answers by what has been given before. -/
structure Remembers (ty : String → τ) (pre : List (U × RegistryCall T × Answer))
    (l : U × RegistryCall T × Answer) : Prop where
  found : ∀ k ∈ pre, ∀ name p, Gives k name p → AsksFor ty name l.2.1 → Gives l name p
  visited : ∀ ps, l.2 = (.Visit, .visited ps) →
    ps.Nodup ∧ ∀ k ∈ pre, ∀ name p, Gives k name p → p ∈ ps

/-- What calls that have returned tell about the registry they leave. -/
structure Consistent (ty : String → τ) (ls : List (U × RegistryCall T × Answer))
    (m : Config T) : Prop where
  valid : m.Valid
  named : m.Named
  typed : ∀ name p, m.datas name = some p → m.Bound name (ty name) p
  given : ∀ l ∈ ls, ∀ name p, Gives l name p → m.datas name = some p
  remembers : Each (Remembers ty) ls

theorem consistent_empty : Consistent ty ([] : List (U × RegistryCall T × Answer)) empty where
  valid := empty_valid
  named := fun _ _ h ↦ nomatch h
  typed := fun _ _ h ↦ nomatch h
  given := fun _ h ↦ nomatch h
  remembers := .nil

/-- No call is one that binds a name again. -/
theorem Consistent.not_mismatched (h : Consistent ty ls m) {c : LookupCall T}
    (hc : Typed ty (.lookup c)) : ¬ m.Mismatched c := by
  rintro ⟨t, name, d, description, u, p, rfl, hp, hu⟩
  obtain rfl := hc t name d description rfl
  exact hu (hp.type_eq (h.typed name p hp.1))

/-- What has been given is bound, with its type. -/
theorem Consistent.bound (h : Consistent ty ls m) {k : U × RegistryCall T × Answer} (hk : k ∈ ls)
    {name : String} {p : VarPtr} (hp : Gives k name p) : m.Bound name (ty name) p :=
  h.typed name p (h.given k hk name p hp)

/-- One more call, which keeps the bindings and answers by them. -/
theorem Consistent.snoc (h : Consistent ty ls m) (hv : m'.Valid) (hn : m'.Named)
    (ht : ∀ name p, m'.datas name = some p → m'.Bound name (ty name) p)
    (hbinding : ∀ name p, m.datas name = some p → m'.datas name = some p)
    (hgiven : ∀ name p, Gives l name p → m'.datas name = some p)
    (hl : Remembers ty ls l) : Consistent ty (ls ++ [l]) m' := by
  refine ⟨hv, hn, ht, fun k hk name p hp ↦ ?_, h.remembers.snoc hl⟩
  rcases List.mem_append.mp hk with hk | hk
  · exact hbinding name p (h.given k hk name p hp)
  · obtain rfl := List.mem_singleton.mp hk
    exact hgiven name p hp

end Told

/-! ## The functions, access by access -/

/-- `new ConfigVar<T>`, on fresh memory. -/
def allocate (t : τ) (name : String) (default_value : T t) (description : String) (m : Config T) :
    Config T :=
  { m with
    vars := Function.update m.vars m.next (some ⟨t, .new name default_value description⟩)
    next := m.next + 1 }

/-- `GetDatas()[name] = v`. -/
def bind (name : String) (v : VarPtr) (m : Config T) : Config T :=
  { m with datas := Function.update m.datas name (some v) }

/-- The end of `Lookup`. -/
def registerSection (t : τ) (name : String) (default_value : T t) (description : String) :
    Section (Config T) Answer :=
  if ValidName name then do
    let v ← .read Config.next
    let _ ← .write (allocate t name default_value description)
    let _ ← .write (bind name v)
    return .pointer (.ok (some v))
  else return .pointer (.error (.invalid_argument name))

theorem run_register {t : τ} {name description : String} {d : T t} {m : Config T} :
    (registerSection t name d description).run m =
      (.pointer (m.register t name d description).1, (m.register t name d description).2) := by
  by_cases h : ValidName name
  · simp [registerSection, register, h, allocate, bind, create]
  · simp [registerSection, register, h]

/-- `Visit`. -/
def visitSection (order : Order T) : Section (Config T) Answer := do
  let ps ← .traverse order.list
  return .visited ps

theorem foldl_visited (ps qs : List VarPtr) : ps.foldl (fun s p ↦ s ++ [p]) qs = qs ++ ps := by
  induction ps generalizing qs with
  | nil => simp
  | cons p ps ih => rw [List.foldl_cons, ih, List.append_assoc, List.singleton_append]

theorem run_visit {order : Order T} {m : Config T} : (visitSection order).run m =
    (.visited (m.Visit order (fun s p ↦ s ++ [p]) []), m) := by
  rw [visitSection, Section.run_bind, Section.run_traverse, Visit, foldl_visited, List.nil_append]
  rfl

variable [DecidableEq τ]

/-- `Lookup(name, default_value, description)`. -/
def lookupSection (t : τ) (name : String) (default_value : T t) (description : String) :
    Section (Config T) Answer := do
  match ← .read fun m ↦ m.datas name with
  | some it =>
      match ← .read fun m ↦ m.dynamic_pointer_cast t it with
      | some tmp => return .pointer (.ok (some tmp))
      | none => registerSection t name default_value description
  | none => registerSection t name default_value description

/-- `Lookup(name)`. -/
def lookupNameSection (t : τ) (name : String) : Section (Config T) Answer := do
  match ← .read fun m ↦ m.datas name with
  | none => return .pointer (.ok none)
  | some it =>
      let p ← .read fun m ↦ m.dynamic_pointer_cast t it
      return .pointer (.ok p)

/-- `LookupBase(name)`. -/
def lookupBaseSection (name : String) : Section (Config T) Answer := do
  let it ← .read fun m ↦ m.datas name
  return .pointer (.ok it)

/-- The accesses of each function. -/
def body (order : Order T) : RegistryCall T → Section (Config T) Answer
  | .lookup (.Lookup t name default_value description) =>
      lookupSection t name default_value description
  | .lookup (.LookupName t name) => lookupNameSection t name
  | .LookupBase name => lookupBaseSection name
  | .Visit => visitSection order

/-! ## One after the other -/

/-- What a call returns, and the registry it leaves. -/
def answer (order : Order T) (m : Config T) : RegistryCall T → Answer × Config T
  | .lookup c => (.pointer (m.perform c).1, (m.perform c).2)
  | .LookupBase name => (.pointer (.ok (m.LookupBase name)), m)
  | .Visit => (.visited (m.Visit order (fun s p ↦ s ++ [p]) []), m)

section Run

variable {order : Order T} {m : Config T} {t : τ} {name description : String} {d : T t}

theorem run_lookup : (lookupSection t name d description).run m =
    (.pointer (m.Lookup t name d description).1, (m.Lookup t name d description).2) := by
  cases hp : m.datas name with
  | none =>
      simp only [lookupSection, Section.run_bind, Section.run_read, hp, Lookup]
      exact run_register
  | some p =>
      cases hc : m.dynamic_pointer_cast t p with
      | none =>
          simp only [lookupSection, Section.run_bind, Section.run_read, hp, hc, Lookup]
          exact run_register
      | some q => simp [lookupSection, hp, hc, Lookup]

theorem run_lookupName : (lookupNameSection t name).run m =
    (.pointer (.ok (m.LookupName t name)), m) := by
  cases hp : m.datas name with
  | none => simp [lookupNameSection, LookupName, hp]
  | some p => simp [lookupNameSection, LookupName, hp]

/-- The accesses of a function, without interruption, are the function. -/
theorem run_body (c : RegistryCall T) : (body order c).run m = m.answer order c := by
  cases c with
  | lookup c =>
      cases c with
      | Lookup t name d description => exact run_lookup
      | LookupName t name => exact run_lookupName
  | LookupBase name => rfl
  | Visit => exact run_visit

end Run

/-- How each of them holds the lock. -/
def mode : RegistryCall T → Mode
  | .lookup (.Lookup ..) => .exclusive
  | .lookup (.LookupName ..) | .LookupBase _ | .Visit => .shared

/-- The functions that share the lock do not write. -/
theorem readOnly_of_shared (order : Order T) (c : RegistryCall T) (h : mode c = .shared) :
    (body order c).ReadOnly := by
  cases c with
  | lookup c =>
      cases c with
      | Lookup t name d description => cases h
      | LookupName t name =>
          refine Section.readOnly_read.bind fun it ↦ ?_
          cases it with
          | none => exact Section.readOnly_pure
          | some p => exact Section.readOnly_read.bind fun _ ↦ Section.readOnly_pure
  | LookupBase name => exact Section.readOnly_read.bind fun _ ↦ Section.readOnly_pure
  | Visit => exact Section.readOnly_traverse.bind fun _ ↦ Section.readOnly_pure

/-- The registry with its lock. -/
def monitor (order : Order T) : Monitor (Config T) (RegistryCall T) Answer where
  mode := mode
  body := body order
  shared := readOnly_of_shared order

/-! ## In any interleaving -/

section Threads

variable {U : Type} {order : Order T} {m m' : Config T}
variable {tr : List (U × Monitor.Act (RegistryCall T) Answer)}
variable {s : Monitor.State U (Config T) (RegistryCall T) Answer}

/-- One call after the other, each by some thread. -/
def Answers (order : Order T) (m : Config T) (l : U × RegistryCall T × Answer) (m' : Config T) :
    Prop :=
  m.answer order l.2.1 = (l.2.2, m')

/-- **The registry is linearizable.**  In every interleaving of the accesses of any
threads, the calls that have returned gave what they give one after the other, in the
order of their ends; those that have not will give what they give on the registry these
leave, which is the present one unless a thread writes. -/
theorem threads_linearizable [DecidableEq U]
    (h : Run (monitor order).Step (Monitor.start U empty) tr s) :
    ∃ m, Run (Answers order) empty (Monitor.returns tr) m ∧
      (∀ u x, s.own u = some x → x.rest.run s.shared = m.answer order x.op) ∧
      ((∀ u x, s.own u = some x → mode x.op = .shared) → s.shared = m) := by
  obtain ⟨m, hr, hlin⟩ := Monitor.linearizable h
  refine ⟨m, hr.mono fun m l m' hc ↦ (run_body _).symm.trans hc, fun u x hx ↦ ?_, hlin.settled⟩
  exact (hlin.resumes u x hx).trans (run_body _)

/-! ## One variable for each name -/

variable {ty : String → τ} {l : U × RegistryCall T × Answer}
variable {ls : List (U × RegistryCall T × Answer)}

/-- A name that is bound has the type it is looked up with. -/
theorem typed_of_step (hv : m.Valid)
    (ht : ∀ name p, m.datas name = some p → m.Bound name (ty name) p) {c : LookupCall T}
    (hc : Typed ty (.lookup c)) {r : Except Exception (Option VarPtr)} (hs : m.step (c, r) m') :
    ∀ name p, m'.datas name = some p → m'.Bound name (ty name) p := by
  cases c with
  | LookupName t name =>
      obtain ⟨-, rfl⟩ := Prod.mk.inj hs
      exact ht
  | Lookup t name d description =>
      rcases Lookup_cases hv hs with ⟨rfl, -⟩ | ⟨-, hs⟩
      · exact ht
      · rcases register_cases hs with ⟨rfl, -⟩ | ⟨-, -, rfl⟩
        · exact ht
        · intro x p hp
          by_cases hx : x = name
          · subst hx
            obtain rfl := hc t x d description rfl
            have hnew : (m.create (ty x) x d description).Bound x (ty x) m.next := bound_create
            obtain rfl := Option.some.inj (hnew.1.symm.trans hp)
            exact hnew
          · exact (ht x p (by simpa [create, hx] using hp)).create hv hx

/-- **Step lemma.** -/
theorem Consistent.answer (h : Consistent ty ls m) (hc : Typed ty l.2.1)
    (hs : Answers order m l m') : Consistent ty (ls ++ [l]) m' := by
  obtain ⟨u, c, r⟩ := l
  cases c with
  | lookup c =>
      obtain ⟨rfl, rfl⟩ := Prod.mk.inj hs
      have hstep : m.step (c, (m.perform c).1) (m.perform c).2 := rfl
      obtain ⟨hkeeps, hreturned⟩ := step_keeps h.valid (h.not_mismatched hc) hstep
      refine h.snoc (step_valid h.valid hstep) (named_of_step h.named h.valid hstep)
        (typed_of_step h.valid h.typed hc hstep) hkeeps.binding ?_ ⟨?_, nofun⟩
      · rintro name p ⟨hname, hp⟩
        obtain rfl := Option.some.inj hname
        exact hreturned p (Answer.pointer.inj hp)
      · rintro k hk name p hp ⟨rfl, htype⟩
        refine ⟨rfl, congrArg Answer.pointer (hkeeps.found p ?_)⟩
        exact htype ▸ h.bound hk hp
  | LookupBase name =>
      obtain ⟨rfl, rfl⟩ := Prod.mk.inj hs
      refine h.snoc h.valid h.named h.typed (fun _ _ hp ↦ hp) ?_ ⟨?_, nofun⟩
      · rintro x p ⟨hname, hp⟩
        obtain rfl := Option.some.inj hname
        exact Except.ok.inj (Answer.pointer.inj hp)
      · rintro k hk x p hp rfl
        exact ⟨rfl, congrArg (fun r ↦ Answer.pointer (.ok r)) (h.given k hk _ p hp)⟩
  | Visit =>
      obtain ⟨rfl, rfl⟩ := Prod.mk.inj hs
      refine h.snoc h.valid h.named h.typed (fun _ _ hp ↦ hp) ?_ ⟨?_, ?_⟩
      · rintro x p ⟨hname, -⟩
        cases hname
      · intro k _ x p _ hx
        exact hx.elim
      · intro ps hps
        have hlist : order.list m = ps := by
          rw [← Answer.visited.inj (congrArg Prod.snd hps), Visit, foldl_visited, List.nil_append]
        have hperm : ps.Perm m.entries := hlist ▸ order.perm m
        refine ⟨hperm.nodup_iff.mpr nodup_entries, fun k hk name p hp ↦ hperm.mem_iff.mpr ?_⟩
        exact (mem_entries h.valid h.named).mpr ⟨name, h.given k hk name p hp⟩

/-- **Run lemma.** -/
theorem consistent_of_run (h : Run (Answers order) empty ls m) (hty : ∀ l ∈ ls, Typed ty l.2.1) :
    Consistent ty ls m := by
  revert hty
  refine h.history (P := fun ls m ↦ (∀ l ∈ ls, Typed ty l.2.1) → Consistent ty ls m)
    (fun _ ↦ consistent_empty) ?_
  intro ls m l m' _ ih hs hty
  exact (ih fun k hk ↦ hty k (by simp [hk])).answer (hty l (by simp)) hs

/-- **One variable for each name.**  Where every name has a type with which `Lookup` is
called, in every interleaving all threads are given the same variable for a name, by
whichever function they ask for it.  Once it has been given to one of them, all calls
that end later find it under its type, and each `Visit` calls its function on it, and on
no variable twice. -/
theorem one_variable [DecidableEq U] (h : Run (monitor order).Step (Monitor.start U empty) tr s)
    (hty : ∀ l ∈ Monitor.returns tr, Typed ty l.2.1) :
    (∀ l ∈ Monitor.returns tr, ∀ l' ∈ Monitor.returns tr, ∀ name p p',
      Gives l name p → Gives l' name p' → p = p') ∧
    Each (Remembers ty) (Monitor.returns tr) := by
  obtain ⟨m, hr, -⟩ := Monitor.linearizable h
  have hrun : Run (Answers order) empty (Monitor.returns tr) m :=
    hr.mono fun m l m' hc ↦ (run_body _).symm.trans hc
  have hcons := consistent_of_run hrun hty
  refine ⟨fun l hl l' hl' name p p' hp hp' ↦ ?_, hcons.remembers⟩
  exact Option.some.inj ((hcons.given l hl name p hp).symm.trans (hcons.given l' hl' name p' hp'))

end Threads

/-- The variable of `tests/test_config.cc` is looked up by one thread.  Then both share
the lock, one to find it and the other to visit all. -/
def sharing : List (Bool × Monitor.Act (RegistryCall CppType.Val) Answer) :=
  [(false, .enter (.lookup (.Lookup .int "system.port" (8080 : Int) "system port"))),
    (false, .access), (false, .access), (false, .access), (false, .access),
    (false, .leave (.lookup (.Lookup .int "system.port" (8080 : Int) "system port"))
      (.pointer (.ok (some 0)))),
    (true, .enter (.LookupBase "system.port")), (false, .enter .Visit),
    (false, .access), (true, .access), (false, .access),
    (true, .leave (.LookupBase "system.port") (.pointer (.ok (some 0)))),
    (false, .leave .Visit (.visited [0]))]

theorem sharing_run : ∃ s, Run (monitor (Order.byAddress CppType.Val)).Step
    (Monitor.start Bool empty) sharing s := by
  refine ⟨_, .cons (.enter rfl nofun) <| .cons (.access rfl) <| .cons (.access rfl) <|
    .cons (.access rfl) <| .cons (.access rfl) <| .cons (.leave rfl) <| .cons (.enter rfl ?_) <|
    .cons (.enter rfl ?_) <| .cons (.access rfl) <| .cons (.access rfl) <| .cons (.access rfl) <|
    .cons (.leave rfl) <| .cons (.leave rfl) <| .nil _⟩
  · intro u x hx
    cases u <;> cases hx
  · intro u x hx
    cases u with
    | false => cases hx
    | true =>
        cases hx
        exact ⟨rfl, rfl⟩

/-- The calls before the last one, with what they return. -/
def firstAnswers : List (Bool × RegistryCall CppType.Val × Answer) :=
  [(false, .lookup (.Lookup .int "system.port" (8080 : Int) "system port"),
      .pointer (.ok (some 0))),
    (true, .LookupBase "system.port", .pointer (.ok (some 0)))]

theorem threads_linearizable_sharing : ∃ m : Config CppType.Val,
    Run (Answers (.byAddress _)) empty (firstAnswers ++ [(false, .Visit, .visited [0])]) m := by
  obtain ⟨s, hs⟩ := sharing_run
  obtain ⟨m, hm, -⟩ := threads_linearizable hs
  exact ⟨m, hm⟩

theorem one_variable_sharing :
    Remembers (fun _ ↦ .int) firstAnswers (false, .Visit, .visited [0]) := by
  obtain ⟨s, hs⟩ := sharing_run
  have hreturns : Monitor.returns sharing = firstAnswers ++ [(false, .Visit, .visited [0])] := rfl
  have htyped : ∀ l ∈ Monitor.returns sharing, Typed (fun _ ↦ CppType.int) l.2.1 := by
    rw [hreturns]
    intro l hl t name d description hc
    rcases List.mem_append.mp hl with hl | hl
    · rcases List.mem_cons.mp hl with rfl | hl
      · cases hc
        rfl
      · obtain rfl := List.mem_singleton.mp hl
        cases hc
    · obtain rfl := List.mem_singleton.mp hl
      cases hc
  exact (one_variable hs htyped).2 firstAnswers _ [] hreturns

end Config

end Sylar
