import Sylar.Config.Registry

/-!
# Names stay bound

A name that has been bound to a variable ought to stay bound to it, so that all
who looked it up hold the object a document is loaded into.  One call of `Lookup`
breaks this: the one that creates, for a name that is bound to a variable of
another type.
-/

namespace Sylar

open Foundation Yaml

variable {τ : Type} {T : τ → Type}

/-- A call of one of the two functions named `Lookup`. -/
inductive LookupCall (T : τ → Type)
  | Lookup (t : τ) (name : String) (default_value : T t) (description : String)
  | LookupName (t : τ) (name : String)

namespace LookupCall

/-- The type it is instantiated at. -/
def type : LookupCall T → τ
  | Lookup t _ _ _ => t
  | LookupName t _ => t

def name : LookupCall T → String
  | Lookup _ name _ _ => name
  | LookupName _ name => name

end LookupCall

namespace Config

/-- The name is bound to the variable at `p`, which has type `t`. -/
def Bound (m : Config T) (name : String) (t : τ) (p : VarPtr) : Prop :=
  m.datas name = some p ∧ ∃ c, m.vars p = some ⟨t, c⟩

/-- `LoadFromYaml` sends the values given for a name to the variable at `p`. -/
def LoadsInto (m : Config T) (name : String) (p : VarPtr) : Prop :=
  ∀ (_ : ∀ t, BEq (T t)) (y : YamlCpp) (cast : ∀ t, LexicalCast (T t)) (i : String × Node),
    i.1 ≠ "" → tolower i.1 = name → m.loadMember y cast i = m.fromString cast p (textOf y i.2)

/-- A registry whose pointers are live, and whose names are valid. -/
structure Valid (m : Config T) : Prop where
  live : ∀ name p, m.datas name = some p → ∃ t, m.Bound name t p
  fresh : ∀ p, m.next ≤ p → m.vars p = none
  names : ∀ name p, m.datas name = some p → ValidName name

variable {m m' : Config T} {name : String} {t u : τ} {p q : VarPtr} {d : T t}
variable {description : String}

theorem Bound.type_eq (h : m.Bound name t p) (h' : m.Bound name u q) : t = u := by
  obtain ⟨hp, c, hc⟩ := h
  obtain ⟨hq, c', hc'⟩ := h'
  rw [hp, Option.some.injEq] at hq
  subst hq
  rw [hc, Option.some.injEq] at hc'
  exact congrArg Sigma.fst hc'

theorem empty_valid : (empty : Config T).Valid :=
  ⟨fun _ _ h ↦ (by cases h), fun _ _ ↦ rfl, fun _ _ h ↦ (by cases h)⟩

/-- A new variable leaves the others where they are. -/
theorem Bound.create (hv : m.Valid) {x : String} (h : m.Bound x u p) (hx : x ≠ name) :
    (m.create t name d description).Bound x u p := by
  obtain ⟨hp, c, hc⟩ := h
  refine ⟨by simpa [Config.create, hx] using hp, c, ?_⟩
  have hne : p ≠ m.next := by
    rintro rfl
    rw [hv.fresh _ (Nat.le_refl _)] at hc
    cases hc
  simpa [Config.create, hne] using hc

theorem bound_create : (m.create t name d description).Bound name t m.next :=
  ⟨Function.update_self _ _ _, _, Function.update_self _ _ _⟩

theorem create_valid (hv : m.Valid) (hname : ValidName name) :
    (m.create t name d description).Valid := by
  refine ⟨fun x p hp ↦ ?_, fun p hp ↦ ?_, fun x p hp ↦ ?_⟩
  · by_cases hx : x = name
    · subst hx
      have hnew : (m.create t x d description).Bound x t m.next := bound_create
      obtain rfl : m.next = p := Option.some.inj (hnew.1.symm.trans hp)
      exact ⟨t, hnew⟩
    · obtain ⟨u, hu⟩ := hv.live x p (by simpa [create, hx] using hp)
      exact ⟨u, hu.create hv hx⟩
  · have hlt : m.next < p := hp
    simpa [create, Nat.ne_of_gt hlt] using hv.fresh p (Nat.le_of_lt hlt)
  · by_cases hx : x = name
    · exact hx ▸ hname
    · exact hv.names x p (by simpa [create, hx] using hp)

theorem register_cases {r : Except Exception (Option VarPtr)}
    (h : m.register t name d description = (r, m')) :
    (m' = m ∧ ∀ p, r ≠ .ok (some p)) ∨
      (ValidName name ∧ r = .ok (some m.next) ∧ m' = m.create t name d description) := by
  unfold register at h
  split at h
  · rw [Prod.mk.injEq] at h
    exact .inr ⟨‹_›, h.1.symm, h.2.symm⟩
  · rw [Prod.mk.injEq] at h
    obtain ⟨rfl, rfl⟩ := h
    exact .inl ⟨rfl, fun _ hp ↦ by cases hp⟩

theorem tolower_of_valid (h : ValidName name) : tolower name = name := by
  have hall : (nameChars.all fun c ↦ c.toLower = c) = true := by decide
  have hlower : ∀ c ∈ nameChars, c.toLower = c := by simpa using hall
  have hmap : name.toList.map Char.toLower = name.toList := by
    conv_rhs => rw [← List.map_id name.toList]
    exact List.map_congr_left fun c hc ↦ hlower c (h c hc)
  rw [tolower, hmap, String.ofList_toList]

theorem loadsInto_of_datas (h : m.datas name = some p) : m.LoadsInto name p := by
  rintro _ y cast ⟨key, node⟩ hkey rfl
  simp only [loadMember, LookupBase, h, if_neg hkey]

/-! ## Runs of calls -/

variable [DecidableEq τ]

/-- What a call returns and the registry it leaves. -/
def perform (m : Config T) : LookupCall T → Except Exception (Option VarPtr) × Config T
  | .Lookup t name default_value description => m.Lookup t name default_value description
  | .LookupName t name => (.ok (m.LookupName t name), m)

/-- A call and what it returned. -/
abbrev Done (T : τ → Type) := LookupCall T × Except Exception (Option VarPtr)

/-- Calls one after the other. -/
def step (m : Config T) (l : Done T) (m' : Config T) : Prop := m.perform l.1 = (l.2, m')

/-- What is expected of a call: bindings are kept, a bound name is found under its
own type, and under another type nothing is returned and nothing changes. -/
structure Keeps (m : Config T) (l : Done T) (m' : Config T) : Prop where
  binding : ∀ name p, m.datas name = some p → m'.datas name = some p
  found : ∀ p, m.Bound l.1.name l.1.type p → l.2 = .ok (some p)
  mismatch : ∀ t p, m.Bound l.1.name t p → t ≠ l.1.type → l.2 = .ok none ∧ m' = m

/-- The call that creates a variable for a name bound to one of another type. -/
def Mismatched (m : Config T) (c : LookupCall T) : Prop :=
  ∃ t name default_value description u p,
    c = .Lookup t name default_value description ∧ m.Bound name u p ∧ u ≠ t

variable {l : Done T} {tr : List (Done T)}

/-! ## The calls -/

theorem cast_bound (h : m.Bound name u p) :
    m.dynamic_pointer_cast t p = if u = t then some p else none := by
  obtain ⟨-, c, hc⟩ := h
  simp [dynamic_pointer_cast, hc]

theorem Lookup_found (h : m.Bound name t p) :
    m.Lookup t name d description = (.ok (some p), m) := by
  simp [Lookup, h.1, cast_bound h]

theorem Lookup_mismatch (h : m.Bound name u p) (hu : u ≠ t) :
    m.Lookup t name d description = m.register t name d description := by
  simp [Lookup, h.1, cast_bound h, hu]

theorem Lookup_new (h : m.datas name = none) :
    m.Lookup t name d description = m.register t name d description := by
  simp [Lookup, h]

theorem LookupName_bound (h : m.Bound name u p) :
    m.LookupName t name = if u = t then some p else none := by
  simp [LookupName, h.1, cast_bound h]

theorem Lookup_cases (hv : m.Valid) {r : Except Exception (Option VarPtr)}
    (h : m.Lookup t name d description = (r, m')) :
    (m' = m ∧ ∃ p, r = .ok (some p) ∧ m.Bound name t p) ∨
      ((∀ p, ¬ m.Bound name t p) ∧ m.register t name d description = (r, m')) := by
  cases hb : m.datas name with
  | none =>
      rw [Lookup_new hb] at h
      exact .inr ⟨fun p hp ↦ absurd (hb.symm.trans hp.1) (by simp), h⟩
  | some q =>
      obtain ⟨u, hq⟩ := hv.live name q hb
      by_cases hu : u = t
      · subst hu
        rw [Lookup_found hq, Prod.mk.injEq] at h
        exact .inl ⟨h.2.symm, q, h.1.symm, hq⟩
      · rw [Lookup_mismatch hq hu] at h
        exact .inr ⟨fun p hp ↦ hu (hq.type_eq hp), h⟩

theorem step_new (h : m.datas name = none) (hname : ValidName name) :
    m.step (.Lookup t name d description, .ok (some m.next)) (m.create t name d description) :=
  (Lookup_new h).trans (if_pos hname)

/-- The call that binds a name again. -/
theorem step_rebind (h : m.Bound name u p) (hu : u ≠ t) (hname : ValidName name) :
    m.step (.Lookup t name d description, .ok (some m.next)) (m.create t name d description) :=
  (Lookup_mismatch h hu).trans (if_pos hname)

theorem step_valid (hv : m.Valid) (h : m.step l m') : m'.Valid := by
  obtain ⟨c, r⟩ := l
  cases c with
  | LookupName t name =>
      obtain ⟨-, rfl⟩ := Prod.mk.inj h
      exact hv
  | Lookup t name d description =>
      rcases Lookup_cases hv h with ⟨rfl, -⟩ | ⟨-, h⟩
      · exact hv
      · rcases register_cases h with ⟨rfl, -⟩ | ⟨hname, -, rfl⟩
        · exact hv
        · exact create_valid hv hname

/-- A call that is no mismatch does what is expected, and what it returns is
bound afterwards. -/
theorem step_keeps (hv : m.Valid) (hm : ¬ m.Mismatched l.1) (h : m.step l m') :
    m.Keeps l m' ∧ ∀ p, l.2 = .ok (some p) → m'.datas l.1.name = some p := by
  obtain ⟨c, r⟩ := l
  cases c with
  | LookupName t name =>
      obtain ⟨rfl, rfl⟩ := Prod.mk.inj h
      refine ⟨⟨fun _ _ hp ↦ hp, fun p hp ↦ ?_, fun u p hp hu ↦ ?_⟩, fun p hp ↦ ?_⟩
      · exact congrArg Except.ok ((LookupName_bound hp).trans (if_pos rfl))
      · exact ⟨congrArg Except.ok ((LookupName_bound hp).trans (if_neg hu)), rfl⟩
      · cases hb : m.datas name with
        | none => simp [Config.LookupName, hb] at hp
        | some q =>
            obtain ⟨u, hq⟩ := hv.live name q hb
            rw [LookupName_bound hq] at hp
            split at hp
            · cases hp
              exact hb
            · cases hp
  | Lookup t name d description =>
      rcases Lookup_cases hv h with ⟨rfl, p, rfl, hp⟩ | ⟨hnot, h⟩
      · refine ⟨⟨fun _ _ hq ↦ hq, fun q hq ↦ congrArg Except.ok (hp.1.symm.trans hq.1),
          fun u q hq hu ↦ absurd (hq.type_eq hp) hu⟩, fun q hq ↦ ?_⟩
        · cases hq
          exact hp.1
      · have hfree : ∀ u p, ¬ m.Bound name u p := by
          intro u p hp
          refine hm ⟨t, name, d, description, u, p, rfl, hp, ?_⟩
          rintro rfl
          exact hnot p hp
        have hnone : m.datas name = none := by
          cases hb : m.datas name with
          | none => rfl
          | some q =>
              obtain ⟨u, hq⟩ := hv.live name q hb
              exact absurd hq (hfree u q)
        rcases register_cases h with ⟨rfl, herr⟩ | ⟨-, rfl, rfl⟩
        · exact ⟨⟨fun _ _ hp ↦ hp, fun p hp ↦ absurd hp (hnot p),
            fun u p hp _ ↦ absurd hp (hfree u p)⟩, fun p hp ↦ absurd hp (herr p)⟩
        · refine ⟨⟨fun x p hp ↦ ?_, fun p hp ↦ absurd hp (hnot p),
            fun u p hp _ ↦ absurd hp (hfree u p)⟩, fun p hp ↦ ?_⟩
          · have hx : x ≠ name := by
              rintro rfl
              rw [hnone] at hp
              cases hp
            simpa [create, hx] using hp
          · cases hp
            exact bound_create.1

/-- A mismatch returns another variable. -/
theorem step_mismatched (hv : m.Valid) (hm : m.Mismatched l.1) (h : m.step l m') :
    ¬ m.Keeps l m' := by
  obtain ⟨c, r⟩ := l
  obtain ⟨t, name, d, description, u, p, rfl, hp, hu⟩ := hm
  have hcall : m.perform (.Lookup t name d description) =
      (.ok (some m.next), m.create t name d description) :=
    step_rebind hp hu (hv.names name p hp.1)
  obtain ⟨rfl, -⟩ := Prod.mk.inj (h.symm.trans hcall)
  intro hk
  cases (hk.mismatch u p hp hu).1

/-! ## Runs -/

theorem step_deterministic (m : Config T) (l : Done T) (m₁ m₂ : Config T) (h₁ : m.step l m₁)
    (h₂ : m.step l m₂) : m₁ = m₂ :=
  (Prod.mk.inj (h₁.symm.trans h₂)).2

/-- A condition on the calls of a run, each with the registry it is made in. -/
def Always (P : Config T → LookupCall T → Prop) (tr : List (Done T)) : Prop :=
  ∀ pre l post s, tr = pre ++ l :: post → Run step empty pre s → P s l.1

/-- Every call of the run does what is expected, and all pointers that have been
returned are those a document is loaded into. -/
structure Stable (tr : List (Done T)) (m : Config T) : Prop where
  keeps : ∀ pre l post s s', tr = pre ++ l :: post → Run step empty pre s → s.step l s' →
    s.Keeps l s'
  handedOut : ∀ l ∈ tr, ∀ p, l.2 = .ok (some p) →
    m.datas l.1.name = some p ∧ tolower l.1.name = l.1.name ∧ m.LoadsInto l.1.name p

theorem valid_of_run (h : Run step empty tr m) : m.Valid :=
  h.invariant (fun _ _ _ hv hs ↦ step_valid hv hs) empty_valid

/-- Pointers that have been returned stay bound while there is no mismatch. -/
theorem handedOut_bound (h : Run step empty tr m) (hm : Always (fun m c ↦ ¬ m.Mismatched c) tr) :
    ∀ l ∈ tr, ∀ p, l.2 = .ok (some p) → m.datas l.1.name = some p := by
  revert hm
  refine h.history (P := fun tr m ↦ Always (fun m c ↦ ¬ m.Mismatched c) tr →
    ∀ l ∈ tr, ∀ p, l.2 = .ok (some p) → m.datas l.1.name = some p) (fun _ _ h ↦ by cases h) ?_
  intro tr s l s' hr ih hs hm k hk p hp
  obtain ⟨hkeeps, hreturned⟩ := step_keeps (valid_of_run hr)
    (hm tr l [] s rfl hr) hs
  rcases List.mem_append.mp hk with hk | hk
  · refine hkeeps.binding _ p (ih (fun pre j post u htr ↦ ?_) k hk p hp)
    exact hm pre j (post ++ [l]) u (by simp [htr])
  · obtain rfl := List.mem_singleton.mp hk
    exact hreturned p hp

/-- **Names stay bound.**  In a run from the empty registry every call keeps the
bindings and answers by them, and every pointer it has returned is the one a
document is loaded into, exactly if no `Lookup` creates a variable for a name that
is bound to one of another type. -/
theorem stable_iff (h : Run step empty tr m) :
    Stable tr m ↔ Always (fun m c ↦ ¬ m.Mismatched c) tr := by
  constructor
  · rintro hst pre l post s rfl hpre hm
    obtain ⟨s₀, s', hpre₀, hs, -⟩ := h.split_cons
    obtain rfl := Run.deterministic step_deterministic hpre hpre₀
    exact step_mismatched (valid_of_run hpre) hm hs (hst.keeps pre l post s s' rfl hpre hs)
  · intro hm
    refine ⟨fun pre l post s s' htr hpre hs ↦ ?_, fun l hl p hp ↦ ?_⟩
    · exact (step_keeps (valid_of_run hpre) (hm pre l post s htr hpre) hs).1
    · have hbound := handedOut_bound h hm l hl p hp
      exact ⟨hbound, tolower_of_valid ((valid_of_run h).names _ p hbound),
        loadsInto_of_datas hbound⟩

/-- Two of the types that occur. -/
inductive CppType
  | int
  | string
deriving DecidableEq

def CppType.Val : CppType → Type
  | int => Int
  | string => String

/-- The registry with the variable of `tests/test_config.cc`. -/
def onePort : Config CppType.Val :=
  empty.create .int "system.port" (8080 : Int) "system port"

theorem step_onePort : step empty
    (.Lookup .int "system.port" (8080 : Int) "system port", .ok (some 0)) onePort :=
  step_new rfl (by decide)

theorem bound_onePort : onePort.Bound "system.port" .int 0 := bound_create

/-- A variable is looked up again. -/
theorem stable_iff_again :
    Stable [(.Lookup .int "system.port" (8080 : Int) "system port", .ok (some 0)),
      (.LookupName .int "system.port", .ok (some 0))] onePort := by
  have hagain : onePort.step (.LookupName .int "system.port", .ok (some 0)) onePort := by
    simp [step, perform, LookupName_bound bound_onePort]
  refine (stable_iff (.cons step_onePort (.cons hagain (.nil _)))).mpr
    fun pre l post s htr hpre hm ↦ ?_
  obtain ⟨t, name, d, description, u, p, hc, hb, _⟩ := hm
  match pre, htr, hpre with
  | [], _, .nil _ => cases hb.1
  | [_], htr, _ =>
      simp only [List.cons_append, List.nil_append, List.cons.injEq] at htr
      rw [← htr.2.1] at hc
      cases hc
  | _ :: _ :: _, htr, _ => simp at htr

/-- A name is looked up as `int` and then as another type. -/
theorem stable_iff_rebinds : ∃ m : Config CppType.Val,
    Run step empty [(.Lookup .int "system.port" (8080 : Int) "system port", .ok (some 0)),
      (.Lookup .string "system.port" "8080" "system port", .ok (some 1))] m ∧
    m.datas "system.port" = some 1 ∧
    ¬ Stable [(.Lookup .int "system.port" (8080 : Int) "system port", .ok (some 0)),
      (.Lookup .string "system.port" "8080" "system port", .ok (some 1))] m := by
  refine ⟨_, .cons step_onePort <|
    .cons (step_rebind bound_onePort (by decide) (by decide)) (.nil _), bound_create.1, fun h ↦ ?_⟩
  obtain ⟨hfirst, -⟩ := h.handedOut _ (List.mem_cons_self) 0 rfl
  cases hfirst.symm.trans bound_create.1

end Config

end Sylar
