import Mathlib.Data.List.Basic

/-!
# Labelled runs

A system is a labelled transition relation `step : σ → ℓ → σ → Prop`.  A *run*
is a finite sequence of its transitions, and the list of their labels is the
run's *trace*.  Everything that has to be said about whole executions goes
through the rules of this file:

* `Run.invariant`: what every transition preserves, every run preserves;
* `Run.history`: the same for facts that also speak about the trace so far;
* `Run.simulate`, `Run.stutter`: a simulation, step by step or with silent steps, lifts to
  runs;
* `Run.deterministic`: a functional step relation has functional runs;
* `Run.unique`: where a state has one transition at most, there is one run to the end.

`Last p tr l` picks the latest label of a trace with some property, which is how
"the last time this party did such-and-such" is spelled below.
-/

universe u v w

namespace Foundation

variable {σ : Type u} {ℓ : Type v}

/-- `Run step s tr t`: transitions labelled `tr`, in this order, lead from `s`
to `t`. -/
inductive Run (step : σ → ℓ → σ → Prop) : σ → List ℓ → σ → Prop
  /-- The empty run stays where it is. -/
  | nil (s : σ) : Run step s [] s
  /-- One transition followed by a run. -/
  | cons {s t u : σ} {l : ℓ} {tr : List ℓ} :
      step s l t → Run step t tr u → Run step s (l :: tr) u

/-- The transitions of `step` taken only where the condition `G` holds. -/
def Guarded (G : σ → ℓ → Prop) (step : σ → ℓ → σ → Prop) : σ → ℓ → σ → Prop :=
  fun s l t ↦ G s l ∧ step s l t

/-- The transitions of `step` that lead to a state with the property `P`. -/
def Ending (P : σ → Prop) (step : σ → ℓ → σ → Prop) : σ → ℓ → σ → Prop :=
  fun s l t ↦ step s l t ∧ P t

namespace Run

variable {step : σ → ℓ → σ → Prop} {s t u : σ} {l : ℓ} {tr tr' : List ℓ}

/-- Runs compose. -/
theorem append (h : Run step s tr t) (h' : Run step t tr' u) : Run step s (tr ++ tr') u := by
  induction h with
  | nil _ => exact h'
  | cons hs _ ih => exact .cons hs (ih h')

/-- A run extends by one transition at its end. -/
theorem snoc (h : Run step s tr t) (hs : step t l u) : Run step s (tr ++ [l]) u :=
  h.append (.cons hs (.nil u))

/-- A run over a concatenation splits where the trace does. -/
theorem split (h : Run step s (tr ++ tr') u) :
    ∃ t, Run step s tr t ∧ Run step t tr' u := by
  induction tr generalizing s with
  | nil => exact ⟨s, .nil s, h⟩
  | cons l tr ih =>
      cases h with
      | cons hs hr =>
          obtain ⟨t, hr₁, hr₂⟩ := ih hr
          exact ⟨t, .cons hs hr₁, hr₂⟩

/-- The transition at a given position of a run. -/
theorem split_cons (h : Run step s (tr ++ l :: tr') u) :
    ∃ t t', Run step s tr t ∧ step t l t' ∧ Run step t' tr' u := by
  obtain ⟨t, hr, hr'⟩ := h.split
  cases hr' with
  | cons hs hr'' => exact ⟨t, _, hr, hs, hr''⟩

/-- More transitions, more runs. -/
theorem mono {step' : σ → ℓ → σ → Prop} (hle : ∀ s l t, step s l t → step' s l t)
    (h : Run step s tr t) : Run step' s tr t := by
  induction h with
  | nil s => exact .nil s
  | cons hs _ ih => exact .cons (hle _ _ _ hs) ih

/-- A guarded run is a run. -/
theorem unguard {G : σ → ℓ → Prop} (h : Run (Guarded G step) s tr t) : Run step s tr t :=
  h.mono fun _ _ _ hs ↦ hs.2

/-- **Invariant rule.**  A property preserved by every transition is preserved
by every run. -/
theorem invariant {I : σ → Prop} (hstep : ∀ s l t, I s → step s l t → I t)
    (h : Run step s tr t) (hs : I s) : I t := by
  induction h with
  | nil _ => exact hs
  | cons hl _ ih => exact ih (hstep _ _ _ hs hl)

/-- What is known of the states on the way may be used to turn the transitions of
a run into those of another system. -/
theorem mono_given {step' : σ → ℓ → σ → Prop} {J : σ → Prop}
    (hJ : ∀ s l t, J s → step s l t → J t) (hle : ∀ s l t, J s → step s l t → step' s l t)
    (h : Run step s tr t) (hj : J s) : Run step' s tr t := by
  induction h with
  | nil s => exact .nil s
  | cons hs _ ih => exact .cons (hle _ _ _ hj hs) (ih (hJ _ _ _ hj hs))

/-- Invariants are found one after the other: the proof of the next one may use
those already known. -/
theorem invariant_given {J I : σ → Prop} (hJ : ∀ s l t, J s → step s l t → J t)
    (hI : ∀ s l t, J s → I s → step s l t → I t) (h : Run step s tr t) (hj : J s) (hi : I s) :
    I t := by
  induction h with
  | nil _ => exact hi
  | cons hl _ ih => exact ih (hJ _ _ _ hj hl) (hI _ _ _ hj hi hl)

/-- **History rule.**  The induction is on the end of the run, so the property
may speak about the trace that has been performed. -/
theorem history {P : List ℓ → σ → Prop} (h₀ : P [] s)
    (hstep : ∀ tr t l u, Run step s tr t → P tr t → step t l u → P (tr ++ [l]) u)
    (h : Run step s tr t) : P tr t := by
  suffices key : ∀ m tr', Run step m tr' t → ∀ pre, Run step s pre m → P pre m →
      P (pre ++ tr') t by
    simpa using key s tr h [] (.nil s) h₀
  intro m tr' hr
  induction hr with
  | nil m => intro pre _ hp; simpa using hp
  | @cons m t' u l tr' hl _ ih =>
      intro pre hpre hp
      have := ih h (pre ++ [l]) (hpre.snoc hl) (hstep pre m l t' hpre hp hl)
      simpa using this

/-- **Simulation rule.**  If every transition of `step` is matched by one of
`step'` whose label is the image under `obs`, every run is matched by the run
over the image of its trace. -/
theorem simulate {τ : Type w} {κ : Type*} {step' : τ → κ → τ → Prop} {obs : ℓ → κ}
    {R : σ → τ → Prop}
    (hsim : ∀ s l s' a, R s a → step s l s' → ∃ a', step' a (obs l) a' ∧ R s' a')
    (h : Run step s tr t) {a : τ} (ha : R s a) :
    ∃ a', Run step' a (tr.map obs) a' ∧ R t a' := by
  induction h generalizing a with
  | nil _ => exact ⟨a, .nil a, ha⟩
  | cons hl _ ih =>
      obtain ⟨a₁, hs₁, hr₁⟩ := hsim _ _ _ _ ha hl
      obtain ⟨a₂, hs₂, hr₂⟩ := ih hr₁
      exact ⟨a₂, .cons hs₁ hs₂, hr₂⟩

/-- A simulation may take any number of steps for one, none included. -/
theorem stutter {τ : Type w} {κ : Type*} {step' : τ → κ → τ → Prop} {obs : ℓ → List κ}
    {R : σ → τ → Prop}
    (hsim : ∀ s l s' a, R s a → step s l s' → ∃ a', Run step' a (obs l) a' ∧ R s' a')
    (h : Run step s tr t) {a : τ} (ha : R s a) :
    ∃ a', Run step' a (tr.flatMap obs) a' ∧ R t a' := by
  induction h generalizing a with
  | nil _ => exact ⟨a, .nil a, ha⟩
  | cons hl _ ih =>
      obtain ⟨a₁, hs₁, hr₁⟩ := hsim _ _ _ _ ha hl
      obtain ⟨a₂, hs₂, hr₂⟩ := ih hr₁
      exact ⟨a₂, hs₁.append hs₂, hr₂⟩

/-- A trace determines the state it leads to when each label does. -/
theorem deterministic (hdet : ∀ s l t t', step s l t → step s l t' → t = t')
    (h : Run step s tr t) (h' : Run step s tr u) : t = u := by
  induction h with
  | nil _ => cases h'; rfl
  | cons hl _ ih =>
      cases h' with
      | cons hl' hr' => exact ih (hdet _ _ _ _ hl hl' ▸ hr')

/-- Runs that have come to an end are the same where no state has two transitions. -/
theorem unique (hdet : ∀ s l l' t t', step s l t → step s l' t' → l = l' ∧ t = t')
    (h : Run step s tr t) (h' : Run step s tr' u) (ht : ∀ l t', ¬ step t l t')
    (hu : ∀ l u', ¬ step u l u') : tr = tr' ∧ t = u := by
  induction h generalizing tr' with
  | nil s =>
      cases h' with
      | nil => exact ⟨rfl, rfl⟩
      | cons hs' _ => exact absurd hs' (ht _ _)
  | cons hs _ ih =>
      cases h' with
      | nil => exact absurd hs (hu _ _)
      | cons hs' hr' =>
          obtain ⟨rfl, rfl⟩ := hdet _ _ _ _ _ hs hs'
          obtain ⟨rfl, rfl⟩ := ih hr' ht
          exact ⟨rfl, rfl⟩

end Run

/-! ## The latest label with a property -/

/-- `Last p tr l`: `l` is the latest label of the trace `tr` that satisfies
`p`. -/
def Last (p : ℓ → Prop) (tr : List ℓ) (l : ℓ) : Prop :=
  ∃ pre post, tr = pre ++ l :: post ∧ p l ∧ ∀ x ∈ post, ¬ p x

namespace Last

variable {p : ℓ → Prop} {tr : List ℓ} {l x : ℓ}

/-- A new label with the property becomes the latest one. -/
theorem here (hl : p l) : Last p (tr ++ [l]) l := ⟨tr, [], rfl, hl, by simp⟩

/-- A new label without the property changes nothing. -/
theorem later (h : Last p tr l) (hx : ¬ p x) : Last p (tr ++ [x]) l := by
  obtain ⟨pre, post, rfl, hl, hpost⟩ := h
  refine ⟨pre, post ++ [x], by simp, hl, fun y hy ↦ ?_⟩
  rcases List.mem_append.mp hy with hy | hy
  · exact hpost y hy
  · rwa [List.mem_singleton.mp hy]

theorem not_nil : ¬ Last p [] l := by
  rintro ⟨pre, post, h, _⟩
  exact List.append_ne_nil_of_right_ne_nil pre (List.cons_ne_nil l post) h.symm

/-- The latest label of a trace is the new one, or that of the trace before. -/
theorem snoc_cases (h : Last p (tr ++ [x]) l) : p x ∧ l = x ∨ ¬ p x ∧ Last p tr l := by
  obtain ⟨pre, post, heq, hl, hpost⟩ := h
  rcases List.eq_nil_or_concat post with rfl | ⟨post, y, rfl⟩
  · cases List.append_inj_right' heq rfl
    exact .inl ⟨hl, rfl⟩
  · rw [List.concat_eq_append, ← List.cons_append, ← List.append_assoc] at heq
    obtain ⟨rfl, hxy⟩ := List.append_inj' heq rfl
    cases hxy
    exact .inr ⟨hpost x (by simp), pre, post, rfl, hl, fun z hz ↦ hpost z (by simp [hz])⟩

/-- A new label without the property does not matter. -/
theorem snoc_iff (hx : ¬ p x) : Last p (tr ++ [x]) l ↔ Last p tr l := by
  constructor
  · intro h
    rcases h.snoc_cases with ⟨hp, _⟩ | ⟨_, h⟩
    · exact absurd hp hx
    · exact h
  · intro h
    exact h.later hx

/-- Only the labels with the property matter. -/
theorem congr {q : ℓ → Prop} (hpq : ∀ x, p x ↔ q x) (h : Last p tr l) : Last q tr l := by
  obtain ⟨pre, post, rfl, hl, hpost⟩ := h
  exact ⟨pre, post, rfl, (hpq l).mp hl, fun x hx hq ↦ hpost x hx ((hpq x).mpr hq)⟩

/-- A latest label maps to a latest label along a map that reflects the
property. -/
theorem of_map {κ : Type*} {obs : ℓ → κ} {q : κ → Prop} {m : κ}
    (h : Last q (tr.map obs) m) : ∃ l, obs l = m ∧ Last (fun x ↦ q (obs x)) tr l := by
  obtain ⟨pre, post, heq, hm, hpost⟩ := h
  obtain ⟨pre', rest, rfl, rfl, hrest⟩ := List.map_eq_append_iff.mp heq
  obtain ⟨l, post', rfl, rfl, rfl⟩ := List.map_eq_cons_iff.mp hrest
  exact ⟨l, rfl, pre', post', rfl, hm, fun x hx ↦ hpost _ (List.mem_map_of_mem hx)⟩

end Last

/-! ## Labels and what comes before them -/

/-- Every label of the trace has the property `P` after those before it. -/
def Each (P : List ℓ → ℓ → Prop) (tr : List ℓ) : Prop :=
  ∀ pre l post, tr = pre ++ l :: post → P pre l

namespace Each

variable {P : List ℓ → ℓ → Prop} {tr : List ℓ} {l : ℓ}

theorem nil : Each P [] := fun pre l post h ↦
  absurd h.symm (List.append_ne_nil_of_right_ne_nil pre (List.cons_ne_nil l post))

theorem snoc (h : Each P tr) (hl : P tr l) : Each P (tr ++ [l]) := by
  intro pre k post heq
  rcases List.eq_nil_or_concat post with rfl | ⟨post, j, rfl⟩
  · obtain ⟨rfl, hk⟩ := List.append_inj' heq rfl
    obtain rfl := List.singleton_inj.mp hk
    exact hl
  · rw [List.concat_eq_append, ← List.cons_append, ← List.append_assoc] at heq
    obtain ⟨rfl, -⟩ := List.append_inj' heq rfl
    exact h pre k post rfl

end Each

end Foundation
