import Sylar.Foundation.Run
import Mathlib.Logic.Function.Basic

/-!
# Interleaved threads

Threads with a state each, next to a state that all of them share.  A step is one
of a single thread, which reads and writes its own state and the shared one.

A *token* is something that at most one thread has at a time.  A thread knows
whether it has the token, and the shared state says whether it is taken.  If a
step takes the token only where it is free, and gives it back only where the thread
has it, then in every run

* `Token.exclusive`: at most one thread has the token, and the shared state is
  right about it;
* `Token.has_iff`: a thread has the token from the step that takes it to the one
  that gives it back;
* `Token.given_inside`: a thread that gives the token back has it.
-/

universe u v w

namespace Foundation

/-- The states of all threads, and the one they share. -/
structure Threads (T : Type u) (σ : Type v) (Λ : Type w) where
  shared : σ
  own : T → Λ

namespace Threads

variable {T : Type u} {σ : Type v} {Λ : Type w} {ℓ : Type*} [DecidableEq T]

/-- One thread takes a step. -/
inductive Step (step : σ → Λ → ℓ → σ → Λ → Prop) :
    Threads T σ Λ → T × ℓ → Threads T σ Λ → Prop
  | mk {s : Threads T σ Λ} {t : T} {e : ℓ} {m : σ} {w : Λ} :
      step s.shared (s.own t) e m w → Step step s (t, e) ⟨m, Function.update s.own t w⟩

/-- The steps of one thread. -/
def steps (t : T) (tr : List (T × ℓ)) : List ℓ := (tr.filter (·.1 = t)).map Prod.snd

theorem steps_snoc {t : T} {tr : List (T × ℓ)} {e : ℓ} :
    steps t (tr ++ [(t, e)]) = steps t tr ++ [e] := by
  simp [steps]

theorem steps_snoc_ne {t u : T} {tr : List (T × ℓ)} {e : ℓ} (h : t ≠ u) :
    steps u (tr ++ [(t, e)]) = steps u tr := by
  simp [steps, h]

/-- The latest step of `t` that takes or gives something back is one that takes it. -/
def Inside (Takes Gives : ℓ → Prop) (tr : List (T × ℓ)) (t : T) : Prop :=
  ∃ e, Takes e ∧ Last (fun x ↦ x.1 = t ∧ (Takes x.2 ∨ Gives x.2)) tr (t, e)

/-- What the steps of a thread, in a state with the property `I`, do with a token. -/
structure Token (step : σ → Λ → ℓ → σ → Λ → Prop) (I Has : Λ → Prop) (Taken : σ → Prop)
    (Takes Gives : ℓ → Prop) : Prop where
  keeps : ∀ {m w e m' w'}, I w → step m w e m' w' → I w'
  takes : ∀ {m w e m' w'}, I w → step m w e m' w' → Takes e → ¬ Taken m ∧ Taken m' ∧ Has w'
  gives : ∀ {m w e m' w'}, I w → step m w e m' w' → Gives e → Has w ∧ ¬ Taken m' ∧ ¬ Has w'
  others : ∀ {m w e m' w'}, I w → step m w e m' w' → ¬ Takes e → ¬ Gives e →
    (Taken m' ↔ Taken m) ∧ (Has w' ↔ Has w)

/-- At most one thread has the token, and it is taken exactly if one has. -/
structure Exclusive (Has : Λ → Prop) (Taken : σ → Prop) (s : Threads T σ Λ) : Prop where
  unique : ∀ t u, Has (s.own t) → Has (s.own u) → t = u
  taken : Taken s.shared ↔ ∃ t, Has (s.own t)

/-- Nobody has the token. -/
structure Free (I Has : Λ → Prop) (Taken : σ → Prop) (s : Threads T σ Λ) : Prop where
  own : ∀ t, I (s.own t) ∧ ¬ Has (s.own t)
  shared : ¬ Taken s.shared

namespace Token

variable {step : σ → Λ → ℓ → σ → Λ → Prop} {I Has : Λ → Prop} {Taken : σ → Prop}
variable {Takes Gives : ℓ → Prop} {s s' : Threads T σ Λ} {tr : List (T × ℓ)} {t : T} {e : ℓ}

/-- The property of the single states is an invariant. -/
theorem own_invariant (h : Token step I Has Taken Takes Gives) (hr : Run (Step step) s tr s')
    (hs : ∀ t, I (s.own t)) : ∀ t, I (s'.own t) := by
  refine hr.invariant (I := fun s ↦ ∀ t, I (s.own t)) ?_ hs
  rintro s _ _ hs ⟨hstep⟩ u
  rename_i t e m w
  by_cases hu : u = t
  · subst hu
    simpa using h.keeps (hs u) hstep
  · simpa [hu] using hs u

/-- **Step lemma.** -/
theorem exclusive_step (h : Token step I Has Taken Takes Gives) (hs : ∀ t, I (s.own t))
    (he : s.Exclusive Has Taken) {x : T × ℓ} (hx : Step step s x s') : s'.Exclusive Has Taken := by
  obtain ⟨hstep⟩ := hx
  rename_i t e m w
  have hother : ∀ u, u ≠ t → (Has (Function.update s.own t w u) ↔ Has (s.own u)) :=
    fun u hu ↦ by rw [Function.update_of_ne hu]
  by_cases htakes : Takes e
  · obtain ⟨hfree, htaken, hhas⟩ := h.takes (hs t) hstep htakes
    have hnone : ∀ u, ¬ Has (s.own u) := fun u hu ↦ hfree (he.taken.mpr ⟨u, hu⟩)
    have honly : ∀ u, Has (Function.update s.own t w u) → u = t := by
      intro u hu
      by_contra hne
      exact hnone u ((hother u hne).mp hu)
    exact ⟨fun u v hu hv ↦ (honly u hu).trans (honly v hv).symm,
      fun _ ↦ ⟨t, by simpa using hhas⟩, fun _ ↦ htaken⟩
  · by_cases hgives : Gives e
    · obtain ⟨hhas, hfree, hnot⟩ := h.gives (hs t) hstep hgives
      have hnone : ∀ u, ¬ Has (Function.update s.own t w u) := by
        intro u hu
        by_cases hne : u = t
        · subst hne
          exact hnot (by simpa using hu)
        · exact hne (he.unique u t ((hother u hne).mp hu) hhas)
      exact ⟨fun u _ hu ↦ absurd hu (hnone u), fun hm ↦ absurd hm hfree,
        fun ⟨u, hu⟩ ↦ absurd hu (hnone u)⟩
    · obtain ⟨htaken, hhas⟩ := h.others (hs t) hstep htakes hgives
      have hsame : ∀ u, Has (Function.update s.own t w u) ↔ Has (s.own u) := by
        intro u
        by_cases hne : u = t
        · subst hne
          simpa using hhas
        · exact hother u hne
      exact ⟨fun u v hu hv ↦ he.unique u v ((hsame u).mp hu) ((hsame v).mp hv),
        htaken.trans (he.taken.trans (exists_congr fun u ↦ (hsame u).symm))⟩

/-- **Run lemma.** -/
theorem exclusive (h : Token step I Has Taken Takes Gives) (hr : Run (Step step) s tr s')
    (hs : s.Free I Has Taken) : s'.Exclusive Has Taken := by
  have hinit : s.Exclusive Has Taken :=
    ⟨fun t _ ht ↦ absurd ht (hs.own t).2, fun hm ↦ absurd hm hs.shared,
      fun ⟨t, ht⟩ ↦ absurd ht (hs.own t).2⟩
  refine hr.invariant_given (J := fun s ↦ ∀ t, I (s.own t)) ?_ ?_ (fun t ↦ (hs.own t).1) hinit
  · intro s x s' hs hx
    exact h.own_invariant (.cons hx (.nil _)) hs
  · intro s x s' hs he hx
    exact h.exclusive_step hs he hx

/-- What the trace says about who has the token. -/
theorem has_iff (h : Token step I Has Taken Takes Gives) (hr : Run (Step step) s tr s')
    (hs : s.Free I Has Taken) (t : T) : Has (s'.own t) ↔ Inside Takes Gives tr t := by
  refine Run.history (P := fun tr s' ↦ ∀ t, Has (s'.own t) ↔ Inside Takes Gives tr t) ?_ ?_ hr t
  · intro t
    refine ⟨fun ht ↦ absurd ht (hs.own t).2, ?_⟩
    rintro ⟨e, _, hlast⟩
    exact absurd hlast Last.not_nil
  · rintro tr s₁ _ _ hr₁ ih ⟨hstep⟩ u
    rename_i t e m w
    have hI := h.own_invariant hr₁ (fun t ↦ (hs.own t).1) t
    show Has (Function.update s₁.own t w u) ↔ Inside Takes Gives (tr ++ [(t, e)]) u
    have hkeep : ¬ (t = u ∧ (Takes e ∨ Gives e)) →
        (Inside Takes Gives (tr ++ [(t, e)]) u ↔ Inside Takes Gives tr u) :=
      fun hno ↦ exists_congr fun e' ↦ and_congr_right fun _ ↦ Last.snoc_iff hno
    by_cases hu : u = t
    · subst hu
      rw [Function.update_self]
      by_cases htakes : Takes e
      · exact ⟨fun _ ↦ ⟨e, htakes, .here ⟨rfl, .inl htakes⟩⟩,
          fun _ ↦ (h.takes hI hstep htakes).2.2⟩
      · by_cases hgives : Gives e
        · refine ⟨fun hw ↦ absurd hw (h.gives hI hstep hgives).2.2, ?_⟩
          rintro ⟨e', htakes', hlast⟩
          rcases hlast.snoc_cases with ⟨_, heq⟩ | ⟨hno, _⟩
          · cases heq
            exact absurd htakes' htakes
          · exact absurd ⟨rfl, .inr hgives⟩ hno
        · rw [hkeep fun hx ↦ hx.2.elim htakes hgives, ← ih u]
          exact (h.others hI hstep htakes hgives).2
    · rw [hkeep fun hx ↦ hu hx.1.symm, ← ih u, Function.update_of_ne hu]

/-- Only the thread that has the token gives it back. -/
theorem given_inside (h : Token step I Has Taken Takes Gives)
    {pre post : List (T × ℓ)} (hr : Run (Step step) s (pre ++ (t, e) :: post) s')
    (hs : s.Free I Has Taken) (hgives : Gives e) : Inside Takes Gives pre t := by
  obtain ⟨s₁, s₂, hpre, ⟨hstep⟩, _⟩ := hr.split_cons
  have hI := h.own_invariant hpre (fun t ↦ (hs.own t).1) t
  exact (h.has_iff hpre hs t).mp (h.gives hI hstep hgives).1

end Token

end Threads

end Foundation
