import Mathlib.Data.List.Basic

/-!
# Computations that may fail

Rules for computations in `Except`, and for loops over a list that stop at the
first failure.  They let a proof take a computation apart without looking at how
it was written.
-/

universe u v w

namespace Foundation

variable {ε : Type u} {α β σ : Type v}

namespace Except

/-- A sequence succeeds when both of its parts do. -/
theorem bind_ok_iff {x : Except ε α} {f : α → Except ε β} {b : β} :
    x >>= f = .ok b ↔ ∃ a, x = .ok a ∧ f a = .ok b := by
  cases x with
  | error e => simp [bind, Except.bind]
  | ok a => simp [bind, Except.bind]

/-- Nothing can fail in a function applied to the result. -/
theorem map_ok_iff {x : Except ε α} {f : α → β} {b : β} :
    x.map f = .ok b ↔ ∃ a, x = .ok a ∧ f a = b := by
  cases x with
  | error e => simp [Except.map]
  | ok a => simp [Except.map]

/-- Two computations fail with the same error, or succeed with results in the relation
`R`. -/
inductive Rel {β : Type w} (R : α → β → Prop) : Except ε α → Except ε β → Prop
  | error (e : ε) : Rel R (.error e) (.error e)
  | ok {a : α} {b : β} : R a b → Rel R (.ok a) (.ok b)

namespace Rel

variable {α' β' : Type v} {R : α → α' → Prop} {S : β → β' → Prop}
variable {x : Except ε α} {x' : Except ε α'}

theorem bind {f : α → Except ε β} {f' : α' → Except ε β'} (h : Rel R x x')
    (hf : ∀ a a', R a a' → Rel S (f a) (f' a')) : Rel S (x >>= f) (x' >>= f') := by
  cases h with
  | error e => exact .error e
  | ok h => exact hf _ _ h

theorem map {f : α → β} {f' : α' → β'} (h : Rel R x x')
    (hf : ∀ a a', R a a' → S (f a) (f' a')) : Rel S (x.map f) (x'.map f') := by
  cases h with
  | error e => exact .error e
  | ok h => exact .ok (hf _ _ h)

/-- What the one computation returns, the other returns as well. -/
theorem ok_left {a : α} (h : Rel R x x') (hx : x = .ok a) : ∃ a', x' = .ok a' ∧ R a a' := by
  subst hx
  cases h with
  | ok h => exact ⟨_, rfl, h⟩

theorem ok_right {a' : α'} (h : Rel R x x') (hx : x' = .ok a') : ∃ a, x = .ok a ∧ R a a' := by
  subst hx
  cases h with
  | ok h => exact ⟨_, rfl, h⟩

end Rel

@[simp] theorem ok_bind (a : α) (f : α → Except ε β) : (Except.ok a : Except ε α) >>= f = f a := rfl

@[simp] theorem error_bind (e : ε) (f : α → Except ε β) :
    (Except.error e : Except ε α) >>= f = .error e := rfl

@[simp] theorem pure_eq_ok (a : α) : (pure a : Except ε α) = .ok a := rfl

end Except

/-! ## Loops -/

section Loop

variable {f : σ → α → Except ε σ} {l : List α} {s t : σ} {I : σ → Prop}

/-- A loop that ends keeps what each round keeps. -/
theorem foldlM_invariant (hstep : ∀ s a t, a ∈ l → I s → f s a = .ok t → I t) (hs : I s)
    (h : l.foldlM f s = .ok t) : I t := by
  induction l generalizing s with
  | nil => cases h; exact hs
  | cons a l ih =>
      rw [List.foldlM_cons, Except.bind_ok_iff] at h
      obtain ⟨u, hu, hrest⟩ := h
      exact ih (fun s b t hb ↦ hstep s b t (by simp [hb])) (hstep s a u (by simp) hs hu) hrest

/-- A loop ends if each round does and leads to a state the next one can start
from. -/
theorem foldlM_total (hstep : ∀ s a, a ∈ l → I s → ∃ t, f s a = .ok t ∧ I t) (hs : I s) :
    ∃ t, l.foldlM f s = .ok t ∧ I t := by
  induction l generalizing s with
  | nil => exact ⟨s, rfl, hs⟩
  | cons a l ih =>
      obtain ⟨u, hu, hI⟩ := hstep s a (by simp) hs
      obtain ⟨t, ht, hIt⟩ := ih (fun s b hb ↦ hstep s b (by simp [hb])) hI
      exact ⟨t, by rw [List.foldlM_cons, Except.bind_ok_iff]; exact ⟨u, hu, ht⟩, hIt⟩

/-- Each round of a loop that ends has ended. -/
theorem foldlM_rounds (h : l.foldlM f s = .ok t) : ∀ a ∈ l, ∃ u u', f u a = .ok u' := by
  induction l generalizing s with
  | nil => simp
  | cons a l ih =>
      rw [List.foldlM_cons, Except.bind_ok_iff] at h
      obtain ⟨u, hu, hrest⟩ := h
      intro b hb
      rcases List.mem_cons.mp hb with rfl | hb
      · exact ⟨s, u, hu⟩
      · exact ih hrest b hb

end Loop

end Foundation
