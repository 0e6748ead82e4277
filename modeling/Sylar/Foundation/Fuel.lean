import Mathlib.Data.Fintype.Card
import Mathlib.Data.Fintype.EquivFin
import Mathlib.Order.WellFounded

/-!
# Recursion with fuel

A procedure that calls itself is a function of the depth that is left, without a
result when none is left.  It returns when some depth is enough.

With finitely many calls in each round this is well-foundedness of the calls
(`Recursive.returns_iff_acc`), and over finitely many arguments it is the absence
of a cycle that can be reached (`acc_iff_acyclic`).
-/

universe u v

namespace Foundation

variable {α : Type u} {β : Type v}

/-- Some depth is enough. -/
def Returns (f : Nat → α → Option β) (a : α) : Prop := ∃ n, (f n a).isSome

/-- `f` calls itself at the arguments `calls a`, and has a result when all these
calls have one. -/
structure Recursive (calls : α → List α) (f : Nat → α → Option β) : Prop where
  zero : ∀ a, ¬ (f 0 a).isSome
  succ : ∀ n a, (f (n + 1) a).isSome ↔ ∀ b ∈ calls a, (f n b).isSome

/-- A list of calls has a result when each of them has one. -/
theorem mapM_isSome_iff {f : α → Option β} {l : List α} :
    (l.mapM f).isSome ↔ ∀ a ∈ l, (f a).isSome := by
  induction l with
  | nil => simp
  | cons a l ih =>
      rw [List.mapM_cons, List.forall_mem_cons, ← ih]
      cases f a <;> cases l.mapM f <;> simp

section Returns

variable {calls : α → List α} {f : Nat → α → Option β} {n m : Nat} {a : α}

/-- More depth does no harm. -/
theorem Recursive.mono (h : Recursive calls f) (hle : n ≤ m) (ha : (f n a).isSome) :
    (f m a).isSome := by
  induction n generalizing m a with
  | zero => exact absurd ha (h.zero a)
  | succ n ih =>
      obtain ⟨m, rfl⟩ := Nat.exists_eq_add_of_le' (Nat.le_of_add_left_le hle)
      refine (h.succ m a).mpr fun b hb ↦ ?_
      exact ih (Nat.le_of_succ_le_succ hle) ((h.succ n a).mp ha b hb)

/-- One depth is enough for all of finitely many calls. -/
theorem Recursive.common (h : Recursive calls f) {l : List α} (hl : ∀ a ∈ l, Returns f a) :
    ∃ n, ∀ a ∈ l, (f n a).isSome := by
  induction l with
  | nil => exact ⟨0, by simp⟩
  | cons a l ih =>
      obtain ⟨n, hn⟩ := hl a (by simp)
      obtain ⟨m, hm⟩ := ih fun b hb ↦ hl b (by simp [hb])
      refine ⟨max n m, fun b hb ↦ ?_⟩
      rcases List.mem_cons.mp hb with rfl | hb
      · exact h.mono (Nat.le_max_left n m) hn
      · exact h.mono (Nat.le_max_right n m) (hm b hb)

/-- A call returns exactly if no chain of calls below it is infinite. -/
theorem Recursive.returns_iff_acc (h : Recursive calls f) :
    Returns f a ↔ Acc (fun b a ↦ b ∈ calls a) a := by
  constructor
  · rintro ⟨n, hn⟩
    induction n generalizing a with
    | zero => exact absurd hn (h.zero a)
    | succ n ih => exact ⟨a, fun b hb ↦ ih ((h.succ n a).mp hn b hb)⟩
  · intro hacc
    induction hacc with
    | intro a _ ih =>
        obtain ⟨n, hn⟩ := h.common ih
        exact ⟨n + 1, (h.succ n a).mpr hn⟩

end Returns

/-! ## Cycles -/

section Acyclic

open Relation

variable {r : α → α → Prop} {a b : α}

/-- Descent ends at whatever can be reached. -/
theorem acc_of_reachable (h : Acc (fun b a ↦ r a b) a) (hab : ReflTransGen r a b) :
    Acc (fun b a ↦ r a b) b := by
  induction hab with
  | refl => exact h
  | tail _ hbc ih => exact ih.inv hbc

theorem not_cycle_of_acc (h : Acc (fun b a ↦ r a b) a) : ¬ TransGen r a a := by
  intro hcycle
  have hchain : ¬ Acc (TransGen fun b a ↦ r a b) a :=
    not_acc_iff_exists_descending_chain.mpr ⟨fun _ ↦ a, rfl, fun _ ↦ transGen_swap.mpr hcycle⟩
  exact hchain h.transGen

/-- Over finitely many elements descent ends exactly where no cycle can be
reached. -/
theorem acc_iff_acyclic [Finite α] :
    Acc (fun b a ↦ r a b) a ↔ ∀ b, ReflTransGen r a b → ¬ TransGen r b b := by
  constructor
  · intro h b hab
    exact not_cycle_of_acc (acc_of_reachable h hab)
  · intro h
    -- among the elements that can be reached, the paths are a strict order
    let below : {b // ReflTransGen r a b} → {b // ReflTransGen r a b} → Prop :=
      fun x y ↦ TransGen r y.1 x.1
    have htrans : IsTrans _ below := ⟨fun _ _ _ hxy hyz ↦ TransGen.trans hyz hxy⟩
    have hirrefl : Std.Irrefl below := ⟨fun x ↦ h x.1 x.2⟩
    have hwf : WellFounded below := Finite.wellFounded_of_trans_of_irrefl below
    have hacc : ∀ x : {b // ReflTransGen r a b}, Acc (fun b a ↦ r a b) x.1 := by
      intro x
      induction hwf.apply x with
      | intro x _ ih => exact ⟨x.1, fun c hc ↦ ih ⟨c, x.2.tail hc⟩ (.single hc)⟩
    exact hacc ⟨a, .refl⟩

end Acyclic

end Foundation
