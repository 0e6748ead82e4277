import Mathlib.Data.List.Basic

/-!
# Text with separators

A separator that does not occur in the parts tells them apart: from the parts one after
the other, each followed by the separator, the parts can be read back.
-/

namespace Foundation.Separated

variable {α : Type*} {sep : α} {a b x y : List α} {as bs : List (List α)}

/-- The parts, each followed by the separator. -/
def terminated (sep : α) (as : List (List α)) : List α := as.flatMap (· ++ [sep])

@[simp] theorem terminated_nil : terminated sep [] = [] := rfl

@[simp] theorem terminated_cons : terminated sep (a :: as) = a ++ sep :: terminated sep as := by
  show (a ++ [sep]) ++ terminated sep as = _
  rw [List.append_assoc]
  rfl

/-- There is one place only for the first separator. -/
theorem first_inj (ha : sep ∉ a) (hb : sep ∉ b) :
    a ++ sep :: x = b ++ sep :: y ↔ a = b ∧ x = y := by
  refine ⟨fun h ↦ ?_, fun h ↦ by rw [h.1, h.2]⟩
  induction a generalizing b with
  | nil =>
      cases b with
      | nil => exact ⟨rfl, (List.cons.inj h).2⟩
      | cons c b =>
          have hc : sep = c := (List.cons.inj h).1
          exact absurd (hc ▸ List.mem_cons_self) hb
  | cons c a ih =>
      cases b with
      | nil =>
          have hc : c = sep := (List.cons.inj h).1
          exact absurd (hc ▸ List.mem_cons_self) ha
      | cons d b =>
          obtain ⟨rfl, hrest⟩ := List.cons.inj h
          obtain ⟨rfl, rfl⟩ := ih (List.not_mem_of_not_mem_cons ha)
            (List.not_mem_of_not_mem_cons hb) hrest
          exact ⟨rfl, rfl⟩

/-- There is one place only for the last separator. -/
theorem last_inj (hx : sep ∉ x) (hy : sep ∉ y) :
    a ++ sep :: x = b ++ sep :: y ↔ a = b ∧ x = y := by
  rw [← List.reverse_inj]
  simp only [List.reverse_append, List.reverse_cons, List.append_assoc, List.singleton_append]
  rw [first_inj (List.mem_reverse.not.mpr hx) (List.mem_reverse.not.mpr hy),
    List.reverse_inj, List.reverse_inj]
  exact and_comm

/-- As many parts before something else. -/
theorem terminated_append_inj (ha : ∀ p ∈ as, sep ∉ p) (hb : ∀ p ∈ bs, sep ∉ p)
    (hlen : as.length = bs.length) :
    terminated sep as ++ x = terminated sep bs ++ y ↔ as = bs ∧ x = y := by
  refine ⟨fun h ↦ ?_, fun h ↦ by rw [h.1, h.2]⟩
  induction as generalizing bs with
  | nil =>
      obtain rfl := List.length_eq_zero_iff.mp hlen.symm
      exact ⟨rfl, h⟩
  | cons p as ih =>
      cases bs with
      | nil => cases hlen
      | cons q bs =>
          rw [List.forall_mem_cons] at ha hb
          simp only [terminated_cons, List.append_assoc, List.cons_append] at h
          obtain ⟨rfl, hrest⟩ := (first_inj ha.1 hb.1).mp h
          obtain ⟨rfl, rfl⟩ := ih ha.2 hb.2 (Nat.succ.inj hlen) hrest
          exact ⟨rfl, rfl⟩

/-- Any number of parts. -/
theorem terminated_inj (ha : ∀ p ∈ as, sep ∉ p) (hb : ∀ p ∈ bs, sep ∉ p) :
    terminated sep as = terminated sep bs ↔ as = bs := by
  refine ⟨fun h ↦ ?_, fun h ↦ by rw [h]⟩
  induction as generalizing bs with
  | nil =>
      cases bs with
      | nil => rfl
      | cons q bs =>
          rw [terminated_cons] at h
          exact absurd h.symm (List.append_ne_nil_of_right_ne_nil _ (List.cons_ne_nil _ _))
  | cons p as ih =>
      cases bs with
      | nil =>
          rw [terminated_cons] at h
          exact absurd h (List.append_ne_nil_of_right_ne_nil _ (List.cons_ne_nil _ _))
      | cons q bs =>
          rw [List.forall_mem_cons] at ha hb
          rw [terminated_cons, terminated_cons] at h
          obtain ⟨rfl, hrest⟩ := (first_inj ha.1 hb.1).mp h
          rw [ih ha.2 hb.2 hrest]

end Foundation.Separated
