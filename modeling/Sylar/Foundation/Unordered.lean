import Mathlib.Data.List.Basic
import Mathlib.Data.List.Forall2
import Mathlib.Data.List.Perm.Subperm

/-!
# Unordered collections

A collection with at most one element of each kind, in an order of iteration that
nobody promises: the `std::unordered_set`, and for pairs compared by their first
component the `std::unordered_map`.

Every insertion may rearrange the elements.  What it does to the order is a
`Layout`, and nothing is said about it.
-/

universe u v

namespace Foundation

variable {α : Type u}

/-- An element of the first of two related lists is related to one of the second. -/
theorem exists_of_forall₂ {β : Type v} {R : α → β → Prop} {l : List α} {l' : List β}
    (h : List.Forall₂ R l l') {a : α} (ha : a ∈ l) : ∃ b ∈ l', R a b := by
  induction h with
  | nil => cases ha
  | @cons a' b' _ _ hab _ ih =>
      rcases List.mem_cons.mp ha with rfl | ha
      · exact ⟨b', by simp, hab⟩
      · obtain ⟨b, hb, hR⟩ := ih ha
        exact ⟨b, by simp [hb], hR⟩

/-- The key equality of a collection. -/
structure Comparison (α : Type u) where
  same : α → α → Bool
  symm : ∀ a b, same a b = same b a

namespace Comparison

/-- Elements are compared by `==`. -/
def beq (α : Type u) [BEq α] [PartialEquivBEq α] : Comparison α :=
  ⟨(· == ·), fun _ _ ↦ BEq.comm⟩

/-- Pairs are compared by their keys. -/
def byKey (κ α : Type u) [DecidableEq κ] : Comparison (κ × α) :=
  ⟨fun a b ↦ a.1 = b.1, fun a b ↦ by simp [eq_comm]⟩

end Comparison

/-- The order in which elements come to be iterated. -/
structure Layout (α : Type u) where
  order : List α → List α
  perm : ∀ l, (order l).Perm l

/-- A list without two elements of one kind. -/
structure Unordered (c : Comparison α) where
  toList : List α
  distinct : toList.Pairwise fun a b ↦ c.same a b = false

namespace Unordered

variable {c : Comparison α} {s t : Unordered c} {a : α} {l l' : List α} (o : Layout α)

/-- The collection without elements. -/
def empty : Unordered c := ⟨[], .nil⟩

/-- An element is inserted, unless one of its kind is there. -/
def insert (s : Unordered c) (a : α) : Unordered c :=
  if h : ∀ b ∈ s.toList, c.same a b = false then
    ⟨o.order (a :: s.toList),
      ((o.perm _).pairwise_iff fun hab ↦ (c.symm _ _).trans hab).mpr (.cons h s.distinct)⟩
  else s

/-- Insert the elements of a list one after the other. -/
def ofList (c : Comparison α) (l : List α) : Unordered c := l.foldl (insert o) empty

theorem insert_perm (h : ∀ b ∈ s.toList, c.same a b = false) :
    (s.insert o a).toList.Perm (a :: s.toList) := by
  rw [insert, dif_pos h]
  exact o.perm _

theorem foldl_insert_perm (h : (s.toList ++ l).Pairwise fun a b ↦ c.same a b = false) :
    (l.foldl (insert o) s).toList.Perm (s.toList ++ l) := by
  induction l generalizing s with
  | nil => simp
  | cons a l ih =>
      have hnew : ∀ b ∈ s.toList, c.same a b = false := fun b hb ↦
        (c.symm a b).trans ((List.pairwise_append.mp h).2.2 b hb a (by simp))
      have hperm : ((s.insert o a).toList ++ l).Perm (s.toList ++ a :: l) :=
        ((insert_perm o hnew).append_right l).trans List.perm_middle.symm
      have hpair := (hperm.pairwise_iff fun hab ↦ (c.symm _ _).trans hab).mpr h
      exact (ih hpair).trans hperm

/-- Distinct elements are all kept. -/
theorem ofList_perm (h : l.Pairwise fun a b ↦ c.same a b = false) :
    (ofList o c l).toList.Perm l :=
  foldl_insert_perm o (s := empty) h

/-- Nothing but the elements of the list is in it. -/
theorem mem_ofList (h : a ∈ (ofList o c l).toList) : a ∈ l := by
  suffices h' : ∀ (l : List α) (s : Unordered c), a ∈ (l.foldl (insert o) s).toList →
      a ∈ s.toList ∨ a ∈ l by
    exact (h' l empty h).resolve_left List.not_mem_nil
  intro l
  induction l with
  | nil => exact fun s hs ↦ .inl hs
  | cons b l ih =>
      intro s hs
      rcases ih (s.insert o b) hs with hs | hs
      · by_cases hb : ∀ b' ∈ s.toList, c.same b b' = false
        · rcases List.mem_cons.mp ((insert_perm o hb).mem_iff.mp hs) with rfl | hs
          · exact .inr List.mem_cons_self
          · exact .inl hs
        · rw [insert, dif_neg hb] at hs
          exact .inl hs
      · exact .inr (List.mem_cons_of_mem b hs)

/-- `operator==`: as many elements, and each occurs in the other. -/
instance [BEq α] : BEq (Unordered c) :=
  ⟨fun s t ↦ s.toList.length == t.toList.length &&
    s.toList.all fun a ↦ t.toList.any fun b ↦ a == b⟩

/-- Elements that are equal one by one make equal collections. -/
theorem beq_of_perm [BEq α] (h : List.Forall₂ (fun a b ↦ (a == b) = true) l t.toList)
    (hs : s.toList.Perm l) : (s == t) = true := by
  have hlen : s.toList.length = t.toList.length := hs.length_eq.trans h.length_eq
  have hall : ∀ a ∈ s.toList, ∃ b ∈ t.toList, (a == b) = true := fun a ha ↦
    exists_of_forall₂ h (hs.mem_iff.mp ha)
  change (s.toList.length == t.toList.length && _) = true
  simpa [hlen] using hall

/-- Equal collections have the same elements. -/
theorem perm_of_beq [BEq α] [LawfulBEq α] (hc : ∀ a, c.same a a = true) (h : (s == t) = true) :
    s.toList.Perm t.toList := by
  change (s.toList.length == t.toList.length && _) = true at h
  rw [Bool.and_eq_true, beq_iff_eq, List.all_eq_true] at h
  have hnodup : s.toList.Nodup := s.distinct.imp fun {a b} hab heq ↦ by
    rw [heq, hc] at hab
    cases hab
  have hsub : s.toList ⊆ t.toList := fun a ha ↦ by
    obtain ⟨b, hb, hab⟩ := List.any_eq_true.mp (h.2 a ha)
    rwa [eq_of_beq hab]
  exact (List.subperm_of_subset hnodup hsub).perm_of_length_le (Nat.le_of_eq h.1.symm)

end Unordered

end Foundation
