import Mathlib.Data.List.Basic
import Mathlib.Order.Lattice

/-!
# Ordered collections with keys

A collection kept sorted by a key, with at most one element for each key: the
`std::set` of a type whose `operator<` compares one field, and, for pairs keyed
by their first component, the `std::map`.

As in both, `insert` leaves an element that is already there alone.
-/

universe u v

namespace Foundation

variable {α : Type u} {κ : Type v} [LinearOrder κ]

/-- A list strictly sorted by a key. -/
structure Keyed (key : α → κ) where
  toList : List α
  sorted : toList.Pairwise fun a b ↦ key a < key b

namespace Keyed

variable {key : α → κ} {s t : Keyed key} {a b : α} {k k' : κ} {l : List α}

theorem ext (h : s.toList = t.toList) : s = t := by
  cases s; cases t; cases h; rfl

instance [DecidableEq α] : DecidableEq (Keyed key) := fun s t ↦
  decidable_of_iff (s.toList = t.toList) ⟨ext, fun h ↦ h ▸ rfl⟩

instance : Membership α (Keyed key) := ⟨fun s a ↦ a ∈ s.toList⟩

theorem mem_def : a ∈ s ↔ a ∈ s.toList := Iff.rfl

instance [DecidableEq α] (a : α) (s : Keyed key) : Decidable (a ∈ s) :=
  inferInstanceAs (Decidable (a ∈ s.toList))

/-- `operator==`. -/
instance [BEq α] : BEq (Keyed key) := ⟨fun s t ↦ s.toList == t.toList⟩

/-- The collection without elements. -/
def empty : Keyed key := ⟨[], .nil⟩

@[simp] theorem toList_empty : (empty : Keyed key).toList = [] := rfl

/-- The element with a given key. -/
def find? (s : Keyed key) (k : κ) : Option α := s.toList.find? fun a ↦ key a = k

/-- Two elements with one key are the same. -/
theorem eq_of_key (ha : a ∈ s) (hb : b ∈ s) (h : key a = key b) : a = b := by
  obtain ⟨l, hs⟩ := s
  simp only [mem_def] at ha hb
  induction hs with
  | nil => cases ha
  | cons hlt _ ih =>
      rcases List.mem_cons.mp ha with rfl | ha'
      · rcases List.mem_cons.mp hb with rfl | hb'
        · rfl
        · exact absurd h (hlt b hb').ne
      · rcases List.mem_cons.mp hb with rfl | hb'
        · exact absurd h (hlt a ha').ne'
        · exact ih ha' hb'

theorem find?_eq_some : s.find? k = some a ↔ a ∈ s ∧ key a = k := by
  constructor
  · intro h
    exact ⟨List.mem_of_find?_eq_some h, by simpa using List.find?_some h⟩
  · rintro ⟨ha, rfl⟩
    cases h : s.find? (key a) with
    | none =>
        have := List.find?_eq_none.mp h a ha
        simp at this
    | some b =>
        have hb : b ∈ s := List.mem_of_find?_eq_some h
        have hk : key b = key a := by simpa using List.find?_some h
        rw [eq_of_key hb ha hk]

@[simp] theorem find?_empty : (empty : Keyed key).find? k = none := rfl

theorem find?_eq_none : s.find? k = none ↔ ∀ a ∈ s, key a ≠ k := by
  simp [find?, mem_def]

/-- Put an element in its place, unless its key is taken. -/
def place (key : α → κ) (a : α) : List α → List α
  | [] => [a]
  | b :: l =>
      if key a < key b then a :: b :: l
      else if key b < key a then b :: place key a l
      else b :: l

theorem mem_place (h : b ∈ place key a l) : b = a ∨ b ∈ l := by
  induction l with
  | nil => simpa [place] using h
  | cons c l ih =>
      simp only [place] at h
      split at h
      · simpa using h
      · split at h
        · rcases List.mem_cons.mp h with rfl | h
          · simp
          · exact (ih h).imp_right (List.mem_cons_of_mem _)
        · exact .inr h

theorem place_sorted (hs : l.Pairwise fun a b ↦ key a < key b) :
    (place key a l).Pairwise fun a b ↦ key a < key b := by
  induction hs with
  | nil => simp [place]
  | @cons b l hlt hs ih =>
      simp only [place]
      split
      · rename_i h
        refine .cons (fun c hc ↦ ?_) (.cons hlt hs)
        rcases List.mem_cons.mp hc with rfl | hc
        · exact h
        · exact h.trans (hlt c hc)
      · split
        · rename_i h
          refine .cons (fun c hc ↦ ?_) ih
          rcases mem_place hc with rfl | hc
          · exact h
          · exact hlt c hc
        · exact .cons hlt hs

/-- `std::set::insert`, `std::map::insert`. -/
def insert (s : Keyed key) (a : α) : Keyed key := ⟨place key a s.toList, place_sorted s.sorted⟩

theorem find?_place (hs : l.Pairwise fun a b ↦ key a < key b) :
    (place key a l).find? (fun b ↦ key b = k) =
      (l.find? fun b ↦ key b = k).or (if key a = k then some a else none) := by
  induction hs with
  | nil => by_cases hk : key a = k <;> simp [place, hk]
  | @cons b l hlt hs ih =>
      simp only [place]
      split
      · rename_i h
        by_cases hk : key a = k
        · have hnone : (b :: l).find? (fun b ↦ key b = k) = none := by
            refine List.find?_eq_none.mpr fun c hc ↦ ?_
            have hac : key a < key c := by
              rcases List.mem_cons.mp hc with rfl | hc
              · exact h
              · exact h.trans (hlt c hc)
            simpa [← hk] using hac.ne'
          simp [hnone, hk]
        · rw [List.find?_cons_of_neg (by simpa using hk), if_neg hk, Option.or_none]
      · split
        · by_cases hk : key b = k
          · simp [hk]
          · rw [List.find?_cons_of_neg (by simpa using hk), ih,
              List.find?_cons_of_neg (by simpa using hk)]
        · rename_i h h'
          have heq : key a = key b := le_antisymm (not_lt.mp h') (not_lt.mp h)
          by_cases hk : key b = k
          · simp [hk]
          · rw [if_neg (by rwa [heq]), Option.or_none]

theorem find?_insert :
    (s.insert a).find? k = (s.find? k).or (if key a = k then some a else none) :=
  find?_place s.sorted

/-- An element that comes after all others is put at the end. -/
theorem place_last (h : ∀ b ∈ l, key b < key a) : place key a l = l ++ [a] := by
  induction l with
  | nil => rfl
  | cons b l ih =>
      have hb := h b (by simp)
      rw [place, if_neg hb.not_gt, if_pos hb, ih fun c hc ↦ h c (by simp [hc])]
      rfl

/-- `std::map::erase`. -/
def erase (s : Keyed key) (k : κ) : Keyed key :=
  ⟨s.toList.filter fun a ↦ key a ≠ k, s.sorted.filter _⟩

/-- `m[key] = value`: an element that is there already is replaced. -/
def assign (s : Keyed key) (a : α) : Keyed key := (s.erase (key a)).insert a

theorem mem_erase : a ∈ s.erase k ↔ a ∈ s ∧ key a ≠ k := by
  rw [mem_def, erase, List.mem_filter, mem_def]
  exact and_congr_right fun _ ↦ decide_eq_true_iff

theorem find?_erase : (s.erase k).find? k' = if k' = k then none else s.find? k' := by
  by_cases hk : k' = k
  · subst hk
    rw [if_pos rfl, find?_eq_none]
    intro a ha
    simpa using (List.mem_filter.mp ha).2
  · rw [if_neg hk, find?, erase, List.find?_filter, find?]
    refine congrArg (fun p ↦ s.toList.find? p) (funext fun a ↦ ?_)
    by_cases ha : key a = k'
    · simp [ha, hk]
    · simp [ha]

theorem find?_assign : (s.assign a).find? k = if k = key a then some a else s.find? k := by
  by_cases hk : k = key a
  · subst hk
    simp [assign, find?_insert, find?_erase]
  · simp [assign, find?_insert, find?_erase, hk, Ne.symm hk]

/-- An element with the greatest key is put at the end. -/
theorem assign_last (h : ∀ b ∈ s, key b < key a) : (s.assign a).toList = s.toList ++ [a] := by
  have hkeep : (s.erase (key a)).toList = s.toList :=
    List.filter_eq_self.mpr fun b hb ↦ by simpa using (h b hb).ne
  change place key a (s.erase (key a)).toList = s.toList ++ [a]
  rw [hkeep]
  exact place_last h

/-- There is at most one element with a key. -/
theorem filter_key (s : Keyed key) (k : κ) :
    (s.toList.filter fun a ↦ key a = k) = (s.find? k).toList := by
  obtain ⟨l, hs⟩ := s
  rw [find?]
  induction hs with
  | nil => rfl
  | @cons a l hlt hs ih =>
      by_cases hk : key a = k
      · have hnone : l.filter (fun b ↦ key b = k) = [] :=
          List.filter_eq_nil_iff.mpr fun b hb ↦ by simpa [← hk] using (hlt b hb).ne'
        simp [hk, hnone]
      · simpa [hk] using ih

/-- Insert the elements of a list one after the other. -/
def ofList (key : α → κ) (l : List α) : Keyed key := l.foldl insert empty

/-- A sorted list is taken over as it is. -/
theorem toList_ofList (h : l.Pairwise fun a b ↦ key a < key b) : (ofList key l).toList = l := by
  suffices h' : ∀ (l : List α) (t : Keyed key), (t.toList ++ l).Pairwise (fun a b ↦ key a < key b) →
      (l.foldl insert t).toList = t.toList ++ l from h' l empty h
  intro l
  induction l with
  | nil => simp
  | cons a l ih =>
      intro t ht
      have hlast : (t.insert a).toList = t.toList ++ [a] :=
        place_last fun b hb ↦ (List.pairwise_append.mp ht).2.2 b hb a (by simp)
      rw [List.foldl_cons, ih (t.insert a) (by rw [hlast]; simpa using ht), hlast]
      simp

/-- Nothing but the elements of the list is in it. -/
theorem mem_ofList (h : a ∈ ofList key l) : a ∈ l := by
  suffices h' : ∀ (l : List α) (t : Keyed key), a ∈ l.foldl insert t → a ∈ t ∨ a ∈ l by
    exact (h' l empty h).resolve_left List.not_mem_nil
  intro l
  induction l with
  | nil => exact fun t ht ↦ .inl ht
  | cons b l ih =>
      intro t ht
      rcases ih (t.insert b) ht with ht | ht
      · rcases mem_place ht with rfl | ht
        · exact .inr List.mem_cons_self
        · exact .inl ht
      · exact .inr (List.mem_cons_of_mem b ht)

/-- A collection is rebuilt from its elements. -/
theorem ofList_toList (s : Keyed key) : ofList key s.toList = s := ext (toList_ofList s.sorted)

end Keyed

end Foundation
