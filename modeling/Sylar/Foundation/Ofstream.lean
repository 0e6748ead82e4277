import Mathlib.Tactic.Basic

/-!
# Output file streams

`std::ofstream` as far as its state goes: whether the file buffer holds an open
file, and the two error bits.  What the operating system answers is a parameter
of each operation.

The two parts move independently.  A write that fails leaves the file open and
the stream bad, and from there `openFile` cannot repair it: only `close` brings
the stream into a state from which a file can be opened.
-/

namespace Foundation

/-- `std::ofstream`. -/
structure Ofstream where
  is_open : Bool := false
  badbit : Bool := false
  failbit : Bool := false
deriving DecidableEq, Repr

namespace Ofstream

variable {s : Ofstream} {flushed opened written : Bool}

/-- `fail()`, the negation of the conversion to `bool`. -/
def fail (s : Ofstream) : Bool := s.badbit || s.failbit

/-- `close()`.  The file is closed even if its buffer cannot be flushed. -/
def close (flushed : Bool) (s : Ofstream) : Ofstream :=
  if s.is_open then { s with is_open := false, failbit := s.failbit || !flushed }
  else { s with failbit := true }

/-- `open(filename, mode)`.  It does not replace a file that is open. -/
def openFile (opened : Bool) (s : Ofstream) : Ofstream :=
  if s.is_open then { s with failbit := true }
  else if opened then { is_open := true, badbit := false, failbit := false }
  else { s with failbit := true }

/-- `operator<<`: whether the text gets out, and the stream after it. -/
def write (written : Bool) (s : Ofstream) : Bool × Ofstream :=
  if s.fail then (false, { s with failbit := true })
  else if s.is_open && written then (true, s)
  else (false, { s with badbit := true })

/-- What is written reaches the file. -/
def Good (s : Ofstream) : Prop := s.is_open = true ∧ s.fail = false

/-- A file is open, but nothing is written to it. -/
def Stuck (s : Ofstream) : Prop := s.is_open = true ∧ s.fail = true

instance (s : Ofstream) : Decidable s.Good := inferInstanceAs (Decidable (_ ∧ _))

instance (s : Ofstream) : Decidable s.Stuck := inferInstanceAs (Decidable (_ ∧ _))

theorem not_stuck_iff : ¬ s.Stuck ↔ s.is_open = false ∨ s.Good := by
  unfold Stuck Good
  cases s.is_open <;> cases s.fail <;> simp

theorem Good.not_stuck (h : s.Good) : ¬ s.Stuck := not_stuck_iff.mpr (.inr h)

@[simp] theorem close_is_open : (s.close flushed).is_open = false := by
  unfold close
  split
  · rfl
  · rename_i h
    exact eq_false_of_ne_true h

/-- A file can be opened where none is. -/
theorem openFile_good (h : s.is_open = false) : (s.openFile true).Good := by
  rw [openFile, h]
  exact ⟨rfl, rfl⟩

theorem openFile_false (h : s.is_open = false) : (s.openFile false).is_open = false := by
  rw [openFile, h]
  rfl

theorem Stuck.openFile (h : s.Stuck) : (s.openFile opened).Stuck := by
  rw [Ofstream.openFile, if_pos h.1]
  exact ⟨h.1, Bool.or_true _⟩

theorem Good.write (h : s.Good) : s.write true = (true, s) := by
  rw [Ofstream.write, h.1, h.2]
  rfl

/-- A write that fails leaves the file open. -/
theorem Good.write_fails (h : s.Good) : (s.write false).2.Stuck := by
  rw [Ofstream.write, h.1, h.2]
  exact ⟨rfl, Bool.true_or _⟩

theorem write_closed (h : s.is_open = false) :
    (s.write written).1 = false ∧ (s.write written).2.is_open = false := by
  unfold Ofstream.write
  rw [h]
  cases s.fail <;> exact ⟨rfl, rfl⟩

theorem Stuck.write (h : s.Stuck) (written : Bool) :
    (s.write written).1 = false ∧ (s.write written).2.Stuck := by
  rw [Ofstream.write, if_pos h.2]
  exact ⟨rfl, h.1, Bool.or_true _⟩

/-- A stream gets stuck by a write that fails while the file is open. -/
theorem write_stuck_iff (h : ¬ s.Stuck) :
    (s.write written).2.Stuck ↔ s.is_open = true ∧ written = false := by
  rcases not_stuck_iff.mp h with hclosed | hgood
  · constructor
    · intro hs
      cases hs.1.symm.trans (write_closed hclosed).2
    · intro hs
      cases hs.1.symm.trans hclosed
  · cases written with
    | true =>
        rw [hgood.write]
        simpa using h
    | false => exact ⟨fun _ ↦ ⟨hgood.1, rfl⟩, fun _ ↦ hgood.write_fails⟩

end Ofstream

end Foundation
