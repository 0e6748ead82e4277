import Sylar.Foundation.Fallible
import Sylar.Log.Pattern

/-!
# The accesses to the pattern

`init` with every access to the pattern written out: a character is read at an index,
which fails outside the pattern, and a loop that is not at its end when its fuel is
used up fails as well.  With enough fuel nothing of this happens, and the result is
that of `init`.
-/

namespace Sylar.Log.Indexed

open Foundation

/-- The ways `init` could fail. -/
inductive Failure
  | outOfRange (e : OutOfRange)
  /-- A loop is not at its end. -/
  | unfinished
deriving DecidableEq, Repr

/-- `m_pattern[n]`. -/
def charAt (p : List Char) (n : Nat) : Except Failure Char :=
  match p[n]? with
  | none => .error (.outOfRange .outOfRange)
  | some c => .ok c

/-- `m_pattern.substr(pos, len)`. -/
def substr (p : List Char) (pos len : Nat) : Except Failure (List Char) :=
  (Log.substr p pos len).mapError .outOfRange

/-- The inner loop for the `%` at `i`. -/
def scan (p : List Char) (i : Nat) : Nat → Scan → Except Failure Scan
  | 0, _ => .error .unfinished
  | fuel + 1, s =>
      if s.n < p.length then do
        let c ← charAt p s.n
        if !isalpha c && c != '{' && c != '}' then .ok s
        else if s.status = 0 ∧ c = '{' then do
          let str ← substr p (i + 1) (sizeSub (sizeSub s.n i) 1)
          scan p i fuel { s with str, status := 1, n := s.n + 1, fmtBegin := s.n + 1 }
        else if s.status = 1 ∧ c = '}' then do
          let fmt ← substr p (s.fmtBegin + 1) (sizeSub (sizeSub s.n s.fmtBegin) 1)
          .ok { s with fmt, status := 0, n := s.n + 1 }
        else scan p i fuel { s with n := s.n + 1 }
      else .ok s

/-- `(i + 1) < m_pattern.size()` and `m_pattern[i + 1] == '%'`. -/
def doubled (p : List Char) (i : Nat) : Except Failure Bool :=
  if i + 1 < p.length then do
    let c ← charAt p (i + 1)
    .ok (c = '%')
  else .ok false

/-- The body of the outer loop, without `++i`. -/
def body (p : List Char) (fuel : Nat) (s : Init) : Except Failure Init := do
  let c ← charAt p s.i
  if c ≠ '%' then .ok { s with nstr := s.nstr ++ [c] }
  else do
    let double ← doubled p s.i
    if double then .ok { s with nstr := s.nstr ++ ['%'] }
    else do
      let r ← scan p s.i fuel ⟨s.i + 1, 0, 0, [], []⟩
      if r.status = 0 then do
        let str ← substr p (s.i + 1) (sizeSub (sizeSub r.n s.i) 1)
        .ok { s.flush with vec := s.flush.vec ++ [⟨str, r.fmt, 1⟩], i := sizeSub r.n 1 }
      else if r.status = 1 then
        .ok { s with error := true, vec := s.vec ++ [⟨"<<pattern_error>>".toList, r.fmt, 0⟩] }
      else if r.status = 2 then
        .ok { s.flush with vec := s.flush.vec ++ [⟨r.str, r.fmt, 1⟩], i := sizeSub r.n 1 }
      else .ok s

/-- The outer loop. -/
def loop (p : List Char) (inner : Nat) : Nat → Init → Except Failure Init
  | 0, _ => .error .unfinished
  | fuel + 1, s =>
      if s.i < p.length then do
        let r ← body p inner s
        loop p inner fuel { r with i := r.i + 1 }
      else .ok s

/-- `LogFormatter::init`. -/
def init (p : List Char) (fuel : Nat) : Except Failure (List FormatItem × Bool) := do
  let s ← loop p fuel fuel ⟨0, [], [], false⟩
  .ok (s.flush.vec.map fun t ↦ t.item.1, s.error || s.flush.vec.any fun t ↦ t.item.2)

variable {p : List Char} {i n fuel inner : Nat} {c : Char} {s : Scan} {t : Init}

theorem charAt_eq (h : p[n]? = some c) : charAt p n = .ok c := by
  rw [charAt, h]

/-- The inner loop comes to its end, and reads what the one over the rest of the
pattern reads. -/
theorem scan_eq (hn : s.n ≤ p.length) (hfuel : p.length < s.n + fuel) :
    scan p i fuel s = (Log.scan p i s (p.drop s.n)).mapError .outOfRange := by
  induction fuel generalizing s with
  | zero => exact absurd (Nat.lt_of_lt_of_le hfuel hn) (Nat.lt_irrefl _)
  | succ fuel ih =>
      rw [scan]
      split
      · rename_i hlt
        obtain ⟨c, hc⟩ : ∃ c, p[s.n]? = some c := ⟨_, List.getElem?_eq_getElem hlt⟩
        rw [charAt_eq hc, Except.ok_bind, drop_eq_cons hc, Log.scan]
        split
        · rfl
        · split
          · unfold substr
            cases Log.substr p (i + 1) (sizeSub (sizeSub s.n i) 1) with
            | error e => rfl
            | ok str => exact ih hlt (by dsimp only; omega)
          · split
            · unfold substr
              cases Log.substr p (s.fmtBegin + 1) (sizeSub (sizeSub s.n s.fmtBegin) 1) <;> rfl
            · exact ih hlt (by dsimp only; omega)
      · rw [List.drop_eq_nil_of_le (Nat.le_of_not_lt ‹_›)]
        rfl

theorem doubled_eq : doubled p i = .ok (decide (p[i + 1]? = some '%')) := by
  rw [doubled]
  split
  · rename_i hlt
    rw [charAt_eq (List.getElem?_eq_getElem hlt), List.getElem?_eq_getElem hlt]
    simp
  · rw [List.getElem?_eq_none (Nat.le_of_not_lt ‹_›)]
    rfl

/-- The body reads inside the pattern. -/
theorem body_eq (hc : p[t.i]? = some c) (hfuel : p.length < fuel) :
    (body p fuel t).map (fun r ↦ { r with i := r.i + 1 }) =
      (Init.body p t c).mapError .outOfRange := by
  have hi : t.i < p.length := (List.getElem?_eq_some_iff.mp hc).1
  have hscan : scan p t.i fuel ⟨t.i + 1, 0, 0, [], []⟩ =
      (Log.scan p t.i ⟨t.i + 1, 0, 0, [], []⟩ (p.drop (t.i + 1))).mapError .outOfRange :=
    scan_eq hi (by dsimp only; omega)
  obtain ⟨r, hr, hle, -⟩ := scan_total (p := p) (i := t.i) (p.drop (t.i + 1))
    (s := ⟨t.i + 1, 0, 0, [], []⟩) (Nat.lt_succ_self _) (by simp; omega) (by simp)
  dsimp only at hle
  have hback : sizeSub r.n 1 + 1 = r.n := by
    rw [sizeSub_eq (by omega)]
    omega
  rw [hr] at hscan
  rw [body, charAt_eq hc, Except.ok_bind, Init.body]
  split
  · rfl
  · rw [doubled_eq, Except.ok_bind]
    by_cases hdouble : p[t.i + 1]? = some '%'
    · rw [if_pos hdouble, if_pos (decide_eq_true hdouble)]
      rfl
    · rw [if_neg hdouble, if_neg (by simpa using hdouble), hscan, hr]
      show (if r.status = 0 then _ else _ : Except Failure Init).map _ = _
      dsimp only
      split
      · rw [substr, substr_eq hi]
        simp only [Except.mapError, Except.map, Except.ok_bind, hback]
      · split
        · rfl
        · split
          · simp only [Except.mapError, Except.map, hback]
          · rfl

/-- The outer loop comes to its end. -/
theorem loop_eq {k : Nat} (hi : t.i ≤ p.length) (hn : p.length ≤ t.i + n)
    (hinner : p.length < inner) :
    loop p inner (n + 1 + k) t = (Init.loop p n t).mapError .outOfRange := by
  induction n generalizing t with
  | zero =>
      have hend : ¬ t.i < p.length := Nat.not_lt.mpr hn
      rw [Nat.zero_add, Nat.add_comm, loop, if_neg hend]
      rfl
  | succ n ih =>
      have hsucc : n + 1 + 1 + k = n + 1 + k + 1 := by omega
      rw [hsucc, loop, Init.loop]
      split
      · rename_i hlt
        obtain ⟨c, hc⟩ : ∃ c, p[t.i]? = some c := ⟨_, List.getElem?_eq_getElem hlt⟩
        obtain ⟨r, hr, hlt', hle⟩ := Init.body_total hc
        have hbody := body_eq hc hinner
        rw [hr] at hbody
        cases hu : body p inner t with
        | error e =>
            rw [hu] at hbody
            cases hbody
        | ok u =>
            rw [hu] at hbody
            obtain rfl := Except.ok.inj hbody
            rw [Except.ok_bind, hc]
            dsimp only
            rw [hr]
            have hforward : t.i < u.i + 1 := hlt'
            have hrest : p.length ≤ u.i + 1 + n := by omega
            exact ih hle hrest
      · rw [List.getElem?_eq_none (Nat.le_of_not_lt ‹_›)]
        rfl

/-- **`init` reads inside the pattern and comes to an end**, whatever the pattern: with
enough fuel no access is out of range, and the result is the formatter. -/
theorem init_safe (pattern : String) (k : Nat) :
    init pattern.toList (pattern.toList.length + 1 + k) =
      .ok ((LogFormatter.new pattern).items, (LogFormatter.new pattern).error) := by
  obtain ⟨⟨items, error⟩, hr⟩ := init_total pattern.toList
  obtain ⟨r, hloop, -, rfl, rfl⟩ := init_ok hr
  rw [LogFormatter.new_eq hr, init, loop_eq (Nat.zero_le _) (by simp) (by omega), hloop]
  rfl

end Sylar.Log.Indexed
