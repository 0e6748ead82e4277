import Sylar.Log.Formatter
import Mathlib.Data.List.Chain
import Mathlib.Data.List.TakeWhile

/-!
# The pattern language of the formatter

Patterns without `%%` have a simple meaning: a `%` and the letter after it are a
directive, everything else is literal text.  `IsCut` says this without an
algorithm, and the outer loop of `init` is shown to compute it.

The invariant `Clean` relates the pending buffer and the collected tuples to the
part of the pattern that is behind the index.  It holds until the loop meets a
`%` that is not followed by exactly one table letter; from there on the state is
`Flawed`, and stays so.
-/

namespace Sylar.Log

/-- The letters of the table. -/
def letters : List Char := ['m', 'p', 'r', 'c', 't', 'F', 'n', 'd', 'f', 'l', 'T', 'N']

/-- The characters the inner loop does not stop at. -/
def isRun (c : Char) : Bool := isalpha c || c == '{' || c == '}'

/-! ## Cutting a pattern -/

/-- A piece of a pattern. -/
inductive Piece
  | literal (s : List Char)
  | directive (c : Char)
deriving DecidableEq, Repr

namespace Piece

/-- The piece as it stands in the pattern. -/
def text : Piece → List Char
  | literal s => s
  | directive c => ['%', c]

def IsLiteral : Piece → Prop
  | literal _ => True
  | directive _ => False

/-- The format item for a piece: the text verbatim, or the class of the table. -/
def item : Piece → Option FormatItem
  | literal s => some (.StringFormatItem (String.ofList s))
  | directive c => (sFormatItem.find? fun e ↦ e.1 = [c]).map fun e ↦ e.2 ""

/-- What a piece contributes to a line. -/
def render (strftime : String → Nat → String) (level : Level) (event : LogEvent) : Piece → String
  | literal s => String.ofList s
  | directive c =>
      match (directive c).item with
      | some i => i.format strftime level event
      | none => ""

/-- The tuple `init` collects for a piece. -/
def tuple : Piece → Tuple
  | literal s => ⟨s, [], 0⟩
  | directive c => ⟨[c], [], 1⟩

end Piece

/-- The cutting of a pattern into directives and maximal literal segments. -/
structure IsCut (p : List Char) (pieces : List Piece) : Prop where
  text : pieces.flatMap Piece.text = p
  literals : ∀ s, .literal s ∈ pieces → s ≠ [] ∧ '%' ∉ s
  maximal : pieces.IsChain fun a b ↦ ¬ (a.IsLiteral ∧ b.IsLiteral)

theorem drop_eq_cons {p : List Char} {i : Nat} {c : Char} (h : p[i]? = some c) :
    p.drop i = c :: p.drop (i + 1) :=
  List.drop_eq_getElem?_toList_append.trans (by simp [h])

/-- The `%` at `i`, if there is one, is followed by one letter of the table. -/
def GoodAt (p : List Char) (i : Nat) : Prop :=
  p[i]? = some '%' → ∃ c ∈ letters, (p.drop (i + 1)).takeWhile isRun = [c]

/-! ## The inner loop -/

theorem isRun_eq (c : Char) : (!isalpha c && c != '{' && c != '}') = !isRun c := by
  simp [isRun, Bool.not_or, bne]

/-- The inner loop passes over letters. -/
theorem scan_letters {p : List Char} {i n b : Nat} {str fmt : List Char} (a : List Char)
    {rest : List Char} (ha : ∀ c ∈ a, isRun c = true ∧ c ≠ '{') :
    scan p i ⟨n, 0, b, str, fmt⟩ (a ++ rest) = scan p i ⟨n + a.length, 0, b, str, fmt⟩ rest := by
  induction a generalizing n with
  | nil => simp
  | cons c a ih =>
      obtain ⟨hrun, hne⟩ := ha c (by simp)
      simp only [List.cons_append, scan, isRun_eq, hrun, hne]
      simp only [Bool.not_true, Bool.false_eq_true, if_false, and_false, Nat.zero_ne_one,
        false_and]
      rw [ih fun d hd ↦ ha d (by simp [hd])]
      simp [Nat.add_assoc, Nat.add_comm 1]

/-- The inner loop stops where a run ends. -/
theorem scan_stop {p : List Char} {i : Nat} {rest : List Char} {s : Scan}
    (h : ∀ c, rest.head? = some c → isRun c = false) : scan p i s rest = .ok s := by
  cases rest with
  | nil => rfl
  | cons c rest => simp [scan, isRun_eq, h c rfl]

/-- Inside braces the inner loop comes out behind the first `}` of the run, or stays
there. -/
theorem scan_braces {p : List Char} {i n b : Nat} {str fmt : List Char} {r : Scan}
    (rest : List Char) (h : scan p i ⟨n, 1, b, str, fmt⟩ rest = .ok r) :
    r.status = 1 ∧ '}' ∉ rest.takeWhile isRun ∨
      ∃ x y, rest.takeWhile isRun = x ++ '}' :: y ∧ '}' ∉ x ∧
        r.status = 0 ∧ r.n = n + x.length + 1 := by
  induction rest generalizing n with
  | nil => cases h; exact .inl ⟨rfl, List.not_mem_nil⟩
  | cons c rest ih =>
      simp only [scan, isRun_eq] at h
      split at h
      · rename_i hstop
        have hstop : isRun c = false := by simpa using hstop
        cases h
        exact .inl ⟨rfl, by simp [hstop]⟩
      · rename_i hrun
        have hrun : isRun c = true := by simpa using hrun
        rw [List.takeWhile_cons_of_pos hrun]
        simp only [Nat.one_ne_zero, false_and, if_false, true_and] at h
        split at h
        · rename_i hc
          split at h
          · cases h
          · cases h
            exact .inr ⟨[], rest.takeWhile isRun, by rw [hc]; rfl, List.not_mem_nil, rfl, rfl⟩
        · rename_i hc
          rcases ih h with ⟨hs, hnot⟩ | ⟨x, y, hxy, hnot, hs, hn⟩
          · exact .inl ⟨hs, List.not_mem_cons_of_ne_of_not_mem (Ne.symm hc) hnot⟩
          · refine .inr ⟨c :: x, y, by rw [hxy]; rfl,
              List.not_mem_cons_of_ne_of_not_mem (Ne.symm hc) hnot, hs, ?_⟩
            rw [hn, List.length_cons]
            omega

/-- The inner loop for a run without an opening brace. -/
theorem scan_run {p : List Char} {i n : Nat} {rest : List Char}
    (h : '{' ∉ rest.takeWhile isRun) :
    scan p i ⟨n, 0, 0, [], []⟩ rest =
      .ok ⟨n + (rest.takeWhile isRun).length, 0, 0, [], []⟩ := by
  have hsplit : rest = rest.takeWhile isRun ++ rest.dropWhile isRun :=
    List.takeWhile_append_dropWhile.symm
  conv_lhs => rw [hsplit]
  rw [scan_letters]
  · refine scan_stop fun c hc ↦ ?_
    have := List.head?_dropWhile_not isRun rest
    rw [hc] at this
    simpa using this
  · intro c hc
    refine ⟨List.mem_takeWhile_imp hc, ?_⟩
    rintro rfl
    exact h hc

/-- A run with an opening brace leaves the inner loop inside the braces, or behind the
first `}` that follows. -/
theorem scan_brace {p : List Char} {i : Nat} {rest a b : List Char} {r : Scan}
    (hp : i + 1 ≤ p.length) (hab : rest.takeWhile isRun = a ++ '{' :: b) (hnot : '{' ∉ a)
    (h : scan p i ⟨i + 1, 0, 0, [], []⟩ rest = .ok r) :
    r.status = 1 ∧ '}' ∉ b ∨ ∃ x y, b = x ++ '}' :: y ∧ '}' ∉ x ∧
      r.status = 0 ∧ r.n = i + 1 + a.length + 1 + x.length + 1 := by
  have hrest : rest = a ++ '{' :: (b ++ rest.dropWhile isRun) := by
    have hsplit : rest = rest.takeWhile isRun ++ rest.dropWhile isRun :=
      List.takeWhile_append_dropWhile.symm
    rw [hab] at hsplit
    simpa using hsplit
  have hmem : ∀ c ∈ a ++ '{' :: b, isRun c = true := by
    intro c hc
    exact List.mem_takeWhile_imp (l := rest) (by rwa [hab])
  have ha : ∀ c ∈ a, isRun c = true ∧ c ≠ '{' := by
    intro c hc
    refine ⟨hmem c (by simp [hc]), ?_⟩
    rintro rfl
    exact hnot hc
  -- what follows the brace is a run as well
  have hb : (b ++ rest.dropWhile isRun).takeWhile isRun = b := by
    have hrun : ∀ c ∈ b, isRun c = true := fun c hc ↦ hmem c (by simp [hc])
    rw [List.takeWhile_append_of_pos hrun]
    have hstop : (rest.dropWhile isRun).takeWhile isRun = [] := by
      cases hd : rest.dropWhile isRun with
      | nil => rfl
      | cons d l =>
          have := List.head?_dropWhile_not isRun rest
          rw [hd] at this
          exact List.takeWhile_cons_of_neg (by simpa using this)
    rw [hstop, List.append_nil]
  have hbrace : isRun '{' = true := by decide
  rw [hrest, scan_letters a ha] at h
  simp only [scan, isRun_eq, hbrace, Bool.not_true, Bool.false_eq_true, if_false, and_self,
    if_true, substr_eq hp] at h
  rcases scan_braces _ h with ⟨hs, hc⟩ | ⟨x, y, hxy, hx, hs, hn⟩
  · exact .inl ⟨hs, hb ▸ hc⟩
  · exact .inr ⟨x, y, hb ▸ hxy, hx, hs, hn⟩

/-! ## The outer loop -/

/-- The state is an exact cutting of the part of the pattern behind the index,
except that the last literal is still in the buffer. -/
structure Clean (p : List Char) (s : Init) (pieces : List Piece) : Prop where
  error : s.error = false
  vec : s.vec = pieces.map Piece.tuple
  text : pieces.flatMap Piece.text ++ s.nstr = p.take s.i
  literals : ∀ l, .literal l ∈ pieces → l ≠ [] ∧ '%' ∉ l
  buffer : '%' ∉ s.nstr
  maximal : pieces.IsChain fun a b ↦ ¬ (a.IsLiteral ∧ b.IsLiteral)
  last : ∀ a, pieces.getLast? = some a → ¬ a.IsLiteral
  known : ∀ c, .directive c ∈ pieces → c ∈ letters

/-- The pattern will be rejected. -/
def Flawed (s : Init) : Prop := s.error = true ∨ ∃ t ∈ s.vec, t.item.2 = true

theorem Flawed.flush {s : Init} (h : Flawed s) : Flawed s.flush := by
  unfold Init.flush
  split
  · exact h
  · exact h.imp_right fun ⟨t, ht, he⟩ ↦ ⟨t, by simp [ht], he⟩

/-- Nothing is taken back. -/
theorem Flawed.body {p : List Char} {s r : Init} {c : Char} (h : Flawed s)
    (hr : s.body p c = .ok r) : Flawed r := by
  have add : ∀ {u : Init} {t : Tuple} {j : Nat}, Flawed u →
      Flawed { u with vec := u.vec ++ [t], i := j } :=
    fun hu ↦ hu.imp_right fun ⟨t, ht, he⟩ ↦ ⟨t, by simp [ht], he⟩
  unfold Init.body at hr
  split at hr
  · cases hr; exact h
  · split at hr
    · cases hr; exact h
    · split at hr
      · cases hr
      · split at hr
        · split at hr
          · cases hr
          · cases hr; exact add h.flush
        · split at hr
          · cases hr; exact .inl rfl
          · split at hr
            · cases hr; exact add h.flush
            · cases hr; exact h

/-- Only one-letter texts are in the table. -/
theorem item_error_iff {str fmt : List Char} :
    (Tuple.item ⟨str, fmt, 1⟩).2 = true ↔ ∀ c ∈ letters, str ≠ [c] := by
  have hfind : (sFormatItem.find? fun e ↦ e.1 = str) = none ↔ ∀ c ∈ letters, str ≠ [c] := by
    rw [List.find?_eq_none]
    simp [sFormatItem, letters, eq_comm]
  rw [← hfind]
  cases h : sFormatItem.find? fun e ↦ e.1 = str <;> simp [Tuple.item, h]

/-- The buffer becomes a piece of its own. -/
def pending (nstr : List Char) : List Piece := if nstr = [] then [] else [.literal nstr]

theorem flush_vec (s : Init) : s.flush.vec = s.vec ++ (pending s.nstr).map Piece.tuple := by
  unfold Init.flush pending
  split <;> simp [Piece.tuple]

theorem flush_error (s : Init) : s.flush.error = s.error := by
  unfold Init.flush
  split <;> rfl

theorem flush_nstr (s : Init) : s.flush.nstr = [] := by
  unfold Init.flush
  split
  · assumption
  · rfl

/-- After the buffer has been flushed, the pieces cut the pattern up to the
index. -/
theorem Clean.isCut {p : List Char} {s : Init} {pieces : List Piece} (h : Clean p s pieces) :
    IsCut (p.take s.i) (pieces ++ pending s.nstr) := by
  refine ⟨?_, fun l hl ↦ ?_, ?_⟩
  · rw [← h.text, List.flatMap_append]
    congr 1
    unfold pending
    split <;> simp_all [Piece.text]
  · rcases List.mem_append.mp hl with hl | hl
    · exact h.literals l hl
    · unfold pending at hl
      split at hl
      · cases hl
      · simp only [List.mem_singleton, Piece.literal.injEq] at hl
        subst hl
        exact ⟨‹_›, h.buffer⟩
  · unfold pending
    split
    · simpa using h.maximal
    · refine h.maximal.append (by simp) fun a ha b _ hab ↦ ?_
      exact h.last a ha hab.1

/-- A literal character goes to the buffer. -/
theorem Clean.literal {p : List Char} {s : Init} {pieces : List Piece} {c : Char}
    (h : Clean p s pieces) (hp : p[s.i]? = some c) (hc : c ≠ '%') :
    Clean p { s with nstr := s.nstr ++ [c], i := s.i + 1 } pieces := by
  refine { h with text := ?_, buffer := ?_ }
  · have hi := (List.getElem?_eq_some_iff.mp hp)
    rw [List.take_add_one, ← h.text, hp]
    simp
  · simp only [List.mem_append, List.mem_singleton, not_or]
    exact ⟨h.buffer, hc.symm⟩

/-- A table letter directly behind a `%` becomes a directive. -/
theorem Clean.directive {p : List Char} {s : Init} {pieces : List Piece} {c : Char}
    (h : Clean p s pieces) (hp : p[s.i]? = some '%') (hp' : p[s.i + 1]? = some c)
    (hc : c ∈ letters) :
    Clean p { s.flush with vec := s.flush.vec ++ [⟨[c], [], 1⟩], i := s.i + 2 }
      (pieces ++ pending s.nstr ++ [.directive c]) := by
  have hcut := h.isCut
  refine ⟨(flush_error s).trans h.error, ?_, ?_, fun l hl ↦ ?_, ?_, ?_, ?_, fun d hd ↦ ?_⟩
  · simp [flush_vec, h.vec, Piece.tuple]
  · simp only [flush_nstr, List.flatMap_append, List.append_nil]
    rw [← List.flatMap_append, hcut.text, List.take_add_one, List.take_add_one, hp, hp']
    simp [Piece.text]
  · exact hcut.literals l (by simpa using hl)
  · simp [flush_nstr]
  · refine hcut.maximal.append (by simp) fun a _ b hb hab ↦ ?_
    simp at hb
    subst hb
    exact hab.2
  · intro a ha
    simp at ha
    subst ha
    exact id
  · have hd : .directive d ∈ pieces ∨ .directive d ∈ pending s.nstr ∨ d = c := by
      simpa using hd
    rcases hd with hd | hd | rfl
    · exact h.known d hd
    · unfold pending at hd
      split at hd <;> simp at hd
    · exact hc

/-- A `%` followed by one table letter is read as a directive. -/
theorem body_directive {p : List Char} {s : Init} {c : Char} (hp : p[s.i]? = some '%')
    (hc : c ∈ letters) (hrun : (p.drop (s.i + 1)).takeWhile isRun = [c]) :
    p[s.i + 1]? = some c ∧
      s.body p '%' = .ok { s.flush with vec := s.flush.vec ++ [⟨[c], [], 1⟩], i := s.i + 2 } := by
  have hp' : p[s.i + 1]? = some c := by
    cases hd : p.drop (s.i + 1) with
    | nil => simp [hd] at hrun
    | cons d rest =>
        rw [hd, List.takeWhile_cons] at hrun
        split at hrun
        · rw [List.cons.injEq] at hrun
          rw [← hrun.1, ← List.head?_drop, hd]
          rfl
        · cases hrun
  refine ⟨hp', ?_⟩
  have hne : c ≠ '%' ∧ c ≠ '{' := by
    constructor <;> (rintro rfl; revert hc; decide)
  have hi : s.i + 1 ≤ p.length := (List.getElem?_eq_some_iff.mp hp).1
  have hscan : scan p s.i ⟨s.i + 1, 0, 0, [], []⟩ (p.drop (s.i + 1)) =
      .ok ⟨s.i + 2, 0, 0, [], []⟩ := by
    rw [scan_run (by simpa [hrun] using hne.2.symm), hrun]
    rfl
  have htake : (p.drop (s.i + 1)).take 1 = [c] := by
    rw [List.take_one, List.head?_drop, hp']
    rfl
  have hlen : sizeSub (sizeSub (s.i + 2) s.i) 1 = 1 := by simp [sizeSub]
  simp [Init.body, hp', hne.1, hscan, hlen, substr_eq hi, htake]

theorem Clean.good {p : List Char} {s r : Init} {pieces : List Piece} {c : Char}
    (h : Clean p s pieces) (hp : p[s.i]? = some '%') (hc : c ∈ letters)
    (hrun : (p.drop (s.i + 1)).takeWhile isRun = [c]) (hr : s.body p '%' = .ok r) :
    r.i = s.i + 2 ∧ p[s.i + 1]? = some c ∧ ∃ pieces, Clean p r pieces := by
  obtain ⟨hp', hbody⟩ := body_directive hp hc hrun
  rw [hbody, Except.ok.injEq] at hr
  subst hr
  exact ⟨rfl, hp', _, h.directive hp hp' hc⟩

/-- Any other `%` that is not doubled spoils the pattern. -/
theorem flawed_of_bad {p : List Char} {s r : Init} (hp : p[s.i]? = some '%')
    (hp' : p[s.i + 1]? ≠ some '%')
    (hrun : ∀ c ∈ letters, (p.drop (s.i + 1)).takeWhile isRun ≠ [c])
    (hr : s.body p '%' = .ok r) : Flawed r := by
  have hi : s.i + 1 ≤ p.length := (List.getElem?_eq_some_iff.mp hp).1
  obtain ⟨q, hq, _, hlen⟩ := scan_total (p := p) (i := s.i) (p.drop (s.i + 1))
    (s := ⟨s.i + 1, 0, 0, [], []⟩) (Nat.lt_succ_self _) (by simp; omega) (by simp)
  have hcases : q.status = 1 ∨ q.status = 0 ∧
      ∀ c ∈ letters, (p.drop (s.i + 1)).take (sizeSub (sizeSub q.n s.i) 1) ≠ [c] := by
    by_cases hb : '{' ∈ (p.drop (s.i + 1)).takeWhile isRun
    · obtain ⟨x, y, hxy, hnot⟩ := List.eq_append_cons_of_mem hb
      refine (scan_brace hi hxy hnot hq).imp And.left fun ⟨_, _, _, _, hs, hn⟩ ↦
        ⟨hs, fun c _ heq ↦ ?_⟩
      -- two characters at least, and the table has single letters
      have hl := congrArg List.length heq
      rw [sizeSub_sizeSub (by omega), List.length_take, List.length_drop,
        List.length_singleton] at hl
      omega
    · rw [scan_run hb, Except.ok.injEq] at hq
      subst hq
      refine .inr ⟨rfl, fun c hc ↦ ?_⟩
      have hsize : sizeSub (sizeSub (s.i + 1 + ((p.drop (s.i + 1)).takeWhile isRun).length) s.i) 1 =
          ((p.drop (s.i + 1)).takeWhile isRun).length := by
        rw [sizeSub_sizeSub (Nat.le_add_right _ _), Nat.add_sub_cancel_left]
      rw [hsize, ← List.prefix_iff_eq_take.mp (List.takeWhile_prefix _)]
      exact hrun c hc
  unfold Init.body at hr
  simp only [ne_eq, not_true_eq_false, if_false, hp', hq] at hr
  rcases hcases with hs | ⟨hs, hstr⟩
  · simp only [hs, Nat.one_ne_zero, if_false, if_true, Except.ok.injEq] at hr
    subst hr
    exact .inl rfl
  · simp only [hs, if_true, substr_eq hi, Except.ok.injEq] at hr
    subst hr
    exact .inr ⟨_, List.mem_append_right _ (List.mem_singleton.mpr rfl), item_error_iff.mpr hstr⟩

/-- A flawed state ends with `m_error`. -/
theorem Flawed.rejected {s : Init} (h : Flawed s) :
    (s.error || s.flush.vec.any fun t ↦ t.item.2) = true := by
  have hflush := h.flush
  rw [Flawed, flush_error] at hflush
  rcases hflush with h | ⟨t, ht, he⟩
  · simp [h]
  · have hany : (s.flush.vec.any fun t ↦ t.item.2) = true := List.any_eq_true.mpr ⟨t, ht, he⟩
    simp [hany]

/-- The loop invariant. -/
def Parsed (p : List Char) (s : Init) : Prop :=
  (∃ pieces, Clean p s pieces) ∧ (∀ j < s.i, GoodAt p j) ∨ Flawed s ∧ ∃ j, ¬ GoodAt p j

/-- No `%` is directly followed by another. -/
def NoEscape (p : List Char) : Prop := ∀ i, p[i]? = some '%' → p[i + 1]? ≠ some '%'

theorem Parsed.body {p : List Char} {s r : Init} {c : Char} (hesc : NoEscape p)
    (hc : p[s.i]? = some c) (h : Parsed p s) (hr : s.body p c = .ok r) : Parsed p r := by
  rcases h with ⟨⟨pieces, hclean⟩, hgood⟩ | ⟨hflaw, hbad⟩
  · by_cases hpc : c = '%'
    · subst hpc
      by_cases hrun : ∃ d ∈ letters, (p.drop (s.i + 1)).takeWhile isRun = [d]
      · obtain ⟨d, hd, hrun'⟩ := hrun
        obtain ⟨hi, hnext, hclean'⟩ := hclean.good hc hd hrun' hr
        refine .inl ⟨hclean', fun j hj hpj ↦ ?_⟩
        rcases (by omega : j < s.i ∨ j = s.i ∨ j = s.i + 1) with hj | rfl | rfl
        · exact hgood j hj hpj
        · exact ⟨d, hd, hrun'⟩
        · exact absurd hpj (hesc s.i hc)
      · refine .inr ⟨flawed_of_bad hc (hesc s.i hc) (fun d hd he ↦ hrun ⟨d, hd, he⟩) hr,
          s.i, fun hg ↦ hrun (hg hc)⟩
    · have hbody : s.body p c = .ok { s with nstr := s.nstr ++ [c], i := s.i + 1 } := if_pos hpc
      rw [hbody, Except.ok.injEq] at hr
      subst hr
      refine .inl ⟨⟨pieces, hclean.literal hc hpc⟩, fun j hj hpj ↦ ?_⟩
      rcases Nat.lt_succ_iff_lt_or_eq.mp hj with hj | rfl
      · exact hgood j hj hpj
      · rw [hc, Option.some.injEq] at hpj
        exact absurd hpj hpc
  · exact .inr ⟨hflaw.body hr, hbad⟩

theorem Parsed.loop {p : List Char} {fuel : Nat} {s r : Init} (hesc : NoEscape p)
    (h : Parsed p s) (hr : Init.loop p fuel s = .ok r) : Parsed p r :=
  Init.loop_invariant (fun _ _ _ hc hs ht ↦ hs.body hesc hc ht) h hr

theorem parsed_start (p : List Char) : Parsed p ⟨0, [], [], false⟩ :=
  .inl ⟨⟨[], rfl, rfl, by simp, by simp, by simp, .nil, by simp, by simp⟩, by simp⟩

/-- The items of a cutting into known directives. -/
theorem item_tuple {a : Piece} (h : ∀ c, a = .directive c → c ∈ letters) :
    some a.tuple.item.1 = a.item ∧ a.tuple.item.2 = false := by
  cases a with
  | literal s => exact ⟨rfl, rfl⟩
  | directive c =>
      have hc := h c rfl
      simp only [letters, List.mem_cons, List.not_mem_nil, or_false] at hc
      rcases hc with rfl | rfl | rfl | rfl | rfl | rfl | rfl | rfl | rfl | rfl | rfl | rfl <;>
        exact ⟨rfl, rfl⟩

/-- What `init` does with a pattern without `%%`. -/
theorem init_spec {p : List Char} (hesc : NoEscape p) {items : List FormatItem} {error : Bool}
    (h : init p = .ok (items, error)) :
    (error = false ↔ ∀ i, GoodAt p i) ∧
      (error = false → ∃ pieces, IsCut p pieces ∧ items.map some = pieces.map Piece.item) := by
  obtain ⟨r, hr, hend, rfl, rfl⟩ := init_ok h
  rcases (parsed_start p).loop hesc hr with ⟨⟨pieces, hclean⟩, hgood⟩ | ⟨hflaw, j, hbad⟩
  · have hitem : ∀ a ∈ pieces ++ pending r.nstr,
        some a.tuple.item.1 = a.item ∧ a.tuple.item.2 = false := by
      intro a ha
      refine item_tuple ?_
      rintro c rfl
      rcases List.mem_append.mp ha with ha | ha
      · exact hclean.known c ha
      · unfold pending at ha
        split at ha <;> simp at ha
    have hvec : r.flush.vec = (pieces ++ pending r.nstr).map Piece.tuple := by
      rw [flush_vec, hclean.vec, List.map_append]
    have herr : (r.error || r.flush.vec.any fun t ↦ t.item.2) = false := by
      rw [hclean.error, hvec, Bool.false_or, List.any_map, List.any_eq_false]
      intro a ha
      simp [(hitem a ha).2]
    have hcut := hclean.isCut
    rw [hend, List.take_length] at hcut
    refine ⟨⟨fun _ i ↦ ?_, fun _ ↦ herr⟩, fun _ ↦ ⟨_, hcut, ?_⟩⟩
    · by_cases hi : i < r.i
      · exact hgood i hi
      · intro hpi
        have := (List.getElem?_eq_some_iff.mp hpi).1
        omega
    · rw [hvec, List.map_map, List.map_map]
      exact List.map_congr_left fun a ha ↦ (hitem a ha).1
  · rw [hflaw.rejected]
    exact ⟨⟨fun h ↦ absurd h (by simp), fun h ↦ absurd (h j) hbad⟩, fun h ↦ absurd h (by simp)⟩

/-! ## The formatter -/

theorem noEscape_of_not_doubled {p : List Char} (h : ¬ ['%', '%'] <:+: p) : NoEscape p := by
  intro i hi hi'
  refine h ⟨p.take i, p.drop (i + 2), ?_⟩
  calc p.take i ++ ['%', '%'] ++ p.drop (i + 2) = p.take i ++ p.drop i := by
        rw [drop_eq_cons hi, drop_eq_cons hi']
        simp
    _ = p := List.take_append_drop i p

theorem goodAt_iff {p : List Char} : (∀ i, GoodAt p i) ↔
    ∀ pre post, p = pre ++ '%' :: post → ∃ c ∈ letters, post.takeWhile isRun = [c] := by
  constructor
  · rintro h pre post rfl
    simpa using h pre.length (by simp)
  · intro h i hi
    refine h (p.take i) (p.drop (i + 1)) ?_
    rw [← drop_eq_cons hi, List.take_append_drop]

/-- The first piece of a cutting.  What follows a literal is empty or starts with
a `%`. -/
theorem IsCut.head {p : List Char} {x : Piece} {a : List Piece} (h : IsCut p (x :: a)) :
    ∃ q, p = x.text ++ q ∧ IsCut q a ∧ (x.IsLiteral → q.takeWhile (· ≠ '%') = []) := by
  refine ⟨a.flatMap Piece.text, by simp [← h.text], ⟨rfl, fun s hs ↦ h.literals s (by simp [hs]),
    h.maximal.tail⟩, fun hx ↦ ?_⟩
  cases a with
  | nil => rfl
  | cons y a =>
      have hy := (List.isChain_cons_cons.mp h.maximal).1
      cases y with
      | literal s => exact absurd ⟨hx, trivial⟩ hy
      | directive c => simp [Piece.text]

theorem IsCut.literal_head {p s : List Char} {a : List Piece} (h : IsCut p (.literal s :: a)) :
    p.takeWhile (· ≠ '%') = s := by
  obtain ⟨q, rfl, _, hq⟩ := h.head
  have hs : ∀ c ∈ s, decide (c ≠ '%') = true := by
    intro c hc
    have := (h.literals s (by simp)).2
    simp only [decide_eq_true_eq]
    rintro rfl
    exact this hc
  rw [Piece.text, List.takeWhile_append_of_pos hs, hq trivial, List.append_nil]

theorem IsCut.ne_nil {p : List Char} {x : Piece} {a : List Piece} (h : IsCut p (x :: a)) :
    p ≠ [] := by
  obtain ⟨q, rfl, _, _⟩ := h.head
  cases x with
  | literal s => simp [Piece.text, (h.literals s (by simp)).1]
  | directive c => simp [Piece.text]

/-- A pattern has only one cutting: the next `%` ends a literal, and the
character behind it ends the directive. -/
theorem IsCut.unique {p : List Char} {a b : List Piece} (ha : IsCut p a) (hb : IsCut p b) :
    a = b := by
  induction a generalizing p b with
  | nil =>
      cases b with
      | nil => rfl
      | cons y b => exact absurd ha.text.symm hb.ne_nil
  | cons x a ih =>
      cases b with
      | nil => exact absurd hb.text.symm ha.ne_nil
      | cons y b =>
          obtain ⟨q, hq, hqa, _⟩ := ha.head
          obtain ⟨r, hr, hrb, _⟩ := hb.head
          have hxy : x = y := by
            cases x with
            | literal s =>
                cases y with
                | literal t => rw [← ha.literal_head, hb.literal_head]
                | directive d =>
                    have hs := ha.literal_head
                    rw [hr] at hs
                    exact absurd hs.symm (by simpa [Piece.text] using (ha.literals s (by simp)).1)
            | directive c =>
                cases y with
                | literal t =>
                    have ht := hb.literal_head
                    rw [hq] at ht
                    exact absurd ht.symm (by simpa [Piece.text] using (hb.literals t (by simp)).1)
                | directive d =>
                    have heq := hq.symm.trans hr
                    simp only [Piece.text, List.cons_append, List.nil_append,
                      List.cons.injEq] at heq
                    rw [heq.2.1]
          subst hxy
          have hqr : q = r := List.append_cancel_left (hq.symm.trans hr)
          rw [ih hqa (hqr ▸ hrb)]

theorem join_map_item {strftime : String → Nat → String} {level : Level} {event : LogEvent}
    {items : List FormatItem} {pieces : List Piece} (h : items.map some = pieces.map Piece.item) :
    items.map (fun i ↦ i.format strftime level event) =
      pieces.map (Piece.render strftime level event) := by
  induction pieces generalizing items with
  | nil => simpa using h
  | cons x pieces ih =>
      cases items with
      | nil => simp at h
      | cons i items =>
          simp only [List.map_cons, List.cons.injEq] at h
          simp only [List.map_cons, ih h.2, List.cons.injEq, and_true]
          cases x with
          | literal s =>
              simp only [Piece.item, Option.some.injEq] at h
              rw [h.1]
              rfl
          | directive c => rw [Piece.render, ← h.1]

/-- **The pattern language.**  A pattern without `%%` is accepted exactly if each
`%` is followed by a run of one table letter.  Its items are then those of its
cutting, and a formatted line is the concatenation of what the pieces render. -/
theorem formatter_language (pattern : String) (h : ¬ ['%', '%'] <:+: pattern.toList) :
    ((LogFormatter.new pattern).isError = false ↔ ∀ pre post,
      pattern.toList = pre ++ '%' :: post → ∃ c ∈ letters, post.takeWhile isRun = [c]) ∧
    ((LogFormatter.new pattern).isError = false →
      ∃ pieces, IsCut pattern.toList pieces ∧
        (∀ other, IsCut pattern.toList other → other = pieces) ∧
        (LogFormatter.new pattern).items.map some = pieces.map Piece.item ∧
        ∀ strftime level event, (LogFormatter.new pattern).format strftime level event =
          String.join (pieces.map (Piece.render strftime level event))) := by
  obtain ⟨⟨items, error⟩, hr⟩ := init_total pattern.toList
  obtain ⟨hiff, hitems⟩ := init_spec (noEscape_of_not_doubled h) hr
  rw [LogFormatter.new_eq hr, ← goodAt_iff]
  refine ⟨hiff, fun hok ↦ ?_⟩
  obtain ⟨pieces, hcut, hmap⟩ := hitems hok
  refine ⟨pieces, hcut, fun other hother ↦ hother.unique hcut, hmap, fun strftime level event ↦ ?_⟩
  rw [← join_map_item hmap, String.join_eq_foldl, List.foldl_map]
  rfl

theorem formatter_language_bracket :
    (LogFormatter.new "\x7b[%p] %m").isError = false ∧ ∃ pieces, IsCut "\x7b[%p] %m".toList pieces ∧
      (LogFormatter.new "\x7b[%p] %m").items.map some = pieces.map Piece.item := by
  have hchars : "\x7b[%p] %m".toList = ['{', '[', '%', 'p', ']', ' ', '%', 'm'] := by decide
  have hok : (LogFormatter.new "\x7b[%p] %m").isError = false := by decide
  obtain ⟨pieces, hcut, _, hitems, _⟩ :=
    (formatter_language "\x7b[%p] %m" (by rw [hchars]; simp [List.infix_cons_iff])).2 hok
  exact ⟨hok, pieces, hcut, hitems⟩

end Sylar.Log
