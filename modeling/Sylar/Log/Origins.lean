import Sylar.Log.Pattern

/-!
# Where the items come from

`init` again, with a note on each tuple: the places in the pattern it comes from,
and whether it is the marker for a brace that is not closed.  `erase` forgets the
notes, and what is left is `init`.

With the notes it can be said that `m_error` is set on every failure, and in which
order the items stand.
-/

namespace Sylar.Log

/-- A tuple of `vec`.  A literal text comes from the places of its characters, a
directive and a marker from that of their `%`. -/
structure Placed where
  tuple : Tuple
  places : List Nat
  /-- The tuple is `<<pattern_error>>`. -/
  marker : Bool

/-- The variables of the outer loop, with notes. -/
structure Trace where
  i : Nat
  nstr : List (Char × Nat)
  vec : List Placed
  error : Bool

namespace Trace

/-- The variables of `init`. -/
def erase (s : Trace) : Init :=
  ⟨s.i, s.nstr.map Prod.fst, s.vec.map Placed.tuple, s.error⟩

def flush (s : Trace) : Trace :=
  if s.nstr = [] then s
  else
    { s with
      vec := s.vec ++ [⟨⟨s.nstr.map Prod.fst, [], 0⟩, s.nstr.map Prod.snd, false⟩], nstr := [] }

/-- The body of the outer loop. -/
def body (p : List Char) (s : Trace) (c : Char) : Except OutOfRange Trace :=
  if c ≠ '%' then .ok { s with nstr := s.nstr ++ [(c, s.i)], i := s.i + 1 }
  else if p[s.i + 1]? = some '%' then
    .ok { s with nstr := s.nstr ++ [('%', s.i)], i := s.i + 1 }
  else
    match scan p s.i ⟨s.i + 1, 0, 0, [], []⟩ (p.drop (s.i + 1)) with
    | .error e => .error e
    | .ok r =>
        if r.status = 0 then
          match substr p (s.i + 1) (sizeSub (sizeSub r.n s.i) 1) with
          | .error e => .error e
          | .ok str =>
              .ok { s.flush with
                vec := s.flush.vec ++ [⟨⟨str, r.fmt, 1⟩, [s.i], false⟩], i := r.n }
        else if r.status = 1 then
          -- the pending text is not flushed
          .ok { s with
            error := true
            vec := s.vec ++ [⟨⟨"<<pattern_error>>".toList, r.fmt, 0⟩, [s.i], true⟩]
            i := s.i + 1 }
        else if r.status = 2 then
          .ok { s.flush with
            vec := s.flush.vec ++ [⟨⟨r.str, r.fmt, 1⟩, [s.i], false⟩], i := r.n }
        else .ok { s with i := s.i + 1 }

def loop (p : List Char) : Nat → Trace → Except OutOfRange Trace
  | 0, s => .ok s
  | fuel + 1, s =>
      match p[s.i]? with
      | none => .ok s
      | some c =>
          match s.body p c with
          | .error e => .error e
          | .ok s => loop p fuel s

/-- The variables before the loop. -/
def start : Trace := ⟨0, [], [], false⟩

@[simp] theorem erase_i (s : Trace) : s.erase.i = s.i := rfl

/-- The buffer as a tuple of its own. -/
def pending (s : Trace) : List Placed :=
  if s.nstr = [] then [] else [⟨⟨s.nstr.map Prod.fst, [], 0⟩, s.nstr.map Prod.snd, false⟩]

theorem flush_eq (s : Trace) : s.flush = { s with vec := s.vec ++ s.pending, nstr := [] } := by
  unfold flush pending
  split
  · rename_i h
    simp [← h]
  · rfl

theorem pending_marker {s : Trace} {t : Placed} (h : t ∈ s.pending) : t.marker = false := by
  unfold pending at h
  split at h
  · cases h
  · rw [List.mem_singleton.mp h]

@[simp] theorem erase_flush (s : Trace) : s.flush.erase = s.erase.flush := by
  unfold flush Init.flush
  by_cases h : s.nstr = []
  · simp [h, erase]
  · simp [h, erase]

/-- **Forgetting the notes**, the body is that of `init`. -/
theorem erase_body (p : List Char) (s : Trace) (c : Char) :
    (s.body p c).map erase = s.erase.body p c := by
  have hflush : ∀ (t : Tuple) (n : Nat),
      erase { s.flush with vec := s.flush.vec ++ [⟨t, [s.i], false⟩], i := n } =
        { s.erase.flush with vec := s.erase.flush.vec ++ [t], i := n } := by
    intro t n
    rw [← erase_flush]
    simp [erase]
  unfold body Init.body
  rw [erase_i]
  split
  · simp [Except.map, erase]
  · split
    · simp [Except.map, erase]
    · cases scan p s.i ⟨s.i + 1, 0, 0, [], []⟩ (p.drop (s.i + 1)) with
      | error e => rfl
      | ok r =>
          dsimp only
          split
          · cases substr p (s.i + 1) (sizeSub (sizeSub r.n s.i) 1) with
            | error e => rfl
            | ok str => exact congrArg Except.ok (hflush _ _)
          · split
            · simp [Except.map, erase]
            · split
              · exact congrArg Except.ok (hflush _ _)
              · rfl

theorem erase_loop (p : List Char) (fuel : Nat) (s : Trace) :
    (loop p fuel s).map erase = Init.loop p fuel s.erase := by
  induction fuel generalizing s with
  | zero => rfl
  | succ fuel ih =>
      rw [loop, Init.loop, erase_i]
      cases p[s.i]? with
      | none => rfl
      | some c =>
          have hbody := erase_body p s c
          dsimp only
          cases hr : s.body p c with
          | error e =>
              rw [hr] at hbody
              rw [← hbody]
              rfl
          | ok r =>
              rw [hr] at hbody
              rw [← hbody]
              exact ih r

end Trace

/-! ## What a round does -/

/-- The letters and braces behind the `%` at `i`. -/
def runAt (p : List Char) (i : Nat) : List Char := (p.drop (i + 1)).takeWhile isRun

/-- How many characters of a run a directive takes: all of them, or those up to the
brace that closes the first one it opens.  There may be none. -/
def taken (run : List Char) : Option Nat :=
  if '{' ∈ run then
    let inside := run.drop (run.idxOf '{' + 1)
    if '}' ∈ inside then some (run.idxOf '{' + 1 + inside.idxOf '}' + 1) else none
  else some run.length

/-- The `%` at `i` starts a directive that goes up to `n`. -/
def Complete (p : List Char) (i n : Nat) : Prop :=
  p[i]? = some '%' ∧ p[i + 1]? ≠ some '%' ∧ (taken (runAt p i)).map (i + 1 + ·) = some n

/-- The `%` at `i` opens a brace that is not closed in its run. -/
def Unclosed (p : List Char) (i : Nat) : Prop := p[i]? = some '%' ∧ taken (runAt p i) = none

instance (p : List Char) (i n : Nat) : Decidable (Complete p i n) :=
  inferInstanceAs (Decidable (_ ∧ _ ∧ _))

instance (p : List Char) (i : Nat) : Decidable (Unclosed p i) :=
  inferInstanceAs (Decidable (_ ∧ _))

theorem taken_braces {a b : List Char} (ha : '{' ∉ a) : taken (a ++ '{' :: b) =
    if '}' ∈ b then some (a.length + 1 + b.idxOf '}' + 1) else none := by
  have hidx : (a ++ '{' :: b).idxOf '{' = a.length := by
    rw [List.idxOf_append_of_notMem ha, List.idxOf_cons_self, Nat.add_zero]
  have hdrop : (a ++ '{' :: b).drop (a.length + 1) = b := by
    rw [List.append_cons, List.drop_left' (by simp)]
  rw [taken, if_pos (by simp), hidx]
  dsimp only
  rw [hdrop]

/-- The inner loop tells the two apart. -/
theorem scan_cases {p : List Char} {i : Nat} {r : Scan} (hp : p[i]? = some '%')
    (hp' : p[i + 1]? ≠ some '%')
    (h : scan p i ⟨i + 1, 0, 0, [], []⟩ (p.drop (i + 1)) = .ok r) :
    r.status = 0 ∧ Complete p i r.n ∨ r.status = 1 ∧ Unclosed p i := by
  have hi : i + 1 ≤ p.length := (List.getElem?_eq_some_iff.mp hp).1
  by_cases hb : '{' ∈ runAt p i
  · obtain ⟨a, b, hab, hnot⟩ := List.eq_append_cons_of_mem hb
    rcases scan_brace hi hab hnot h with ⟨hs, hopen⟩ | ⟨x, y, rfl, hx, hs, hn⟩
    · refine .inr ⟨hs, hp, ?_⟩
      rw [hab, taken_braces hnot, if_neg hopen]
    · refine .inl ⟨hs, hp, hp', ?_⟩
      have hidx : (x ++ '}' :: y).idxOf '}' = x.length := by
        rw [List.idxOf_append_of_notMem hx, List.idxOf_cons_self, Nat.add_zero]
      rw [hab, taken_braces hnot, if_pos (by simp), hidx, Option.map_some, hn]
      simp [Nat.add_assoc]
  · rw [scan_run hb, Except.ok.injEq] at h
    subst h
    refine .inl ⟨rfl, hp, hp', ?_⟩
    rw [taken, if_neg hb]
    rfl

section Directives

variable {p : List Char} {i j n : Nat}

theorem taken_le {run : List Char} {k : Nat} (h : taken run = some k) : k ≤ run.length := by
  unfold taken at h
  split at h
  · dsimp only at h
    split at h
    · rename_i hclose
      cases h
      have hlt := List.idxOf_lt_length_of_mem hclose
      rw [List.length_drop] at hlt
      omega
    · cases h
  · cases h
    exact Nat.le_refl _

theorem Complete.lt (h : Complete p i n) : i < n := by
  obtain ⟨k, _, rfl⟩ := Option.map_eq_some_iff.mp h.2.2
  omega

theorem Complete.unique {m : Nat} (h : Complete p i n) (h' : Complete p i m) : n = m :=
  Option.some.inj (h.2.2.symm.trans h'.2.2)

theorem Complete.not_unclosed (h : Complete p i n) : ¬ Unclosed p i := by
  intro ho
  have := h.2.2
  rw [ho.2] at this
  cases this

/-- There is no `%` inside a directive. -/
theorem Complete.inside (h : Complete p i n) (hij : i < j) (hjn : j < n) :
    p[j]? ≠ some '%' := by
  obtain ⟨k, hk, rfl⟩ := Option.map_eq_some_iff.mp h.2.2
  have hlt : j - (i + 1) < (runAt p i).length := by
    have := taken_le hk
    omega
  have hchar : p[j]? = some (runAt p i)[j - (i + 1)] := by
    have hpre : runAt p i <+: p.drop (i + 1) := List.takeWhile_prefix isRun
    have hj : i + 1 + (j - (i + 1)) = j := by omega
    rw [hpre.getElem hlt, ← List.getElem?_eq_getElem, List.getElem?_drop, hj]
  intro hp
  rw [hchar, Option.some.injEq] at hp
  have hrun : isRun '%' = true := hp ▸ List.mem_takeWhile_imp (List.getElem_mem hlt)
  revert hrun
  decide

/-- What follows a `%` that opens a brace is no `%`. -/
theorem Unclosed.next (h : Unclosed p i) : p[i + 1]? ≠ some '%' := by
  intro hp
  have hrun : runAt p i = [] := by
    rw [runAt, drop_eq_cons hp]
    exact List.takeWhile_cons_of_neg (by decide)
  have := h.2
  rw [hrun] at this
  cases this

end Directives

namespace Trace

/-- A round for literal text, for a directive and for a brace that is not closed. -/
inductive Round (p : List Char) (s : Trace) : Trace → Prop
  | literal (c : Char) : p[s.i]? = some c → ¬ (p[s.i]? = some '%' ∧ p[s.i + 1]? ≠ some '%') →
      Round p s { s with nstr := s.nstr ++ [(c, s.i)], i := s.i + 1 }
  | directive (t : Tuple) {n : Nat} : t.type = 1 → Complete p s.i n →
      Round p s { s.flush with vec := s.flush.vec ++ [⟨t, [s.i], false⟩], i := n }
  | unclosed (fmt : List Char) : Unclosed p s.i →
      Round p s { s with
        error := true
        vec := s.vec ++ [⟨⟨"<<pattern_error>>".toList, fmt, 0⟩, [s.i], true⟩]
        i := s.i + 1 }

variable {p : List Char} {s r : Trace} {c : Char}

/-- All that a round can do. -/
theorem body_round (hc : p[s.i]? = some c) (h : s.body p c = .ok r) : Round p s r := by
  unfold body at h
  split at h
  · rename_i hne
    cases h
    refine .literal c hc fun hp ↦ hne ?_
    exact Option.some.inj (hc.symm.trans hp.1)
  · rename_i hpc
    rw [not_not] at hpc
    subst hpc
    split at h
    · rename_i hdouble
      cases h
      exact .literal '%' hc fun hp ↦ hp.2 hdouble
    · rename_i hsingle
      split at h
      · cases h
      · rename_i q hq
        rcases scan_cases hc hsingle hq with ⟨hs, hcomplete⟩ | ⟨hs, hopen⟩
        · rw [if_pos hs] at h
          split at h
          · cases h
          · cases h
            exact .directive _ rfl hcomplete
        · rw [if_neg (by simp [hs]), if_pos hs] at h
          cases h
          exact .unclosed _ hopen

/-- What every round keeps, the loop keeps. -/
theorem loop_invariant {I : Trace → Prop} (hround : ∀ s r, I s → Round p s r → I r) {fuel : Nat}
    (hs : I s) (h : loop p fuel s = .ok r) : I r := by
  induction fuel generalizing s with
  | zero => cases h; exact hs
  | succ fuel ih =>
      simp only [loop] at h
      split at h
      · cases h; exact hs
      · rename_i c hc
        split at h
        · cases h
        · rename_i t ht
          exact ih (hround s t hs (body_round hc ht)) h

end Trace

/-! ## The items with their places -/

/-- An item, with the places it comes from, and whether it was made in place of what
the parser could not read. -/
structure Origin where
  item : FormatItem
  places : List Nat
  broken : Bool

/-- The item for a tuple. -/
def Placed.origin (t : Placed) : Origin := ⟨t.tuple.item.1, t.places, t.marker || t.tuple.item.2⟩

/-- The items `init` makes. -/
def origins (p : List Char) : List Origin :=
  match Trace.loop p p.length .start with
  | .error _ => []
  | .ok s => s.flush.vec.map Placed.origin

/-- The state in which the loop ends. -/
theorem loop_ok (p : List Char) : ∃ r, Trace.loop p p.length .start = .ok r ∧
    Init.loop p p.length ⟨0, [], [], false⟩ = .ok r.erase ∧ r.i = p.length ∧
      origins p = r.flush.vec.map Placed.origin := by
  have herase := Trace.erase_loop p p.length .start
  cases hr : Trace.loop p p.length .start with
  | error e =>
      rw [hr] at herase
      obtain ⟨r, hok⟩ := Init.loop_total p p.length ⟨0, [], [], false⟩
      cases herase.trans hok
  | ok r =>
      rw [hr] at herase
      have hloop : Init.loop p p.length ⟨0, [], [], false⟩ = .ok r.erase := herase.symm
      refine ⟨r, rfl, hloop, Init.loop_ends (Nat.zero_le _) (by simp) hloop, ?_⟩
      rw [origins, hr]

namespace Trace

/-- The markers are what the loop sets `m_error` for. -/
structure Marked (s : Trace) : Prop where
  error : s.error = s.vec.any Placed.marker
  text : ∀ t ∈ s.vec, t.marker = true → ∃ fmt, t.tuple = ⟨"<<pattern_error>>".toList, fmt, 0⟩

/-- Tuples that are no markers may be added. -/
theorem Marked.append {s : Trace} {l : List Placed} {nstr : List (Char × Nat)} {i : Nat}
    (h : s.Marked) (hl : ∀ t ∈ l, t.marker = false) :
    Marked { s with vec := s.vec ++ l, nstr, i } := by
  have hany : l.any Placed.marker = false := by
    rw [List.any_eq_false]
    intro t ht
    rw [hl t ht]
    exact Bool.false_ne_true
  refine ⟨?_, fun t ht hm ↦ ?_⟩
  · rw [List.any_append, hany, Bool.or_false]
    exact h.error
  · rcases List.mem_append.mp ht with ht | ht
    · exact h.text t ht hm
    · rw [hl t ht] at hm
      cases hm

theorem Marked.flush {s : Trace} (h : s.Marked) : s.flush.Marked := by
  rw [flush_eq]
  exact h.append fun _ ht ↦ pending_marker ht

theorem Marked.round {p : List Char} {s r : Trace} (h : s.Marked) (hr : Round p s r) :
    r.Marked := by
  cases hr with
  | literal c _ _ => exact ⟨h.error, h.text⟩
  | directive t _ _ =>
      apply h.flush.append
      intro x hx
      rw [List.mem_singleton.mp hx]
  | unclosed fmt _ =>
      refine ⟨by simp, fun t ht hm ↦ ?_⟩
      rcases List.mem_append.mp ht with ht | ht
      · exact h.text t ht hm
      · rw [List.mem_singleton.mp ht]
        exact ⟨fmt, rfl⟩

theorem marked_loop {p : List Char} {fuel : Nat} {r : Trace} (h : loop p fuel .start = .ok r) :
    r.Marked :=
  loop_invariant (fun _ _ hs hr ↦ hs.round hr) ⟨rfl, by simp [start]⟩ h

end Trace

/-- **`m_error` is set on every failure**: it says whether an item was made in place of
what the parser could not read. -/
theorem init_origins (p : List Char) :
    init p = .ok ((origins p).map Origin.item, (origins p).any Origin.broken) := by
  obtain ⟨r, hr, hloop, -, horigins⟩ := loop_ok p
  have hvec : r.erase.flush.vec = r.flush.vec.map Placed.tuple := by
    rw [← Trace.erase_flush]
    rfl
  have herror : r.erase.error = r.flush.vec.any Placed.marker := by
    rw [← (Trace.marked_loop hr).flush.error, Trace.flush_eq]
    rfl
  rw [init, hloop, horigins]
  dsimp only
  rw [hvec, herror, List.map_map, List.map_map, List.any_map, List.any_map]
  congr 2
  induction r.flush.vec with
  | nil => rfl
  | cons t l ih =>
      rw [List.any_cons, List.any_cons, List.any_cons, ← ih]
      simp only [Placed.origin, Function.comp_apply]
      ac_rfl

/-- The texts of the items that were made in place of something else. -/
theorem broken_item {p : List Char} {x : Origin} (hx : x ∈ origins p) (hb : x.broken = true) :
    x.item = .StringFormatItem "<<pattern_error>>" ∨
      ∃ str, x.item = .StringFormatItem ("<<error_format %" ++ str ++ ">>") := by
  obtain ⟨r, hr, -, -, horigins⟩ := loop_ok p
  rw [horigins] at hx
  obtain ⟨t, ht, rfl⟩ := List.mem_map.mp hx
  cases hm : t.marker with
  | true =>
      obtain ⟨fmt, htuple⟩ := (Trace.marked_loop hr).flush.text t ht hm
      exact .inl (by simp [Placed.origin, htuple, Tuple.item])
  | false =>
      have hitem : t.tuple.item.2 = true := by simpa [Placed.origin, hm] using hb
      refine .inr ?_
      unfold Tuple.item at hitem
      split at hitem
      · cases hitem
      · split at hitem
        · rename_i htype _ hfind
          exact ⟨String.ofList t.tuple.str, by simp [Placed.origin, Tuple.item, htype, hfind]⟩
        · cases hitem

/-! ## The places -/

namespace Trace

variable {p : List Char} {s r : Trace}

/-- The places are those of the characters, and of the `%` for all that is no literal. -/
structure Located (p : List Char) (s : Trace) : Prop where
  nstr : ∀ x ∈ s.nstr, p[x.2]? = some x.1
  vec : ∀ t ∈ s.vec, (∃ k, t.places = [k] ∧ p[k]? = some '%') ∨
    t.marker = false ∧ t.tuple.type = 0 ∧ t.tuple.str.map some = t.places.map (p[·]?)

theorem Located.flush (h : Located p s) : Located p s.flush := by
  rw [flush_eq]
  refine ⟨by simp, fun t ht ↦ ?_⟩
  rcases List.mem_append.mp ht with ht | ht
  · exact h.vec t ht
  · unfold pending at ht
    split at ht
    · cases ht
    · rw [List.mem_singleton.mp ht]
      refine .inr ⟨rfl, rfl, ?_⟩
      rw [List.map_map, List.map_map]
      exact List.map_congr_left fun x hx ↦ (h.nstr x hx).symm

/-- What comes from a `%` may be added. -/
theorem Located.append {t : Placed} {nstr : List (Char × Nat)} {i k : Nat} {error : Bool}
    (h : Located p s) (hnstr : ∀ x ∈ nstr, p[x.2]? = some x.1) (ht : t.places = [k])
    (hk : p[k]? = some '%') : Located p ⟨i, nstr, s.vec ++ [t], error⟩ := by
  refine ⟨hnstr, fun u hu ↦ ?_⟩
  rcases List.mem_append.mp hu with hu | hu
  · exact h.vec u hu
  · rw [List.mem_singleton.mp hu]
    exact .inl ⟨k, ht, hk⟩

theorem Located.round (h : Located p s) (hr : Round p s r) : Located p r := by
  cases hr with
  | literal c hc _ =>
      refine ⟨fun x hx ↦ ?_, h.vec⟩
      rcases List.mem_append.mp hx with hx | hx
      · exact h.nstr x hx
      · rw [List.mem_singleton.mp hx]
        exact hc
  | directive t _ hcomplete => exact h.flush.append h.flush.nstr rfl hcomplete.1
  | unclosed fmt hopen => exact h.append h.nstr rfl hopen.1

theorem located_loop {fuel : Nat} (h : loop p fuel .start = .ok r) : Located p r :=
  loop_invariant (fun _ _ hs hr ↦ hs.round hr) ⟨by simp [start], by simp [start]⟩ h

end Trace

/-- An item comes from a `%`, or is the text that stands at its places. -/
theorem origins_located {p : List Char} {x : Origin} (hx : x ∈ origins p) :
    (∃ k, x.places = [k] ∧ p[k]? = some '%') ∨ ∃ str : List Char,
      x.item = .StringFormatItem (String.ofList str) ∧ x.broken = false ∧
        str.map some = x.places.map (p[·]?) := by
  obtain ⟨r, hr, -, -, horigins⟩ := loop_ok p
  rw [horigins] at hx
  obtain ⟨t, ht, rfl⟩ := List.mem_map.mp hx
  rcases (Trace.located_loop hr).flush.vec t ht with h | ⟨hm, htype, hstr⟩
  · exact .inl h
  · refine .inr ⟨t.tuple.str, ?_, ?_, hstr⟩
    · simp [Placed.origin, Tuple.item, htype]
    · simp [Placed.origin, Tuple.item, htype, hm]

/-! ## The order of the items -/

/-- The items stand in the order of the places they come from. -/
def InOrder (l : List Origin) : Prop := (l.flatMap Origin.places).Pairwise (· < ·)

instance (l : List Origin) : Decidable (InOrder l) :=
  inferInstanceAs (Decidable (List.Pairwise _ _))

namespace Trace

variable {p : List Char} {s r : Trace}

/-- The places of all that has been read, in the order in which it will stand. -/
def places (s : Trace) : List Nat := s.vec.flatMap Placed.places ++ s.nstr.map Prod.snd

theorem pending_places (s : Trace) : s.pending.flatMap Placed.places = s.nstr.map Prod.snd := by
  unfold pending
  split
  · rename_i h
    rw [h]
    rfl
  · simp

@[simp] theorem flush_places (s : Trace) : s.flush.places = s.places := by
  rw [flush_eq, places, places, List.flatMap_append, pending_places]
  simp

/-- The index has passed no directive halfway, the buffer is empty at a `%` exactly at
the start and behind a directive, and up to the index all is in order exactly if each
brace that is not closed was met with an empty buffer. -/
structure Ordered (p : List Char) (s : Trace) : Prop where
  below : ∀ k ∈ s.places, k < s.i
  uncut : ∀ j n, j < s.i → Complete p j n → n ≤ s.i
  buffer : p[s.i]? = some '%' → p[s.i + 1]? ≠ some '%' →
    (s.nstr = [] ↔ s.i = 0 ∨ ∃ j, Complete p j s.i)
  order : s.places.Pairwise (· < ·) ↔
    ∀ i < s.i, Unclosed p i → i = 0 ∨ ∃ j, Complete p j i

theorem pairwise_concat {l : List Nat} {k : Nat} (h : ∀ j ∈ l, j < k) :
    (l ++ [k]).Pairwise (· < ·) ↔ l.Pairwise (· < ·) := by
  simpa [List.pairwise_append] using fun _ ↦ h

/-- A place that comes too late: what is behind it in the list is below it. -/
theorem pairwise_insert {l l' : List Nat} {k : Nat} (h : ∀ j ∈ l ++ l', j < k) :
    (l ++ k :: l').Pairwise (· < ·) ↔ (l ++ l').Pairwise (· < ·) ∧ l' = [] := by
  constructor
  · intro hsorted
    have hnil : l' = [] := by
      rw [List.eq_nil_iff_forall_not_mem]
      intro j hj
      have hkj := List.rel_of_pairwise_cons (List.pairwise_append.mp hsorted).2.1 hj
      exact absurd hkj (Nat.lt_asymm (h j (by simp [hj])))
    refine ⟨hsorted.sublist ?_, hnil⟩
    exact List.Sublist.append_left (List.sublist_cons_self k l') l
  · rintro ⟨hsorted, rfl⟩
    rw [List.append_nil] at h hsorted
    exact (pairwise_concat h).mpr hsorted

theorem ordered_start (p : List Char) : Ordered p .start := by
  refine ⟨by simp [places, start], ?_, fun _ _ ↦ by simp [start], by simp [places, start]⟩
  intro j n hj
  exact absurd hj (Nat.not_lt_zero j)

/-- Something is read at the index, and put behind all the rest. -/
theorem Ordered.advance {n : Nat} (h : Ordered p s) (hi : s.i < n)
    (hplaces : r.places = s.places ++ [s.i]) (hr : r.i = n)
    (hbetween : ∀ j, s.i ≤ j → j < n → ¬ Unclosed p j)
    (huncut : ∀ j m, s.i ≤ j → j < n → Complete p j m → m ≤ n)
    (hbuffer : p[n]? = some '%' → p[n + 1]? ≠ some '%' →
      (r.nstr = [] ↔ ∃ j, Complete p j n)) : Ordered p r := by
  subst hr
  refine ⟨fun k hk ↦ ?_, fun j m hj hm ↦ ?_, fun hp hp' ↦ ?_, ?_⟩
  · rw [hplaces, List.mem_append, List.mem_singleton] at hk
    rcases hk with hk | rfl
    · exact (h.below k hk).trans hi
    · exact hi
  · rcases Nat.lt_or_ge j s.i with hlt | hge
    · exact (h.uncut j m hlt hm).trans (Nat.le_of_lt hi)
    · exact huncut j m hge hj hm
  · rw [hbuffer hp hp', or_iff_right (Nat.ne_of_gt (Nat.zero_lt_of_lt hi))]
  · rw [hplaces, pairwise_concat h.below, h.order]
    constructor
    · intro hold j hj hopen
      rcases Nat.lt_or_ge j s.i with hlt | hge
      · exact hold j hlt hopen
      · exact absurd hopen (hbetween j hge hj)
    · exact fun hnew j hj ↦ hnew j (hj.trans hi)

/-- The marker is put behind what has been read, but before the text that is still
held back. -/
theorem Ordered.unclosed (h : Ordered p s) (fmt : List Char) (hopen : Unclosed p s.i) :
    Ordered p { s with
      error := true
      vec := s.vec ++ [⟨⟨"<<pattern_error>>".toList, fmt, 0⟩, [s.i], true⟩]
      i := s.i + 1 } := by
  have hat : ∀ j, j < s.i + 1 → j < s.i ∨ j = s.i := fun j hlt ↦
    Nat.lt_or_eq_of_le (Nat.le_of_lt_succ hlt)
  have hbelow : ∀ j ∈ s.vec.flatMap Placed.places ++ s.nstr.map Prod.snd, j < s.i := h.below
  refine ⟨fun k hk ↦ ?_, fun j m hj hm ↦ ?_, fun hp ↦ absurd hp hopen.next, ?_⟩
  · have hk' : k ∈ s.places ∨ k = s.i := by
      simp only [places, List.flatMap_append, List.mem_append, List.flatMap_cons,
        List.flatMap_nil, List.mem_singleton, List.append_nil] at hk ⊢
      tauto
    rcases hk' with hk | rfl
    · exact (h.below k hk).trans (Nat.lt_succ_self _)
    · exact Nat.lt_succ_self _
  · rcases hat j hj with hlt | rfl
    · exact (h.uncut j m hlt hm).trans (Nat.le_succ _)
    · exact absurd hopen hm.not_unclosed
  · have hplaces : places { s with
        error := true
        vec := s.vec ++ [⟨⟨"<<pattern_error>>".toList, fmt, 0⟩, [s.i], true⟩]
        i := s.i + 1 } =
        s.vec.flatMap Placed.places ++ s.i :: s.nstr.map Prod.snd := by
      simp [places]
    rw [hplaces, pairwise_insert hbelow, List.map_eq_nil_iff, h.buffer hopen.1 hopen.next]
    show s.places.Pairwise (· < ·) ∧ _ ↔ _
    rw [h.order]
    constructor
    · rintro ⟨hold, hnow⟩ j hj hj'
      rcases hat j hj with hlt | rfl
      · exact hold j hlt hj'
      · exact hnow
    · intro hnew
      exact ⟨fun j hj ↦ hnew j (hj.trans (Nat.lt_succ_self _)),
        hnew s.i (Nat.lt_succ_self _) hopen⟩

theorem Ordered.round (h : Ordered p s) (hr : Round p s r) : Ordered p r := by
  cases hr with
  | literal c hc hno =>
      have hat : ∀ j, s.i ≤ j → j < s.i + 1 → j = s.i := fun j hle hlt ↦
        Nat.le_antisymm (Nat.le_of_lt_succ hlt) hle
      refine h.advance (Nat.lt_succ_self _) ?_ rfl ?_ ?_ ?_
      · simp [places]
      · intro j hle hlt hopen
        rw [hat j hle hlt] at hopen
        exact hno ⟨hopen.1, hopen.next⟩
      · intro j m hle hlt hm
        rw [hat j hle hlt] at hm
        exact absurd ⟨hm.1, hm.2.1⟩ hno
      · -- no directive ends behind this character, which none contains
        intro _ _
        refine iff_of_false (by simp) ?_
        rintro ⟨j, hj⟩
        rcases Nat.lt_or_ge j s.i with hlt | hge
        · exact absurd (h.uncut j _ hlt hj) (Nat.not_succ_le_self _)
        · rw [hat j hge hj.lt] at hj
          exact hno ⟨hj.1, hj.2.1⟩
  | @directive t n _ hcomplete =>
      have hinside : ∀ j, s.i ≤ j → j < n → j = s.i ∨ p[j]? ≠ some '%' := fun j hle hlt ↦
        hle.eq_or_lt.imp Eq.symm fun h ↦ hcomplete.inside h hlt
      refine h.advance hcomplete.lt ?_ rfl ?_ ?_ ?_
      · rw [← flush_places s, flush_eq]
        simp [places]
      · intro j hle hlt hopen
        rcases hinside j hle hlt with rfl | hne
        · exact hcomplete.not_unclosed hopen
        · exact hne hopen.1
      · intro j m hle hlt hm
        rcases hinside j hle hlt with rfl | hne
        · exact Nat.le_of_eq (hm.unique hcomplete)
        · exact absurd hm.1 hne
      · intro _ _
        exact iff_of_true (by rw [flush_eq]) ⟨s.i, hcomplete⟩
  | unclosed fmt hopen => exact h.unclosed fmt hopen

theorem ordered_loop {fuel : Nat} (h : loop p fuel .start = .ok r) : Ordered p r :=
  loop_invariant (fun _ _ hs hr ↦ hs.round hr) (ordered_start p) h

end Trace

/-- **In which order the items stand.**  It is that of the pattern exactly if each brace
that is not closed belongs to a `%` at the start or directly behind a directive. -/
theorem ordered_iff (pattern : String) :
    (LogFormatter.new pattern).items = (origins pattern.toList).map Origin.item ∧
      (InOrder (origins pattern.toList) ↔ ∀ i, Unclosed pattern.toList i →
        i = 0 ∨ ∃ j, Complete pattern.toList j i) := by
  refine ⟨by rw [LogFormatter.new_eq (init_origins pattern.toList)], ?_⟩
  obtain ⟨r, hr, -, hend, horigins⟩ := loop_ok pattern.toList
  have hplaces : (origins pattern.toList).flatMap Origin.places = r.places := by
    rw [← Trace.flush_places, horigins, List.flatMap_map, Trace.places, Trace.flush_eq]
    simp [Placed.origin]
  rw [InOrder, hplaces, (Trace.ordered_loop hr).order, hend]
  constructor
  · intro h i hi
    exact h i (List.getElem?_eq_some_iff.mp hi.1).1 hi
  · exact fun h i _ ↦ h i

/-- The marker comes before the text that precedes it. -/
theorem not_ordered : Unclosed "abc%d\x7b".toList 3 ∧ ¬ InOrder (origins "abc%d\x7b".toList) ∧
    (LogFormatter.new "abc%d\x7b").items =
      [.StringFormatItem "<<pattern_error>>", .StringFormatItem "abcd\x7b"] := by
  decide

end Sylar.Log
