import Sylar.Log.Event
import Mathlib.Algebra.Group.Nat.Defs
import Mathlib.Data.List.Basic

/-!
# The log formatter

`LogFormatter` and its format items.  `init` is kept as the source has it: an
index into the pattern that the inner loop moves forward, a buffer of pending
literal text, a status, and a second pass over the collected tuples.  Every
`substr` is the partial function of the standard library.
-/

namespace Sylar.Log

/-! ## Format items -/

/-- The subclasses of `LogFormatter::FormatItem`. -/
inductive FormatItem
  | MessageFormatItem
  | LevelFormatItem
  | ElapseFormatItem
  | NameFormatItem
  | ThreadFormatItem
  | FiberFormatItem
  | ThreadNameFormatItem
  | DateTimeFormatItem (format : String)
  | FilenameFormatItem
  | LineFormatItem
  | NewLineFormatItem
  | StringFormatItem (str : String)
  | TabFormatItem
deriving DecidableEq, Repr

/-- The constructor of `DateTimeFormatItem`. -/
def FormatItem.dateTime (format : String) : FormatItem :=
  .DateTimeFormatItem (if format = "" then "%Y-%m-%d %H:%M:%S" else format)

/-- `format` of each item.  `strftime` renders a time in the local zone. -/
def FormatItem.format (strftime : String → Nat → String) (level : Level) (event : LogEvent) :
    FormatItem → String
  | MessageFormatItem => event.content
  | LevelFormatItem => level.ToString
  | ElapseFormatItem => toString event.elapse
  | NameFormatItem => event.loggerName
  | ThreadFormatItem => toString event.threadID
  | FiberFormatItem => toString event.fiberID
  | ThreadNameFormatItem => event.threadName
  | DateTimeFormatItem format => strftime format event.time
  | FilenameFormatItem => event.file
  | LineFormatItem => toString event.line
  | NewLineFormatItem => "\n"
  | StringFormatItem str => str
  | TabFormatItem => "\t"

/-- The table `s_format_item`. -/
def sFormatItem : List (List Char × (String → FormatItem)) :=
  [(['m'], fun _ ↦ .MessageFormatItem), (['p'], fun _ ↦ .LevelFormatItem),
    (['r'], fun _ ↦ .ElapseFormatItem), (['c'], fun _ ↦ .NameFormatItem),
    (['t'], fun _ ↦ .ThreadFormatItem), (['F'], fun _ ↦ .FiberFormatItem),
    (['n'], fun _ ↦ .NewLineFormatItem), (['d'], .dateTime),
    (['f'], fun _ ↦ .FilenameFormatItem), (['l'], fun _ ↦ .LineFormatItem),
    (['T'], fun _ ↦ .TabFormatItem), (['N'], fun _ ↦ .ThreadNameFormatItem)]

/-! ## The parser -/

/-- `std::out_of_range`. -/
inductive OutOfRange
  | outOfRange
deriving DecidableEq, Repr

/-- Subtraction of `size_t`. -/
def sizeSub (a b : Nat) : Nat := if b ≤ a then a - b else 2 ^ 64 - (b - a)

/-- `std::string::substr`. -/
def substr (p : List Char) (pos len : Nat) : Except OutOfRange (List Char) :=
  if p.length < pos then .error .outOfRange else .ok ((p.drop pos).take len)

/-- `isalpha` of ASCII. -/
def isalpha (c : Char) : Bool := ('a' ≤ c && c ≤ 'z') || ('A' ≤ c && c ≤ 'Z')

/-- The tuples collected in `vec`: text, format and type. -/
structure Tuple where
  str : List Char
  fmt : List Char
  type : Nat
deriving DecidableEq, Repr

/-- The variables of the inner loop. -/
structure Scan where
  n : Nat
  status : Nat
  fmtBegin : Nat
  str : List Char
  fmt : List Char
deriving DecidableEq, Repr

/-- The inner loop of `init` for the `%` at `i`.  The last argument is the
pattern from `n` on. -/
def scan (p : List Char) (i : Nat) (s : Scan) : List Char → Except OutOfRange Scan
  | [] => .ok s
  | c :: rest =>
      if !isalpha c && c != '{' && c != '}' then .ok s
      else if s.status = 0 ∧ c = '{' then
        match substr p (i + 1) (sizeSub (sizeSub s.n i) 1) with
        | .error e => .error e
        | .ok str => scan p i { s with str, status := 1, n := s.n + 1, fmtBegin := s.n + 1 } rest
      else if s.status = 1 ∧ c = '}' then
        match substr p (s.fmtBegin + 1) (sizeSub (sizeSub s.n s.fmtBegin) 1) with
        | .error e => .error e
        | .ok fmt => .ok { s with fmt, status := 0, n := s.n + 1 }
      else scan p i { s with n := s.n + 1 } rest

/-- The variables of the outer loop. -/
structure Init where
  i : Nat
  nstr : List Char
  vec : List Tuple
  error : Bool
deriving DecidableEq, Repr

/-- The pending literal text is moved to `vec`. -/
def Init.flush (s : Init) : Init :=
  if s.nstr = [] then s else { s with vec := s.vec ++ [⟨s.nstr, [], 0⟩], nstr := [] }

/-- The body of the outer loop for the character `c` at `i`, with `++i` at its
end. -/
def Init.body (p : List Char) (s : Init) (c : Char) : Except OutOfRange Init :=
  if c ≠ '%' then .ok { s with nstr := s.nstr ++ [c], i := s.i + 1 }
  else if p[s.i + 1]? = some '%' then .ok { s with nstr := s.nstr ++ ['%'], i := s.i + 1 }
  else
    match scan p s.i ⟨s.i + 1, 0, 0, [], []⟩ (p.drop (s.i + 1)) with
    | .error e => .error e
    | .ok r =>
        if r.status = 0 then
          match substr p (s.i + 1) (sizeSub (sizeSub r.n s.i) 1) with
          | .error e => .error e
          | .ok str => .ok { s.flush with vec := s.flush.vec ++ [⟨str, r.fmt, 1⟩], i := r.n }
        else if r.status = 1 then
          .ok { s with
            error := true, vec := s.vec ++ [⟨"<<pattern_error>>".toList, r.fmt, 0⟩], i := s.i + 1 }
        else if r.status = 2 then
          .ok { s.flush with vec := s.flush.vec ++ [⟨r.str, r.fmt, 1⟩], i := r.n }
        else .ok { s with i := s.i + 1 }

/-- The outer loop, which runs at most once for each character. -/
def Init.loop (p : List Char) : Nat → Init → Except OutOfRange Init
  | 0, s => .ok s
  | fuel + 1, s =>
      match p[s.i]? with
      | none => .ok s
      | some c =>
          match s.body p c with
          | .error e => .error e
          | .ok s => loop p fuel s

/-- The item for one tuple, and whether it is an error. -/
def Tuple.item (t : Tuple) : FormatItem × Bool :=
  if t.type = 0 then (.StringFormatItem (String.ofList t.str), false)
  else
    match sFormatItem.find? fun e ↦ e.1 = t.str with
    | none => (.StringFormatItem ("<<error_format %" ++ String.ofList t.str ++ ">>"), true)
    | some e => (e.2 (String.ofList t.fmt), false)

/-- `LogFormatter::init`: the items and `m_error`. -/
def init (p : List Char) : Except OutOfRange (List FormatItem × Bool) :=
  match Init.loop p p.length ⟨0, [], [], false⟩ with
  | .error e => .error e
  | .ok s =>
      .ok (s.flush.vec.map fun t ↦ t.item.1, s.error || s.flush.vec.any fun t ↦ t.item.2)

/-! ## `init` does not throw -/

theorem substr_eq {p : List Char} {pos len : Nat} (h : pos ≤ p.length) :
    substr p pos len = .ok ((p.drop pos).take len) := by
  rw [substr, if_neg (Nat.not_lt.mpr h)]

theorem sizeSub_eq {a b : Nat} (h : b ≤ a) : sizeSub a b = a - b := if_pos h

/-- The lengths passed to `substr`, where the subtractions do not wrap. -/
theorem sizeSub_sizeSub {n i : Nat} (h : i + 1 ≤ n) : sizeSub (sizeSub n i) 1 = n - (i + 1) := by
  rw [sizeSub_eq (Nat.le_of_succ_le h), sizeSub_eq (Nat.le_sub_of_add_le (by omega)), Nat.sub_sub]

/-- The inner loop only reads inside the pattern, and moves forward. -/
theorem scan_total {p : List Char} {i : Nat} (rest : List Char) {s : Scan}
    (hi : i < s.n) (hn : s.n + rest.length = p.length)
    (hf : s.status = 1 → s.fmtBegin ≤ s.n) :
    ∃ r, scan p i s rest = .ok r ∧ s.n ≤ r.n ∧ r.n ≤ p.length := by
  induction rest generalizing s with
  | nil => exact ⟨s, rfl, Nat.le_refl _, by simp at hn; omega⟩
  | cons c rest ih =>
      simp only [List.length_cons] at hn
      simp only [scan]
      split
      · exact ⟨s, rfl, Nat.le_refl _, by omega⟩
      · split
        · rw [substr_eq (by omega)]
          obtain ⟨r, hr, hle, hlen⟩ := ih (s := { s with
            str := (p.drop (i + 1)).take (sizeSub (sizeSub s.n i) 1), status := 1,
            n := s.n + 1, fmtBegin := s.n + 1 }) (by dsimp only; omega) (by dsimp only; omega)
            (fun _ ↦ Nat.le_refl _)
          exact ⟨r, hr, by dsimp only at hle; omega, hlen⟩
        · split
          · rename_i h
            have hb := hf h.1
            rw [substr_eq (by omega)]
            exact ⟨_, rfl, by simp, by dsimp only; omega⟩
          · obtain ⟨r, hr, hle, hlen⟩ := ih (s := { s with n := s.n + 1 })
              (by dsimp only; omega) (by dsimp only; omega)
              (fun h ↦ Nat.le_succ_of_le (hf h))
            exact ⟨r, hr, by dsimp only at hle; omega, hlen⟩

@[simp] theorem Init.flush_i (s : Init) : s.flush.i = s.i := by
  unfold flush
  split <;> rfl

/-- The outer loop moves forward inside the pattern. -/
theorem Init.body_total {p : List Char} {s : Init} {c : Char} (hc : p[s.i]? = some c) :
    ∃ r, s.body p c = .ok r ∧ s.i < r.i ∧ r.i ≤ p.length := by
  have hi : s.i < p.length := (List.getElem?_eq_some_iff.mp hc).1
  unfold body
  split
  · exact ⟨_, rfl, Nat.lt_succ_self _, hi⟩
  · split
    · exact ⟨_, rfl, Nat.lt_succ_self _, hi⟩
    · obtain ⟨r, hr, hle, hlen⟩ := scan_total (p := p) (i := s.i) (p.drop (s.i + 1))
        (s := ⟨s.i + 1, 0, 0, [], []⟩) (Nat.lt_succ_self _) (by simp; omega) (by simp)
      simp only [hr]
      dsimp only at hle
      split
      · rw [substr_eq hi]
        exact ⟨_, rfl, hle, hlen⟩
      · split
        · exact ⟨_, rfl, Nat.lt_succ_self _, hi⟩
        · split
          · exact ⟨_, rfl, hle, hlen⟩
          · exact ⟨_, rfl, Nat.lt_succ_self _, hi⟩

theorem Init.loop_total (p : List Char) (fuel : Nat) (s : Init) : ∃ r, loop p fuel s = .ok r := by
  induction fuel generalizing s with
  | zero => exact ⟨s, rfl⟩
  | succ fuel ih =>
      simp only [loop]
      cases hc : p[s.i]? with
      | none => exact ⟨s, rfl⟩
      | some c =>
          obtain ⟨r, hr, _⟩ := Init.body_total hc
          simp only [hr]
          exact ih r

theorem init_total (p : List Char) : ∃ r, init p = .ok r := by
  obtain ⟨s, hs⟩ := Init.loop_total p p.length ⟨0, [], [], false⟩
  exact ⟨_, by rw [init, hs]⟩

/-- What the body keeps, the outer loop keeps. -/
theorem Init.loop_invariant {p : List Char} {I : Init → Prop}
    (hbody : ∀ s r c, p[s.i]? = some c → I s → s.body p c = .ok r → I r) {fuel : Nat} {s r : Init}
    (hs : I s) (h : loop p fuel s = .ok r) : I r := by
  induction fuel generalizing s with
  | zero => cases h; exact hs
  | succ fuel ih =>
      simp only [loop] at h
      split at h
      · cases h; exact hs
      · rename_i c hc
        split at h
        · cases h
        · rename_i t ht
          exact ih (hbody s t c hc hs ht) h

/-- The loop has come to the end of the pattern when its fuel is used up. -/
theorem Init.loop_ends {p : List Char} {fuel : Nat} {s r : Init} (hle : s.i ≤ p.length)
    (hfuel : p.length ≤ s.i + fuel) (h : loop p fuel s = .ok r) : r.i = p.length := by
  induction fuel generalizing s with
  | zero =>
      cases h
      omega
  | succ fuel ih =>
      simp only [loop] at h
      cases hc : p[s.i]? with
      | none =>
          rw [hc] at h
          cases h
          have := List.getElem?_eq_none_iff.mp hc
          omega
      | some c =>
          obtain ⟨t, ht, hlt, hlen⟩ := Init.body_total hc
          rw [hc] at h
          simp only [ht] at h
          exact ih hlen (by omega) h

/-- The state in which the outer loop ends, and what is made of it. -/
theorem init_ok {p : List Char} {items : List FormatItem} {error : Bool}
    (h : init p = .ok (items, error)) :
    ∃ r, Init.loop p p.length ⟨0, [], [], false⟩ = .ok r ∧ r.i = p.length ∧
      items = (r.flush.vec.map fun t ↦ t.item.1) ∧
      error = (r.error || r.flush.vec.any fun t ↦ t.item.2) := by
  obtain ⟨r, hr⟩ := Init.loop_total p p.length ⟨0, [], [], false⟩
  rw [init, hr] at h
  cases h
  exact ⟨r, hr, Init.loop_ends (Nat.zero_le _) (by simp) hr, rfl, rfl⟩

/-! ## The formatter -/

/-- `LogFormatter`. -/
structure LogFormatter where
  pattern : String
  items : List FormatItem
  error : Bool
deriving DecidableEq, Repr

namespace LogFormatter

/-- The constructor. -/
def new (pattern : String) : LogFormatter :=
  match init pattern.toList, init_total pattern.toList with
  | .ok r, _ => ⟨pattern, r.1, r.2⟩
  | .error _, h => (nomatch h)

theorem new_eq {pattern : String} {r : List FormatItem × Bool}
    (h : init pattern.toList = .ok r) : new pattern = ⟨pattern, r.1, r.2⟩ := by
  unfold new
  split
  · rename_i h' _
    rw [h, Except.ok.injEq] at h'
    rw [h']
  · rename_i h' _
    rw [h] at h'
    cases h'

@[simp] theorem new_pattern (pattern : String) : (new pattern).pattern = pattern := by
  obtain ⟨r, hr⟩ := init_total pattern.toList
  rw [new_eq hr]

/-- `LogFormatter::isError`. -/
def isError (f : LogFormatter) : Bool := f.error

/-- `LogFormatter::format`. -/
def format (f : LogFormatter) (strftime : String → Nat → String) (level : Level)
    (event : LogEvent) : String :=
  f.items.foldl (fun ss i ↦ ss ++ i.format strftime level event) ""

end LogFormatter

end Sylar.Log
