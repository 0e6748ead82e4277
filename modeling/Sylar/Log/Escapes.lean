import Sylar.Log.Pattern

/-!
# Percent signs and braces

The pattern language of *all* patterns.  A `%` before another `%` adds a percent
sign to the pending text, but the loop then goes on at the second one, which is
read as if it stood alone.  `Piece.parse` says so by recursion on the pattern, and
the outer loop of `init` is shown to compute it.

From this follows what `%%` escapes, and that no directive takes an argument.
-/

namespace Sylar.Log

/-- The pieces of a pattern, a literal character at a time, if it is accepted. -/
def Piece.parse : List Char → Option (List Piece)
  | [] => some []
  | [c] => if c = '%' then none else some [.literal [c]]
  | c :: d :: p =>
      if c ≠ '%' then (parse (d :: p)).map (.literal [c] :: ·)
      -- the second `%` is read once more
      else if d = '%' then (parse (d :: p)).map (.literal ['%'] :: ·)
      else if d ∈ letters ∧ p.takeWhile isRun = [] then (parse p).map (.directive d :: ·)
      else none

/-- What the pieces contribute to a line. -/
def renderAll (strftime : String → Nat → String) (level : Level) (event : LogEvent)
    (pieces : List Piece) : String :=
  String.join (pieces.map (Piece.render strftime level event))

namespace Piece

theorem parse_literal {c : Char} (hc : c ≠ '%') (p : List Char) :
    parse (c :: p) = (parse p).map (.literal [c] :: ·) := by
  cases p with
  | nil => simp [parse, hc]
  | cons d p => simp [parse, hc]

theorem parse_percent (p : List Char) :
    parse ('%' :: '%' :: p) = (parse ('%' :: p)).map (.literal ['%'] :: ·) := by
  simp [parse]

theorem parse_directive {d : Char} (hd : d ∈ letters) {p : List Char}
    (hp : p.takeWhile isRun = []) :
    parse ('%' :: d :: p) = (parse p).map (.directive d :: ·) := by
  have hne : d ≠ '%' := by
    rintro rfl
    revert hd
    decide
  simp [parse, hne, hd, hp]

theorem isRun_of_letter {d : Char} (hd : d ∈ letters) : isRun d = true := by
  revert hd
  simp only [letters, List.mem_cons, List.not_mem_nil, or_false]
  rintro (rfl | rfl | rfl | rfl | rfl | rfl | rfl | rfl | rfl | rfl | rfl | rfl) <;> decide

/-- A `%` is read with the run behind it. -/
theorem takeWhile_eq_letter {d : Char} (hd : d ∈ letters) {p : List Char} :
    (p.takeWhile isRun = [d]) ↔ ∃ q, p = d :: q ∧ q.takeWhile isRun = [] := by
  constructor
  · intro h
    cases p with
    | nil => cases h
    | cons c p =>
        rw [List.takeWhile_cons] at h
        split at h
        · rw [List.cons.injEq] at h
          exact ⟨p, by rw [h.1], h.2⟩
        · cases h
  · rintro ⟨q, rfl, hq⟩
    rw [List.takeWhile_cons_of_pos (isRun_of_letter hd), hq]

/-- A `%` that is not doubled needs a run of one table letter. -/
theorem parse_bad {p : List Char} (hp : p.head? ≠ some '%')
    (hrun : ∀ c ∈ letters, p.takeWhile isRun ≠ [c]) : parse ('%' :: p) = none := by
  cases p with
  | nil => rfl
  | cons d p =>
      have hne : d ≠ '%' := fun h ↦ hp (by rw [h]; rfl)
      have hnot : ¬ (d ∈ letters ∧ p.takeWhile isRun = []) := fun ⟨hd, hq⟩ ↦
        hrun d hd ((takeWhile_eq_letter hd).mpr ⟨p, rfl, hq⟩)
      rw [parse, if_neg (not_not.mpr rfl), if_neg hne, if_neg hnot]

end Piece

/-! ## The outer loop -/

/-- The text of the collected tuples. -/
def vecLine (strftime : String → Nat → String) (level : Level) (event : LogEvent)
    (vec : List Tuple) : String :=
  String.join (vec.map fun t ↦ t.item.1.format strftime level event)

theorem vecLine_append (strftime : String → Nat → String) (level : Level) (event : LogEvent)
    (u v : List Tuple) : vecLine strftime level event (u ++ v) =
      vecLine strftime level event u ++ vecLine strftime level event v := by
  rw [vecLine, List.map_append, String.join_append, vecLine, vecLine]

theorem renderAll_append (strftime : String → Nat → String) (level : Level) (event : LogEvent)
    (u v : List Piece) : renderAll strftime level event (u ++ v) =
      renderAll strftime level event u ++ renderAll strftime level event v := by
  rw [renderAll, List.map_append, String.join_append, renderAll, renderAll]

theorem renderAll_cons (strftime : String → Nat → String) (level : Level) (event : LogEvent)
    (a : Piece) (u : List Piece) : renderAll strftime level event (a :: u) =
      a.render strftime level event ++ renderAll strftime level event u := by
  rw [renderAll, List.map_cons, String.join_cons, renderAll]

/-- The buffer keeps its text when it becomes a tuple. -/
theorem vecLine_flush (strftime : String → Nat → String) (level : Level) (event : LogEvent)
    (s : Init) : vecLine strftime level event s.flush.vec =
      vecLine strftime level event s.vec ++ String.ofList s.nstr := by
  rw [flush_vec, vecLine_append]
  congr 1
  unfold pending
  split
  · rename_i hs
    rw [hs]
    rfl
  · simp [vecLine, Piece.tuple, Tuple.item, FormatItem.format]

theorem flush_items {s : Init} (h : ∀ t ∈ s.vec, t.item.2 = false) :
    ∀ t ∈ s.flush.vec, t.item.2 = false := by
  intro t ht
  rw [flush_vec, List.mem_append] at ht
  rcases ht with ht | ht
  · exact h t ht
  · unfold pending at ht
    split at ht
    · cases ht
    · rw [List.map_singleton, List.mem_singleton] at ht
      rw [ht]
      rfl

/-- The pieces behind the index have been collected, and the others are still to
be read. -/
structure Reading (p : List Char) (s : Init) (done : List Piece) : Prop where
  error : s.error = false
  items : ∀ t ∈ s.vec, t.item.2 = false
  line : ∀ strftime level event,
    vecLine strftime level event s.vec ++ String.ofList s.nstr =
      renderAll strftime level event done
  rest : Piece.parse p = (Piece.parse (p.drop s.i)).map (done ++ ·)

namespace Reading

variable {p : List Char} {s r : Init} {done : List Piece} {c : Char}

/-- A character goes to the buffer. -/
theorem append (h : Reading p s done)
    (hp : Piece.parse (p.drop s.i) = (Piece.parse (p.drop (s.i + 1))).map (.literal [c] :: ·)) :
    Reading p { s with nstr := s.nstr ++ [c], i := s.i + 1 } (done ++ [.literal [c]]) := by
  refine { h with line := fun strftime level event ↦ ?_, rest := ?_ }
  · rw [renderAll_append, ← h.line, String.append_assoc, String.ofList_append]
    simp [renderAll, Piece.render]
  · rw [h.rest, hp, Option.map_map]
    congr 1
    funext ps
    simp

/-- A directive is collected behind the pending text. -/
theorem directive (h : Reading p s done) (hc : c ∈ letters)
    (hp : Piece.parse (p.drop s.i) = (Piece.parse (p.drop (s.i + 2))).map (.directive c :: ·)) :
    Reading p { s.flush with vec := s.flush.vec ++ [⟨[c], [], 1⟩], i := s.i + 2 }
      (done ++ [.directive c]) := by
  have hitem := item_tuple (a := .directive c) fun d hd ↦ by
    rw [← Piece.directive.inj hd]
    exact hc
  refine ⟨(flush_error s).trans h.error, fun t ht ↦ ?_, fun strftime level event ↦ ?_, ?_⟩
  · rcases List.mem_append.mp ht with ht | ht
    · exact flush_items h.items t ht
    · rw [List.mem_singleton.mp ht]
      exact hitem.2
  · rw [vecLine_append, vecLine_flush, h.line, flush_nstr, renderAll_append]
    simp [vecLine, renderAll, Piece.render, ← hitem.1, Piece.tuple]
  · rw [h.rest, hp, Option.map_map]
    congr 1
    funext ps
    simp

end Reading

/-- The loop invariant. -/
def Read (p : List Char) (s : Init) : Prop :=
  (∃ done, Reading p s done) ∨ Flawed s ∧ Piece.parse p = none

theorem read_start (p : List Char) : Read p ⟨0, [], [], false⟩ :=
  .inl ⟨[], rfl, by simp, fun _ _ _ ↦ rfl, by simp⟩

theorem Read.body {p : List Char} {s r : Init} {c : Char} (hc : p[s.i]? = some c)
    (h : Read p s) (hr : s.body p c = .ok r) : Read p r := by
  rcases h with ⟨done, h⟩ | ⟨hflaw, hnone⟩
  · have hdrop := drop_eq_cons hc
    by_cases hpc : c = '%'
    · subst hpc
      by_cases hdouble : p[s.i + 1]? = some '%'
      · have hbody : s.body p '%' = .ok { s with nstr := s.nstr ++ ['%'], i := s.i + 1 } := by
          rw [Init.body, if_neg (not_not.mpr rfl), if_pos hdouble]
        rw [hbody, Except.ok.injEq] at hr
        subst hr
        refine .inl ⟨_, h.append ?_⟩
        rw [hdrop, drop_eq_cons hdouble, Piece.parse_percent]
      · by_cases hrun : ∃ d ∈ letters, (p.drop (s.i + 1)).takeWhile isRun = [d]
        · obtain ⟨d, hd, hrun⟩ := hrun
          rw [(body_directive hc hd hrun).2, Except.ok.injEq] at hr
          subst hr
          refine .inl ⟨_, h.directive hd ?_⟩
          obtain ⟨q, hq, hstop⟩ := (Piece.takeWhile_eq_letter hd).mp hrun
          have hq' : q = p.drop (s.i + 2) := by
            rw [← List.tail_drop, hq]
            rfl
          rw [hdrop, hq, Piece.parse_directive hd hstop, hq']
        · have hbad : ∀ d ∈ letters, (p.drop (s.i + 1)).takeWhile isRun ≠ [d] :=
            fun d hd he ↦ hrun ⟨d, hd, he⟩
          refine .inr ⟨flawed_of_bad hc hdouble hbad hr, ?_⟩
          rw [h.rest, hdrop, Piece.parse_bad (by rwa [List.head?_drop]) hbad]
          rfl
    · have hbody : s.body p c = .ok { s with nstr := s.nstr ++ [c], i := s.i + 1 } := if_pos hpc
      rw [hbody, Except.ok.injEq] at hr
      subst hr
      refine .inl ⟨_, h.append ?_⟩
      rw [hdrop, Piece.parse_literal hpc]
  · exact .inr ⟨hflaw.body hr, hnone⟩

theorem Read.loop {p : List Char} {fuel : Nat} {s r : Init} (h : Read p s)
    (hr : Init.loop p fuel s = .ok r) : Read p r :=
  Init.loop_invariant (fun _ _ _ hc hs ht ↦ hs.body hc ht) h hr

/-- `init` computes `Piece.parse`. -/
theorem init_parse {p : List Char} {items : List FormatItem} {error : Bool}
    (h : init p = .ok (items, error)) :
    match Piece.parse p with
    | none => error = true
    | some pieces => error = false ∧ ∀ strftime level event,
        String.join (items.map fun i ↦ i.format strftime level event) =
          renderAll strftime level event pieces := by
  obtain ⟨r, hr, hend, rfl, rfl⟩ := init_ok h
  rcases (read_start p).loop hr with ⟨done, hread⟩ | ⟨hflaw, hnone⟩
  · have hparse : Piece.parse p = some done := by
      rw [hread.rest, hend, List.drop_length]
      simp [Piece.parse]
    rw [hparse]
    refine ⟨?_, fun strftime level event ↦ ?_⟩
    · rw [hread.error, Bool.false_or, List.any_eq_false]
      intro t ht
      rw [flush_items hread.items t ht]
      exact Bool.false_ne_true
    · rw [← hread.line, ← vecLine_flush, vecLine, List.map_map]
      rfl
  · rw [hnone]
    exact hflaw.rejected

/-! ## The formatter -/

namespace LogFormatter

theorem isError_of_parse_none {pattern : String} (h : Piece.parse pattern.toList = none) :
    (new pattern).isError = true := by
  obtain ⟨⟨items, error⟩, hr⟩ := init_total pattern.toList
  have hp := init_parse hr
  rw [h] at hp
  rw [new_eq hr]
  exact hp

/-- A pattern that is read is accepted, and a line is what its pieces render. -/
theorem format_of_parse {pattern : String} {pieces : List Piece}
    (h : Piece.parse pattern.toList = some pieces) :
    (new pattern).isError = false ∧ ∀ strftime level event,
      (new pattern).format strftime level event = renderAll strftime level event pieces := by
  obtain ⟨⟨items, error⟩, hr⟩ := init_total pattern.toList
  have hp := init_parse hr
  rw [h] at hp
  rw [new_eq hr]
  refine ⟨hp.1, fun strftime level event ↦ ?_⟩
  rw [← hp.2 strftime level event, String.join_eq_foldl, List.foldl_map]
  rfl

end LogFormatter

/-! ## Escaping -/

/-- Each `%` doubled. -/
def escape (s : List Char) : List Char := s.flatMap fun c ↦ if c = '%' then ['%', '%'] else [c]

theorem escape_percent (s : List Char) : escape ('%' :: s) = '%' :: '%' :: escape s := rfl

theorem escape_cons {c : Char} (hc : c ≠ '%') (s : List Char) :
    escape (c :: s) = c :: escape s := by
  simp [escape, hc]

/-- Text without `%` is read as it stands. -/
theorem parse_escape_append {a : List Char} (ha : '%' ∉ a) (s : List Char) :
    Piece.parse (escape (a ++ s)) =
      (Piece.parse (escape s)).map (a.map (fun c ↦ Piece.literal [c]) ++ ·) := by
  induction a with
  | nil => simp
  | cons c a ih =>
      rw [List.mem_cons, not_or] at ha
      have hc : c ≠ '%' := Ne.symm ha.1
      rw [List.cons_append, escape_cons hc, Piece.parse_literal hc, ih ha.2, Option.map_map]
      rfl

theorem renderAll_literals (strftime : String → Nat → String) (level : Level) (event : LogEvent)
    (a : List Char) :
    renderAll strftime level event (a.map fun c ↦ .literal [c]) = String.ofList a := by
  induction a with
  | nil => rfl
  | cons c a ih =>
      rw [List.map_cons, renderAll_cons, ih, Piece.render, ← String.ofList_append]
      rfl

/-- `%%` stands for a percent sign in `s`: the escaped text is accepted and
formatted as `s`. -/
def Escaped (strftime : String → Nat → String) (s : String) : Prop :=
  let formatter := LogFormatter.new (String.ofList (escape s.toList))
  formatter.isError = false ∧ ∀ level event, formatter.format strftime level event = s

/-- An event all of whose texts are a zero. -/
def zeros (time : Nat) : LogEvent := ⟨"0", 0, 0, 0, 0, time, "0", "0", .DEBUG, "0"⟩

/-- The format of `%d` without an argument. -/
def defaultTime : String := "%Y-%m-%d %H:%M:%S"

/-- No directive renders its own letter first for this event. -/
theorem render_zeros {strftime : String → Nat → String} {time : Nat} {c : Char}
    (htime : ∃ d, d.isDigit ∧ (strftime defaultTime time).toList.head? = some d)
    (hc : c ∈ letters) :
    ∃ d, ((Piece.directive c).render strftime .DEBUG (zeros time)).toList.head? = some d ∧
      d ≠ c := by
  obtain ⟨digit, hdigit, hhead⟩ := htime
  have zero : "0".toList.head? = some '0' := by decide
  have number : (toString 0).toList.head? = some '0' := by decide
  have hd : digit ≠ 'd' := by
    rintro rfl
    revert hdigit
    decide
  simp only [letters, List.mem_cons, List.not_mem_nil, or_false] at hc
  rcases hc with rfl | rfl | rfl | rfl | rfl | rfl | rfl | rfl | rfl | rfl | rfl | rfl
  · exact ⟨'0', zero, by decide⟩
  · exact ⟨'D', (by decide : "DEBUG".toList.head? = _), by decide⟩
  · exact ⟨'0', number, by decide⟩
  · exact ⟨'0', zero, by decide⟩
  · exact ⟨'0', number, by decide⟩
  · exact ⟨'0', number, by decide⟩
  · exact ⟨'\n', (by decide : "\n".toList.head? = _), by decide⟩
  · exact ⟨digit, hhead, hd⟩
  · exact ⟨'0', zero, by decide⟩
  · exact ⟨'0', number, by decide⟩
  · exact ⟨'\t', (by decide : "\t".toList.head? = _), by decide⟩
  · exact ⟨'0', zero, by decide⟩

/-- What follows an escaped percent sign is not read as it was written, whatever
number of percent signs has been added before. -/
theorem renderAll_ne {strftime : String → Nat → String} {time : Nat}
    (htime : ∃ d, d.isDigit ∧ (strftime defaultTime time).toList.head? = some d) (j : Nat)
    {t : List Char} {pieces : List Piece} (h : Piece.parse ('%' :: escape t) = some pieces) :
    List.replicate j '%' ++ (renderAll strftime .DEBUG (zeros time) pieces).toList ≠ t := by
  induction t generalizing j pieces with
  | nil => cases h
  | cons c t ih =>
      intro heq
      by_cases hc : c = '%'
      · -- two percent signs are rendered where there is one
        subst hc
        rw [escape_percent, Piece.parse_percent, Piece.parse_percent, Option.map_map] at h
        obtain ⟨rest, hrest, rfl⟩ := Option.map_eq_some_iff.mp h
        apply ih (j + 1) hrest
        simp only [Function.comp_apply, renderAll_cons, Piece.render, String.toList_append,
          String.toList_ofList, List.singleton_append] at heq
        rw [List.append_cons, ← List.replicate_succ', List.append_cons, ← List.replicate_succ',
          List.replicate_succ, List.cons_append, List.cons.injEq] at heq
        exact heq.2
      · -- the letter is gone, and something else stands in its place
        rw [escape_cons hc] at h
        by_cases hd : c ∈ letters ∧ (escape t).takeWhile isRun = []
        · rw [Piece.parse_directive hd.1 hd.2] at h
          obtain ⟨rest, _, rfl⟩ := Option.map_eq_some_iff.mp h
          obtain ⟨d, hhead, hne⟩ := render_zeros htime hd.1
          have heads := congrArg List.head? heq
          rw [renderAll_cons, String.toList_append, List.head?_append, List.head?_append, hhead,
            List.head?_replicate] at heads
          split at heads
          · exact hne (Option.some.inj heads)
          · exact hc (Option.some.inj heads).symm
        · rw [Piece.parse, if_neg (not_not.mpr rfl), if_neg hc, if_neg hd] at h
          cases h

/-- The escaped text starts to go wrong at its first percent sign. -/
theorem not_escaped_of_mem {strftime : String → Nat → String} {time : Nat}
    (htime : ∃ d, d.isDigit ∧ (strftime defaultTime time).toList.head? = some d) {s : String}
    (hs : '%' ∈ s.toList) : ¬ Escaped strftime s := by
  rintro ⟨hok, hformat⟩
  obtain ⟨a, t, hsplit, ha⟩ := List.eq_append_cons_of_mem hs
  have hparse : Piece.parse (String.ofList (escape s.toList)).toList =
      (Piece.parse ('%' :: escape t)).map
        (a.map (fun c ↦ Piece.literal [c]) ++ .literal ['%'] :: ·) := by
    rw [String.toList_ofList, hsplit, parse_escape_append ha, escape_percent, Piece.parse_percent,
      Option.map_map]
    rfl
  cases hrest : Piece.parse ('%' :: escape t) with
  | none =>
      rw [hrest] at hparse
      rw [LogFormatter.isError_of_parse_none hparse] at hok
      cases hok
  | some rest =>
      rw [hrest] at hparse
      have hline := hformat .DEBUG (zeros time)
      rw [(LogFormatter.format_of_parse hparse).2, renderAll_append, renderAll_literals,
        renderAll_cons] at hline
      apply renderAll_ne htime 0 hrest
      have hchars := congrArg String.toList hline
      simp only [Piece.render, String.toList_append, String.toList_ofList, hsplit,
        List.singleton_append] at hchars
      exact List.tail_eq_of_cons_eq (List.append_cancel_left hchars)

theorem escaped_of_not_mem (strftime : String → Nat → String) {s : String}
    (hs : '%' ∉ s.toList) : Escaped strftime s := by
  have hparse : Piece.parse (String.ofList (escape s.toList)).toList =
      some (s.toList.map fun c ↦ Piece.literal [c]) := by
    have h := parse_escape_append hs []
    rw [List.append_nil] at h
    rw [String.toList_ofList, h]
    simp [escape, Piece.parse]
  obtain ⟨hok, hformat⟩ := LogFormatter.format_of_parse hparse
  refine ⟨hok, fun level event ↦ ?_⟩
  rw [hformat, renderAll_literals, String.ofList_toList]

/-- **`%%` escapes no percent sign.**  The second `%` is read again, as the start of
a directive: a text survives escaping exactly if there is nothing in it to escape. -/
theorem escaped_iff (strftime : String → Nat → String)
    (htime : ∃ time d, d.isDigit ∧ (strftime defaultTime time).toList.head? = some d)
    (s : String) : Escaped strftime s ↔ '%' ∉ s.toList := by
  constructor
  · intro h hs
    obtain ⟨time, htime⟩ := htime
    exact not_escaped_of_mem htime hs h
  · exact escaped_of_not_mem strftime

theorem escaped_iff_discount :
    Escaped (fun _ _ ↦ "1970-01-01 00:00:00") "100%" ↔ '%' ∉ "100%".toList :=
  escaped_iff _ ⟨0, '1', by decide, by decide⟩ _

/-- A percent sign at the end is rejected, and `%%m` is a percent sign and the
message. -/
theorem not_escaped :
    ¬ Escaped (fun _ _ ↦ "1970-01-01 00:00:00") "%" ∧
      ¬ Escaped (fun _ _ ↦ "1970-01-01 00:00:00") "%m" := by
  constructor
  · rintro ⟨hok, _⟩
    revert hok
    decide
  · rintro ⟨_, hformat⟩
    have h := hformat .INFO ⟨"main.cc", 7, 0, 1, 0, 0, "hello", "root", .INFO, "main"⟩
    revert h
    decide

/-! ## Arguments -/

/-- The argument of a directive, and the text behind it, as the formatter should
take them. -/
def ArgumentParsed (c : Char) (a t : List Char) : Prop :=
  let formatter := LogFormatter.new (String.ofList ('%' :: c :: '{' :: (a ++ '}' :: t)))
  formatter.isError = false ∧ ∃ make, ([c], make) ∈ sFormatItem ∧
    formatter.items = make (String.ofList a) ::
      if t = [] then [] else [.StringFormatItem (String.ofList t)]

/-- The braces are looked up with the letter. -/
theorem parse_brace (c : Char) (p : List Char) : Piece.parse ('%' :: c :: '{' :: p) = none := by
  have hrun : ('{' :: p).takeWhile isRun ≠ [] := by
    rw [List.takeWhile_cons_of_pos (by decide)]
    exact List.cons_ne_nil _ _
  by_cases hc : c = '%'
  · subst hc
    rw [Piece.parse_percent, Piece.parse_bad (by rw [List.head?_cons]; decide), Option.map_none]
    intro d hd h
    obtain ⟨q, hq, _⟩ := (Piece.takeWhile_eq_letter hd).mp h
    rw [List.cons.injEq] at hq
    rw [← hq.1] at hd
    revert hd
    decide
  · rw [Piece.parse, if_neg (not_not.mpr rfl), if_neg hc, if_neg fun h ↦ hrun h.2]

/-- **No directive takes an argument.**  Whatever stands in the braces, the pattern
is rejected. -/
theorem not_argumentParsed (c : Char) (a t : List Char) : ¬ ArgumentParsed c a t := by
  rintro ⟨hok, _⟩
  have hparse := parse_brace c (a ++ '}' :: t)
  rw [LogFormatter.isError_of_parse_none (by rwa [String.toList_ofList])] at hok
  cases hok

theorem not_argumentParsed_time : ¬ ArgumentParsed 'd' "%Y-%m-%d %H:%M:%S".toList [] := by
  rintro ⟨hok, _⟩
  revert hok
  decide

end Sylar.Log
