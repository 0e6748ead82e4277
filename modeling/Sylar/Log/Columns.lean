import Sylar.Foundation.Separated
import Sylar.Log.Escapes
import Sylar.Log.Logger

/-!
# Reading a log

A line in the default format has its fields in columns with tabs between them.  Where the
fields have no tabs of their own, and the texts no newlines, nothing is lost: from the text
of a log the lines can be read back, and from each line the fields.

The date is what `strftime` has made of the time, and the level is its name.
-/

namespace Sylar.Log

open Foundation Foundation.Separated

/-- What a line in the default format shows. -/
structure Shown where
  date : String
  threadID : Nat
  threadName : String
  fiberID : Nat
  level : String
  loggerName : String
  file : String
  line : Int
  content : String
deriving DecidableEq, Repr

/-- What is shown of an event. -/
def LogEvent.shown (strftime : String → Nat → String) (level : Level) (event : LogEvent) : Shown :=
  { date := strftime defaultTime event.time, threadID := event.threadID,
    threadName := event.threadName, fiberID := event.fiberID, level := level.ToString,
    loggerName := event.loggerName, file := event.file, line := event.line,
    content := event.content }

/-- Neither a tab nor a newline. -/
def Plain (text : String) : Prop := '\t' ∉ text.toList ∧ '\n' ∉ text.toList

/-- The texts of an event keep to their columns, and the message to its line. -/
structure LogEvent.Legible (strftime : String → Nat → String) (event : LogEvent) : Prop where
  date : Plain (strftime defaultTime event.time)
  threadName : Plain event.threadName
  loggerName : Plain event.loggerName
  file : Plain event.file
  content : '\n' ∉ event.content.toList

namespace Shown

variable {s s' : Shown}

/-- The columns before the message. -/
def columns (s : Shown) : List (List Char) :=
  [s.date.toList, (toString s.threadID).toList, s.threadName.toList, (toString s.fiberID).toList,
    '[' :: s.level.toList ++ [']'], '[' :: s.loggerName.toList ++ [']'],
    s.file.toList ++ ':' :: (toString s.line).toList]

/-- The line up to its newline. -/
def text (s : Shown) : List Char := terminated '\t' s.columns ++ s.content.toList

end Shown

/-! ## Numbers -/

theorem digits_of_mem {n : Nat} {c : Char} (h : c ∈ (toString n).toList) : c.isDigit = true := by
  rw [Nat.toString_eq_repr, Nat.toList_repr] at h
  exact Nat.isDigit_of_mem_toDigits (by omega) (by omega) h

theorem natText_inj {m n : Nat} : (toString m).toList = (toString n).toList ↔ m = n := by
  refine ⟨fun h ↦ ?_, fun h ↦ by rw [h]⟩
  rw [Nat.toString_eq_repr, Nat.toString_eq_repr, Nat.toList_repr, Nat.toList_repr] at h
  rw [← Nat.ofDigitChars_ten_toDigits (n := m), h, Nat.ofDigitChars_ten_toDigits]

theorem intText_neg (n : Nat) :
    (toString (Int.negSucc n)).toList = '-' :: (toString (n + 1)).toList := by
  show ("-" ++ (n + 1).repr).toList = _
  rw [String.toList_append]
  rfl

theorem intText_mem {i : Int} {c : Char} (h : c ∈ (toString i).toList) :
    c = '-' ∨ c.isDigit = true := by
  cases i with
  | ofNat n => exact .inr (digits_of_mem h)
  | negSucc n =>
      rw [intText_neg, List.mem_cons] at h
      exact h.imp_right digits_of_mem

theorem intText_inj {i j : Int} : (toString i).toList = (toString j).toList ↔ i = j := by
  refine ⟨fun h ↦ ?_, fun h ↦ by rw [h]⟩
  have hsign : ∀ m n : Nat, '-' :: (toString (m + 1)).toList ≠ (toString n).toList := by
    intro m n heq
    have hmem : '-' ∈ (toString n).toList := heq ▸ List.mem_cons_self
    exact absurd (digits_of_mem hmem) (by decide)
  cases i with
  | ofNat m =>
      cases j with
      | ofNat n => exact congrArg Int.ofNat (natText_inj.mp h)
      | negSucc n => exact absurd ((intText_neg n).symm.trans h.symm) (hsign n m)
  | negSucc m =>
      cases j with
      | ofNat n => exact absurd ((intText_neg m).symm.trans h) (hsign m n)
      | negSucc n =>
          rw [intText_neg, intText_neg, List.cons.injEq, natText_inj] at h
          rw [Nat.succ.inj h.2]

/-! ## The columns -/

namespace Shown

variable {s s' : Shown} {strftime : String → Nat → String} {level level' : Level}
variable {event event' : LogEvent}

/-- Numbers and the names of levels are plain, and so is what is around a text. -/
theorem columns_plain (h : event.Legible strftime) :
    ∀ c ∈ (event.shown strftime level).columns, '\t' ∉ c ∧ '\n' ∉ c := by
  have hlevel : Plain level.ToString := by
    unfold Level.ToString
    split
    all_goals exact ⟨by decide, by decide⟩
  have hnat : ∀ n : Nat, Plain (toString n) := fun n ↦
    ⟨fun hm ↦ absurd (digits_of_mem hm) (by decide),
      fun hm ↦ absurd (digits_of_mem hm) (by decide)⟩
  have hint : ∀ i : Int, Plain (toString i) := fun i ↦
    ⟨fun hm ↦ by rcases intText_mem hm with hm | hm <;> exact absurd hm (by decide),
      fun hm ↦ by rcases intText_mem hm with hm | hm <;> exact absurd hm (by decide)⟩
  have hbracket : ∀ {t : String}, Plain t →
      '\t' ∉ '[' :: t.toList ++ [']'] ∧ '\n' ∉ '[' :: t.toList ++ [']'] := by
    intro t ht
    simp [ht.1, ht.2]
  have hplace : '\t' ∉ event.file.toList ++ ':' :: (toString event.line).toList ∧
      '\n' ∉ event.file.toList ++ ':' :: (toString event.line).toList := by
    simp only [List.mem_append, List.mem_cons, not_or]
    exact ⟨⟨h.file.1, by decide, (hint event.line).1⟩, ⟨h.file.2, by decide, (hint event.line).2⟩⟩
  simp only [columns, LogEvent.shown, List.forall_mem_cons]
  exact ⟨h.date, hnat event.threadID, h.threadName, hnat event.fiberID, hbracket hlevel,
    hbracket h.loggerName, hplace, fun _ hm ↦ nomatch hm⟩

/-- The columns and the message tell all that is shown. -/
theorem columns_inj (h : s.columns = s'.columns) (hc : s.content = s'.content) : s = s' := by
  obtain ⟨date, tid, tname, fid, level, name, file, line, content⟩ := s
  obtain ⟨date', tid', tname', fid', level', name', file', line', content'⟩ := s'
  simp only [columns, List.cons.injEq, List.cons_append, true_and, and_true] at h
  obtain ⟨hdate, htid, htname, hfid, hlevel, hname, hplace⟩ := h
  have hcolon : ∀ i : Int, ':' ∉ (toString i).toList := fun i hm ↦ by
    rcases intText_mem hm with hm | hm <;> exact absurd hm (by decide)
  -- the file may have colons, the number of the line has none
  obtain ⟨hfile, hline⟩ := (last_inj (hcolon line) (hcolon line')).mp hplace
  obtain rfl := String.toList_inj.mp hdate
  obtain rfl := natText_inj.mp htid
  obtain rfl := String.toList_inj.mp htname
  obtain rfl := natText_inj.mp hfid
  obtain rfl := String.toList_inj.mp (List.append_cancel_right hlevel)
  obtain rfl := String.toList_inj.mp (List.append_cancel_right hname)
  obtain rfl := String.toList_inj.mp hfile
  obtain rfl := intText_inj.mp hline
  obtain rfl := hc
  rfl

/-- There is one newline in a line, at its end. -/
theorem newline_notMem (h : event.Legible strftime) : '\n' ∉ (event.shown strftime level).text := by
  have hcols : ∀ cs : List (List Char), (∀ c ∈ cs, '\n' ∉ c) → '\n' ∉ terminated '\t' cs := by
    intro cs hcs
    induction cs with
    | nil => exact List.not_mem_nil
    | cons c cs ih =>
        rw [List.forall_mem_cons] at hcs
        rw [terminated_cons, List.mem_append, List.mem_cons, not_or, not_or]
        exact ⟨hcs.1, by decide, ih hcs.2⟩
  rw [text, List.mem_append, not_or]
  exact ⟨hcols _ fun c hc ↦ (columns_plain h c hc).2, h.content⟩

theorem text_inj (h : event.Legible strftime) (h' : event'.Legible strftime) :
    (event.shown strftime level).text = (event'.shown strftime level').text ↔
      event.shown strftime level = event'.shown strftime level' := by
  have htab : ∀ c ∈ (event.shown strftime level).columns, '\t' ∉ c := fun c hc ↦
    (columns_plain h c hc).1
  have htab' : ∀ c ∈ (event'.shown strftime level').columns, '\t' ∉ c := fun c hc ↦
    (columns_plain h' c hc).1
  refine ⟨fun htext ↦ ?_, fun heq ↦ by rw [heq]⟩
  rw [text, text, terminated_append_inj htab htab' rfl] at htext
  exact columns_inj htext.1 (String.toList_inj.mp htext.2)

end Shown

/-! ## The default format -/

/-- The pieces of the default format. -/
def defaultPieces : List Piece :=
  [.directive 'd', .directive 'T', .directive 't', .directive 'T', .directive 'N',
    .directive 'T', .directive 'F', .directive 'T', .literal ['['], .directive 'p', .literal [']'],
    .directive 'T', .literal ['['], .directive 'c', .literal [']'], .directive 'T',
    .directive 'f', .literal [':'], .directive 'l', .directive 'T', .directive 'm', .directive 'n']

theorem parse_default : Piece.parse defaultPattern.toList = some defaultPieces := by decide

variable {strftime : String → Nat → String} {level : Level} {event : LogEvent}

/-- A line in the default format is what it shows. -/
theorem format_default : ((LogFormatter.new defaultPattern).format strftime level event).toList =
    (event.shown strftime level).text ++ ['\n'] := by
  rw [(LogFormatter.format_of_parse parse_default).2]
  simp [renderAll, defaultPieces, Piece.render, Piece.item, sFormatItem, FormatItem.format,
    FormatItem.dateTime, Shown.text, Shown.columns, LogEvent.shown, defaultTime]

/-- The text of a log: the lines of some events, each logged at a level. -/
def logText (strftime : String → Nat → String) (xs : List (Level × LogEvent)) : String :=
  String.join (xs.map fun x ↦ (LogFormatter.new defaultPattern).format strftime x.1 x.2)

/-- What the lines show. -/
def logShown (strftime : String → Nat → String) (xs : List (Level × LogEvent)) : List Shown :=
  xs.map fun x ↦ x.2.shown strftime x.1

theorem logText_eq (xs : List (Level × LogEvent)) : (logText strftime xs).toList =
    terminated '\n' ((logShown strftime xs).map Shown.text) := by
  induction xs with
  | nil => rfl
  | cons x xs ih =>
      have hcons : logText strftime (x :: xs) =
          (LogFormatter.new defaultPattern).format strftime x.1 x.2 ++ logText strftime xs :=
        String.join_cons
      rw [hcons, String.toList_append, format_default, ih]
      show _ = terminated '\n' (_ :: _)
      rw [terminated_cons, List.append_assoc]
      rfl

/-- **A log can be read back.**  Where the texts of the events are plain, logs in the default
format read the same exactly if they have as many lines, which show the same. -/
theorem default_log_readable {xs ys : List (Level × LogEvent)}
    (hx : ∀ x ∈ xs, x.2.Legible strftime) (hy : ∀ y ∈ ys, y.2.Legible strftime) :
    logText strftime xs = logText strftime ys ↔ logShown strftime xs = logShown strftime ys := by
  have hline : ∀ {zs : List (Level × LogEvent)}, (∀ z ∈ zs, z.2.Legible strftime) →
      ∀ t ∈ (logShown strftime zs).map Shown.text, '\n' ∉ t := by
    intro zs hz t ht
    obtain ⟨s, hs, rfl⟩ := List.mem_map.mp ht
    obtain ⟨z, hmem, rfl⟩ := List.mem_map.mp hs
    exact Shown.newline_notMem (hz z hmem)
  rw [← String.toList_inj, logText_eq, logText_eq, terminated_inj (hline hx) (hline hy)]
  refine ⟨fun h ↦ ?_, fun h ↦ by rw [h]⟩
  induction xs generalizing ys with
  | nil => exact (List.map_eq_nil_iff.mp h.symm).symm
  | cons x xs ih =>
      cases ys with
      | nil => cases h
      | cons y ys =>
          obtain ⟨hhead, htail⟩ := List.cons.inj h
          rw [List.forall_mem_cons] at hx hy
          have hshown := (Shown.text_inj hx.1 hy.1).mp hhead
          exact congrArg₂ List.cons hshown (ih hx.2 hy.2 htail)

/-- A message of some fiber. -/
def messageOf (fiberID : Nat) : Level × LogEvent :=
  (.INFO, ⟨"main.cc", 7, 0, 1, fiberID, 0, "step", "root", .INFO, "main"⟩)

theorem default_log_readable_twoFibers : logText (fun _ _ ↦ "now") [messageOf 1, messageOf 2] ≠
    logText (fun _ _ ↦ "now") [messageOf 2, messageOf 1] := by
  have hnow : Plain "now" := ⟨by decide, by decide⟩
  have hmain : Plain "main" := ⟨by decide, by decide⟩
  have hroot : Plain "root" := ⟨by decide, by decide⟩
  have hfile : Plain "main.cc" := ⟨by decide, by decide⟩
  have hstep : Plain "step" := ⟨by decide, by decide⟩
  have hplain : ∀ n, (messageOf n).2.Legible fun _ _ ↦ "now" := fun _ ↦
    ⟨hnow, hmain, hroot, hfile, hstep.2⟩
  have hall : ∀ a b, ∀ x ∈ [messageOf a, messageOf b], x.2.Legible fun _ _ ↦ "now" := by
    intro a b x hx
    rcases List.mem_pair.mp hx with rfl | rfl
    · exact hplain a
    · exact hplain b
  exact (default_log_readable (hall 1 2) (hall 2 1)).not.mpr (by decide)

end Sylar.Log
