import Sylar.Foundation.Sections
import Sylar.Log.FileAppender
import Sylar.Log.Objects

/-!
# What reaches the file

The stream of a file appender keeps some of the text in a buffer, and hands it to the
operating system when it sees fit, wherever in a line that may be.  `reopen` closes the
stream, and with this the buffer is written.

Any threads log through one appender, open its file again and change its formatter, character
by character.  The file is always a beginning of whole lines in order, and a line is in it
for good once a `reopen` after it has ended.  As `log` opens the file again in each new
second, no line is kept back for longer than until the first event of a later second.

Here the operating system does all that it is asked for.  What becomes of the stream when it
does not is said in `FileAppender.lean`.
-/

namespace Sylar.Log

open Foundation

/-- A `FileLogAppender` with the buffer of its stream, and what has been written to the file. -/
structure LogFile extends LogAppender where
  filestream : Ofstream := {}
  buffer : List Char := []
  file : List Char := []
  /-- The number of characters the stream has been given. -/
  pushed : Nat := 0

namespace LogFile

/-- The blocks under `m_mutex` of the appender. -/
inductive Block
  /-- The block of `FileLogAppender::log`, for an event whose level is high enough. -/
  | log (level : Level) (event : LogEvent)
  | reopen
  /-- `LogAppender::setFormatter`. -/
  | setFormatter (val : Option LogFormatter)
  /-- The block in `Logger::addAppender`, where the logger has the formatter `val`. -/
  | addAppender (val : Option LogFormatter)
  /-- The block in `Logger::setFormatter`. -/
  | follow (val : Option LogFormatter)

/-- What a block leaves its function with. -/
inductive Result
  | wrote (line : String)
  | reopened (failed : Bool)
  | none
  /-- `m_formatter` is dereferenced while it is null. -/
  | fault (f : Fault)

/-- The line that a block has written. -/
def Result.line : Result → List Char
  | wrote line => line.toList
  | _ => []

/-- All that has been written, whether it is in the file or still in the buffer. -/
def text (a : LogFile) : List Char := a.file ++ a.buffer

/-! ## The blocks, access by access -/

variable (strftime : String → Nat → String) (drain : Nat → List Char → Nat)

/-- A character goes to the buffer, of which the stream then writes as much as it likes, and
another time as much as it likes then. -/
def push (c : Char) (a : LogFile) : LogFile :=
  let buffer := a.buffer ++ [c]
  let n := drain a.pushed buffer
  { a with file := a.file ++ buffer.take n, buffer := buffer.drop n, pushed := a.pushed + 1 }

/-- The characters of a line. -/
def put : List Char → Section LogFile Unit
  | [] => pure ()
  | c :: line => do
      let _ ← .write (push drain c)
      put line

/-- `close()`, which writes what is in the buffer. -/
def close (a : LogFile) : LogFile :=
  { a with filestream := a.filestream.close true, file := a.text, buffer := [] }

/-- `m_filestream << m_formatter->format(logger, level, event)`. -/
def logSection (level : Level) (event : LogEvent) : Section LogFile Result := do
  match ← .read fun a ↦ a.formatter with
  | .none => return .fault .nullFormatter
  | some f =>
      let written ← .read fun a ↦ (a.filestream.write true).1
      let _ ← .write fun a ↦ { a with filestream := (a.filestream.write true).2 }
      if written then
        put drain (f.format strftime level event).toList
        return .wrote (f.format strftime level event)
      else return .none

/-- `reopen`. -/
def reopenSection : Section LogFile Result := do
  let m_filestream ← .read fun a ↦ !a.filestream.fail
  if m_filestream then
    let _ ← .write close
  let _ ← .write fun a ↦ { a with filestream := a.filestream.openFile true }
  return .reopened (← .read fun a ↦ a.filestream.fail)

/-- The accesses of each block. -/
def body : Block → Section LogFile Result
  | .log level event => logSection strftime drain level event
  | .reopen => reopenSection
  | .setFormatter val => do
      let _ ← .write fun a ↦ { a with formatter := val }
      let m_formatter ← .read fun a ↦ a.formatter
      let _ ← .write fun a ↦ { a with hasFormatter := m_formatter.isSome }
      return .none
  | .addAppender val => do
      let _ ← .write fun a ↦ { a with formatter := val }
      return .none
  | .follow val => do
      let m_hasFormatter ← .read fun a ↦ a.hasFormatter
      if m_hasFormatter then return .none
      else
        let _ ← .write fun a ↦ { a with formatter := val }
        return .none

/-- The appender with its lock, which is a spinlock. -/
def monitor : Monitor LogFile Block Result where
  mode _ := .exclusive
  body := body strftime drain
  shared := fun _ h ↦ nomatch h

/-! ## The blocks at once -/

/-- A block that finds the stream good: what it writes, and what it leaves. -/
structure Performs (a : LogFile) (b : Block) (r : Result) (a' : LogFile) : Prop where
  good : a'.filestream.Good
  /-- A line is formatted with the formatter that is in force. -/
  line : ∀ level event, b = .log level event →
    r = a.formatter.elim (.fault .nullFormatter) fun f ↦ .wrote (f.format strftime level event)
  appender : a'.toLogAppender = match b with
    | .log _ _ | .reopen => a.toLogAppender
    | .setFormatter val => { a.toLogAppender with formatter := val, hasFormatter := val.isSome }
    | .addAppender val => { a.toLogAppender with formatter := val }
    | .follow val => LoggerManager.follow val a.toLogAppender
  text : a'.text = a.text ++ r.line
  /-- Closing the stream leaves nothing in the buffer. -/
  reopened : b = .reopen → a'.file = a'.text

variable {strftime drain} {a a' : LogFile} {line : List Char} {b : Block} {r : Result}

@[simp] theorem push_text {c : Char} : (push drain c a).text = a.text ++ [c] := by
  rw [text, push, List.append_assoc, List.take_append_drop, text, List.append_assoc]

variable (drain) in
/-- The characters go to the buffer and the file, and nothing else changes. -/
theorem run_put (line : List Char) (a : LogFile) : ∃ buffer file pushed,
    (put drain line).run a = ((), { a with buffer, file, pushed }) ∧
      file ++ buffer = a.text ++ line := by
  induction line generalizing a with
  | nil => exact ⟨a.buffer, a.file, a.pushed, rfl, (List.append_nil _).symm⟩
  | cons c line ih =>
      obtain ⟨buffer, file, pushed, hrun, htext⟩ := ih (push drain c a)
      refine ⟨buffer, file, pushed, ?_, ?_⟩
      · rw [put, Section.run_bind, Section.run_write, hrun]
        rfl
      · rw [htext, push_text, List.append_assoc, List.singleton_append]

theorem performs_log (hgood : a.filestream.Good) (level : Level) (event : LogEvent) :
    Performs strftime a (.log level event) ((logSection strftime drain level event).run a).1
      ((logSection strftime drain level event).run a).2 := by
  cases hf : a.formatter with
  | none =>
      simp only [logSection, Section.run_bind, Section.run_read, hf, Section.run_pure]
      refine ⟨hgood, ?_, rfl, (List.append_nil _).symm, nofun⟩
      rintro _ _ ⟨⟩
      rw [hf]
      rfl
  | some f =>
      obtain ⟨buffer, file, pushed, hrun, htext⟩ := run_put drain
        (f.format strftime level event).toList a
      simp only [logSection, Section.run_bind, Section.run_read, Section.run_write, hf,
        hgood.write, if_true, hrun, Section.run_pure]
      refine ⟨hgood, ?_, rfl, htext, nofun⟩
      rintro _ _ ⟨⟩
      rw [hf]
      rfl

theorem performs_reopen (hgood : a.filestream.Good) :
    Performs strftime a .reopen (reopenSection.run a).1 (reopenSection.run a).2 := by
  simp only [reopenSection, Section.run_bind, Section.run_read, Section.run_write, hgood.2,
    Bool.not_false, if_true, Section.run_pure]
  refine ⟨Ofstream.openFile_good Ofstream.close_is_open, nofun, rfl, ?_, fun _ ↦ ?_⟩
  · rw [text, close]
    rfl
  · exact (List.append_nil _).symm

/-- What a block does that is not interrupted. -/
theorem performs_of_run (hgood : a.filestream.Good) (h : (body strftime drain b).run a = (r, a')) :
    Performs strftime a b r a' := by
  obtain ⟨rfl, rfl⟩ := Prod.mk.inj h.symm
  cases b with
  | log level event => exact performs_log hgood level event
  | reopen => exact performs_reopen hgood
  | setFormatter val | addAppender val =>
      exact ⟨hgood, nofun, rfl, (List.append_nil _).symm, nofun⟩
  | follow val =>
      cases hf : a.hasFormatter with
      | true =>
          simp only [body, Section.run_bind, Section.run_read, hf, if_true, Section.run_pure]
          refine ⟨hgood, nofun, ?_, (List.append_nil _).symm, nofun⟩
          show a.toLogAppender = LoggerManager.follow val a.toLogAppender
          rw [LoggerManager.follow, if_pos hf]
      | false =>
          simp only [body, Section.run_bind, Section.run_read, Section.run_write, hf,
            Bool.false_eq_true, if_false, Section.run_pure]
          refine ⟨hgood, nofun, ?_, (List.append_nil _).symm, nofun⟩
          show _ = LoggerManager.follow val a.toLogAppender
          rw [LoggerManager.follow, if_neg (ne_true_of_eq_false hf)]
          exact congrArg (LogAppender.mk a.kind a.level val) hf.symm

/-! ## Nothing goes away -/

/-- The texts, and the files, begin alike. -/
structure Longer (a a' : LogFile) : Prop where
  text : a.text <+: a'.text
  file : a.file <+: a'.file

instance : Std.Refl Longer := ⟨fun _ ↦ ⟨List.prefix_refl _, List.prefix_refl _⟩⟩

instance : Trans Longer Longer Longer :=
  ⟨fun h h' ↦ ⟨h.text.trans h'.text, h.file.trans h'.file⟩⟩

/-- Other members are changed. -/
theorem grows_keeps {α : Type} {g : LogFile → LogFile} {x : PUnit → Section LogFile α}
    (hx : ∀ u, (x u).Grows Longer) (h : ∀ a, (g a).file = a.file ∧ (g a).buffer = a.buffer) :
    (Section.write g >>= x).Grows Longer := by
  refine (Section.grows_write fun a ↦ ?_).bind hx
  obtain ⟨hfile, hbuffer⟩ := h a
  refine ⟨?_, ?_⟩
  · rw [text, text, hfile, hbuffer]
  · rw [hfile]

theorem put_grows (line : List Char) : (put drain line).Grows Longer := by
  induction line with
  | nil => exact Section.grows_pure
  | cons c line ih =>
      have hpush : ∀ a, Longer a (push drain c a) := fun a ↦
        ⟨⟨[c], push_text.symm⟩, List.prefix_append a.file _⟩
      exact (Section.grows_write hpush).bind fun _ ↦ ih

theorem body_grows (b : Block) : (body strftime drain b).Grows Longer := by
  cases b with
  | log level event =>
      refine Section.grows_read.bind fun f ↦ ?_
      cases f with
      | none => exact Section.grows_pure
      | some f =>
          refine Section.grows_read.bind fun written ↦ ?_
          refine grows_keeps (fun _ ↦ ?_) fun _ ↦ ⟨rfl, rfl⟩
          cases written with
          | true => exact (put_grows _).bind fun _ ↦ Section.grows_pure
          | false => exact Section.grows_pure
  | reopen =>
      have hopen : Section.Grows Longer (do
          let _ ← .write fun a : LogFile ↦ { a with filestream := a.filestream.openFile true }
          return Result.reopened (← .read fun a ↦ a.filestream.fail)) :=
        grows_keeps (fun _ ↦ Section.grows_read.bind fun _ ↦ Section.grows_pure)
          fun _ ↦ ⟨rfl, rfl⟩
      have hclose : ∀ a : LogFile, Longer a a.close := fun a ↦
        ⟨⟨[], rfl⟩, List.prefix_append a.file a.buffer⟩
      refine Section.grows_read.bind fun m_filestream ↦ ?_
      cases m_filestream with
      | true => exact (Section.grows_write hclose).bind fun _ ↦ hopen
      | false => exact hopen
  | setFormatter val =>
      refine grows_keeps (fun _ ↦ Section.grows_read.bind fun _ ↦ ?_) fun _ ↦ ⟨rfl, rfl⟩
      exact grows_keeps (fun _ ↦ Section.grows_pure) fun _ ↦ ⟨rfl, rfl⟩
  | addAppender val => exact grows_keeps (fun _ ↦ Section.grows_pure) fun _ ↦ ⟨rfl, rfl⟩
  | follow val =>
      refine Section.grows_read.bind fun b ↦ ?_
      cases b with
      | true => exact Section.grows_pure
      | false => exact grows_keeps (fun _ ↦ Section.grows_pure) fun _ ↦ ⟨rfl, rfl⟩

/-! ## In any interleaving -/

section Threads

variable {U : Type} {tr : List (U × Monitor.Act Block Result)} {ls : List (U × Block × Result)}
variable {s : Monitor.State U LogFile Block Result}

variable (strftime) in
/-- One block after the other, each in some thread. -/
def Performed (a : LogFile) (l : U × Block × Result) (a' : LogFile) : Prop :=
  Performs strftime a l.2.1 l.2.2 a'

/-- The lines of some blocks. -/
def written (ls : List (U × Block × Result)) : List Char := ls.flatMap fun l ↦ l.2.2.line

/-- The blocks find the stream good, one after the other. -/
theorem performed_of_run (hgood : a.filestream.Good)
    (h : Run (monitor strftime drain).Call a ls a') : Run (Performed strftime) a ls a' :=
  h.mono_given (J := fun a ↦ a.filestream.Good)
    (fun _ _ _ hgood hc ↦ (performs_of_run hgood hc).good)
    (fun _ _ _ hgood hc ↦ performs_of_run hgood hc) hgood

theorem text_of_run (h : Run (Performed strftime) a ls a') : a'.text = a.text ++ written ls := by
  induction h with
  | nil a => exact (List.append_nil _).symm
  | cons hs _ ih => rw [ih, hs.text, written, written, List.flatMap_cons, List.append_assoc]

theorem longer_of_run (h : Run (monitor strftime drain).Call a ls a') : Longer a a' := by
  refine h.invariant (I := Longer a) (fun a₁ l a₂ hlonger hc ↦ ?_) (Std.Refl.refl a)
  have hgrows : Longer a₁ ((body strftime drain l.2.1).run a₁).2 := (body_grows _).run_snd
  have hsnd : ((body strftime drain l.2.1).run a₁).2 = a₂ := congrArg Prod.snd hc
  exact Trans.trans hlonger (hsnd ▸ hgrows)

/-- What was written before the file is opened again is in the file. -/
theorem file_of_run (hgood : a.filestream.Good) {u : U} {r : Result}
    {post : List (U × Block × Result)}
    (h : Run (monitor strftime drain).Call a (ls ++ (u, .reopen, r) :: post) a') :
    a.text ++ written ls <+: a'.file := by
  obtain ⟨a₁, a₂, hls, hreopen, hpost⟩ := h.split_cons
  have hrun := performed_of_run hgood hls
  have hgood₁ : a₁.filestream.Good :=
    hrun.invariant (I := fun a ↦ a.filestream.Good) (fun _ _ _ _ hs ↦ hs.good) hgood
  have hbody : (body strftime drain .reopen).run a₁ = (r, a₂) := hreopen
  have hp : Performs strftime a₁ .reopen r a₂ := performs_of_run hgood₁ hbody
  rw [← text_of_run hrun]
  refine List.IsPrefix.trans ?_ (longer_of_run hpost).file
  rw [hp.reopened rfl, hp.text]
  exact List.prefix_append _ _

/-- **Lines reach the file.**  In every interleaving of the characters that any threads
write, of their opening the file again and of their changes of the formatter, and whatever
the stream hands over at any time: the file, and what is still in the buffer, are the lines
of the blocks that have ended, one after the other, and the beginning of the line of the one
thread, if any, that is writing.  What had been written when a `reopen` ended is in the file
ever after. -/
theorem lines_reach_file [DecidableEq U] (hgood : a.filestream.Good)
    (h : Run (monitor strftime drain).Step (Monitor.start U a) tr s) :
    ∃ m rest, Run (Performed strftime) a (Monitor.returns tr) m ∧
      s.shared.file ++ s.shared.buffer = a.text ++ written (Monitor.returns tr) ++ rest ∧
      ((∀ u, s.own u = none) → rest = []) ∧
      (∀ u x, s.own u = some x → (∀ v, v ≠ u → s.own v = none) ∧
        rest <+: ((body strftime drain x.op).run m).1.line) ∧
      ∀ pre u r post, Monitor.returns tr = pre ++ (u, .reopen, r) :: post →
        a.text ++ written pre <+: s.shared.file := by
  obtain ⟨m, hr, hlin, hle, hrest⟩ := Monitor.between body_grows h
  have hrun : Run (Performed strftime) a (Monitor.returns tr) m := performed_of_run hgood hr
  have hgoodm : m.filestream.Good :=
    hrun.invariant (I := fun a ↦ a.filestream.Good) (fun _ _ _ _ hs ↦ hs.good) hgood
  obtain ⟨rest, hout⟩ := hle.text
  refine ⟨m, rest, hrun, ?_, fun hnone ↦ ?_, fun u x hx ↦ ⟨fun v hv ↦ ?_, ?_⟩, ?_⟩
  · rw [← text_of_run hrun]
    exact hout.symm
  · have hsettled : s.shared = m := hlin.settled fun u x hx ↦
      absurd ((hnone u).symm.trans hx) nofun
    rw [hsettled] at hout
    exact List.append_right_eq_self.mp hout
  · cases hy : s.own v with
    | none => rfl
    | some y => exact absurd (hlin.alone v u y x hy hx rfl) hv
  · have hend : x.rest.run s.shared = (body strftime drain x.op).run m := hlin.resumes u x hx
    have hp : Performs strftime m x.op ((body strftime drain x.op).run m).1
        ((body strftime drain x.op).run m).2 := performs_of_run hgoodm rfl
    have hline := hp.text
    have hlonger : s.shared.text <+: ((body strftime drain x.op).run m).2.text :=
      hend ▸ (hrest u x hx).text
    rw [hline, ← hout] at hlonger
    exact (List.prefix_append_right_inj _).mp hlonger
  · intro pre u r post heq
    exact (file_of_run hgood (heq ▸ hr)).trans hle.file

end Threads

/-- An appender for messages, with its file open. -/
def opened : LogFile :=
  { kind := .FileLogAppender "log.txt", level := .DEBUG, hasFormatter := true
    formatter := some ⟨"%m", [.MessageFormatItem], false⟩, filestream := ⟨true, false, false⟩ }

def farewell : LogEvent :=
  { file := "main.cc", line := 1, elapse := 0, threadID := 1, fiberID := 0, time := 0,
    content := "ok", loggerName := "root", level := .INFO, threadName := "main" }

/-- One thread writes a line and another opens the file again, and the first one begins its
next line. -/
def reopening : List (Bool × Monitor.Act Block Result) :=
  [(true, .enter (.log .INFO farewell)), (true, .access), (true, .access), (true, .access),
    (true, .access), (true, .access), (true, .leave (.log .INFO farewell) (.wrote "ok")),
    (false, .enter .reopen), (false, .access), (false, .access), (false, .access),
    (false, .access), (false, .leave .reopen (.reopened false)),
    (true, .enter (.log .INFO farewell)), (true, .access), (true, .access), (true, .access),
    (true, .access)]

theorem reopening_run : ∃ s, Run (monitor (fun f _ ↦ f) fun _ _ ↦ 0).Step
    (Monitor.start Bool opened) reopening s := by
  refine ⟨_, .cons (.enter rfl nofun) <| .cons (.access rfl) <| .cons (.access rfl) <|
    .cons (.access rfl) <| .cons (.access rfl) <| .cons (.access rfl) <| .cons (.leave rfl) <|
    .cons (.enter rfl ?_) <| .cons (.access rfl) <| .cons (.access rfl) <| .cons (.access rfl) <|
    .cons (.access rfl) <| .cons (.leave rfl) <| .cons (.enter rfl ?_) <| .cons (.access rfl) <|
    .cons (.access rfl) <| .cons (.access rfl) <| .cons (.access rfl) <| .nil _⟩
  · intro u x hx
    cases u <;> cases hx
  · intro u x hx
    cases u <;> cases hx

theorem lines_reach_file_reopening : ∃ s, Run (monitor (fun f _ ↦ f) fun _ _ ↦ 0).Step
    (Monitor.start Bool opened) reopening s ∧ ['o', 'k'] <+: s.shared.file := by
  obtain ⟨s, hs⟩ := reopening_run
  obtain ⟨-, -, -, -, -, -, hfile⟩ := lines_reach_file ⟨rfl, rfl⟩ hs
  exact ⟨s, hs, hfile [(true, .log .INFO farewell, .wrote "ok")] _ _ [] rfl⟩

end LogFile

end Sylar.Log
