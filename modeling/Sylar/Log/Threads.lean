import Sylar.Foundation.Sections
import Sylar.Log.Objects

/-!
# One appender and many threads

The mutex of an appender is held while a line is formatted and written, and wherever
the formatter is read or replaced.  A line goes to `std::cout` one character after the
other, and what other threads do in the meantime comes in between.

None of it shows: the text that has been written is made of whole lines, each formatted
with the formatter that was in force when its call ended, and of the beginning of at
most one more.  The lock is one of the appender, though, not of the stream, so this says
nothing about two appenders that write to the same one.
-/

namespace Sylar.Log

open Foundation

/-- A `StdoutLogAppender`, with the text that it has written. -/
structure StdoutLogAppender extends LogAppender where
  out : List Char := []

namespace StdoutLogAppender

/-- The blocks under `m_mutex` of the appender. -/
inductive Block
  /-- The block of `StdoutLogAppender::log`, for an event whose level is high enough. -/
  | log (level : Level) (event : LogEvent)
  /-- `LogAppender::setFormatter`. -/
  | setFormatter (val : Option LogFormatter)
  /-- `LogAppender::getFormmater`. -/
  | getFormmater
  /-- The block in `Logger::addAppender`, where the logger has the formatter `val`. -/
  | addAppender (val : Option LogFormatter)
  /-- The block in `Logger::setFormatter`. -/
  | follow (val : Option LogFormatter)
  /-- `StdoutLogAppender::toYamlString`, up to the members it reads. -/
  | toYamlString

/-- What a block leaves its function with. -/
inductive Result
  | wrote (line : String)
  | formatter (f : Option LogFormatter)
  | members (level : Level) (pattern : Option String)
  | none
  /-- `m_formatter` is dereferenced while it is null. -/
  | fault (f : Fault)

/-! ## The blocks, access by access -/

variable (strftime : String → Nat → String)

/-- The characters of a line go to `std::cout`. -/
def put : List Char → Section StdoutLogAppender Unit
  | [] => pure ()
  | c :: line => do
      let _ ← .write fun a ↦ { a with out := a.out ++ [c] }
      put line

/-- `std::cout << m_formatter->format(logger, level, event)`. -/
def logSection (level : Level) (event : LogEvent) : Section StdoutLogAppender Result := do
  match ← .read fun a ↦ a.formatter with
  | .none => return .fault .nullFormatter
  | some f =>
      put (f.format strftime level event).toList
      return .wrote (f.format strftime level event)

/-- The accesses of each block. -/
def body : Block → Section StdoutLogAppender Result
  | .log level event => logSection strftime level event
  | .setFormatter val => do
      let _ ← .write fun a ↦ { a with formatter := val }
      let m_formatter ← .read fun a ↦ a.formatter
      let _ ← .write fun a ↦ { a with hasFormatter := m_formatter.isSome }
      return .none
  | .getFormmater => do
      let m_formatter ← .read fun a ↦ a.formatter
      return .formatter m_formatter
  | .addAppender val => do
      let _ ← .write fun a ↦ { a with formatter := val }
      return .none
  | .follow val => do
      let m_hasFormatter ← .read fun a ↦ a.hasFormatter
      if m_hasFormatter then return .none
      else
        let _ ← .write fun a ↦ { a with formatter := val }
        return .none
  | .toYamlString => do
      let m_level ← .read fun a ↦ a.level
      let m_hasFormatter ← .read fun a ↦ a.hasFormatter
      let m_formatter ← .read fun a ↦ a.formatter
      return .members m_level
        (if m_hasFormatter then m_formatter.map LogFormatter.pattern else .none)

/-! ## The blocks at once -/

/-- What a block does. -/
def perform (a : StdoutLogAppender) : Block → Result × StdoutLogAppender
  | .log level event =>
      match a.formatter with
      | .none => (.fault .nullFormatter, a)
      | some f =>
          (.wrote (f.format strftime level event),
            { a with out := a.out ++ (f.format strftime level event).toList })
  | .setFormatter val => (.none, { a with formatter := val, hasFormatter := val.isSome })
  | .getFormmater => (.formatter a.formatter, a)
  | .addAppender val => (.none, { a with formatter := val })
  | .follow val => (.none, { a with toLogAppender := LoggerManager.follow val a.toLogAppender })
  | .toYamlString =>
      (.members a.level (if a.hasFormatter then a.formatter.map LogFormatter.pattern else .none), a)

variable {strftime} {a a' : StdoutLogAppender}

theorem run_put (line : List Char) : (put line).run a = ((), { a with out := a.out ++ line }) := by
  induction line generalizing a with
  | nil => simp [put]
  | cons c line ih =>
      rw [put, Section.run_bind, Section.run_write, ih]
      simp

/-- The accesses of a block, without interruption, are the block. -/
theorem run_body (b : Block) : (body strftime b).run a = a.perform strftime b := by
  cases b with
  | log level event =>
      cases hf : a.formatter with
      | none => simp [body, logSection, perform, hf]
      | some f =>
          simp only [body, logSection, perform, Section.run_bind, Section.run_read, hf, run_put]
          rfl
  | setFormatter val => rfl
  | getFormmater => rfl
  | addAppender val => rfl
  | follow val =>
      cases hf : a.hasFormatter with
      | true => simp [body, perform, LoggerManager.follow, hf]
      | false => simp [body, perform, LoggerManager.follow, hf]
  | toYamlString => rfl

variable (strftime) in
/-- The appender with its lock, which is a spinlock. -/
def monitor : Monitor StdoutLogAppender Block Result where
  mode _ := .exclusive
  body := body strftime
  shared := fun _ h ↦ nomatch h

/-! ## Whole lines -/

/-- The second text begins with the first. -/
def Longer (a a' : StdoutLogAppender) : Prop := a.out <+: a'.out

instance : Std.Refl Longer := ⟨fun _ ↦ List.prefix_refl _⟩

instance : Trans Longer Longer Longer := ⟨List.IsPrefix.trans⟩

/-- Other members are changed. -/
theorem grows_keeps {g : StdoutLogAppender → StdoutLogAppender} (h : ∀ a, (g a).out = a.out) :
    (Section.write g : Section StdoutLogAppender PUnit).Grows Longer :=
  Section.grows_write fun a ↦ by
    rw [Longer, h a]

theorem put_grows (line : List Char) : (put line).Grows Longer := by
  induction line with
  | nil => exact Section.grows_pure
  | cons c line ih =>
      have hput : ∀ a : StdoutLogAppender, Longer a { a with out := a.out ++ [c] } :=
        fun a ↦ List.prefix_append a.out [c]
      exact (Section.grows_write hput).bind fun _ ↦ ih

/-- Nothing that has been written goes away. -/
theorem body_grows (b : Block) : (body strftime b).Grows Longer := by
  cases b with
  | log level event =>
      refine Section.grows_read.bind fun f ↦ ?_
      cases f with
      | none => exact Section.grows_pure
      | some f => exact (put_grows _).bind fun _ ↦ Section.grows_pure
  | setFormatter val =>
      refine (grows_keeps fun _ ↦ rfl).bind fun _ ↦ ?_
      refine Section.grows_read.bind fun _ ↦ ?_
      exact (grows_keeps fun _ ↦ rfl).bind fun _ ↦ Section.grows_pure
  | getFormmater => exact Section.grows_read.bind fun _ ↦ Section.grows_pure
  | addAppender val =>
      exact (grows_keeps fun _ ↦ rfl).bind fun _ ↦ Section.grows_pure
  | follow val =>
      refine Section.grows_read.bind fun b ↦ ?_
      cases b with
      | true => exact Section.grows_pure
      | false =>
          exact (grows_keeps fun _ ↦ rfl).bind fun _ ↦ Section.grows_pure
  | toYamlString =>
      refine Section.grows_read.bind fun _ ↦ Section.grows_read.bind fun _ ↦ ?_
      exact Section.grows_read.bind fun _ ↦ Section.grows_pure

section Threads

variable {U : Type} {tr : List (U × Monitor.Act Block Result)}
variable {s : Monitor.State U StdoutLogAppender Block Result}

variable (strftime) in
/-- One block after the other, each in some thread. -/
def Performs (a : StdoutLogAppender) (l : U × Block × Result) (a' : StdoutLogAppender) : Prop :=
  a.perform strftime l.2.1 = (l.2.2, a')

/-- The line that a block has written. -/
def Result.line : Result → List Char
  | wrote line => line.toList
  | _ => []

/-- The lines of some blocks. -/
def written (ls : List (U × Block × Result)) : List Char := ls.flatMap fun l ↦ l.2.2.line

/-- A block writes its line. -/
theorem perform_out {b : Block} {r : Result} (h : a.perform strftime b = (r, a')) :
    a'.out = a.out ++ r.line := by
  cases b with
  | log level event =>
      cases hf : a.formatter with
      | none =>
          simp only [perform, hf] at h
          cases h
          simp [Result.line]
      | some f =>
          simp only [perform, hf] at h
          cases h
          rfl
  | follow val =>
      cases h
      simp [Result.line]
  | setFormatter val | getFormmater | addAppender val | toYamlString =>
      cases h
      simp [Result.line]

/-- What has been written is the lines of the blocks, in order. -/
theorem out_of_run {ls : List (U × Block × Result)} (h : Run (Performs strftime) a ls a') :
    a'.out = a.out ++ written ls := by
  induction h with
  | nil a => simp [written]
  | cons hs _ ih => rw [ih, perform_out hs, written, written, List.flatMap_cons, List.append_assoc]

/-- **Lines stay whole.**  In every interleaving of the characters that any threads
write and of their changes of the formatter, the text is the lines of the calls that
have ended, one after the other in the order of their ends and each formatted with the
formatter that the blocks before it have left, and the beginning of the line of the one
thread, if any, that is writing. -/
theorem lines_whole [DecidableEq U]
    (h : Run (monitor strftime).Step (Monitor.start U a) tr s) :
    ∃ m, Run (Performs strftime) a (Monitor.returns tr) m ∧
      m.out = a.out ++ written (Monitor.returns tr) ∧
      ((∀ u, s.own u = none) → s.shared.out = m.out) ∧
      ∀ u x, s.own u = some x → (∀ v, v ≠ u → s.own v = none) ∧
        ∃ rest, s.shared.out = m.out ++ rest ∧ rest <+: (m.perform strftime x.op).1.line := by
  obtain ⟨m, hr, hlin, hle, hrest⟩ := Monitor.between body_grows h
  have hrun : Run (Performs strftime) a (Monitor.returns tr) m :=
    hr.mono fun a l a' hc ↦ (run_body _).symm.trans hc
  refine ⟨m, hrun, out_of_run hrun, fun hnone ↦ ?_, fun u x hx ↦ ⟨fun v hv ↦ ?_, ?_⟩⟩
  · rw [hlin.settled fun u x hx ↦ absurd ((hnone u).symm.trans hx) nofun]
  · cases hy : s.own v with
    | none => rfl
    | some y => exact absurd (hlin.alone v u y x hy hx rfl) hv
  · obtain ⟨rest, hout⟩ := hle
    refine ⟨rest, hout.symm, ?_⟩
    have hend : x.rest.run s.shared = m.perform strftime x.op :=
      (hlin.resumes u x hx).trans (run_body _)
    have hlonger : s.shared.out <+: (m.perform strftime x.op).2.out := hend ▸ hrest u x hx
    have hline : (m.perform strftime x.op).2.out = m.out ++ (m.perform strftime x.op).1.line :=
      perform_out rfl
    rw [hline, ← hout] at hlonger
    exact (List.prefix_append_right_inj _).mp hlonger

end Threads

/-- An appender for messages. -/
def messages : StdoutLogAppender :=
  { kind := .StdoutLogAppender, level := .DEBUG, hasFormatter := true
    formatter := some ⟨"%m", [.MessageFormatItem], false⟩ }

def greeting : LogEvent :=
  { file := "main.cc", line := 1, elapse := 0, threadID := 1, fiberID := 0, time := 0,
    content := "ok", loggerName := "root", level := .INFO, threadName := "main" }

/-- One thread writes its line, and another the beginning of its own. -/
def begun : List (Bool × Monitor.Act Block Result) :=
  [(true, .enter (.log .INFO greeting)), (true, .access), (true, .access), (true, .access),
    (true, .leave (.log .INFO greeting) (.wrote "ok")), (false, .enter (.log .INFO greeting)),
    (false, .access), (false, .access)]

theorem begun_run : ∃ s,
    Run (monitor fun f _ ↦ f).Step (Monitor.start Bool messages) begun s ∧
      s.shared.out = "oko".toList := by
  refine ⟨_, .cons (.enter rfl nofun) <| .cons (.access rfl) <| .cons (.access rfl) <|
    .cons (.access rfl) <| .cons (.leave rfl) <| .cons (.enter rfl ?_) <| .cons (.access rfl) <|
    .cons (.access rfl) <| .nil _, rfl⟩
  intro u x hx
  cases u <;> cases hx

theorem lines_whole_begun : ∃ m s, m.out = "ok".toList ∧ s.shared.out = "oko".toList ∧
    Run (Performs fun f _ ↦ f) messages (Monitor.returns begun) m ∧
      Run (monitor fun f _ ↦ f).Step (Monitor.start Bool messages) begun s := by
  obtain ⟨s, hs, hout⟩ := begun_run
  obtain ⟨m, hm, hmout, -⟩ := lines_whole hs
  exact ⟨m, s, hmout.trans rfl, hout, hm, hs⟩

end StdoutLogAppender

end Sylar.Log
