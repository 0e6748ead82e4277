import Sylar.Foundation.Ofstream
import Sylar.Foundation.Run
import Sylar.Log.Logger

/-!
# The stream of a file appender

A `FileLogAppender` opens its file again in the first call of each second, so that
it goes on when the file has been deleted, or could not be opened before.  For this
`reopen` closes the stream first, but only if no operation on it has failed.

A file that cannot be opened is tried again a second later.  A write that fails, on
the other hand, leaves the file open with the stream in error: from then on `reopen`
opens a stream that is still open, which fails, and nothing is logged any more.

As long as all goes well the file gets what `LoggerManager.appenderLog` yields, which
knows nothing of the stream.
-/

namespace Sylar.Log

open Foundation

/-- `FileLogAppender`, with the texts its stream has taken.  They are in the file when
what is left in the buffer has been written. -/
structure FileLogAppender extends LogAppender where
  filestream : Ofstream := {}
  /-- What `time(0)` was when the file was opened last. -/
  lastTime : UInt64 := 0
  file : List String := []

namespace FileLogAppender

/-- A call of `log`, with what the operating system answers: whether what is left in
the buffer is written when the file is closed, whether the file can be opened, and
whether the text can be written. -/
structure Call where
  level : Level
  event : LogEvent
  now : UInt64
  flushed : Bool
  opened : Bool
  written : Bool

/-- `reopen`, which returns `!m_filestream`. -/
def reopen (flushed opened : Bool) (a : FileLogAppender) : Bool × FileLogAppender :=
  let closed := if a.filestream.fail then a.filestream else a.filestream.close flushed
  let filestream := closed.openFile opened
  (filestream.fail, { a with filestream })

/-- The constructor. -/
def new (filename : String) (opened : Bool) : FileLogAppender :=
  (reopen true opened { LogAppender.new (.FileLogAppender filename) with }).2

/-- The part of `log` before the text is written: in a new second the file is opened
again. -/
def refresh (a : FileLogAppender) (c : Call) : FileLogAppender :=
  if c.now ≠ a.lastTime then { (a.reopen c.flushed c.opened).2 with lastTime := c.now } else a

variable (strftime : String → Nat → String)

/-- `FileLogAppender::log`. -/
def log (a : FileLogAppender) (c : Call) : Except Fault FileLogAppender :=
  if a.level ≤ c.level then
    let a := a.refresh c
    match a.formatter with
    | none => .error .nullFormatter
    | some f =>
        let r := a.filestream.write c.written
        .ok { a with
          filestream := r.2
          file := if r.1 then a.file ++ [f.format strftime c.level c.event] else a.file }
  else .ok a

/-! ## Histories of calls -/

/-- A call that returns. -/
def Step (a : FileLogAppender) (c : Call) (a' : FileLogAppender) : Prop :=
  a.log strftime c = .ok a'

/-- The call runs `reopen`. -/
def Reopens (a : FileLogAppender) (c : Call) : Prop := a.level ≤ c.level ∧ c.now ≠ a.lastTime

/-- The operating system does what the call needs, and nothing that has been taken
before is lost. -/
def Succeeds (a : FileLogAppender) (c : Call) : Prop :=
  (a.Reopens c → c.flushed = true ∧ c.opened = true) ∧ (a.level ≤ c.level → c.written = true)

/-- The text the call should write. -/
def text (a : FileLogAppender) (c : Call) : Option String :=
  if a.level ≤ c.level then a.formatter.map fun f ↦ f.format strftime c.level c.event else none

/-- In a call that runs `reopen` while the file can be opened, the stream becomes
good, and the texts of this call and of those after it reach the file as long as all
succeeds.  Whether `reopen` could flush the buffer does not matter to them. -/
def Recovers (a : FileLogAppender) : Prop :=
  ∀ c, a.Reopens c → c.opened = true → (a.refresh c).filestream.Good ∧
    ∀ a₁ cs a', c.written = true → Step strftime a c a₁ →
      Run (Guarded Succeeds (Step strftime)) a₁ cs a' →
      a'.file = a.file ++ (c :: cs).filterMap (a.text strftime)

/-- No write fails while the file is open. -/
def NoneLost (a : FileLogAppender) (c : Call) : Prop :=
  a.level ≤ c.level → (if c.now = a.lastTime then a.filestream.is_open else c.opened) = true →
    c.written = true

/-! ## Opening the file again -/

variable {strftime} {a a' : FileLogAppender} {c : Call} {cs : List Call} {flushed opened : Bool}

@[simp] theorem refresh_file : (a.refresh c).file = a.file := by
  unfold refresh
  split <;> rfl

@[simp] theorem refresh_toLogAppender : (a.refresh c).toLogAppender = a.toLogAppender := by
  unfold refresh
  split <;> rfl

/-- A stream that is not stuck is closed, or has been closed before. -/
theorem reopen_eq (h : ¬ a.filestream.Stuck) (flushed opened : Bool) : ∃ s : Ofstream,
    s.is_open = false ∧ (a.reopen flushed opened).2.filestream = s.openFile opened := by
  by_cases hfail : a.filestream.fail = true
  · have hclosed : a.filestream.is_open = false := eq_false_of_ne_true fun ho ↦ h ⟨ho, hfail⟩
    exact ⟨a.filestream, hclosed, by rw [reopen, if_pos hfail]⟩
  · exact ⟨_, Ofstream.close_is_open, by rw [reopen, if_neg hfail]⟩

/-- A stuck stream is not closed, and a file cannot be opened. -/
theorem reopen_stuck (h : a.filestream.Stuck) :
    (a.reopen flushed opened).2.filestream.Stuck := by
  rw [reopen, if_pos h.2]
  exact h.openFile

/-- Before the text is written the stream is not stuck, and it is known whether the
file is open. -/
theorem refresh_filestream (h : ¬ a.filestream.Stuck) : ¬ (a.refresh c).filestream.Stuck ∧
    (a.refresh c).filestream.is_open =
      if c.now = a.lastTime then a.filestream.is_open else c.opened := by
  by_cases hnow : c.now = a.lastTime
  · rw [refresh, if_neg (not_not.mpr hnow), if_pos hnow]
    exact ⟨h, rfl⟩
  · obtain ⟨s, hclosed, hs⟩ := reopen_eq h c.flushed c.opened
    rw [refresh, if_pos hnow, if_neg hnow]
    show ¬ (a.reopen c.flushed c.opened).2.filestream.Stuck ∧
      (a.reopen c.flushed c.opened).2.filestream.is_open = c.opened
    rw [hs]
    cases c.opened with
    | true => exact ⟨(Ofstream.openFile_good hclosed).not_stuck, (Ofstream.openFile_good hclosed).1⟩
    | false =>
        have hstill := Ofstream.openFile_false hclosed
        exact ⟨Ofstream.not_stuck_iff.mpr (.inl hstill), hstill⟩

theorem refresh_stuck (h : a.filestream.Stuck) : (a.refresh c).filestream.Stuck := by
  rw [refresh]
  split
  · exact reopen_stuck h
  · exact h

/-! ## One call -/

/-- All that a call that returns can do. -/
theorem step_cases (h : Step strftime a c a') :
    (¬ a.level ≤ c.level ∧ a' = a) ∨
      (a.level ≤ c.level ∧ ∃ f, a.formatter = some f ∧ a' = { a.refresh c with
        filestream := ((a.refresh c).filestream.write c.written).2
        file := if ((a.refresh c).filestream.write c.written).1
          then (a.refresh c).file ++ [f.format strftime c.level c.event]
          else (a.refresh c).file }) := by
  rw [Step, log] at h
  split at h
  · rename_i hlevel
    have hformatter : (a.refresh c).formatter = a.formatter :=
      congrArg LogAppender.formatter refresh_toLogAppender
    dsimp only at h
    split at h
    · cases h
    · rename_i f hf
      exact .inr ⟨hlevel, f, hformatter.symm.trans hf, (Except.ok.inj h).symm⟩
  · exact .inl ⟨‹_›, (Except.ok.inj h).symm⟩

/-- The level and the format stay. -/
theorem step_toLogAppender (h : Step strftime a c a') : a'.toLogAppender = a.toLogAppender := by
  rcases step_cases h with ⟨-, rfl⟩ | ⟨-, f, -, rfl⟩
  · rfl
  · exact refresh_toLogAppender

theorem text_congr (h : a'.toLogAppender = a.toLogAppender) :
    a'.text strftime = a.text strftime := by
  funext c
  rw [text, text, h]

/-- **Step lemma.**  The stream gets stuck in a call whose text is lost while the file
is open, and in no other. -/
theorem step_stuck_iff (h : ¬ a.filestream.Stuck) (hs : Step strftime a c a') :
    a'.filestream.Stuck ↔ ¬ a.NoneLost c := by
  rcases step_cases hs with ⟨hlevel, rfl⟩ | ⟨hlevel, f, -, rfl⟩
  · exact iff_of_false h (not_not.mpr fun h' ↦ absurd h' hlevel)
  · obtain ⟨hrefresh, hopen⟩ := refresh_filestream (c := c) h
    show ((a.refresh c).filestream.write c.written).2.Stuck ↔ _
    rw [Ofstream.write_stuck_iff hrefresh, hopen, NoneLost]
    simp [hlevel]

/-- A stuck stream stays stuck, and nothing reaches the file. -/
theorem step_silent (h : a.filestream.Stuck) (hs : Step strftime a c a') :
    a'.filestream.Stuck ∧ a'.file = a.file := by
  rcases step_cases hs with ⟨-, rfl⟩ | ⟨-, f, -, rfl⟩
  · exact ⟨h, rfl⟩
  · obtain ⟨hlost, hstuck⟩ := (refresh_stuck (c := c) h).write c.written
    refine ⟨hstuck, ?_⟩
    simp [hlost]

/-- A write to a good stream succeeds. -/
theorem step_good (h : (a.refresh c).filestream.Good) (hlevel : a.level ≤ c.level)
    (hwritten : c.written = true) (hs : Step strftime a c a') :
    a'.filestream.Good ∧ a'.file = a.file ++ (a.text strftime c).toList := by
  rcases step_cases hs with ⟨hskip, -⟩ | ⟨-, f, hf, rfl⟩
  · exact absurd hlevel hskip
  · rw [hwritten, h.write]
    refine ⟨h, ?_⟩
    simp [text, hlevel, hf]

/-- A stream that is not stuck becomes good when the file can be opened. -/
theorem refresh_good (h : ¬ a.filestream.Stuck)
    (ho : (if c.now = a.lastTime then a.filestream.is_open else c.opened) = true) :
    (a.refresh c).filestream.Good := by
  obtain ⟨hrefresh, hopen⟩ := refresh_filestream (c := c) h
  rcases Ofstream.not_stuck_iff.mp hrefresh with hclosed | hgood
  · cases hclosed.symm.trans (hopen.trans ho)
  · exact hgood

/-! ## Histories -/

/-- While all succeeds, a good stream stays good. -/
theorem succeeds_step (hgood : a.filestream.Good)
    (hs : Guarded Succeeds (Step strftime) a c a') :
    a'.filestream.Good ∧ a'.file = a.file ++ (a.text strftime c).toList := by
  obtain ⟨⟨hopened, hwritten⟩, hs⟩ := hs
  by_cases hlevel : a.level ≤ c.level
  · refine step_good (refresh_good hgood.not_stuck ?_) hlevel (hwritten hlevel) hs
    split
    · exact hgood.1
    · exact (hopened ⟨hlevel, ‹_›⟩).2
  · rcases step_cases hs with ⟨-, rfl⟩ | ⟨hpass, -⟩
    · exact ⟨hgood, by simp [text, hlevel]⟩
    · exact absurd hpass hlevel

theorem text_step (hs : Step strftime a c a') : a'.text strftime = a.text strftime :=
  text_congr (step_toLogAppender hs)

/-- The texts of a history, one by one. -/
theorem file_cons {a₁ : FileLogAppender} (hs : Step strftime a c a₁)
    (h₁ : a₁.file = a.file ++ (a.text strftime c).toList)
    (h : a'.file = a₁.file ++ cs.filterMap (a₁.text strftime)) :
    a'.file = a.file ++ (c :: cs).filterMap (a.text strftime) := by
  rw [h, h₁, text_step hs, List.append_assoc, List.filterMap_cons]
  cases a.text strftime c <;> rfl

theorem run_good (h : Run (Guarded Succeeds (Step strftime)) a cs a')
    (hgood : a.filestream.Good) : a'.file = a.file ++ cs.filterMap (a.text strftime) := by
  induction h with
  | nil a => rw [List.filterMap_nil, List.append_nil]
  | cons hs _ ih =>
      obtain ⟨hgood₁, hfile⟩ := succeeds_step hgood hs
      exact file_cons hs.2 hfile (ih hgood₁)

/-! ## The appender among the loggers -/

section Appender

variable {m : LoggerManager} {env : Env} {p : AppenderPtr}

/-- A call yields the text in both, or fails in both. -/
theorem log_text (hp : m.appender p = some a.toLogAppender) :
    (a.log env.strftime c).map (fun _ ↦ (a.text env.strftime c).toList) =
      (m.appenderLog env p c.level c.event).map fun out ↦ out.map Prod.snd := by
  have hderef : m.derefAppender (some p) = .ok (p, a.toLogAppender) := by
    simp [LoggerManager.derefAppender, hp]
  have hformatter : (a.refresh c).formatter = a.formatter :=
    congrArg LogAppender.formatter refresh_toLogAppender
  rw [LoggerManager.appenderLog, hderef, Except.ok_bind, log, text]
  by_cases hlevel : a.level ≤ c.level
  · simp only [if_pos hlevel, hformatter]
    cases a.formatter <;> rfl
  · simp only [if_neg hlevel]
    rfl

/-- **Step lemma.**  What the logger is told of the call is what the file gets. -/
theorem log_file (hp : m.appender p = some a.toLogAppender) (hgood : a.filestream.Good)
    (hc : a.Succeeds c) :
    (a.log env.strftime c).map FileLogAppender.file =
      (m.appenderLog env p c.level c.event).map fun out ↦ a.file ++ out.map Prod.snd := by
  have htaken : (a.log env.strftime c).map FileLogAppender.file =
      ((a.log env.strftime c).map fun _ ↦ (a.text env.strftime c).toList).map (a.file ++ ·) := by
    cases hlog : a.log env.strftime c with
    | error e => rfl
    | ok a' => exact congrArg Except.ok (succeeds_step hgood ⟨hc, hlog⟩).2
  rw [htaken, log_text hp]
  cases m.appenderLog env p c.level c.event <;> rfl

/-- **Run lemma.** -/
theorem file_lines (hp : m.appender p = some a.toLogAppender) (hgood : a.filestream.Good)
    (h : Run (Guarded Succeeds (Step env.strftime)) a cs a') :
    ∃ outs, cs.mapM (fun c ↦ m.appenderLog env p c.level c.event) = .ok outs ∧
      a'.file = a.file ++ outs.flatten.map Prod.snd := by
  induction h with
  | nil a => exact ⟨[], rfl, by simp⟩
  | @cons a a₁ a' c cs hs _ ih =>
      obtain ⟨hgood₁, -⟩ := succeeds_step hgood hs
      have hp₁ : m.appender p = some a₁.toLogAppender := by
        rw [step_toLogAppender hs.2]
        exact hp
      obtain ⟨outs, houts, hfile⟩ := ih hp₁ hgood₁
      have hstep : (m.appenderLog env p c.level c.event).map
          (fun out ↦ a.file ++ out.map Prod.snd) = .ok a₁.file := by
        rw [← log_file hp hgood hs.1]
        exact congrArg (Except.map FileLogAppender.file) hs.2
      obtain ⟨out, hout, hfile₁⟩ := Except.map_ok_iff.mp hstep
      refine ⟨out :: outs, ?_, ?_⟩
      · rw [List.mapM_cons, hout, Except.ok_bind, houts]
        rfl
      · rw [hfile, ← hfile₁, List.flatten_cons, List.map_append, List.append_assoc]

/-- **The file of an appender.**  If it could be opened by the constructor, and can be opened
and written ever after, it gets the lines that `LoggerManager.appenderLog` yields, one after
the other. -/
theorem new_file_lines {filename : String} {level : Level} {formatter : Option LogFormatter}
    {hasFormatter : Bool} :
    let s : FileLogAppender := { new filename true with level, formatter, hasFormatter }
    m.appender p = some s.toLogAppender → Run (Guarded Succeeds (Step env.strftime)) s cs a →
      ∃ outs, cs.mapM (fun c ↦ m.appenderLog env p c.level c.event) = .ok outs ∧
        a.file = outs.flatten.map Prod.snd := by
  intro s hp h
  have hgood : (new filename true).filestream.Good := ⟨rfl, rfl⟩
  exact file_lines hp hgood h

end Appender

/-- Nothing reaches the file any more once the stream is stuck. -/
theorem run_silent (h : Run (Step strftime) a cs a') (hstuck : a.filestream.Stuck) :
    a'.file = a.file := by
  have hkept : a'.filestream.Stuck ∧ a'.file = a.file := by
    refine h.invariant (I := fun s ↦ s.filestream.Stuck ∧ s.file = a.file) ?_ ⟨hstuck, rfl⟩
    intro s c t hs hstep
    obtain ⟨ht, hfile⟩ := step_silent hs.1 hstep
    exact ⟨ht, hfile.trans hs.2⟩
  exact hkept.2

/-- An appender recovers unless its stream is stuck. -/
theorem recovers_iff_not_stuck : a.Recovers strftime ↔ ¬ a.filestream.Stuck := by
  constructor
  · intro h hstuck
    -- a call in another second, in which the file can be opened
    let event : LogEvent := ⟨"", 0, 0, 0, 0, 0, "", "", a.level, ""⟩
    have hnow : a.lastTime + 1 ≠ a.lastTime := by simp
    have hgood := (h ⟨a.level, event, a.lastTime + 1, true, true, true⟩
      ⟨Nat.le_refl _, hnow⟩ rfl).1
    exact hgood.not_stuck (refresh_stuck hstuck)
  · intro h c hreopens hopened
    have hgood : (a.refresh c).filestream.Good := refresh_good h (by rwa [if_neg hreopens.2])
    refine ⟨hgood, fun a₁ cs a' hwritten hs hr ↦ ?_⟩
    obtain ⟨hgood₁, hfile⟩ := step_good hgood hreopens.1 hwritten hs
    exact file_cons hs hfile (run_good hr hgood₁)

/-- The constructor does not leave the stream stuck. -/
theorem new_not_stuck {filename : String} : ¬ (new filename opened).filestream.Stuck := by
  have hstream : (new filename opened).filestream = (new "" opened).filestream := rfl
  rw [hstream]
  cases opened <;> decide

/-- **A file appender recovers**, in every state of a history, exactly if no write of it
fails while the file is open. -/
theorem recovers_iff {filename : String} {opened : Bool} {level : Level}
    {formatter : Option LogFormatter} {hasFormatter : Bool} :
    let s : FileLogAppender := { new filename opened with level, formatter, hasFormatter }
    s.Recovers strftime ∧
      (Run (Ending (Recovers strftime) (Step strftime)) s cs a ↔
        Run (Guarded NoneLost (Step strftime)) s cs a) := by
  intro s
  have hs : ¬ s.filestream.Stuck := new_not_stuck
  refine ⟨recovers_iff_not_stuck.mpr hs, ?_⟩
  constructor
  · intro h
    refine h.mono_given (J := fun t ↦ ¬ t.filestream.Stuck) ?_ ?_ hs
    · exact fun t c t' _ hstep ↦ recovers_iff_not_stuck.mp hstep.2
    · intro t c t' ht hstep
      refine ⟨?_, hstep.1⟩
      exact not_not.mp fun hlost ↦
        recovers_iff_not_stuck.mp hstep.2 ((step_stuck_iff ht hstep.1).mpr hlost)
  · intro h
    have hkept : ∀ t c t', ¬ t.filestream.Stuck → Guarded NoneLost (Step strftime) t c t' →
        ¬ t'.filestream.Stuck := fun t c t' ht hstep hstuck ↦
      (step_stuck_iff ht hstep.2).mp hstuck hstep.1
    refine h.mono_given hkept ?_ hs
    intro t c t' ht hstep
    exact ⟨hstep.2, recovers_iff_not_stuck.mpr (hkept t c t' ht hstep)⟩

/-- A text that no stream keeps in its buffer. -/
def longText : String := String.ofList (List.replicate 8192 'x')

/-- A call in second `now` for which the file can be opened.  The text is written at once. -/
def callAt (now : UInt64) (written : Bool) : Call where
  level := .INFO
  event := ⟨"main.cc", 1, 0, 1, 0, now.toNat, longText, "root", .INFO, "main"⟩
  now := now
  flushed := true
  opened := true
  written := written

/-- The appender of the root logger, whose file could be opened. -/
def rootAppender : FileLogAppender :=
  { new "root.txt" true with formatter := some (.new "%m%n") }

/-- The disk is full for one call.  In the next second the file can be opened and
written, but neither this text nor any later one reaches it. -/
theorem not_recovers : ∃ a : FileLogAppender,
    Run (Step fun _ _ ↦ "") rootAppender [callAt 1 false] a ∧ a.Reopens (callAt 2 true) ∧
      ¬ (a.refresh (callAt 2 true)).filestream.Good ∧
      ∀ cs a', Run (Step fun _ _ ↦ "") a (callAt 2 true :: cs) a' → a'.file = [] := by
  refine ⟨{ rootAppender with filestream := ⟨true, true, false⟩, lastTime := 1 },
    .cons rfl (.nil _), ⟨by decide, by decide⟩, by decide, fun cs a' h ↦ ?_⟩
  exact run_silent h (by decide)

end FileLogAppender

end Sylar.Log
