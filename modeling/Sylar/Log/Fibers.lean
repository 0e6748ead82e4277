import Sylar.Fiber.Lifetime
import Sylar.Fiber.Threads
import Sylar.Log.Columns
import Sylar.Log.Declared

/-!
# The fiber column of a line

The macros of `log.h` put `GetFiberID()` into every event.  It is the id of the fiber in
`t_fiber`, cut to 32 bits.  Threads that call `swapIn` from their main fibers only, on
fibers that can be resumed, have the running fiber there.  Main fibers have the id 0, and
no two children of any threads ever have the same, not even at different times; so until
2^32 fibers have been made, the column tells who has written the line.
-/

namespace Sylar

open Foundation

/-- `sylar::GetFiberID` of `util.cc`. -/
def GetFiberID (m : Fibers.Machine) : Nat := m.getFiberID % 2 ^ 32

namespace Fibers

/-! ## Threads that keep to the rules -/

/-- A step of a thread that keeps to the rules. -/
def KeptStep (g : Statics) (s : Shared) (e : RefAction × Landing) (g' : Statics)
    (s' : Shared) : Prop :=
  s.Kept e.1 ∧ ThreadStep g s e g' s'

namespace Shared

/-- What other threads have counted does not matter. -/
theorem kept_load {s : Shared} {g : Statics} {x : RefAction} : (s.load g).Kept x ↔ s.Kept x := by
  cases x with
  | call a => cases a <;> exact Iff.rfl
  | copy f => exact Iff.rfl
  | drop f => exact Iff.rfl
  | capture f => exact Iff.rfl
  | uncapture f => exact Iff.rfl

/-- The ids do not matter. -/
theorem Alike.kept {ids : FiberId → Nat} {i d : Nat} {s s' : Shared} (h : Alike ids i d s s')
    {x : RefAction} (hk : s'.Kept x) : s.Kept x := by
  obtain ⟨hm⟩ := h
  rename_i m'
  have hobject : ∀ {f fb}, m'.fibers f = some fb →
      ∃ ob, s.machine.fibers f = some ob ∧ fb = { ob with id := ids f } := by
    intro f fb hf
    rw [hm.fibers, Option.map_eq_some_iff] at hf
    obtain ⟨ob, hob, rfl⟩ := hf
    exact ⟨ob, hob, rfl⟩
  have hspare : ∀ {f}, (s.withMachine m').Spare f → s.Spare f := by
    intro f hf
    refine ⟨hf.1, fun hst ↦ hf.2 ?_⟩
    rw [withMachine_machine, hm.stack, hst]
  cases x with
  | call a =>
      cases a with
      | construct n => trivial
      | reset f =>
          obtain ⟨hout, fb, hf, hs, hidle⟩ := hk
          obtain ⟨ob, hob, rfl⟩ := hobject hf
          exact ⟨hout, ob, hob, hs, hidle⟩
      | swapIn f =>
          obtain ⟨hst, ht, hout, fb, hf, hres⟩ := hk
          obtain ⟨ob, hob, rfl⟩ := hobject hf
          exact ⟨hm.stack.symm.trans hst, hm.tThreadFiber ▸ ht, hout, ob, hob, hres⟩
      | yieldToReady => trivial
      | yieldToHold => trivial
      | callbackReturns => exact fun hst ↦ hk (hm.stack.trans hst)
      | callbackThrows => exact fun hst ↦ hk (hm.stack.trans hst)
      | getThis => trivial
      | setThis f => exact hk
      | mainFunc => exact hk
      | swapOut f => exact hk
      | forget f => exact hk
      | totalFibers => trivial
      | getFiberID => trivial
  | copy f =>
      intro hnone
      apply hk
      rw [withMachine_machine, hm.fibers, hnone]
      rfl
  | drop f => exact hspare hk
  | capture f =>
      obtain ⟨hsp, fb, hf, hcb⟩ := hk
      obtain ⟨ob, hob, rfl⟩ := hobject hf
      exact ⟨hspare hsp, ob, hob, hcb⟩
  | uncapture f => exact hk

end Shared

/-! ## The id of the running fiber -/

theorem Machine.getFiberID_none {m : Machine} (h : m.tFiber = none) : m.getFiberID = 0 := by
  rw [Machine.getFiberID, h]
  rfl

theorem Machine.getFiberID_some {m : Machine} {f : FiberId} {fb : Fiber} (h : m.tFiber = some f)
    (hf : m.fibers f = some fb) : m.getFiberID = fb.getID := by
  rw [Machine.getFiberID, h, Option.bind_some, hf]

variable {T : Type*}

/-- Each thread would alone have its fibers in order, and they are numbered by `ids`. -/
structure Numbered (alone : T → Shared) (ids : T → FiberId → Nat) (F : Finset T)
    (s : Threads T Statics Shared) : Prop where
  apart : Apart alone ids F s
  good : ∀ t, (alone t).Good ∧ (alone t).Held

namespace Numbered

variable {alone : T → Shared} {ids : T → FiberId → Nat} {F : Finset T}
variable {s s' : Threads T Statics Shared} {t : T} {e : RefAction × Landing}

theorem start (n : Nat) : Numbered (fun _ ↦ Shared.fresh n) (fun _ _ ↦ 0) ∅ (start T n) where
  apart := Apart.start n
  good _ := ⟨Shared.good_fresh n, fun _ h ↦ nomatch h⟩

/-- `GetFiberID` in the main fiber, or where there is none. -/
theorem getFiberID_main (h : Numbered alone ids F s) (hst : (s.own t).machine.stack = none) :
    (s.own t).machine.getFiberID = 0 := by
  obtain ⟨d, halike⟩ := h.apart.alike t
  have hm := halike.machine
  have hgood := (h.good t).1
  have hstack : (alone t).machine.stack = none := hm.stack.symm.trans hst
  have hmain : (alone t).InMain := by
    rcases hgood.control with hin | ⟨f, hin⟩
    · exact hin
    · cases hstack.symm.trans hin.stack
  have hthis : (s.own t).machine.tFiber = (alone t).machine.tThreadFiber :=
    hm.tFiber.trans hmain.2.2
  cases hthread : (alone t).machine.tThreadFiber with
  | none => exact Machine.getFiberID_none (hthis.trans hthread)
  | some f =>
      obtain ⟨main, hf, hns, -⟩ := (hgood.main f hthread).object
      have hfib : (s.own t).machine.fibers f = some { main with id := ids t f } := by
        have hmap := hm.fibers f
        rw [hf] at hmap
        exact hmap
      have hzero : ¬ 0 < ids t f := fun hpos ↦ by
        have hs := (hm.numbered f main hf).mp hpos
        rw [hns] at hs
        cases hs
      rw [Machine.getFiberID_some (hthis.trans hthread) hfib, Fiber.getID,
        Nat.eq_zero_of_not_pos hzero]
      rfl

/-- `GetFiberID` in a child. -/
theorem getFiberID_child (h : Numbered alone ids F s) {f : FiberId}
    (hst : (s.own t).machine.stack = some f) :
    (s.own t).machine.getFiberID = ids t f % 2 ^ 64 ∧ 0 < ids t f := by
  obtain ⟨d, halike⟩ := h.apart.alike t
  have hm := halike.machine
  have hgood := (h.good t).1
  have hstack : (alone t).machine.stack = some f := hm.stack.symm.trans hst
  have hchild : (alone t).InChild f := by
    rcases hgood.control with hin | ⟨g, hin⟩
    · cases hstack.symm.trans hin.1
    · cases hstack.symm.trans hin.stack
      exact hin
  obtain ⟨fb, hf, -⟩ := hchild.exec
  have hs := (hgood.child f fb hf hchild.child).stack
  have hthis : (s.own t).machine.tFiber = some f := hm.tFiber.trans hchild.this
  have hfib : (s.own t).machine.fibers f = some { fb with id := ids t f } := by
    have hmap := hm.fibers f
    rw [hf] at hmap
    exact hmap
  exact ⟨Machine.getFiberID_some hthis hfib, (hm.numbered f fb hf).mpr hs⟩

variable [DecidableEq T]

/-- **Step lemma.**  A fiber that has an id keeps it. -/
theorem step (h : Numbered alone ids F s) (hs : Threads.Step KeptStep s (t, e) s') :
    ∃ alone' ids' F', Numbered alone' ids' F' s' ∧ ∀ u f, 0 < ids u f → ids' u f = ids u f := by
  obtain ⟨hkept, hstep⟩ := hs
  obtain ⟨o, ho, ids', hapart, hsame⟩ := (h.apart.acts t e).2 _ (.mk hstep)
  obtain ⟨d, halike⟩ := h.apart.alike t
  obtain ⟨hgood, hheld⟩ := h.good t
  have hk : (alone t).Kept e.1 := halike.kept (Shared.kept_load.mpr hkept)
  obtain ⟨s₁, hperform, rfl⟩ := Shared.step_ok_iff.mp ho
  have heffect := (hgood.effect hk.plain hk.nest hperform).tick ((alone t).machine.clock + 1)
  refine ⟨_, ids', _, ⟨hapart, fun u ↦ ?_⟩, hsame⟩
  by_cases hu : u = t
  · subst hu
    rw [Function.update_self]
    exact ⟨heffect.good, heffect.held hheld hk⟩
  · rw [Function.update_of_ne hu]
    exact h.good u

/-- **Run lemma.** -/
theorem run {tr : List (T × RefAction × Landing)} (h : Numbered alone ids F s)
    (hr : Run (Threads.Step KeptStep) s tr s') :
    ∃ alone' ids' F', Numbered alone' ids' F' s' ∧ ∀ u f, 0 < ids u f → ids' u f = ids u f := by
  induction hr generalizing alone ids F with
  | nil s => exact ⟨alone, ids, F, h, fun _ _ _ ↦ rfl⟩
  | cons hs _ ih =>
      obtain ⟨alone₁, ids₁, F₁, h₁, hsame₁⟩ := h.step hs
      obtain ⟨alone₂, ids₂, F₂, h₂, hsame₂⟩ := ih h₁
      refine ⟨alone₂, ids₂, F₂, h₂, fun u f hpos ↦ ?_⟩
      have hmiddle : ids₁ u f = ids u f := hsame₁ u f hpos
      rw [← hmiddle] at hpos ⊢
      exact hsame₂ u f hpos

end Numbered

variable [DecidableEq T] {n : Nat} {s s' : Threads T Statics Shared}
variable {tr tr' : List (T × RefAction × Landing)}

/-- At two moments of a run, `GetFiberID` gives the same exactly in the same child, or in
main fibers. -/
theorem getFiberID_eq_iff (h : Run (Threads.Step KeptStep) (start T n) tr s)
    (h' : Run (Threads.Step KeptStep) s tr' s') (hlt : s'.shared.s_fiber_id < 2 ^ 32) (t u : T) :
    GetFiberID (s.own t).machine = GetFiberID (s'.own u).machine ↔
      (s.own t).machine.stack = (s'.own u).machine.stack ∧
        ((s.own t).machine.stack ≠ none → t = u) := by
  obtain ⟨alone, ids, F, hs, -⟩ := (Numbered.start n).run h
  obtain ⟨alone', ids', F', hs', hsame⟩ := hs.run h'
  have hsmall : ∀ {v f}, ids' v f % 2 ^ 64 % 2 ^ 32 = ids' v f := by
    intro v f
    rw [Nat.mod_mod_of_dvd _ (Nat.pow_dvd_pow 2 (by decide))]
    exact Nat.mod_eq_of_lt (Nat.lt_of_le_of_lt (hs'.apart.le v f) hlt)
  unfold GetFiberID
  cases hst : (s.own t).machine.stack with
  | none =>
      rw [hs.getFiberID_main hst]
      cases hst' : (s'.own u).machine.stack with
      | none => simp [hs'.getFiberID_main hst']
      | some g =>
          obtain ⟨hg, hpos⟩ := hs'.getFiberID_child hst'
          rw [hg, hsmall]
          exact iff_of_false (Nat.ne_of_lt hpos) (fun heq ↦ nomatch heq.1)
  | some f =>
      obtain ⟨hf, hfpos⟩ := hs.getFiberID_child hst
      rw [hf, ← hsame t f hfpos, hsmall]
      rw [← hsame t f hfpos] at hfpos
      cases hst' : (s'.own u).machine.stack with
      | none =>
          rw [hs'.getFiberID_main hst']
          exact iff_of_false (Nat.ne_of_gt hfpos) (fun heq ↦ nomatch heq.1)
      | some g =>
          rw [(hs'.getFiberID_child hst').1, hsmall, Option.some.injEq]
          constructor
          · intro heq
            obtain ⟨rfl, rfl⟩ := hs'.apart.unique t f u g hfpos heq
            exact ⟨rfl, fun _ ↦ rfl⟩
          · rintro ⟨rfl, hthread⟩
            rw [hthread (Option.some_ne_none f)]

end Fibers

/-! ## The column -/

namespace Log

/-- The fourth column of a line. -/
def fiberColumn (line : String) : Option (List Char) := (line.toList.splitOn '\t')[3]?

/-- The columns before are columns. -/
def Env.Aligned (env : Env) : Prop :=
  '\t' ∉ (env.strftime defaultTime env.time).toList ∧ '\t' ∉ env.threadName.toList

/-- What the macros find in a thread. -/
def Env.within (env : Env) (m : Fibers.Machine) : Env := { env with fiberID := GetFiberID m }

/-- The line a sink gets from a macro in a thread. -/
def Sink.lineWithin (k : Sink) (env : Env) (m : Fibers.Machine) (name : String) (level : Level)
    (content : String) : String :=
  (k.line (env.within m) level ((env.within m).event name level content)).2

variable {env : Env} {m : Fibers.Machine} {k : Sink} {name content : String} {level : Level}

theorem fiberColumn_lineWithin (h : env.Aligned) (hk : k.pattern = defaultPattern) :
    fiberColumn (k.lineWithin env m name level content) =
      some (toString (GetFiberID m)).toList := by
  have hnat : ∀ n : Nat, '\t' ∉ (toString n).toList := fun _ hm ↦
    absurd (digits_of_mem hm) (by decide)
  unfold fiberColumn Sink.lineWithin Sink.line
  rw [hk, format_default, Shown.text, List.append_assoc]
  simp only [Shown.columns, LogEvent.shown, Env.event, Env.within, Separated.terminated_cons,
    List.append_assoc, List.cons_append]
  rw [List.splitOn_append_cons_self_of_not_mem h.1,
    List.splitOn_append_cons_self_of_not_mem (hnat env.threadID),
    List.splitOn_append_cons_self_of_not_mem h.2,
    List.splitOn_append_cons_self_of_not_mem (hnat (GetFiberID m))]
  rfl

open Fibers

variable {T : Type*} [DecidableEq T] {n : Nat} {s s' : Threads T Statics Shared}
variable {tr tr' : List (T × RefAction × Landing)}

/-- **Lines tell which fiber has written them.**  In every run of threads that keep to the
rules, with fewer than 2^32 fibers made, two lines in the default format have the same fiber
column exactly if they have been written by the same child of the same thread, or both by
main fibers. -/
theorem lines_name_fibers (h : Run (Threads.Step KeptStep) (start T n) tr s)
    (h' : Run (Threads.Step KeptStep) s tr' s') (hlt : s'.shared.s_fiber_id < 2 ^ 32) (t u : T)
    {k k' : Sink} (hk : k.pattern = defaultPattern) (hk' : k'.pattern = defaultPattern)
    {env env' : Env} (halign : env.Aligned) (halign' : env'.Aligned) (name name' : String)
    (level level' : Level) (content content' : String) :
    fiberColumn (k.lineWithin env (s.own t).machine name level content) =
        fiberColumn (k'.lineWithin env' (s'.own u).machine name' level' content') ↔
      (s.own t).machine.stack = (s'.own u).machine.stack ∧
        ((s.own t).machine.stack ≠ none → t = u) := by
  rw [fiberColumn_lineWithin halign hk, fiberColumn_lineWithin halign' hk', Option.some.injEq,
    natText_inj]
  exact getFiberID_eq_iff h h' hlt t u

/-- Two threads go into a fiber each. -/
def bothInside : List (Bool × RefAction × Landing) :=
  [(false, .call .getThis, .returns), (true, .call .getThis, .returns),
    (false, .call (.construct 0), .created 1), (true, .call (.construct 0), .created 1),
    (false, .call (.swapIn 1), .started 1 1), (true, .call (.swapIn 1), .started 1 1)]

/-- One of them yields, and its fiber is resumed. -/
def insideAgain : List (Bool × RefAction × Landing) :=
  [(false, .call .yieldToHold, .resumed ⟨none, [], .afterSwapIn 2⟩),
    (false, .call (.swapIn 1), .resumed ⟨some 1, [1], .afterYield 3⟩)]

/-- The macros of a file. -/
def fileEnv : Env :=
  { strftime := fun _ _ ↦ "now", file := "main.cc", line := 7, threadID := 1, fiberID := 0,
    time := 0, threadName := "main" }

def consoleSink : Sink := { kind := .StdoutLogAppender, level := .DEBUG, pattern := defaultPattern }

/-- Both fibers have the address 1; the lines of the two differ, and those of one do not. -/
theorem lines_name_fibers_inside : ∃ s s',
    Run (Threads.Step KeptStep) (start Bool 1024) bothInside s ∧
      Run (Threads.Step KeptStep) s insideAgain s' ∧
      fiberColumn (consoleSink.lineWithin fileEnv (s.own false).machine "root" .INFO "in") =
        fiberColumn (consoleSink.lineWithin fileEnv (s'.own false).machine "root" .INFO "again") ∧
      fiberColumn (consoleSink.lineWithin fileEnv (s.own false).machine "root" .INFO "in") ≠
        fiberColumn (consoleSink.lineWithin fileEnv (s'.own true).machine "root" .INFO "in") := by
  have hrun : ∃ s s', Run (Threads.Step KeptStep) (start Bool 1024) bothInside s ∧
      Run (Threads.Step KeptStep) s insideAgain s' ∧ s'.shared = ⟨2, 4⟩ ∧
      (s.own false).machine.stack = some 1 ∧ (s'.own false).machine.stack = some 1 :=
    ⟨_, _, .cons (.mk ⟨trivial, rfl, rfl⟩) (.cons (.mk ⟨trivial, rfl, rfl⟩)
      (.cons (.mk ⟨trivial, rfl, rfl⟩) (.cons (.mk ⟨trivial, rfl, rfl⟩)
      (.cons (.mk ⟨⟨rfl, nofun, by decide, _, rfl, .inl rfl⟩, rfl, rfl⟩)
      (.cons (.mk ⟨⟨rfl, nofun, by decide, _, rfl, .inl rfl⟩, rfl, rfl⟩) (.nil _)))))),
      .cons (.mk ⟨trivial, rfl, rfl⟩)
        (.cons (.mk ⟨⟨rfl, nofun, by decide, _, rfl, .inr (.inr rfl)⟩, rfl, rfl⟩) (.nil _)),
      rfl, rfl, rfl⟩
  obtain ⟨s, s', hr, hr', hshared, hst, hst'⟩ := hrun
  have halign : fileEnv.Aligned := by
    unfold Env.Aligned
    decide
  have hlt : s'.shared.s_fiber_id < 2 ^ 32 := by
    rw [hshared]
    decide
  refine ⟨s, s', hr, hr', ?_, ?_⟩
  · exact (lines_name_fibers hr hr' hlt false false rfl rfl halign halign _ _ _ _ _ _).mpr
      ⟨hst.trans hst'.symm, fun _ ↦ rfl⟩
  · refine (lines_name_fibers hr hr' hlt false true rfl rfl halign halign _ _ _ _ _ _).not.mpr ?_
    intro hsame
    have hthread : false = true := hsame.2 (by simp [hst])
    cases hthread

end Log

end Sylar
