import Sylar.Foundation.Broadcast
import Sylar.Log.Routing

/-!
# The appenders of a logger

Threads log through any loggers at once, while loggers are fetched and loggers and appenders
are configured.  `Logger::log` compares the level without a lock, and holds the lock of the
logger while it goes through its appenders; a logger without appenders hands the event on
to its root, and holds its own lock all the time.  An appender writes a line as a whole, for
which it has a lock of its own, but it may be attached to several loggers, whose lines then
come in between.  What becomes of the line in the stream of a file is left to
`Sylar.Log.Buffer`.

All appenders of a logger agree on the order of its events, which is the one in which the
threads have got the lock of the logger.

`clearAppender` takes no lock.  Where it meets a loop over the appenders the program has no
meaning, and there is no such run here.
-/

namespace Sylar.Log

open Foundation

/-- A call of `Logger::log`. -/
structure Request where
  env : Env
  logger : LoggerPtr
  level : Level
  event : LogEvent

/-- A line, with the logger in whose loop it has been written. -/
structure WrittenLine where
  via : LoggerPtr
  request : Request
  line : String

/-- Where a thread is in `Logger::log`. -/
inductive Phase
  /-- `log` of the logger is called. -/
  | called (l : LoggerPtr)
  /-- The level is high enough for the logger. -/
  | compared (l : LoggerPtr)
  /-- In the loop, before the remaining appenders. -/
  | inside (l : LoggerPtr) (rest : List AppenderPtr)
  /-- In the loop, where the level is high enough for the appender. -/
  | writing (l : LoggerPtr) (a : AppenderPtr) (rest : List AppenderPtr)
  /-- On the way back through the loggers that have handed the event on. -/
  | returning

/-- What a thread is doing, and the loggers that have handed it on, the last one first. -/
structure Activity where
  request : Request
  held : List LoggerPtr
  phase : Phase

/-- The loop of a logger the thread is in. -/
def Activity.loop (x : Activity) : Option LoggerPtr :=
  match x.phase with
  | .inside l _ | .writing l _ _ => some l
  | _ => none

/-- The thread holds the lock of the logger. -/
def Activity.Holds (x : Activity) (l : LoggerPtr) : Prop := l ∈ x.held ∨ x.loop = some l

/-- The loggers, and the lines each appender has written. -/
structure Lines where
  manager : LoggerManager
  out : AppenderPtr → List WrittenLine

namespace Lines

abbrev State (T : Type*) := Threads T Lines (Option Activity)

variable {T : Type*}

/-- Nothing has been written. -/
def start (T : Type*) (m : LoggerManager) : State T := ⟨⟨m, fun _ ↦ []⟩, fun _ ↦ none⟩

/-- Nobody holds the lock of the logger. -/
def Free (s : State T) (l : LoggerPtr) : Prop := ∀ t x, s.own t = some x → ¬ x.Holds l

/-- The loggers whose appenders are read or changed by a call. -/
def touched : Call → List LoggerPtr
  | .setFormatter l _ | .setFormatterString l _ | .addAppender l _ | .delAppender l _
  | .clearAppender l => [l]
  | _ => []

/-- What a thread does. -/
inductive Act
  | call (r : Request)
  | compare (passes : Bool)
  /-- The lock is taken, and there are appenders. -/
  | lock (l : LoggerPtr) (r : Request) (appenders : List AppenderPtr)
  /-- The lock is taken, and there are none. -/
  | handOn (root : Option LoggerPtr)
  | weigh (a : AppenderPtr) (passes : Bool)
  | write (a : AppenderPtr)
  | leave
  | giveBack (l : LoggerPtr)
  | done
  | configure (c : Call)

variable [DecidableEq T]

/-- The steps of `Logger::log`, and the calls that configure. -/
inductive Step : State T → T × Act → State T → Prop
  | call {s : State T} {t : T} (r : Request) : s.own t = none → Step s (t, .call r)
      ⟨s.shared, Function.update s.own t (some ⟨r, [], .called r.logger⟩)⟩
  | compare {s : State T} {t : T} {r : Request} {held : List LoggerPtr} {l : LoggerPtr}
      {lg : Logger} : s.own t = some ⟨r, held, .called l⟩ →
      s.shared.manager.logger l = some lg → lg.level ≤ r.level → Step s (t, .compare true)
        ⟨s.shared, Function.update s.own t (some ⟨r, held, .compared l⟩)⟩
  | refuse {s : State T} {t : T} {r : Request} {held : List LoggerPtr} {l : LoggerPtr}
      {lg : Logger} : s.own t = some ⟨r, held, .called l⟩ →
      s.shared.manager.logger l = some lg → ¬ lg.level ≤ r.level →
        Step s (t, .compare false)
          ⟨s.shared, Function.update s.own t (some ⟨r, held, .returning⟩)⟩
  | lock {s : State T} {t : T} {r : Request} {held : List LoggerPtr} {l : LoggerPtr}
      {lg : Logger} {a : AppenderPtr} {rest : List AppenderPtr} :
      s.own t = some ⟨r, held, .compared l⟩ → s.shared.manager.logger l = some lg → Free s l →
      lg.appenders = a :: rest → Step s (t, .lock l r (a :: rest))
        ⟨s.shared, Function.update s.own t (some ⟨r, held, .inside l (a :: rest)⟩)⟩
  | handOn {s : State T} {t : T} {r : Request} {held : List LoggerPtr} {l k : LoggerPtr}
      {lg : Logger} : s.own t = some ⟨r, held, .compared l⟩ →
      s.shared.manager.logger l = some lg → Free s l → lg.appenders = [] → lg.root = some k →
        Step s (t, .handOn (some k))
          ⟨s.shared, Function.update s.own t (some ⟨r, l :: held, .called k⟩)⟩
  | drop {s : State T} {t : T} {r : Request} {held : List LoggerPtr} {l : LoggerPtr}
      {lg : Logger} : s.own t = some ⟨r, held, .compared l⟩ →
      s.shared.manager.logger l = some lg → Free s l → lg.appenders = [] → lg.root = none →
        Step s (t, .handOn none)
          ⟨s.shared, Function.update s.own t (some ⟨r, l :: held, .returning⟩)⟩
  | weigh {s : State T} {t : T} {r : Request} {held : List LoggerPtr} {l : LoggerPtr}
      {a : AppenderPtr} {rest : List AppenderPtr} {ap : LogAppender} :
      s.own t = some ⟨r, held, .inside l (a :: rest)⟩ →
      s.shared.manager.appender a = some ap → ap.level ≤ r.level → Step s (t, .weigh a true)
        ⟨s.shared, Function.update s.own t (some ⟨r, held, .writing l a rest⟩)⟩
  | skip {s : State T} {t : T} {r : Request} {held : List LoggerPtr} {l : LoggerPtr}
      {a : AppenderPtr} {rest : List AppenderPtr} {ap : LogAppender} :
      s.own t = some ⟨r, held, .inside l (a :: rest)⟩ →
      s.shared.manager.appender a = some ap → ¬ ap.level ≤ r.level → Step s (t, .weigh a false)
        ⟨s.shared, Function.update s.own t (some ⟨r, held, .inside l rest⟩)⟩
  | write {s : State T} {t : T} {r : Request} {held : List LoggerPtr} {l : LoggerPtr}
      {a : AppenderPtr} {rest : List AppenderPtr} {ap : LogAppender} {f : LogFormatter} :
      s.own t = some ⟨r, held, .writing l a rest⟩ →
      s.shared.manager.appender a = some ap → ap.formatter = some f → Step s (t, .write a)
        ⟨{ s.shared with out := Function.update s.shared.out a (s.shared.out a ++
            [⟨l, r, f.format r.env.strftime r.level r.event⟩]) },
          Function.update s.own t (some ⟨r, held, .inside l rest⟩)⟩
  | leave {s : State T} {t : T} {r : Request} {held : List LoggerPtr} {l : LoggerPtr} :
      s.own t = some ⟨r, held, .inside l []⟩ → Step s (t, .leave)
        ⟨s.shared, Function.update s.own t (some ⟨r, held, .returning⟩)⟩
  | giveBack {s : State T} {t : T} {r : Request} {held : List LoggerPtr} {l : LoggerPtr} :
      s.own t = some ⟨r, l :: held, .returning⟩ → Step s (t, .giveBack l)
        ⟨s.shared, Function.update s.own t (some ⟨r, held, .returning⟩)⟩
  | done {s : State T} {t : T} {r : Request} : s.own t = some ⟨r, [], .returning⟩ →
      Step s (t, .done) ⟨s.shared, Function.update s.own t none⟩
  | configure {s : State T} {t : T} {c : Call} {m : LoggerManager} : s.own t = none →
      (∀ l ∈ touched c, Free s l) → s.shared.manager.perform c = .ok m →
        Step s (t, .configure c) ⟨{ s.shared with manager := m }, s.own⟩

/-! ## Broadcasts -/

/-- What is on its way to the appenders of a logger. -/
def delivery (x : Activity) : Option (Broadcast.Delivery LoggerPtr Request AppenderPtr) :=
  match x.phase with
  | .inside l rest => some ⟨l, x.request, rest⟩
  | .writing l a rest => some ⟨l, x.request, a :: rest⟩
  | _ => none

/-- The loggers are the sources, and the appenders the sinks. -/
def seen (s : State T) : Broadcast.State T LoggerPtr Request AppenderPtr :=
  ⟨fun a ↦ (s.shared.out a).map fun w ↦ (w.via, w.request), fun t ↦ (s.own t).bind delivery⟩

/-- What a step is in a broadcast. -/
def Act.seen : Act → List (Broadcast.Act LoggerPtr Request AppenderPtr)
  | .lock l r appenders => [.enter l r appenders]
  | .weigh a false => [.offer a false]
  | .write a => [.offer a true]
  | .leave => [.leave]
  | _ => []

/-- What a step of a thread is. -/
def acts (x : T × Act) : List (T × Broadcast.Act LoggerPtr Request AppenderPtr) :=
  x.2.seen.map fun e ↦ (x.1, e)

variable {s s' : State T} {t : T} {x : T × Act} {tr : List (T × Act)} {y : Option Activity}
variable {σ : Lines} {m : LoggerManager} {l : LoggerPtr} {a : AppenderPtr}

/-- One thread goes on. -/
theorem seen_update : seen (⟨σ, Function.update s.own t y⟩ : State T) =
    ⟨(seen (⟨σ, s.own⟩ : State T)).shared,
      Function.update (seen s).own t (y.bind delivery)⟩ := by
  unfold seen
  congr 1
  funext u
  show (Function.update s.own t y u).bind delivery =
    Function.update (fun t ↦ (s.own t).bind delivery) t (y.bind delivery) u
  by_cases hu : u = t
  · subst hu
    rw [Function.update_self, Function.update_self]
  · rw [Function.update_of_ne hu, Function.update_of_ne hu]

/-- The requests an appender has written in the loop of a logger. -/
def received (s : State T) (l : LoggerPtr) (a : AppenderPtr) : List Request :=
  ((s.shared.out a).filter (·.via = l)).map WrittenLine.request

/-- The requests of a step that get the lock of a logger, and its appenders then. -/
def Act.locked (l : LoggerPtr) : Act → List (Request × List AppenderPtr)
  | .lock l' r appenders => if l' = l then [(r, appenders)] else []
  | _ => []

/-- The requests that have got the lock of a logger, in order, and its appenders then. -/
def locked (l : LoggerPtr) (tr : List (T × Act)) : List (Request × List AppenderPtr) :=
  tr.flatMap fun x ↦ x.2.locked l

/-- A step inside a call of `Logger::log`. -/
def Act.Logs : Act → Prop
  | .call _ | .configure _ => False
  | _ => True

/-- A thread calls `Logger::log`, and no other does anything until the call has returned. -/
def Uninterrupted (t : T) (r : Request) (s s' : State T) : Prop :=
  ∃ es : List Act, (∀ e ∈ es, e.Logs) ∧
    Run Step s ((t, .call r) :: es.map fun e ↦ (t, e)) s' ∧ s'.own t = none

/-- A thread goes on with its call. -/
def Goes (t : T) (s : State T) (e : Act) (s' : State T) : Prop :=
  s.own t ≠ none ∧ Step s (t, e) s'

/-- A thread gets to `y`, while it writes lines. -/
structure Alone (t : T) (s s' : State T) (lines : List (AppenderPtr × String))
    (y : Option Activity) : Prop where
  run : ∃ es, Run (Goes t) s es s'
  own : s'.own = Function.update s.own t y
  manager : s'.shared.manager = s.shared.manager
  lines : ∀ a, (s'.shared.out a).map WrittenLine.line =
    (s.shared.out a).map WrittenLine.line ++ (lines.filter (·.1 = a)).map Prod.snd

section alone

variable {s₁ s₂ : State T} {xs ys lines : List (AppenderPtr × String)} {z : Option Activity}
variable {e : Act} {r : Request} {held : List LoggerPtr} {lg : Logger}

theorem Alone.trans (h : Alone t s s₁ xs y) (h' : Alone t s₁ s₂ ys z) :
    Alone t s s₂ (xs ++ ys) z where
  run := by
    obtain ⟨tr, htr⟩ := h.run
    obtain ⟨tr', htr'⟩ := h'.run
    exact ⟨_, htr.append htr'⟩
  own := by rw [h'.own, h.own, Function.update_idem]
  manager := h'.manager.trans h.manager
  lines a := by rw [h'.lines, h.lines, List.append_assoc, List.filter_append, List.map_append]

/-- The steps inside a call are those of a thread in a call. -/
theorem goes_iff : Goes t s e s' ↔ Step s (t, e) s' ∧ e.Logs := by
  constructor
  · rintro ⟨hbusy, hs⟩
    refine ⟨hs, ?_⟩
    cases hs with
    | call _ hidle => exact absurd hidle hbusy
    | configure hidle _ _ => exact absurd hidle hbusy
    | _ => trivial
  · rintro ⟨hs, he⟩
    refine ⟨fun hidle ↦ ?_, hs⟩
    cases hs with
    | call _ _ => exact he
    | configure _ _ _ => exact he
    | _ => simp_all

/-- A step that writes nothing. -/
theorem alone_silent (hs : Step s (t, e) ⟨s.shared, Function.update s.own t y⟩) (he : e.Logs) :
    Alone t s ⟨s.shared, Function.update s.own t y⟩ [] y :=
  ⟨⟨_, .cons (goes_iff.mpr ⟨hs, he⟩) (.nil _)⟩, rfl, rfl, fun _ ↦ (List.append_nil _).symm⟩

theorem Alone.own_self (h : Alone t s s₁ xs y) : s₁.own t = y := by
  rw [h.own, Function.update_self]

theorem Alone.others (h : Alone t s s₁ xs y) (hothers : ∀ u ≠ t, s.own u = none) :
    ∀ u ≠ t, s₁.own u = none := by
  intro u hu
  rw [h.own, Function.update_of_ne hu]
  exact hothers u hu

omit [DecidableEq T] in
/-- A lock that the only thread at work does not hold is free. -/
theorem free_alone {x : Activity} (hothers : ∀ u ≠ t, s.own u = none) (hx : s.own t = some x)
    (hl : ¬ x.Holds l) : Free s l := by
  intro u x' hx'
  by_cases hu : u = t
  · subst hu
    cases hx.symm.trans hx'
    exact hl
  · rw [hothers u hu] at hx'
    cases hx'

/-- The loop over the appenders. -/
theorem loop_alone {as : List AppenderPtr} (has : ∀ a ∈ as, ∃ ap, m.appender a = some ap)
    (hx : s.own t = some ⟨r, held, .inside l as⟩) (hm : s.shared.manager = m)
    (h : (as.filter fun a ↦ m.Takes r.level a).mapM (m.deliver r.env r.level r.event) =
      .ok lines) : ∃ s', Alone t s s' lines (some ⟨r, held, .inside l []⟩) := by
  induction as generalizing s lines with
  | nil =>
      cases h
      refine ⟨s, ⟨[], .nil s⟩, ?_, rfl, fun _ ↦ (List.append_nil _).symm⟩
      rw [← hx, Function.update_eq_self]
  | cons a as ih =>
      obtain ⟨ap, ha⟩ := has a List.mem_cons_self
      have has' : ∀ b ∈ as, ∃ ap, m.appender b = some ap :=
        fun b hb ↦ has b (List.mem_cons_of_mem a hb)
      have ha' : s.shared.manager.appender a = some ap := hm ▸ ha
      by_cases hle : ap.level ≤ r.level
      · have htakes : m.Takes r.level a := ⟨ap, ha, hle⟩
        rw [List.filter_cons_of_pos (by simpa using htakes), List.mapM_cons,
          Except.bind_ok_iff] at h
        obtain ⟨o, ho, h⟩ := h
        obtain ⟨rest, hrest, hlines⟩ := Except.bind_ok_iff.mp h
        cases hlines
        cases hf : ap.formatter with
        | none => simp [LoggerManager.deliver, ha, hf] at ho
        | some f =>
            obtain rfl : (a, f.format r.env.strftime r.level r.event) = o := by
              simpa [LoggerManager.deliver, ha, hf] using ho
            have hweigh := alone_silent (.weigh hx ha' hle) trivial
            have hwrite := Step.write hweigh.own_self ha' hf
            have hput : Alone t _ _ [(a, f.format r.env.strftime r.level r.event)] _ :=
              ⟨⟨_, .cons (goes_iff.mpr ⟨hwrite, trivial⟩) (.nil _)⟩, rfl, rfl, fun b ↦ ?_⟩
            · obtain ⟨s', hs'⟩ := ih has' hput.own_self hm hrest
              exact ⟨s', (hweigh.trans hput).trans hs'⟩
            · by_cases hb : b = a
              · subst hb
                simp
              · simp [Function.update_of_ne hb, Ne.symm hb]
      · have htakes : ¬ m.Takes r.level a := by
          rintro ⟨ap', hap', hle'⟩
          cases ha.symm.trans hap'
          exact hle hle'
        rw [List.filter_cons_of_neg (by simpa using htakes)] at h
        have hskip := alone_silent (.skip hx ha' hle) trivial
        obtain ⟨s', hs'⟩ := ih has' hskip.own_self hm h
        exact ⟨s', hskip.trans hs'⟩

/-- The locks are given back one after the other. -/
theorem returns_alone (hx : s.own t = some ⟨r, held, .returning⟩) : ∃ s', Alone t s s' [] none := by
  induction held generalizing s with
  | nil => exact ⟨_, alone_silent (.done hx) trivial⟩
  | cons l held ih =>
      have hback := alone_silent (.giveBack hx) trivial
      obtain ⟨s', hs'⟩ := ih hback.own_self
      exact ⟨s', hback.trans hs'⟩

/-- A logger that writes with its own appenders, or not at all. -/
theorem arrive_alone (hothers : ∀ u ≠ t, s.own u = none)
    (hx : s.own t = some ⟨r, held, .called l⟩) (hm : s.shared.manager = m) (hheld : l ∉ held)
    (hl : m.logger l = some lg) (has : ∀ a ∈ lg.appenders, ∃ ap, m.appender a = some ap)
    (hroot : lg.level ≤ r.level → lg.appenders = [] → lg.root = none)
    (h : ((if lg.level ≤ r.level then lg.appenders else []).filter
      fun a ↦ m.Takes r.level a).mapM (m.deliver r.env r.level r.event) = .ok lines) :
    ∃ s', Alone t s s' lines none := by
  have hl' : s.shared.manager.logger l = some lg := hm ▸ hl
  by_cases hle : lg.level ≤ r.level
  · rw [if_pos hle] at h
    have hcompare := alone_silent (.compare hx hl' hle) trivial
    have hfree := free_alone (l := l) (hcompare.others hothers) hcompare.own_self
      (by rintro (hmem | ⟨⟨⟩⟩); exact hheld hmem)
    cases happ : lg.appenders with
    | nil =>
        rw [happ] at h
        cases h
        have hdrop := alone_silent (.drop hcompare.own_self hl' hfree happ (hroot hle happ)) trivial
        obtain ⟨s', hs'⟩ := returns_alone hdrop.own_self
        exact ⟨s', (hcompare.trans hdrop).trans hs'⟩
    | cons a rest =>
        rw [happ] at h has
        have hlock := alone_silent (.lock hcompare.own_self hl' hfree happ) trivial
        obtain ⟨s₁, h₁⟩ := loop_alone has hlock.own_self hm h
        have hleave := alone_silent (.leave h₁.own_self) trivial
        obtain ⟨s', hs'⟩ := returns_alone hleave.own_self
        refine ⟨s', ?_⟩
        have hall := (((hcompare.trans hlock).trans h₁).trans hleave).trans hs'
        rwa [List.append_nil, List.append_nil] at hall
  · rw [if_neg hle] at h
    cases h
    have hrefuse := alone_silent (.refuse hx hl' hle) trivial
    obtain ⟨s', hs'⟩ := returns_alone hrefuse.own_self
    exact ⟨s', hrefuse.trans hs'⟩

/-- The logger keeps the event. -/
theorem targets_own {level : Level} {root : Logger}
    (h : lg.level ≤ level → lg.appenders = [] → lg = root) :
    LoggerManager.targets level lg root = if lg.level ≤ level then lg.appenders else [] := by
  unfold LoggerManager.targets
  by_cases hle : lg.level ≤ level
  · rw [if_pos hle, if_pos hle]
    by_cases happ : lg.appenders = []
    · rw [if_neg (not_not.mpr happ), ← h hle happ, if_pos hle]
    · rw [if_pos happ]
  · rw [if_neg hle, if_neg hle]

/-- The logger hands it on. -/
theorem targets_root {level : Level} {root : Logger} (hle : lg.level ≤ level)
    (happ : lg.appenders = []) : LoggerManager.targets level lg root =
      if root.level ≤ level then root.appenders else [] := by
  rw [LoggerManager.targets, if_pos hle, if_neg (not_not.mpr happ)]

/-- While no other thread is in `Logger::log`, a call that has been made writes the lines of
`LoggerManager.log`. -/
theorem log_alone (hr : s.shared.manager.Routed) (hothers : ∀ u ≠ t, s.own u = none)
    (hx : s.own t = some ⟨r, [], .called r.logger⟩)
    (h : s.shared.manager.log r.env r.logger r.level r.event = .ok lines) :
    ∃ s', Alone t s s' lines none := by
  obtain ⟨root, hroot, hnone⟩ := hr.root
  cases hl : s.shared.manager.logger r.logger with
  | none => simp [LoggerManager.log, LoggerManager.logFrom, LoggerManager.derefLogger, hl] at h
  | some lg =>
      rw [LoggerManager.log_eq hr hroot hl] at h
      by_cases hpass : lg.level ≤ r.level ∧ lg.appenders = [] ∧ r.logger ≠ s.shared.manager.root
      · obtain ⟨hle, happ, hne⟩ := hpass
        have hcompare := alone_silent (.compare hx hl hle) trivial
        have hfree := free_alone (l := r.logger) (hcompare.others hothers) hcompare.own_self
          (by rintro (⟨⟨⟩⟩ | ⟨⟨⟩⟩))
        have hon := alone_silent
          (.handOn hcompare.own_self hl hfree happ (hr.fallback r.logger lg hl hne)) trivial
        rw [targets_root hle happ] at h
        obtain ⟨s', hs'⟩ := arrive_alone (hon.others (hcompare.others hothers)) hon.own_self
          rfl (by simpa using hne.symm) hroot (hr.attached _ root hroot) (fun _ _ ↦ hnone) h
        exact ⟨s', (hcompare.trans hon).trans hs'⟩
      · have hstays : lg.level ≤ r.level → lg.appenders = [] →
            r.logger = s.shared.manager.root := by
          intro hle happ
          by_contra hne
          exact hpass ⟨hle, happ, hne⟩
        have hsame : lg.level ≤ r.level → lg.appenders = [] → lg = root := by
          intro hle happ
          rw [hstays hle happ] at hl
          exact Option.some.inj (hl.symm.trans hroot)
        rw [targets_own hsame] at h
        exact arrive_alone hothers hx rfl List.not_mem_nil hl (hr.attached _ lg hl)
          (fun hle happ ↦ hsame hle happ ▸ hnone) h

/-! ### There is no other such run -/

/-- A thread in a call can go one way only. -/
theorem goes_unique (h : Goes t s e s₁) (h' : Goes t s e' s₂) : e = e' ∧ s₁ = s₂ := by
  obtain ⟨hbusy, h⟩ := h
  obtain ⟨-, h'⟩ := h'
  cases h <;> cases h' <;> simp_all

/-- As if the other threads were not there. -/
def quiet (t : T) (s : State T) : State T :=
  ⟨s.shared, Function.update (fun _ ↦ none) t (s.own t)⟩

theorem quiet_own (t : T) (s : State T) : (quiet t s).own t = s.own t := by simp [quiet]

theorem quiet_others {u : T} (hu : u ≠ t) : (quiet t s).own u = none := by simp [quiet, hu]

theorem quiet_update (σ : Lines) (y : Option Activity) :
    quiet t (⟨σ, Function.update s.own t y⟩ : State T) =
      ⟨σ, Function.update (quiet t s).own t y⟩ := by
  simp [quiet]

theorem Free.quiet (h : Free s l) : Free (quiet t s) l := by
  intro u x hx
  by_cases hu : u = t
  · subst hu
    exact h u x ((quiet_own u s).symm.trans hx)
  · cases (quiet_others hu).symm.trans hx

/-- What a thread does in a call the others can only hinder. -/
theorem Goes.quiet (h : Goes t s e s') : Goes t (quiet t s) e (quiet t s') := by
  obtain ⟨hbusy, hs⟩ := h
  have hown := quiet_own t s
  refine ⟨hown ▸ hbusy, ?_⟩
  cases hs with
  | call _ hidle => exact absurd hidle hbusy
  | configure hidle _ _ => exact absurd hidle hbusy
  | compare hx hl hle =>
      rw [quiet_update]
      exact .compare (hown.trans hx) hl hle
  | refuse hx hl hle =>
      rw [quiet_update]
      exact .refuse (hown.trans hx) hl hle
  | lock hx hl hfree happ =>
      rw [quiet_update]
      exact .lock (hown.trans hx) hl hfree.quiet happ
  | handOn hx hl hfree happ hroot =>
      rw [quiet_update]
      exact .handOn (hown.trans hx) hl hfree.quiet happ hroot
  | drop hx hl hfree happ hroot =>
      rw [quiet_update]
      exact .drop (hown.trans hx) hl hfree.quiet happ hroot
  | weigh hx ha hle =>
      rw [quiet_update]
      exact .weigh (hown.trans hx) ha hle
  | skip hx ha hle =>
      rw [quiet_update]
      exact .skip (hown.trans hx) ha hle
  | write hx ha hf =>
      rw [quiet_update]
      exact .write (hown.trans hx) ha hf
  | leave hx =>
      rw [quiet_update]
      exact .leave (hown.trans hx)
  | giveBack hx =>
      rw [quiet_update]
      exact .giveBack (hown.trans hx)
  | done hx =>
      rw [quiet_update]
      exact .done (hown.trans hx)

/-- The call has been made. -/
def begun (t : T) (r : Request) (s : State T) : State T :=
  ⟨s.shared, Function.update s.own t (some ⟨r, [], .called r.logger⟩)⟩

theorem begun_own (t : T) (r : Request) (s : State T) :
    (begun t r s).own t = some ⟨r, [], .called r.logger⟩ := by simp [begun]

/-- The steps inside a call, as steps of the thread among all. -/
theorem goes_run_iff {es : List Act} : Run (Goes t) s es s' ↔
    (∀ e ∈ es, e.Logs) ∧ Run Step s (es.map fun e ↦ (t, e)) s' := by
  constructor
  · intro h
    induction h with
    | nil s => exact ⟨nofun, .nil s⟩
    | cons hs _ ih =>
        obtain ⟨hstep, he⟩ := goes_iff.mp hs
        exact ⟨List.forall_mem_cons.mpr ⟨he, ih.1⟩, .cons hstep ih.2⟩
  · rintro ⟨hlogs, hrun⟩
    induction es generalizing s with
    | nil =>
        cases hrun
        exact .nil _
    | cons e es ih =>
        obtain ⟨he, hlogs⟩ := List.forall_mem_cons.mp hlogs
        cases hrun with
        | cons hs hrun => exact .cons (goes_iff.mpr ⟨hs, he⟩) (ih hlogs hrun)

/-- What follows on the call. -/
theorem uninterrupted_iff : Uninterrupted t r s s' ↔ s.own t = none ∧ s'.own t = none ∧
    ∃ es, Run (Goes t) (begun t r s) es s' := by
  constructor
  · rintro ⟨es, hlogs, hrun, hend⟩
    cases hrun with
    | cons hcall hrun =>
        cases hcall with
        | call r hidle => exact ⟨hidle, hend, es, goes_run_iff.mpr ⟨hlogs, hrun⟩⟩
  · rintro ⟨hidle, hend, es, hrun⟩
    obtain ⟨hlogs, hrun⟩ := goes_run_iff.mp hrun
    exact ⟨es, hlogs, .cons (.call r hidle) hrun, hend⟩

/-- Wherever the other threads are, it writes the lines of `LoggerManager.log`. -/
theorem Uninterrupted.writes (hr : s.shared.manager.Routed) (hcall : Uninterrupted t r s s')
    (h : s.shared.manager.log r.env r.logger r.level r.event = .ok lines) :
    s'.shared.manager = s.shared.manager ∧
      ∀ a, (s'.shared.out a).map WrittenLine.line = (s.shared.out a).map WrittenLine.line ++
        (lines.filter (·.1 = a)).map Prod.snd := by
  obtain ⟨-, hend, es, hrun⟩ := uninterrupted_iff.mp hcall
  have hsim : ∀ (s : State T) (e : Act) s' q, quiet t s = q → Goes t s e s' →
      ∃ q', Goes t q (id e) q' ∧ quiet t s' = q' :=
    fun _ _ _ _ hq hs ↦ ⟨_, hq ▸ hs.quiet, rfl⟩
  obtain ⟨q, hquiet, rfl⟩ := hrun.simulate hsim rfl
  obtain ⟨s₂, hs₂⟩ := log_alone (s := quiet t (begun t r s)) hr (fun _ ↦ quiet_others)
    ((quiet_own t _).trans (begun_own t r s)) h
  obtain ⟨es₂, hrun₂⟩ := hs₂.run
  have hunique : ∀ (s : State T) (e e' : Act) s₁ s₂, Goes t s e s₁ → Goes t s e' s₂ →
      e = e' ∧ s₁ = s₂ := fun _ _ _ _ _ ↦ goes_unique
  have hend₁ : ∀ e u, ¬ Goes t (quiet t s') e u := fun _ _ hs ↦ hs.1 ((quiet_own t s').trans hend)
  have hend₂ : ∀ e u, ¬ Goes t s₂ e u := fun _ _ hs ↦ hs.1 hs₂.own_self
  obtain ⟨-, heq⟩ := hquiet.unique hunique hrun₂ hend₁ hend₂
  subst heq
  exact ⟨hs₂.manager, hs₂.lines⟩

end alone

/-- A message for the root. -/
def greeting (content : String) : Request :=
  { env := .plain, logger := 0, level := .ERROR,
    event := { file := "main.cc", line := 1, elapse := 0, threadID := 1, fiberID := 0, time := 0,
               content, loggerName := "root", level := .ERROR, threadName := "main" } }

end Lines

end Sylar.Log
