import Sylar.Foundation.Sections
import Sylar.Log.Objects

/-!
# The names of loggers and many threads

`LoggerManager` guards its map with a mutex: `getLogger` holds it to find a logger or to
make one, `toYamlString` to go through all of them.  What other threads do to the loggers
meanwhile is not guarded by it.  `Names` is therefore the part of the manager that only
these two functions and the constructor touch: the map, the addresses that have been
handed out, and the name and the fallback of each logger.

In every interleaving each name has one logger, and a thread that is given a logger finds
it finished.
-/

namespace Sylar.Log

open Foundation

/-- The part of a manager that its mutex guards. -/
structure Names where
  loggers : Keyed (Prod.fst : String × LoggerPtr → String)
  root : LoggerPtr
  nextLogger : LoggerPtr
  /-- `m_name` and `m_root` of the loggers. -/
  made : LoggerPtr → Option (String × Option LoggerPtr)

/-- That part of a manager. -/
def LoggerManager.names (m : LoggerManager) : Names where
  loggers := m.loggers
  root := m.root
  nextLogger := m.nextLogger
  made := fun l ↦ (m.logger l).map fun lg ↦ (lg.name, lg.root)

namespace Names

/-! ## The functions, access by access -/

/-- The functions that take the mutex. -/
inductive Call
  | getLogger (name : String)
  /-- The loop of `toYamlString`. -/
  | toYamlString

/-- What they return.  For `toYamlString` it is the loggers it asks for their texts. -/
inductive Answer
  | logger (l : LoggerPtr)
  | asked (ls : List LoggerPtr)

/-- `new Logger(name)`. -/
def allocate (name : String) (n : Names) : Names :=
  { n with
    made := Function.update n.made n.nextLogger (some (name, none))
    nextLogger := n.nextLogger + 1 }

/-- `logger->m_root = m_root`. -/
def setRoot (l : LoggerPtr) (n : Names) : Names :=
  { n with made := Function.update n.made l ((n.made l).map fun x ↦ (x.1, some n.root)) }

/-- `m_loggers[name] = logger`. -/
def insert (name : String) (l : LoggerPtr) (n : Names) : Names :=
  { n with loggers := n.loggers.insert (name, l) }

/-- `getLogger`. -/
def getLoggerSection (name : String) : Section Names Answer := do
  match ← .read fun n ↦ n.loggers.find? name with
  | some it => return .logger it.2
  | none =>
      let logger ← .read nextLogger
      let _ ← .write (allocate name)
      let _ ← .write (setRoot logger)
      let _ ← .write (insert name logger)
      return .logger logger

/-- The loop of `toYamlString`. -/
def toYamlStringSection : Section Names Answer := do
  let es ← .traverse fun n ↦ n.loggers.toList
  return .asked (es.map Prod.snd)

/-- The accesses of each function. -/
def body : Call → Section Names Answer
  | .getLogger name => getLoggerSection name
  | .toYamlString => toYamlStringSection

/-! ## At once -/

/-- A logger that has been made and entered. -/
def make (name : String) (n : Names) : Names :=
  { n with
    made := Function.update n.made n.nextLogger (some (name, some n.root))
    nextLogger := n.nextLogger + 1
    loggers := n.loggers.insert (name, n.nextLogger) }

/-- What a call returns, and what it leaves. -/
def answer (n : Names) : Call → Answer × Names
  | .getLogger name =>
      match n.loggers.find? name with
      | some it => (.logger it.2, n)
      | none => (.logger n.nextLogger, n.make name)
  | .toYamlString => (.asked (n.loggers.toList.map Prod.snd), n)

variable {n n' : Names} {name : String} {l : LoggerPtr}

/-- The accesses of a function, without interruption, are the function. -/
theorem run_body (c : Call) : (body c).run n = n.answer c := by
  cases c with
  | getLogger name =>
      cases hf : n.loggers.find? name with
      | some it => simp [body, getLoggerSection, answer, hf]
      | none =>
          simp [body, getLoggerSection, answer, hf, allocate, setRoot, insert, make]
  | toYamlString => simp [body, toYamlStringSection, answer]

/-- `getLogger` of the manager, as its map sees it. -/
theorem answer_names (m : LoggerManager) (name : String) :
    m.names.answer (.getLogger name) =
      (.logger (m.getLogger name).1, (m.getLogger name).2.names) := by
  cases hf : m.loggers.find? name with
  | some it => simp [answer, LoggerManager.getLogger, LoggerManager.names, hf]
  | none =>
      simp only [answer, LoggerManager.getLogger, LoggerManager.names, hf, make,
        LoggerManager.newLogger]
      congr 2
      funext k
      by_cases hk : k = m.nextLogger
      · subst hk
        simp [Logger.new]
      · simp [hk]

/-- The map with its mutex. -/
def monitor : Monitor Names Call Answer where
  mode _ := .exclusive
  body := body
  shared := fun _ h ↦ nomatch h

/-! ## One logger for each name -/

/-- The logger that falls back to the root, unless it is the root. -/
def finished (n : Names) (name : String) (l : LoggerPtr) : Option (String × Option LoggerPtr) :=
  some (name, if l = n.root then none else some n.root)

/-- The map enters each logger once, and under its own name. -/
structure Sound (n : Names) : Prop where
  injective : ∀ e ∈ n.loggers, ∀ e' ∈ n.loggers, e.2 = e'.2 → e = e'
  made : ∀ e ∈ n.loggers, n.made e.2 = n.finished e.1 e.2
  fresh : ∀ l, n.nextLogger ≤ l → n.made l = none
  root : ("root", n.root) ∈ n.loggers

theorem Sound.ne_next (h : n.Sound) {e : String × LoggerPtr} (he : e ∈ n.loggers) :
    e.2 ≠ n.nextLogger := by
  intro heq
  have hmade := h.made e he
  rw [h.fresh e.2 (Nat.le_of_eq heq.symm)] at hmade
  cases hmade

/-- The entries of the map after a new logger has been made. -/
theorem mem_make (hf : n.loggers.find? name = none) {e : String × LoggerPtr} :
    e ∈ (n.make name).loggers ↔ e ∈ n.loggers ∨ e = (name, n.nextLogger) := by
  have hkey : ∀ k, (n.make name).loggers.find? k =
      (n.loggers.find? k).or (if name = k then some (name, n.nextLogger) else none) :=
    fun k ↦ Keyed.find?_insert
  constructor
  · intro he
    exact (Keyed.mem_place he).symm
  · intro he
    have hfind : (n.make name).loggers.find? e.1 = some e := by
      rw [hkey]
      rcases he with he | rfl
      · rw [Keyed.find?_eq_some.mpr ⟨he, rfl⟩]
        rfl
      · rw [hf, if_pos rfl]
        rfl
    exact (Keyed.find?_eq_some.mp hfind).1

theorem Sound.make (h : n.Sound) (hf : n.loggers.find? name = none) : (n.make name).Sound := by
  refine ⟨fun e he e' he' heq ↦ ?_, fun e he ↦ ?_, fun l hl ↦ ?_, (mem_make hf).mpr (.inl h.root)⟩
  · rcases (mem_make hf).mp he with he | rfl
    · rcases (mem_make hf).mp he' with he' | rfl
      · exact h.injective e he e' he' heq
      · exact absurd heq (h.ne_next he)
    · rcases (mem_make hf).mp he' with he' | rfl
      · exact absurd heq.symm (h.ne_next he')
      · rfl
  · rcases (mem_make hf).mp he with he | rfl
    · exact (Function.update_of_ne (h.ne_next he) _ _).trans (h.made e he)
    · have hne : n.nextLogger ≠ n.root := (h.ne_next h.root).symm
      refine (Function.update_self ..).trans ?_
      show some (name, some n.root) =
        some (name, if n.nextLogger = n.root then none else some n.root)
      rw [if_neg hne]
  · have hlt : n.nextLogger < l := hl
    exact (Function.update_of_ne (Nat.ne_of_gt hlt) _ _).trans (h.fresh l (Nat.le_of_lt hlt))

section Threads

variable {U : Type} {tr : List (U × Monitor.Act Call Answer)}
variable {s : Monitor.State U Names Call Answer} {l : U × Call × Answer}
variable {ls : List (U × Call × Answer)}

/-- One call after the other, each by some thread. -/
def Answers (n : Names) (l : U × Call × Answer) (n' : Names) : Prop := n.answer l.2.1 = (l.2.2, n')

/-- The call has returned a logger for the name. -/
def Gives (l : U × Call × Answer) (name : String) (p : LoggerPtr) : Prop :=
  l.2 = (.getLogger name, .logger p)

/-- A dump asks no logger twice, and all those that have been given to a thread. -/
def Complete (pre : List (U × Call × Answer)) (l : U × Call × Answer) : Prop :=
  ∀ ps, l.2 = (.toYamlString, .asked ps) →
    ps.Nodup ∧ ∀ k ∈ pre, ∀ name p, Gives k name p → p ∈ ps

/-- What calls that have returned tell about the map they leave. -/
structure Consistent (ls : List (U × Call × Answer)) (n : Names) : Prop extends n.Sound where
  given : ∀ l ∈ ls, ∀ name p, Gives l name p → (name, p) ∈ n.loggers
  complete : Each Complete ls

/-- The loggers of the map are different. -/
theorem Sound.nodup (h : n.Sound) : (n.loggers.toList.map Prod.snd).Nodup := by
  have hnodup : n.loggers.toList.Nodup := n.loggers.sorted.imp fun h heq ↦ by
    subst heq
    exact lt_irrefl _ h
  exact List.Nodup.map_on (fun e he e' he' ↦ h.injective e he e' he') hnodup

/-- **Step lemma.** -/
theorem Consistent.answer (h : Consistent ls n) (hs : Answers n l n') :
    Consistent (ls ++ [l]) n' := by
  obtain ⟨u, c, r⟩ := l
  have hold : ∀ {n' : Names}, n'.Sound → (∀ e ∈ n.loggers, e ∈ n'.loggers) →
      (∀ name p, Gives (u, c, r) name p → (name, p) ∈ n'.loggers) → Complete ls (u, c, r) →
      Consistent (ls ++ [(u, c, r)]) n' := by
    intro n' hn' hkeeps hnew hcomplete
    refine ⟨hn', fun k hk name p hp ↦ ?_, h.complete.snoc hcomplete⟩
    rcases List.mem_append.mp hk with hk | hk
    · exact hkeeps _ (h.given k hk name p hp)
    · obtain rfl := List.mem_singleton.mp hk
      exact hnew name p hp
  cases c with
  | getLogger name =>
      cases hf : n.loggers.find? name with
      | some it =>
          simp only [Answers, Names.answer, hf] at hs
          obtain ⟨rfl, rfl⟩ := Prod.mk.inj hs
          obtain ⟨hmem, rfl⟩ := Keyed.find?_eq_some.mp hf
          refine hold h.toSound (fun _ he ↦ he) ?_ nofun
          rintro _ _ ⟨⟩
          exact hmem
      | none =>
          simp only [Answers, Names.answer, hf] at hs
          obtain ⟨rfl, rfl⟩ := Prod.mk.inj hs
          refine hold (h.toSound.make hf) (fun e he ↦ (mem_make hf).mpr (.inl he)) ?_ nofun
          rintro _ _ ⟨⟩
          exact (mem_make hf).mpr (.inr rfl)
  | toYamlString =>
      obtain ⟨rfl, rfl⟩ := Prod.mk.inj hs
      refine hold h.toSound (fun _ he ↦ he) nofun ?_
      rintro _ ⟨⟩
      refine ⟨h.toSound.nodup, fun k hk name p hp ↦ ?_⟩
      exact List.mem_map.mpr ⟨_, h.given k hk name p hp, rfl⟩

/-- **Run lemma.** -/
theorem consistent_of_run (hn : n.Sound) (h : Run Answers n ls n') : Consistent ls n' := by
  have hstart : Consistent ([] : List (U × Call × Answer)) n := by
    refine ⟨hn, ?_, Each.nil⟩
    intro l hl
    cases hl
  refine h.history (P := Consistent) hstart ?_
  intro ls n l n' _ ih hs
  exact ih.answer hs

/-- **One logger for each name.**  In every interleaving, two calls of `getLogger` are
given the same logger exactly if they ask for the same name, and a thread that is about
to be given a logger finds it finished, with its name and its fallback.  A dump asks
every logger once that has been given to a thread before. -/
theorem one_logger [DecidableEq U] (hn : n.Sound)
    (h : Run monitor.Step (Monitor.start U n) tr s) :
    (∀ l ∈ Monitor.returns tr, ∀ l' ∈ Monitor.returns tr, ∀ name name' p p',
      Gives l name p → Gives l' name' p' → (p = p' ↔ name = name')) ∧
    (∀ u name p, s.own u = some ⟨.getLogger name, .done (.logger p)⟩ →
      s.shared.made p = s.shared.finished name p) ∧
    Each Complete (Monitor.returns tr) := by
  obtain ⟨m, hr, hlin⟩ := Monitor.linearizable h
  have hrun : Run Answers n (Monitor.returns tr) m :=
    hr.mono fun n l n' hc ↦ (run_body _).symm.trans hc
  have hcons := consistent_of_run hn hrun
  refine ⟨fun l hl l' hl' name name' p p' hp hp' ↦ ?_, fun u name p hu ↦ ?_, hcons.complete⟩
  · have he := hcons.given l hl name p hp
    have he' := hcons.given l' hl' name' p' hp'
    constructor
    · intro heq
      exact congrArg Prod.fst (hcons.injective _ he _ he' heq)
    · rintro rfl
      exact congrArg Prod.snd (Keyed.eq_of_key he he' rfl)
  · -- the call would return now
    obtain ⟨hcall, -⟩ := hlin.leave hu
    have hanswer : Answers m (u, .getLogger name, .logger p) s.shared :=
      (run_body _).symm.trans hcall
    have hcons' := hcons.answer hanswer
    have hmem : (u, .getLogger name, .logger p) ∈
        Monitor.returns tr ++ [(u, .getLogger name, .logger p)] := by simp
    exact hcons'.made _ (hcons'.given _ hmem name p rfl)

end Threads

/-- The map of a new manager. -/
theorem new_sound : LoggerManager.new.names.Sound := by
  have hmem : ∀ e ∈ LoggerManager.new.names.loggers, e = ("root", 0) := by
    intro e he
    rcases Keyed.mem_place he with rfl | he
    · rfl
    · cases he
  refine ⟨fun e he e' he' _ ↦ ?_, fun e he ↦ ?_, fun l hl ↦ ?_, ?_⟩
  · exact (hmem e he).trans (hmem e' he').symm
  · rw [hmem e he]
    rfl
  · have hne : l ≠ 0 := Nat.ne_of_gt hl
    simp [LoggerManager.names, LoggerManager.new, hne]
  · exact List.mem_singleton.mpr rfl

/-- Two threads ask for one name, and one of them for another. -/
def asking : List (Bool × Monitor.Act Call Answer) :=
  [(false, .enter (.getLogger "system")), (false, .access), (false, .access), (false, .access),
    (false, .access), (false, .access), (false, .leave (.getLogger "system") (.logger 1)),
    (true, .enter (.getLogger "system")), (true, .access),
    (true, .leave (.getLogger "system") (.logger 1))]

theorem one_logger_asking : ∃ s, Run monitor.Step (Monitor.start Bool LoggerManager.new.names)
    asking s ∧ Each Complete (Monitor.returns asking) := by
  have h : Run monitor.Step (Monitor.start Bool LoggerManager.new.names) asking _ :=
    .cons (.enter rfl nofun) <| .cons (.access rfl) <| .cons (.access rfl) <| .cons (.access rfl) <|
      .cons (.access rfl) <| .cons (.access rfl) <| .cons (.leave rfl) <|
      .cons (.enter rfl fun u x hx ↦ by cases u <;> cases hx) <| .cons (.access rfl) <|
      .cons (.leave rfl) <| .nil _
  exact ⟨_, h, (one_logger new_sound h).2.2⟩

end Names

end Sylar.Log
