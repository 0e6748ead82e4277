import Sylar.Locking.Programs

/-!
# The order of the locks

registry, variables, manager, loggers other than the root, root, appenders: every
function requests its locks in this order.  For each function one lemma says
above which rank it stays; a caller that holds less may use the function.
-/

namespace Sylar.Locking

open Foundation Foundation.Throwing Log Yaml

/-- The ranks, from the lowest up. -/
inductive Rank
  | registry | configVar | loggerManager | logger | root | appender
deriving DecidableEq, Repr

/-- The position of a rank. -/
def Rank.toNat : Rank → ℕ
  | registry => 0
  | configVar => 1
  | loggerManager => 2
  | logger => 3
  | root => 4
  | appender => 5

instance : Preorder Rank := .lift Rank.toNat

theorem Rank.lt_iff {a b : Rank} : a < b ↔ a.toNat < b.toNat := Iff.rfl

/-- The rank of a lock. -/
def rank : LockId → Rank
  | .registry => .registry
  | .configVar _ => .configVar
  | .loggerManager => .loggerManager
  | .logger (.other _) => .logger
  | .logger .root => .root
  | .appender _ => .appender

/-- Only locks ranked above `b` are requested, and in the order of their ranks. -/
abbrev Above {α : Type} (b : WithBot Rank) (x : Code α) : Prop := Throwing.Above rank b x

variable {b : WithBot Rank} {a : AppenderPtr} {l : LoggerId} {p : VarPtr} {level : Level}
variable {g_log_defines : VarPtr} {α : Type}

theorem root_lt_appender : (rank (.logger .root) : WithBot Rank) < rank (.appender a) :=
  WithBot.coe_lt_coe.mpr (by simp [Rank.lt_iff, rank, Rank.toNat])

theorem other_lt_root {l : LoggerPtr} :
    (rank (.logger (.other l)) : WithBot Rank) < rank (.logger .root) :=
  WithBot.coe_lt_coe.mpr (by simp [Rank.lt_iff, rank, Rank.toNat])

theorem logger_le_root : (rank (.logger l) : WithBot Rank) ≤ rank (.logger .root) := by
  cases l with
  | root => exact le_refl _
  | other l => exact other_lt_root.le

theorem logger_lt_appender : (rank (.logger l) : WithBot Rank) < rank (.appender a) :=
  lt_of_le_of_lt logger_le_root root_lt_appender

theorem manager_lt_logger : (rank .loggerManager : WithBot Rank) < rank (.logger l) := by
  cases l with
  | root => exact WithBot.coe_lt_coe.mpr (by simp [Rank.lt_iff, rank, Rank.toNat])
  | other l => exact WithBot.coe_lt_coe.mpr (by simp [Rank.lt_iff, rank, Rank.toNat])

theorem configVar_lt_manager : (rank (.configVar p) : WithBot Rank) < rank .loggerManager :=
  WithBot.coe_lt_coe.mpr (by simp [Rank.lt_iff, rank, Rank.toNat])

theorem registry_lt_configVar : (rank .registry : WithBot Rank) < rank (.configVar p) :=
  WithBot.coe_lt_coe.mpr (by simp [Rank.lt_iff, rank, Rank.toNat])

theorem conversion_above : Above b (conversion α) := by
  refine above_any.bind fun r ↦ ?_
  cases r with
  | ok a => exact above_pure a
  | error e => exact above_throw e

/-! ## Appenders -/

/-- A lock that is taken while nothing else is requested. -/
theorem lock_above {m_mutex : LockId} {mode : Mode} {x : Code α} (h : ∀ c, Above c x)
    (hb : b < rank m_mutex) : Above b (x.lock m_mutex mode) := (h _).lock hb

namespace LogAppender

theorem setFormatter_above (hb : b < rank (.appender a)) : Above b (setFormatter a) :=
  lock_above (fun _ ↦ above_pure ()) hb

theorem getFormmater_above (hb : b < rank (.appender a)) : Above b (getFormmater a) :=
  lock_above (fun _ ↦ above_any) hb

theorem toYamlString_above (hb : b < rank (.appender a)) : Above b (toYamlString a) :=
  lock_above (fun _ ↦ conversion_above) hb

theorem reopen_above (hb : b < rank (.appender a)) : Above b (FileLogAppender.reopen a) :=
  lock_above (fun _ ↦ above_any) hb

theorem log_above (hb : b < rank (.appender a)) : Above b (log a level) := by
  have hwrite : Above b (Spinlock.Lock (.appender a) (conversion Unit)) :=
    lock_above (fun _ ↦ conversion_above) hb
  refine above_any.bind fun file ↦ .ite ?_ ?_
  · refine above_any.bind fun m_level ↦ .ite ?_ (above_pure ())
    refine above_any.bind fun stale ↦ .ite ?_ ?_
    · exact (reopen_above hb).bind fun _ ↦ hwrite
    · exact hwrite
  · exact above_any.bind fun m_level ↦ .ite hwrite (above_pure ())

end LogAppender

/-! ## Loggers -/

namespace Logger

theorem logOr_above {m_root : Code Unit} (hroot : Above (rank (.logger l)) m_root)
    (hb : b < rank (.logger l)) : Above b (logOr l level m_root) := by
  refine above_any.bind fun m_level ↦ .ite (.lock ?_ hb) (above_pure ())
  refine above_any.bind fun m_appenders ↦ .ite ?_ hroot
  exact above_forM (fun i ↦ LogAppender.log_above logger_lt_appender) m_appenders

theorem log_above (hb : b < rank (.logger l)) : Above b (log l level) := by
  cases l with
  | root => exact logOr_above (above_pure ()) hb
  | other l =>
      refine logOr_above (above_any.bind fun set ↦ .ite ?_ (above_pure ())) hb
      exact logOr_above (above_pure ()) other_lt_root

theorem addAppender_above (hb : b < rank (.logger l)) : Above b (addAppender l a) := by
  refine .lock ?_ hb
  refine (LogAppender.getFormmater_above logger_lt_appender).bind fun m_formatter ↦ ?_
  exact .ite (lock_above (fun _ ↦ above_pure ()) logger_lt_appender) (above_pure ())

theorem delAppender_above (hb : b < rank (.logger l)) : Above b (delAppender l) :=
  lock_above (fun _ ↦ above_pure ()) hb

theorem setFormatter_above (hb : b < rank (.logger l)) : Above b (setFormatter l) := by
  refine .lock (above_any.bind fun m_appenders ↦ ?_) hb
  exact above_forM (fun i ↦ lock_above (fun _ ↦ above_pure ()) logger_lt_appender) m_appenders

theorem setFormatterString_above {val : String} (hb : b < rank (.logger l)) :
    Above b (setFormatterString l val) :=
  .ite (above_pure ()) (setFormatter_above hb)

theorem getFormatter_above (hb : b < rank (.logger l)) : Above b (getFormatter l) :=
  lock_above (fun _ ↦ above_any) hb

theorem toYamlString_above (hb : b < rank (.logger l)) : Above b (toYamlString l) := by
  refine .lock (above_any.bind fun m_appenders ↦ .bind ?_ fun _ ↦ conversion_above) hb
  refine above_forM (fun i ↦ ?_) m_appenders
  exact (LogAppender.toYamlString_above logger_lt_appender).bind fun _ ↦ conversion_above

end Logger

namespace LoggerManager

theorem getLogger_above {name : String} (hb : b < rank .loggerManager) :
    Above b (getLogger name) :=
  lock_above (fun _ ↦ above_any) hb

theorem toYamlString_above (hb : b < rank .loggerManager) : Above b toYamlString := by
  refine .lock (above_any.bind fun m_loggers ↦ .bind ?_ fun _ ↦ conversion_above) hb
  refine above_forM (fun i ↦ ?_) m_loggers
  exact (Logger.toYamlString_above manager_lt_logger).bind fun _ ↦ conversion_above

end LoggerManager

theorem SYLAR_LOG_LEVEL_above {text : Code Unit} (htext : Above b text)
    (hb : b < rank (.logger l)) : Above b (SYLAR_LOG_LEVEL l level text) :=
  above_any.bind fun _ ↦ .ite (htext.finish (Logger.log_above hb)) (above_pure ())

/-! ## The listener on `logs` -/

namespace LogIniter

theorem applyAppender_above {d : LogAppenderDefine} (hb : b < rank (.logger l)) :
    Above b (applyAppender l d) := by
  have ha : ∀ ap, b < rank (.appender ap) := fun _ ↦ hb.trans logger_lt_appender
  have hadd : ∀ ap, Above b (Logger.addAppender l ap) := fun _ ↦ Logger.addAppender_above hb
  refine .ite (above_throw _) (above_any.bind fun ap ↦ ?_)
  have hformatter : Above b (do
      if d.formatter ≠ "" then
        if !(LogFormatter.new d.formatter).isError then LogAppender.setFormatter ap
      Logger.addAppender l ap) :=
    .ite (.ite ((LogAppender.setFormatter_above (ha ap)).bind fun _ ↦ hadd ap) (hadd ap)) (hadd ap)
  exact .ite ((LogAppender.reopen_above (ha ap)).bind fun _ ↦ hformatter) hformatter

theorem configure_above {logger : Option LoggerId} {i : LogDefine} (hb : b ≤ rank .loggerManager) :
    Above b (configure logger i) := by
  cases logger with
  | none => exact above_throw _
  | some l =>
      have hl : b < rank (.logger l) := lt_of_le_of_lt hb manager_lt_logger
      have happenders : Above b (i.appenders.forM (applyAppender l)) :=
        above_forM (fun _ ↦ applyAppender_above hl) _
      exact .ite ((Logger.setFormatterString_above hl).bind fun _ ↦ happenders) happenders

theorem applyDefine_above {old_value : LogDefines} {i : LogDefine} (hb : b < rank .loggerManager) :
    Above b (applyDefine old_value i) := by
  have hfetched : Above b (do configure (some (← LoggerManager.getLogger i.name)) i) :=
    (LoggerManager.getLogger_above hb).bind fun _ ↦ configure_above hb.le
  unfold applyDefine
  cases old_value.find? i.name with
  | none => exact hfetched
  | some it => exact .ite hfetched (configure_above hb.le)

theorem removeDefine_above {new_value : LogDefines} {i : LogDefine}
    (hb : b < rank .loggerManager) : Above b (removeDefine new_value i) :=
  .ite ((LoggerManager.getLogger_above hb).bind fun _ ↦ above_pure ()) (above_pure ())

theorem onChange_above {old_value new_value : LogDefines} (hb : b < rank .loggerManager) :
    Above b (onChange old_value new_value) := by
  refine (SYLAR_LOG_LEVEL_above (above_pure ()) (hb.trans manager_lt_logger)).bind fun _ ↦ ?_
  refine (above_forM (fun _ ↦ applyDefine_above hb) _).bind fun _ ↦ ?_
  exact above_forM (fun _ ↦ removeDefine_above hb) _

end LogIniter

/-! ## Configuration variables -/

theorem configVar_lt_logger : (rank (.configVar p) : WithBot Rank) < rank (.logger l) :=
  configVar_lt_manager.trans manager_lt_logger

namespace ConfigVar

theorem handler_above {x : α} {e : Thrown} (hb : b < rank (.logger .root)) :
    Above b (handler x e) := by
  cases e with
  | exception => exact (SYLAR_LOG_LEVEL_above (above_pure ()) hb).bind fun _ ↦ above_pure x
  | other => exact above_throw _

/-- The log line of the handler is written after the lock has been released. -/
theorem toString_above (hb : b < rank (.configVar p)) : Above b (toString p) :=
  (lock_above (fun _ ↦ conversion_above) hb).tryCatch fun _ ↦
    handler_above (hb.trans configVar_lt_logger)

theorem notify_above (hb : b < rank .loggerManager) : Above b (notify g_log_defines p) := by
  refine .ite ?_ (above_pure ())
  refine above_any.bind fun m_val ↦ above_any.bind fun v ↦ above_any.bind fun m_cbs ↦ ?_
  exact above_forM (fun _ ↦ LogIniter.onChange_above hb) _

/-- The listeners run under the read lock, and the write lock is requested after
it has been released. -/
theorem setValue_above (hb : b < rank (.configVar p)) : Above b (setValue g_log_defines p) := by
  refine .bind (.lock ?_ hb) fun changed ↦
    .ite (lock_above (fun _ ↦ above_pure ()) hb) (above_pure ())
  refine above_any.bind fun same ↦ .ite (above_pure false) ?_
  exact (notify_above configVar_lt_manager).bind fun _ ↦ above_pure true

theorem fromString_above (hb : b < rank (.configVar p)) :
    Above b (fromString g_log_defines p) := by
  have hset : Above b (do conversion Unit; setValue g_log_defines p) :=
    conversion_above.bind fun _ ↦ setValue_above hb
  refine (hset.tryCatch fun _ ↦ ?_).bind fun _ ↦ above_pure false
  exact handler_above (hb.trans configVar_lt_logger)

end ConfigVar

/-! ## The registry -/

theorem invalid_above (hb : b < rank (.logger .root)) : Above b ListAllMember.invalid :=
  (SYLAR_LOG_LEVEL_above conversion_above hb).bind fun _ ↦ above_pure []

mutual

theorem ListAllMember_above (hb : b < rank (.logger .root)) :
    ∀ (n : Node) (pre : String), Above b (ListAllMember pre n)
  | .map ps, pre => by
      rw [ListAllMember]
      refine .ite ?_ (invalid_above hb)
      exact (pairs_above hb ps pre).bind fun _ ↦ above_pure _
  | .null, pre => by
      rw [ListAllMember]
      exact .ite (above_pure _) (invalid_above hb)
  | .scalar _, pre => by
      rw [ListAllMember]
      exact .ite (above_pure _) (invalid_above hb)
  | .sequence _, pre => by
      rw [ListAllMember]
      exact .ite (above_pure _) (invalid_above hb)

theorem pairs_above (hb : b < rank (.logger .root)) :
    ∀ (ps : List (Node × Node)) (pre : String), Above b (ListAllMember.pairs pre ps)
  | [], pre => by
      rw [ListAllMember.pairs]
      exact above_pure []
  | it :: ps, pre => by
      rw [ListAllMember.pairs]
      exact (pair_above hb it pre).bind fun _ ↦ (pairs_above hb ps pre).bind fun _ ↦ above_pure _

theorem pair_above (hb : b < rank (.logger .root)) :
    ∀ (it : Node × Node) (pre : String), Above b (ListAllMember.pair pre it)
  | (_, v), pre => by
      rw [ListAllMember.pair]
      exact ListAllMember_above hb v _

end

namespace Config

theorem registry_lt_root : (rank .registry : WithBot Rank) < rank (.logger .root) :=
  registry_lt_configVar.trans (configVar_lt_logger (p := 0))

theorem register_above {name : String} (hb : b < rank (.logger .root)) :
    Above b (register name) := by
  refine .ite (above_any.bind fun _ ↦ above_pure _) ?_
  exact (SYLAR_LOG_LEVEL_above (above_pure ()) hb).bind fun _ ↦ above_throw _

/-- All that is logged here is logged under the lock of the registry. -/
theorem Lookup_above {name : String} (hb : b < rank .registry) : Above b (Lookup name) := by
  refine .lock (above_any.bind fun it ↦ ?_) hb
  cases it with
  | none => exact register_above registry_lt_root
  | some it =>
      refine above_any.bind fun same ↦ .ite ?_ ?_
      · exact (SYLAR_LOG_LEVEL_above (above_pure ()) registry_lt_root).bind fun _ ↦ above_pure _
      · have htext : Above (rank .registry) (discard (ConfigVar.toString it)) :=
          (ConfigVar.toString_above registry_lt_configVar).bind fun _ ↦ above_pure ()
        exact (SYLAR_LOG_LEVEL_above htext registry_lt_root).bind fun _ ↦
          register_above registry_lt_root

theorem LookupName_above {name : String} (hb : b < rank .registry) : Above b (LookupName name) :=
  lock_above (fun _ ↦ above_any) hb

theorem LookupBase_above {name : String} (hb : b < rank .registry) : Above b (LookupBase name) :=
  lock_above (fun _ ↦ above_any) hb

/-- The lock of the registry is released before the variable is written. -/
theorem LoadFromYaml_above {root : Node} (hb : b < rank .registry) :
    Above b (LoadFromYaml g_log_defines root) := by
  refine (ListAllMember_above (hb.trans registry_lt_root) root "").bind fun all_nodes ↦ ?_
  refine above_forM (fun i ↦ .ite ?_ (above_pure ())) _
  refine (LookupBase_above hb).bind fun var ↦ ?_
  cases var with
  | none => exact above_pure ()
  | some var =>
      refine conversion_above.bind fun _ ↦ ?_
      exact (ConfigVar.fromString_above (hb.trans registry_lt_configVar)).bind fun _ ↦
        above_pure ()

end Config

/-! ## All calls -/

theorem Call.prog_above (c : Call) : (c.prog g_log_defines).Above rank ⊥ := by
  have hb : ∀ l, (⊥ : WithBot Rank) < rank l := fun l ↦ WithBot.bot_lt_coe (rank l)
  have drop : ∀ {α : Type} {x : Code α}, Above ⊥ x → Above ⊥ (discard x) :=
    fun h ↦ h.bind fun _ ↦ above_pure ()
  have hcode : Above ⊥ (c.code g_log_defines) := by
    cases c with
    | Lookup name => exact drop (Config.Lookup_above (hb _))
    | LookupName name => exact drop (Config.LookupName_above (hb _))
    | LookupBase name => exact drop (Config.LookupBase_above (hb _))
    | LoadFromYaml root => exact Config.LoadFromYaml_above (hb _)
    | setValue p => exact ConfigVar.setValue_above (hb _)
    | toString p => exact drop (ConfigVar.toString_above (hb _))
    | fromString p => exact drop (ConfigVar.fromString_above (hb _))
    | getValue p | addListener p | delListener p | getListener p | clearListener p =>
        exact lock_above (fun _ ↦ above_pure ()) (hb (.configVar p))
    | getLogger name => exact drop (LoggerManager.getLogger_above (hb _))
    | managerToYamlString => exact drop (LoggerManager.toYamlString_above (hb _))
    | SYLAR_LOG_LEVEL l level => exact SYLAR_LOG_LEVEL_above (above_pure ()) (hb _)
    | log l level => exact Logger.log_above (hb _)
    | addAppender l a => exact Logger.addAppender_above (hb _)
    | delAppender l => exact Logger.delAppender_above (hb _)
    | setFormatter l => exact Logger.setFormatter_above (hb _)
    | setFormatterString l val => exact Logger.setFormatterString_above (hb _)
    | getFormatter l => exact drop (Logger.getFormatter_above (hb _))
    | loggerToYamlString l => exact drop (Logger.toYamlString_above (hb _))
    | appenderLog a level => exact LogAppender.log_above (hb _)
    | appenderSetFormatter a => exact LogAppender.setFormatter_above (hb _)
    | getFormmater a => exact drop (LogAppender.getFormmater_above (hb _))
    | reopen a => exact drop (LogAppender.reopen_above (hb _))
    | appenderToYamlString a => exact drop (LogAppender.toYamlString_above (hb _))
  exact Prog.Above.bind hcode fun _ ↦ trivial

/-- Threads that call the library, in any order and any number of times. -/
abbrev Step {T : Type} [DecidableEq T] (g_log_defines : VarPtr) :
    (T → Worker LockId) → T × Action LockId → (T → Worker LockId) → Prop :=
  Locks.Step (Set.range (Call.prog g_log_defines))

/-- **No deadlock.**  Whatever the threads call and however they are interleaved, a
lock is requested while only locks of strictly smaller rank are held.  So no
thread requests a lock it holds, no cycle of threads waits for one another's
locks, and while any thread is at work, some thread can go on. -/
theorem never_deadlocked {T : Type} [DecidableEq T] (g_log_defines : VarPtr)
    {tr : List (T × Action LockId)} {s : T → Worker LockId}
    (h : Run (Step g_log_defines) (fun _ : T ↦ .idle) tr s) :
    (∀ t l mode l' mode', (s t).request = some (l, mode) → (l', mode') ∈ (s t).held →
      rank l' < rank l) ∧
    (∀ t l mode mode', (s t).request = some (l, mode) → (l, mode') ∉ (s t).held) ∧
    (∀ t, ¬ Relation.TransGen (Locks.Waits s) t t) ∧
    ∀ t, s t ≠ .idle → ∃ u a s', s u ≠ .idle ∧ Step g_log_defines s (u, a) s' := by
  have hops : ∀ p ∈ Set.range (Call.prog g_log_defines), p.Above rank ⊥ := by
    rintro _ ⟨c, rfl⟩
    exact c.prog_above
  have hs : ∀ t, (s t).Above rank := Locks.above_of_run hops h
  refine ⟨?_, ?_, Locks.not_circular hs, ?_⟩
  · intro t l mode l' mode' hreq hheld
    exact (hs t).request_lt hreq hheld
  · intro t l mode mode' hreq hheld
    exact absurd ((hs t).request_lt hreq hheld) (lt_irrefl _)
  · intro t hbusy
    exact Locks.progress hs (Locks.finite_of_run h) hbusy

/-- One thread hands an event from a logger without appenders to the root, whose
lock another thread holds. -/
theorem never_deadlocked_waiting :
    ∃ (tr : List (Bool × Action LockId)) (s : Bool → Worker LockId),
      Run (Step 0) (fun _ ↦ .idle) tr s ∧ Locks.Waits s true false ∧
      (∀ t, ¬ Relation.TransGen (Locks.Waits s) t t) ∧
      ∃ u a s', s u ≠ .idle ∧ Step 0 s (u, a) s' := by
  have hrun : ∃ (tr : List (Bool × Action LockId)) (s : Bool → Worker LockId),
      Run (Step 0) (fun _ ↦ .idle) tr s ∧ Locks.Waits s true false ∧ s true ≠ .idle := by
    refine ⟨_, _,
      .cons (.mk (t := false) (.start ⟨.log .root .INFO, rfl⟩) trivial) <|
      .cons (.mk (t := false) (.choose Level.INFO) trivial) <|
      .cons (.mk (t := false) .acquire (by intro t _ h; cases t <;> cases h)) <|
      .cons (.mk (t := true) (.start ⟨.log (.other 0) .INFO, rfl⟩) trivial) <|
      .cons (.mk (t := true) (.choose Level.INFO) trivial) <|
      .cons (.mk (t := true) .acquire (by
        rintro (_ | _) _ h
        · cases h with
          | tail _ h => cases h
        · cases h)) <|
      .cons (.mk (t := true) (.choose ([] : List AppenderPtr)) trivial) <|
      .cons (.mk (t := true) (.choose true) trivial) <|
      .cons (.mk (t := true) (.choose Level.INFO) trivial) <|
      .nil _, ⟨_, _, _, rfl, .head _⟩, fun h ↦ ?_⟩
    exact absurd (congrArg (fun th ↦ th.held.length) h) (by decide)
  obtain ⟨tr, s, hr, hw, hbusy⟩ := hrun
  obtain ⟨-, -, hcycle, hgo⟩ := never_deadlocked 0 hr
  exact ⟨tr, s, hr, hw, hcycle, hgo true hbusy⟩

end Sylar.Locking
