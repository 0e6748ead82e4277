import Sylar.Foundation.Ranking
import Sylar.Locking.Order

/-!
# Functions that are called under a lock

`setValue` calls the listeners of a variable under its read lock, and `Config::Visit` calls
a function on every variable under that of the registry.  What they run is up to the
program, and it may call the library again.

Read locks are shared, so a good deal is possible there that `Order.lean` has no rank for:
a listener may read any variable, its own included, and look names up.  What it must not do
is to take one of these locks for writing, and a function that `Visit` calls must not
register a name.  Then no calls deadlock, however they are nested and interleaved.
-/

namespace Sylar.Locking

open Foundation Foundation.Throwing Log Yaml

/-! ## Ranks -/

/-- Where requests and holds are ranked, from the lowest up. -/
inductive Height
  /-- The registry, where it is held for reading and requested for writing. -/
  | visitor
  /-- A variable, where it is held for reading and requested for writing. -/
  | listener
  /-- The registry, where it is held for writing and requested for reading. -/
  | registry
  | loggerManager | logger | root | appender
  /-- A variable, where it is held for writing and requested for reading.  Nothing is
  requested while a variable is written. -/
  | configVar
deriving DecidableEq, Repr

namespace Height

/-- The position of a height. -/
def toNat : Height → ℕ
  | visitor => 0
  | listener => 1
  | registry => 2
  | loggerManager => 3
  | logger => 4
  | root => 5
  | appender => 6
  | configVar => 7

theorem toNat_injective : Function.Injective toNat := by
  intro a b h
  cases a <;> cases b <;> first | rfl | cases h

instance : LinearOrder Height := .lift' toNat toNat_injective

theorem lt_iff {a b : Height} : a < b ↔ a.toNat < b.toNat := Iff.rfl

theorem le_iff {a b : Height} : a ≤ b ↔ a.toNat ≤ b.toNat := Iff.rfl

/-- The locks of the loggers keep their order. -/
def ofRank : Rank → Height
  | .registry => registry
  | .configVar => configVar
  | .loggerManager => loggerManager
  | .logger => logger
  | .root => root
  | .appender => appender

theorem toNat_ofRank {r : Rank} (h : Rank.configVar < r) : (ofRank r).toNat = r.toNat + 1 := by
  cases r with
  | registry | configVar => exact absurd h (by simp [Rank.lt_iff, Rank.toNat])
  | loggerManager | logger | root | appender => rfl

theorem visitor_lt_listener : (visitor : WithBot Height) < listener :=
  WithBot.coe_lt_coe.mpr (by simp [lt_iff, toNat])

theorem listener_lt_registry : (listener : WithBot Height) < registry :=
  WithBot.coe_lt_coe.mpr (by simp [lt_iff, toNat])

theorem registry_lt_manager : (registry : WithBot Height) < loggerManager :=
  WithBot.coe_lt_coe.mpr (by simp [lt_iff, toNat])

theorem manager_lt_configVar : (loggerManager : WithBot Height) < configVar :=
  WithBot.coe_lt_coe.mpr (by simp [lt_iff, toNat])

end Height

namespace LockId

/-- The rank of a request. -/
def request : LockId → Mode → Height
  | registry, .exclusive => .visitor
  | configVar _, .exclusive => .listener
  | l, _ => .ofRank (rank l)

/-- The rank of a hold. -/
def hold : LockId → Mode → Height
  | registry, .shared => .visitor
  | configVar _, .shared => .listener
  | l, _ => .ofRank (rank l)

theorem request_le_hold (l : LockId) (mode mode' : Mode) (h : mode.Excludes mode') :
    l.request mode ≤ l.hold mode' := by
  cases l with
  | registry | configVar _ =>
      cases mode with
      | exclusive =>
          cases mode' <;> simp [request, hold, Height.le_iff, Height.ofRank, rank, Height.toNat]
      | shared =>
          cases mode' with
          | exclusive => exact le_refl _
          | shared => exact h.elim
  | loggerManager | logger _ | appender _ => exact le_refl _

end LockId

/-- Requests and holds are ranked so that readers go together. -/
def order : Ranking LockId Height := ⟨LockId.request, LockId.hold, LockId.request_le_hold⟩

/-- Only locks ranked above `b` are requested, and above what is held. -/
abbrev Within {α : Type} (b : WithBot Height) (x : Code α) : Prop := Throwing.Within order b x

variable {α : Type} {x : Code α} {b : WithBot Height} {p : VarPtr} {l : LockId} {mode : Mode}

/-- The locks of the loggers are ranked as before. -/
theorem rank_of_above (h : Rank.configVar < rank l) :
    l.request mode = .ofRank (rank l) ∧ l.hold mode = .ofRank (rank l) := by
  cases l with
  | registry | configVar _ => exact absurd h (by simp [Rank.lt_iff, rank, Rank.toNat])
  | loggerManager | logger _ | appender _ => exact ⟨rfl, rfl⟩

/-- What only requests the locks of loggers may be done under all other locks. -/
theorem within_of_above (h : Above Rank.configVar x) (hb : b < Height.loggerManager) :
    Within b x := by
  refine Prog.Above.within h (fun l mode hl ↦ ?_) fun l l' mode mode' hl hl' ↦ ?_
  · have hrank : Rank.configVar < rank l := WithBot.coe_lt_coe.mp hl
    have hle : Height.loggerManager ≤ l.request mode := by
      rw [(rank_of_above hrank).1, Height.le_iff, Height.toNat_ofRank hrank]
      exact Nat.succ_le_succ (Rank.lt_iff.mp hrank)
    exact hb.trans_le (WithBot.coe_le_coe.mpr hle)
  · have hrank : Rank.configVar < rank l := WithBot.coe_lt_coe.mp hl
    show l.hold mode < l'.request mode'
    rw [(rank_of_above hrank).2, (rank_of_above (hrank.trans hl')).1, Height.lt_iff,
      Height.toNat_ofRank hrank, Height.toNat_ofRank (hrank.trans hl')]
    exact Nat.succ_lt_succ (Rank.lt_iff.mp hl')

/-- A lock that is taken while nothing else is requested. -/
theorem lock_within (h : ∀ c, Within c x) (hb : b < order.request l mode) :
    Within b (x.lock l mode) := (h _).lock hb

theorem conversion_within : Within b (conversion α) := by
  refine within_any.bind fun r ↦ ?_
  cases r with
  | ok a => exact within_pure a
  | error e => exact within_throw e

theorem SYLAR_LOG_LEVEL_within {logger : LoggerId} {level : Level} {text : Code Unit}
    (htext : Within b text) (hb : b < Height.loggerManager) : Within b (SYLAR_LOG_LEVEL logger level text) := by
  have hlog : Within b (Logger.log logger level) :=
    within_of_above (Logger.log_above (configVar_lt_logger (p := 0))) hb
  exact within_any.bind fun _ ↦ .ite (htext.finish hlog) (within_pure ())

theorem configVar_lt_root : (Rank.configVar : WithBot Rank) < rank (.logger .root) :=
  configVar_lt_logger (p := 0)

/-! ## Who calls a function of the program -/

/-- From where a function of the program is called. -/
inductive Context
  | thread
  /-- By `Visit`. -/
  | visitor
  /-- By `setValue`. -/
  | listener
deriving DecidableEq, Repr

namespace Context

/-- From where `Visit` calls a function. -/
def visiting : Context → Context
  | .thread | .visitor => .visitor
  | .listener => .listener

/-- What may be called.  A function that `Visit` calls does not register names, and a
listener does not change the configuration at all, which a `Lookup` with a default would.
What is allowed may read what is locked for reading already; writers that wait do not hold
a reader back, as is the default of `pthread_rwlock_t`. -/
def Allows : Context → Call → Prop
  | .thread, _ => True
  | .visitor, .Lookup _ => False
  | .visitor, _ => True
  | .listener, .Lookup _ | .listener, .LoadFromYaml _ | .listener, .setValue _
  | .listener, .fromString _ | .listener, .addListener _ | .listener, .delListener _
  | .listener, .clearListener _ => False
  | .listener, _ => True

/-- The rank of what is held where the function is called. -/
def limit : Context → WithBot Height
  | .thread => ⊥
  | .visitor => Height.visitor
  | .listener => Height.listener

theorem limit_visiting (k : Context) : k.visiting.limit = max k.limit Height.visitor := by
  cases k with
  | thread => exact (max_eq_right bot_le).symm
  | visitor => exact (max_self _).symm
  | listener => exact (max_eq_left Height.visitor_lt_listener.le).symm

theorem limit_le (k : Context) : k.limit ≤ Height.listener := by
  cases k with
  | thread => exact bot_le
  | visitor => exact Height.visitor_lt_listener.le
  | listener => exact le_refl _

theorem limit_lt_one {k : Context} (h : k ≠ .listener) : k.limit < Height.listener := by
  cases k with
  | thread => exact WithBot.bot_lt_coe _
  | visitor => exact Height.visitor_lt_listener
  | listener => exact absurd rfl h

end Context

/-! ## The functions that call others -/

section Functions

variable {ι : Type} (listeners : VarPtr → ι → Code Unit) (g_log_defines : VarPtr)

namespace ConfigVar

/-- The loop over `m_cbs`, where the listener of `LogIniter` on `g_log_defines` is one of
many. -/
def notifyAll (p : VarPtr) : Code Unit := do
  let m_val ← any LogDefines
  let v ← any LogDefines
  let m_cbs ← any (List (Option ι))
  m_cbs.forM fun
    | none => if p = g_log_defines then LogIniter.onChange m_val v else pure ()
    | some i => listeners p i

/-- `ConfigVar::setValue`. -/
def setValueWith (p : VarPtr) : Code Unit := do
  let changed ← RWMutex.ReadLock (.configVar p) do
    -- v == m_val
    if ← any Bool then
      return false
    else
      notifyAll listeners g_log_defines p
      return true
  if changed then RWMutex.WriteLock (.configVar p) (pure ())

/-- `ConfigVar::fromString`. -/
def fromStringWith (p : VarPtr) : Code Bool := do
  tryCatch
    (do
      conversion Unit
      setValueWith listeners g_log_defines p)
    (handler ())
  return false

end ConfigVar

namespace Config

/-- `Config::LoadFromYaml`. -/
def LoadFromYamlWith (root : Node) : Code Unit := do
  let all_nodes ← ListAllMember "" root
  all_nodes.forM fun i ↦ do
    if i.1 ≠ "" then
      match ← LookupBase (tolower i.1) with
      | none => pure ()
      | some var =>
          conversion Unit
          let _ ← ConfigVar.fromStringWith listeners g_log_defines var

/-- `Config::Visit`. -/
def Visit (cb : VarPtr → Code Unit) : Code Unit :=
  RWMutex.ReadLock .registry do
    let m ← any (List VarPtr)
    m.forM cb

end Config

/-- What a call runs. -/
def Call.codeWith : Call → Code Unit
  | LoadFromYaml root => Config.LoadFromYamlWith listeners g_log_defines root
  | setValue p => ConfigVar.setValueWith listeners g_log_defines p
  | fromString p => discard (ConfigVar.fromStringWith listeners g_log_defines p)
  | c => c.code g_log_defines

/-! ## The code of the program -/

/-- Functions of the program: what they do next depends on data of their own, and on how
their calls of the library end. -/
inductive UserCode : Context → Code Unit → Prop
  | ret {k : Context} : UserCode k (pure ())
  | throw {k : Context} (e : Thrown) : UserCode k (throw e)
  | any {k : Context} {κ : Type} [Nonempty κ] {next : κ → Code Unit} :
      (∀ i, UserCode k (next i)) → UserCode k (any κ >>= next)
  | call {k : Context} {c : Call} {next : Except Thrown Unit → Code Unit} :
      k.Allows c → (∀ r, UserCode k (next r)) →
      UserCode k ((c.codeWith listeners g_log_defines).attempt >>= next)
  | SYLAR_LOG_LEVEL {k : Context} {l : LoggerId} {level : Level} {text : Code Unit}
      {next : Except Thrown Unit → Code Unit} : UserCode k text → (∀ r, UserCode k (next r)) →
      UserCode k ((SYLAR_LOG_LEVEL l level text).attempt >>= next)
  | Visit {k : Context} {cb : VarPtr → Code Unit} {next : Except Thrown Unit → Code Unit} :
      (∀ p, UserCode k.visiting (cb p)) → (∀ r, UserCode k (next r)) →
      UserCode k ((Config.Visit cb).attempt >>= next)

/-- What threads run. -/
def UserCode.programs : Set (Prog LockId Unit) :=
  {q | ∃ x, UserCode listeners g_log_defines .thread x ∧ q = x.run >>= fun _ ↦ pure ()}

/-- Threads that run any functions of the program. -/
abbrev UserCode.Step {T : Type} [DecidableEq T] :
    (T → Worker LockId) → T × Action LockId → (T → Worker LockId) → Prop :=
  Locks.Step (UserCode.programs listeners g_log_defines)

end Functions

/-! ## What is requested -/

section Within

variable {name : String} {ι : Type} {listeners : VarPtr → ι → Code Unit} {g_log_defines : VarPtr}

/-- The listeners request locks above the one under which they are called. -/
def Restrained (listeners : VarPtr → ι → Code Unit) : Prop :=
  ∀ p i, Within Height.listener (listeners p i)

theorem lt_manager (hb : b ≤ Height.listener) : b < Height.loggerManager :=
  lt_of_le_of_lt hb (Height.listener_lt_registry.trans Height.registry_lt_manager)

namespace ConfigVar

/-- Variables may be read anywhere. -/
theorem read_within {block : Code α} (h : ∀ c, Within c block) (hb : b < Height.loggerManager) :
    Within b (RWMutex.ReadLock (.configVar p) block) :=
  lock_within h (hb.trans Height.manager_lt_configVar)

theorem write_within (hb : b < Height.listener) :
    Within b (RWMutex.WriteLock (.configVar p) (pure ())) :=
  lock_within (fun _ ↦ within_pure ()) hb

theorem handler_within {a : α} {e : Thrown} (hb : b < Height.loggerManager) : Within b (handler a e) :=
  within_of_above (handler_above configVar_lt_root) hb

theorem toString_within (hb : b < Height.loggerManager) : Within b (toString p) :=
  (read_within (fun _ ↦ conversion_within) hb).tryCatch fun _ ↦ handler_within hb

theorem notifyAll_within (hl : Restrained listeners) :
    Within Height.listener (notifyAll listeners g_log_defines p) := by
  refine within_any.bind fun m_val ↦ within_any.bind fun v ↦ within_any.bind fun m_cbs ↦ ?_
  refine within_forM (fun i ↦ ?_) m_cbs
  cases i with
  | some i => exact hl p i
  | none =>
      refine .ite (within_of_above ?_ (lt_manager le_rfl)) (within_pure ())
      exact LogIniter.onChange_above (configVar_lt_manager (p := p))

/-- What is held where the listeners are called is ranked as the read lock. -/
theorem setValueWith_within (hl : Restrained listeners) (hb : b < Height.listener) :
    Within b (setValueWith listeners g_log_defines p) := by
  refine .bind (.lock_above ?_ hb.le ((lt_manager hb.le).trans Height.manager_lt_configVar)) fun changed ↦
    .ite (write_within hb) (within_pure ())
  refine within_any.bind fun same ↦ .ite (within_pure false) ?_
  exact (notifyAll_within hl).bind fun _ ↦ within_pure true

theorem fromStringWith_within (hl : Restrained listeners) (hb : b < Height.listener) :
    Within b (fromStringWith listeners g_log_defines p) := by
  have hset : Within b (do conversion Unit; setValueWith listeners g_log_defines p) :=
    conversion_within.bind fun _ ↦ setValueWith_within hl hb
  refine (hset.tryCatch fun _ ↦ ?_).bind fun _ ↦ within_pure false
  exact handler_within (lt_manager hb.le)

end ConfigVar

namespace Config

/-- The registry may be read anywhere but where it is written. -/
theorem read_within {block : Code α} (h : ∀ c, Within c block) (hb : b ≤ Height.listener) :
    Within b (RWMutex.ReadLock .registry block) :=
  lock_within h (lt_of_le_of_lt hb Height.listener_lt_registry)

theorem register_within (hb : b < Height.loggerManager) : Within b (register name) :=
  within_of_above (register_above configVar_lt_root) hb

theorem Lookup_within : Within ⊥ (Lookup name) := by
  refine .lock_above (within_any.bind fun it ↦ ?_) bot_le (WithBot.bot_lt_coe _)
  have hlt : (order.hold .registry .exclusive : WithBot Height) < Height.loggerManager :=
    Height.registry_lt_manager
  have hlog : Above Rank.configVar (Locking.SYLAR_LOG_LEVEL .root .INFO (pure ())) :=
    SYLAR_LOG_LEVEL_above (above_pure ()) configVar_lt_root
  cases it with
  | none => exact register_within hlt
  | some it =>
      refine within_any.bind fun same ↦ .ite ?_ ?_
      · exact (within_of_above hlog hlt).bind fun _ ↦ within_pure _
      · exact (SYLAR_LOG_LEVEL_within ((ConfigVar.toString_within hlt).bind fun _ ↦ within_pure ())
          hlt).bind fun _ ↦ register_within hlt

theorem LoadFromYamlWith_within {root : Node} (hl : Restrained listeners) (hb : b < Height.listener) :
    Within b (LoadFromYamlWith listeners g_log_defines root) := by
  have hmembers : Within b (ListAllMember "" root) :=
    within_of_above (ListAllMember_above configVar_lt_root root "") (lt_manager hb.le)
  refine hmembers.bind fun all_nodes ↦ within_forM (fun i ↦ .ite ?_ (within_pure ())) _
  refine (read_within (fun _ ↦ within_any) hb.le).bind fun var ↦ ?_
  cases var with
  | none => exact within_pure ()
  | some var =>
      refine conversion_within.bind fun _ ↦ ?_
      exact (ConfigVar.fromStringWith_within hl hb).bind fun _ ↦ within_pure ()

theorem Visit_within {cb : VarPtr → Code Unit} (h : ∀ p, Within (max b Height.visitor) (cb p))
    (hb : b ≤ Height.listener) : Within b (Visit cb) := by
  refine .lock ?_ (lt_of_le_of_lt hb Height.listener_lt_registry)
  exact within_any.bind fun m ↦ within_forM h m

end Config

/-- **All calls that are allowed.** -/
theorem Context.Allows.within {k : Context} {c : Call} (h : k.Allows c)
    (hl : k = .listener ∨ Restrained listeners) :
    Within k.limit (c.codeWith listeners g_log_defines) := by
  have drop : ∀ {α : Type} {x : Code α}, Within k.limit x → Within k.limit (discard x) :=
    fun h ↦ h.bind fun _ ↦ within_pure ()
  have hle : k.limit ≤ Height.listener := k.limit_le
  have hlt : k.limit < Height.loggerManager := lt_manager hle
  -- the calls that a listener may not make
  have hwrites : ¬ Context.listener.Allows c → k.limit < Height.listener ∧ Restrained listeners := by
    intro hc
    have hk : k ≠ .listener := fun hk ↦ hc (hk ▸ h)
    exact ⟨Context.limit_lt_one hk, hl.resolve_left hk⟩
  -- the locks of the loggers
  have hlog : ∀ {α : Type} {x : Code α}, Above Rank.configVar x → Within k.limit x :=
    fun h ↦ within_of_above h hlt
  have hmanager : (Rank.configVar : WithBot Rank) < rank .loggerManager :=
    configVar_lt_manager (p := 0)
  have hlogger : ∀ l, (Rank.configVar : WithBot Rank) < rank (.logger l) :=
    fun _ ↦ configVar_lt_logger (p := 0)
  have happender : ∀ a, (Rank.configVar : WithBot Rank) < rank (.appender a) :=
    fun _ ↦ (hlogger .root).trans logger_lt_appender
  cases c with
  | Lookup name =>
      cases k with
      | thread => exact drop Config.Lookup_within
      | visitor | listener => exact h.elim
  | LookupName name | LookupBase name => exact drop (Config.read_within (fun _ ↦ within_any) hle)
  | LoadFromYaml root =>
      obtain ⟨hk, hl⟩ := hwrites id
      exact Config.LoadFromYamlWith_within hl hk
  | setValue p =>
      obtain ⟨hk, hl⟩ := hwrites id
      exact ConfigVar.setValueWith_within hl hk
  | fromString p =>
      obtain ⟨hk, hl⟩ := hwrites id
      exact drop (ConfigVar.fromStringWith_within hl hk)
  | addListener p | delListener p | clearListener p =>
      exact ConfigVar.write_within (hwrites id).1
  | getValue p | getListener p => exact ConfigVar.read_within (fun _ ↦ within_pure ()) hlt
  | toString p => exact drop (ConfigVar.toString_within hlt)
  | getLogger name => exact drop (hlog (LoggerManager.getLogger_above hmanager))
  | managerToYamlString => exact drop (hlog (LoggerManager.toYamlString_above hmanager))
  | SYLAR_LOG_LEVEL l level => exact hlog (SYLAR_LOG_LEVEL_above (above_pure ()) (hlogger l))
  | log l level => exact hlog (Logger.log_above (hlogger l))
  | addAppender l a => exact hlog (Logger.addAppender_above (hlogger l))
  | delAppender l => exact hlog (Logger.delAppender_above (hlogger l))
  | setFormatter l => exact hlog (Logger.setFormatter_above (hlogger l))
  | setFormatterString l val => exact hlog (Logger.setFormatterString_above (hlogger l))
  | getFormatter l => exact drop (hlog (Logger.getFormatter_above (hlogger l)))
  | loggerToYamlString l => exact drop (hlog (Logger.toYamlString_above (hlogger l)))
  | appenderLog a level => exact hlog (LogAppender.log_above (happender a))
  | appenderSetFormatter a => exact hlog (LogAppender.setFormatter_above (happender a))
  | getFormmater a => exact drop (hlog (LogAppender.getFormmater_above (happender a)))
  | reopen a => exact drop (hlog (LogAppender.reopen_above (happender a)))
  | appenderToYamlString a => exact drop (hlog (LogAppender.toYamlString_above (happender a)))

/-- A function of the program requests locks above those under which it is called. -/
theorem UserCode.within {k : Context} {x : Code Unit}
    (h : UserCode listeners g_log_defines k x) (hl : k = .listener ∨ Restrained listeners) :
    Within k.limit x := by
  induction h with
  | ret => exact within_pure ()
  | throw e => exact within_throw e
  | any _ ih => exact within_any.bind fun i ↦ ih i hl
  | call hc _ ih => exact (hc.within hl).attempt.bind fun r ↦ ih r hl
  | SYLAR_LOG_LEVEL _ _ ihtext ih =>
      exact (SYLAR_LOG_LEVEL_within (ihtext hl) (lt_manager (Context.limit_le _))).attempt.bind
        fun r ↦ ih r hl
  | @Visit k cb next _ _ ihcb ih =>
      have hcb : ∀ p, Within (max k.limit Height.visitor) (cb p) := by
        intro p
        rw [← k.limit_visiting]
        exact ihcb p (hl.imp_left fun hk ↦ by rw [hk]; rfl)
      exact (Config.Visit_within hcb k.limit_le).attempt.bind fun r ↦ ih r hl

/-- Listeners of the program are restrained. -/
theorem restrained_of_userCode
    (h : ∀ p i, UserCode listeners g_log_defines .listener (listeners p i)) :
    Restrained listeners :=
  fun p i ↦ (h p i).within (.inl rfl)

end Within

/-! ## Threads -/

section Threads

variable {ι T : Type} [DecidableEq T] {listeners : VarPtr → ι → Code Unit}
variable {g_log_defines : VarPtr} {tr : List (T × Action LockId)} {s s' : T → Worker LockId}

/-- **No deadlock with callbacks.**  The program may register any listeners that do not
change the configuration, and pass functions to `Visit` that do not register names.
Whatever its threads call and however they are interleaved, no cycle of threads wait for
one another, no thread waits for itself, and while any is at work, some thread can go on. -/
theorem callbacks_never_deadlock
    (hl : ∀ p i, UserCode listeners g_log_defines .listener (listeners p i))
    (h : Run (UserCode.Step listeners g_log_defines) (fun _ : T ↦ .idle) tr s) :
    (∀ t, ¬ Relation.TransGen (Locks.Blocked s) t t) ∧
    ∀ t, s t ≠ .idle →
      ∃ u a s', s u ≠ .idle ∧ UserCode.Step listeners g_log_defines s (u, a) s' := by
  have hops : ∀ q ∈ UserCode.programs listeners g_log_defines, q.Within order ⊥ := by
    rintro _ ⟨x, hx, rfl⟩
    exact Prog.Within.bind (hx.within (.inr (restrained_of_userCode hl))) fun _ ↦ trivial
  have hs : ∀ t, (s t).Within order := Locks.within_of_run hops h
  exact ⟨Locks.not_circular_of_within hs, fun t hbusy ↦
    Locks.progress_of_within hs (Locks.finite_of_run h) hbusy⟩

/-- What is held for reading cannot be had for writing.  A thread that asks for it never
goes on, which is what becomes of a function called by `Visit` that registers a name, and of
a listener that sets its own variable. -/
theorem upgrade_stays {l : LockId} {t : T} (hheld : (l, .shared) ∈ (s t).held)
    (hreq : (s t).request = some (l, .exclusive))
    (hr : Run (UserCode.Step listeners g_log_defines) s tr s') : s' t = s t :=
  Locks.stays ⟨l, .exclusive, .shared, hreq, hheld, trivial⟩ hr

end Threads

/-- The listener of `test_class` in `tests/test_config.cc`. -/
def logging (_ : VarPtr) (_ : Unit) : Code Unit :=
  (SYLAR_LOG_LEVEL .root .INFO (pure ())).attempt >>= fun _ ↦ pure ()

/-- What `main` passes to `Visit` there. -/
def printing (p : VarPtr) : Code Unit :=
  let text := ((Call.toString p).codeWith logging 0).attempt >>= fun _ ↦ pure ()
  (SYLAR_LOG_LEVEL .root .INFO text).attempt >>= fun _ ↦ pure ()

theorem logging_userCode (p : VarPtr) (i : Unit) : UserCode logging 0 .listener (logging p i) :=
  .SYLAR_LOG_LEVEL .ret fun _ ↦ .ret

theorem printing_userCode (p : VarPtr) : UserCode logging 0 .visitor (printing p) :=
  .SYLAR_LOG_LEVEL (.call trivial fun _ ↦ .ret) fun _ ↦ .ret

/-- One thread visits the variables, and another registers one. -/
theorem callbacks_never_deadlock_visiting :
    ∃ (tr : List (Bool × Action LockId)) (s : Bool → Worker LockId),
      Run (UserCode.Step logging 0) (fun _ ↦ .idle) tr s ∧ Locks.Blocked s true false ∧
      (∀ t, ¬ Relation.TransGen (Locks.Blocked s) t t) ∧
      ∃ u a s', s u ≠ .idle ∧ UserCode.Step logging 0 s (u, a) s' := by
  have hvisit : UserCode logging 0 .thread ((Config.Visit printing).attempt >>= fun _ ↦ pure ()) :=
    .Visit printing_userCode fun _ ↦ .ret
  have hlookup : UserCode logging 0 .thread
      (((Call.Lookup "system.port").codeWith logging 0).attempt >>= fun _ ↦ pure ()) :=
    .call trivial fun _ ↦ .ret
  have hrun : ∃ (tr : List (Bool × Action LockId)) (s : Bool → Worker LockId),
      Run (UserCode.Step logging 0) (fun _ ↦ .idle) tr s ∧ Locks.Blocked s true false ∧
      s true ≠ .idle := by
    refine ⟨_, _,
      .cons (.mk (t := false) (.start ⟨_, hvisit, rfl⟩) trivial) <|
      .cons (.mk (t := false) .acquire (by intro t _ h; cases t <;> cases h)) <|
      .cons (.mk (t := false) (.choose [0]) trivial) <|
      .cons (.mk (t := true) (.start ⟨_, hlookup, rfl⟩) trivial) <|
      .nil _, ⟨_, _, _, rfl, .head _, trivial⟩, fun h ↦ ?_⟩
    exact absurd (congrArg (fun th ↦ th.request.isSome) h) (by decide)
  obtain ⟨tr, s, hr, hw, hbusy⟩ := hrun
  obtain ⟨hcycle, hgo⟩ := callbacks_never_deadlock logging_userCode hr
  exact ⟨tr, s, hr, hw, hcycle, hgo true hbusy⟩

end Sylar.Locking
