import Sylar.Log.Dump

/-!
# Reloading the dumped loggers

A manager that has only been configured by loading texts is dumped, and the dump
is loaded into a new one.  The loggers come back with their levels, patterns and
appenders; the appenders have lost their levels, which no event from DEBUG on can
tell.

A logger whose entry is gone from the configuration has a level outside the
enumeration, and that does not come back.
-/

namespace Sylar.Log

open Foundation Yaml

/-! ## Managers that have been loaded -/

/-- What loading makes of a logger. -/
structure Sound (m : LoggerManager) (lg : Logger) : Prop where
  formatter : ∃ f, lg.formatter = some f ∧ Accepted f.pattern
  level : lg.level.Named ∨ lg.appenders = []
  low : ∀ a ∈ lg.appenders, ∀ ap, m.appender a = some ap → ap.level ≤ .DEBUG
  own : ∀ a ∈ lg.appenders, ∀ ap, m.appender a = some ap → ap.hasFormatter = true →
    ∃ f, ap.formatter = some f ∧ Accepted f.pattern
  inherited : ∀ a ∈ lg.appenders, ∀ ap, m.appender a = some ap → ap.hasFormatter = false →
    ap.formatter = lg.formatter

/-- What loading makes of a manager. -/
structure Loaded (m : LoggerManager) : Prop where
  separate : m.Separate
  routed : m.Routed
  sound : ∀ l lg, m.logger l = some lg → Sound m lg

variable {m m' : LoggerManager} {l : LoggerPtr} {lg : Logger} {i : LogDefine}
variable {old new c : LogDefines} {name : String} {env : Env}

theorem new_logger {l : LoggerPtr} (hl : LoggerManager.new.logger l = some lg) :
    l = 0 ∧ lg = { Logger.new "root" with appenders := [0] } := by
  by_cases hzero : l = 0
  · subst hzero
    exact ⟨rfl, (Option.some.inj hl).symm⟩
  · simp [LoggerManager.new, hzero] at hl

theorem new_loaded : Loaded .new := by
  refine ⟨LoggerManager.new_separate, LoggerManager.new_routed, fun l lg hl ↦ ?_⟩
  obtain ⟨-, rfl⟩ := new_logger hl
  have hap : ∀ {a ap}, a ∈ [0] → LoggerManager.new.appender a = some ap →
      ap = { LogAppender.new .StdoutLogAppender with formatter := some (.new defaultPattern) } := by
    intro a ap ha hap
    rw [List.mem_singleton.mp ha] at hap
    exact (Option.some.inj hap).symm
  refine ⟨⟨_, rfl, accepted_default⟩, .inl trivial, fun a ha ap h ↦ ?_, fun a ha ap h hown ↦ ?_,
    fun a ha ap h _ ↦ ?_⟩
  · rw [hap ha h]
    exact Nat.le_refl _
  · rw [hap ha h] at hown
    cases hown
  · rw [hap ha h]
    rfl

/-- A logger is replaced by one that loading makes. -/
theorem LoggerManager.Replaced.loaded {lg' : Logger} (h : m.Replaced l lg' m') (hL : Loaded m)
    (hl : m.logger l = some lg) (hs : m'.Separate) (hname : lg'.name = lg.name)
    (hroot : lg'.root = lg.root)
    (hkept : ∀ k lgk, k ≠ l → m.logger k = some lgk → ∀ a ∈ lgk.appenders,
      m'.appender a = m.appender a) (hsound : Sound m' lg') : Loaded m' := by
  have hsteady : m.Steady m' := by
    refine ⟨h.loggers, h.root, h.nextLogger, fun k ↦ ?_⟩
    by_cases hk : k = l
    · rw [hk, h.self, hl, Option.map_some, Option.map_some, hname, hroot]
    · rw [h.others k hk]
  refine ⟨hs, hsteady.routed hs.toValid hL.routed, fun k lgk hk ↦ ?_⟩
  rcases h.cases hk with ⟨-, rfl⟩ | ⟨hkl, hk⟩
  · exact hsound
  · have hsame := hkept k lgk hkl hk
    have hold := hL.sound k lgk hk
    exact ⟨hold.formatter, hold.level, fun a ha ap hap ↦ hold.low a ha ap (hsame a ha ▸ hap),
      fun a ha ap hap ↦ hold.own a ha ap (hsame a ha ▸ hap),
      fun a ha ap hap ↦ hold.inherited a ha ap (hsame a ha ▸ hap)⟩

theorem getLogger_loaded (hL : Loaded m) (name : String) : Loaded (m.getLogger name).2 := by
  refine ⟨(getLogger_view hL.separate name).1, LoggerManager.getLogger_routed hL.routed name,
    fun k lg hk ↦ ?_⟩
  rcases getLogger_logger hk with hk | rfl
  · have hold := hL.sound k lg hk
    have hsame : (m.getLogger name).2.appender = m.appender := getLogger_appender
    exact ⟨hold.formatter, hold.level, hsame ▸ hold.low, hsame ▸ hold.own, hsame ▸ hold.inherited⟩
  · exact ⟨⟨_, rfl, accepted_default⟩, .inl trivial, by simp [Logger.new], by simp [Logger.new],
      by simp [Logger.new]⟩

theorem formatterOr_accepted {p : String} {f : Option LogFormatter}
    (h : ∃ g, f = some g ∧ Accepted g.pattern) :
    ∃ g, formatterOr p f = some g ∧ Accepted g.pattern :=
  formatterOr_kind (fun p hp ↦ by simpa using hp) h

/-- An entry that has been read makes a sound logger. -/
theorem Configured.sound (h : Configured m l lg i m') (hf : ∃ f, lg.formatter = some f ∧
    Accepted f.pattern) (hi : i.level.Named ∧ ∀ a ∈ i.appenders, a.Read) :
    Sound m' { lg with
      level := i.level, formatter := formatterOr i.formatter lg.formatter
      appenders := List.range' m.nextAppender i.appenders.length } := by
  have hbuilt : ∀ a ∈ List.range' m.nextAppender i.appenders.length, ∀ ap,
      m'.appender a = some ap → ∃ d ∈ i.appenders,
        ap = d.build (formatterOr i.formatter lg.formatter) := by
    intro a ha ap hap
    obtain ⟨n, hn, rfl⟩ := List.mem_range'.mp ha
    have hd := h.built n _ (List.getElem?_eq_getElem hn)
    rw [Nat.one_mul, hd, Option.some.injEq] at hap
    exact ⟨_, List.getElem_mem hn, hap.symm⟩
  refine ⟨formatterOr_accepted hf, .inl hi.1, fun a ha ap hap ↦ ?_, fun a ha ap hap hown ↦ ?_,
    fun a ha ap hap hown ↦ ?_⟩
  · obtain ⟨d, hd, rfl⟩ := hbuilt a ha ap hap
    have hlevel : (d.build (formatterOr i.formatter lg.formatter)).level = .UNKNOW := (hi.2 d hd).2
    rw [hlevel]
    exact Nat.zero_le _
  · obtain ⟨d, hd, rfl⟩ := hbuilt a ha ap hap
    exact formatterOr_accepted (formatterOr_accepted hf)
  · obtain ⟨d, hd, rfl⟩ := hbuilt a ha ap hap
    have hrej : ¬ Accepted d.formatter := by simpa [LogAppenderDefine.build] using hown
    simp [LogAppenderDefine.build, formatterOr, hrej]

theorem applyDefine_loaded (hL : Loaded m) (hi : i.level.Named ∧ ∀ a ∈ i.appenders, a.Read)
    (h : applyDefine old m i = .ok m') : Loaded m' := by
  obtain ⟨hs, lg, hlg, hc⟩ := applyDefine_configured hL.separate h
  have hL' := getLogger_loaded hL i.name
  refine hc.replaced.loaded hL' hlg (hc.separate hs hlg) rfl rfl (fun k lgk hkl hk a ha ↦ ?_)
    (hc.sound (hL'.sound _ lg hlg).formatter hi)
  obtain ⟨ap, hap⟩ := hs.attached k lgk hk a ha
  exact hc.kept a (hs.appender_lt hap) (hs.appenders k _ lgk lg hk hlg hkl a ha)

theorem removeDefine_loaded (hL : Loaded m) (h : removeDefine new m i = .ok m') : Loaded m' := by
  cases hf : new.find? i.name with
  | some it =>
      rw [removeDefine_kept hf, Except.ok.injEq] at h
      exact h ▸ hL
  | none =>
      have hL' := getLogger_loaded hL i.name
      obtain ⟨lg, hlg⟩ := (getLogger_valid hL.separate.toValid i.name).2
      have hs := (removeDefine_view hL.separate h).1
      rw [removeDefine_eq hf hlg, Except.ok.injEq] at h
      subst h
      exact LoggerManager.setLogger_replaced.loaded hL' hlg hs rfl rfl (fun _ _ _ _ _ _ ↦ rfl)
        ⟨(hL'.sound _ lg hlg).formatter, .inr rfl, by simp, by simp, by simp⟩

/-- Loading a configuration that has been read. -/
theorem onChange_loaded (hL : Loaded m) (hc : new.Read) (h : onChange env old new m = .ok m') :
    Loaded m' := by
  obtain ⟨_, m₁, h₁, h₂⟩ := onChange_ok h
  have hL₁ := foldlM_invariant (I := Loaded) (fun m i m' hi hL h ↦
    applyDefine_loaded hL (hc i hi) h) hL h₁
  exact foldlM_invariant (I := Loaded) (fun m i m' _ hL h ↦ removeDefine_loaded hL h) hL₁ h₂

/-! ## The loggers after the dump -/

/-- A logger after it has been dumped and loaded. -/
def LoggerView.reread (v : LoggerView) : LoggerView :=
  { v with
    level := v.level.reread
    appenders := v.appenders.map (Option.map fun a ↦ { a with level := .UNKNOW }) }

theorem Loaded.patterned (hL : Loaded m) : Patterned m := by
  refine ⟨fun l lg hl ↦ ?_, fun l lg hl a ha ap hap hown ↦ ?_⟩
  · obtain ⟨f, hf, hacc⟩ := (hL.sound l lg hl).formatter
    exact ⟨f, hf, hacc.1⟩
  · obtain ⟨f, hf, hacc⟩ := (hL.sound l lg hl).own a ha ap hap hown
    exact ⟨f, hf, hacc.1⟩

/-- An appender is made again as it is, but for its level. -/
theorem define_build {ap : LogAppender} {f : LogFormatter}
    (hown : ap.hasFormatter = true → ∃ g, ap.formatter = some g ∧ Accepted g.pattern)
    (hinh : ap.hasFormatter = false → ap.formatter = some f) :
    (⟨ap.define.forget.kind, ap.define.forget.level,
      patternOr ap.define.forget.formatter (some f.pattern)⟩ : AppenderView) =
    { ap.view with level := .UNKNOW } := by
  obtain ⟨kind, level, formatter, hasFormatter⟩ := ap
  have hkind : (LogAppender.define ⟨kind, level, formatter, hasFormatter⟩).forget.kind = kind := by
    cases kind <;> rfl
  have hpattern : patternOr (LogAppender.define ⟨kind, level, formatter,
      hasFormatter⟩).forget.formatter (some f.pattern) = formatter.map LogFormatter.pattern := by
    cases hasFormatter with
    | true =>
        obtain ⟨g, hg, hacc⟩ := hown rfl
        obtain rfl : formatter = some g := hg
        simp [LogAppender.define, LogAppenderDefine.forget, patternOr, hacc]
    | false =>
        obtain rfl : formatter = some f := hinh rfl
        have hempty : ¬ Accepted "" := fun h ↦ h.1 rfl
        simp [LogAppender.define, LogAppenderDefine.forget, patternOr, hempty]
  rw [hkind, hpattern]
  rfl

/-- The definition of a logger makes it again. -/
theorem define_view (hL : Loaded m) {e : String × LoggerPtr} (hl : m.logger e.2 = some lg) :
    (m.define e).reread.view (some defaultPattern) = (m.viewOf lg).reread := by
  have hsound := hL.sound e.2 lg hl
  obtain ⟨f, hf, hacc⟩ := hsound.formatter
  have happ : ∀ as : List AppenderPtr, (∀ a ∈ as, a ∈ lg.appenders) →
      ((as.filterMap fun a ↦ (m.appender a).map LogAppender.define).map
        LogAppenderDefine.forget).map (fun a ↦
          some (⟨a.kind, a.level, patternOr a.formatter (some f.pattern)⟩ : AppenderView)) =
      (as.map fun a ↦ (m.appender a).map LogAppender.view).map
        (Option.map fun a ↦ { a with level := .UNKNOW }) := by
    intro as has
    induction as with
    | nil => rfl
    | cons a as ih =>
        obtain ⟨ap, hap⟩ := hL.separate.attached e.2 lg hl a (has a (by simp))
        have hone := define_build (hsound.own a (has a (by simp)) ap hap)
          fun h ↦ (hsound.inherited a (has a (by simp)) ap hap h).trans hf
        simp only [List.filterMap_cons, hap, Option.map_some, List.map_cons, hone,
          ih fun b hb ↦ has b (by simp [hb])]
  have hpat : patternOr f.pattern (some defaultPattern) = some f.pattern := by
    simp [patternOr, hacc]
  simp only [LoggerManager.define, hl, hf, LogDefine.reread, LogDefine.forget, LogDefine.view,
    LoggerView.reread, LoggerManager.viewOf, Option.map_some, Option.getD_some, hpat,
    happ lg.appenders fun _ h ↦ h]

/-- The dump holds a configuration as it is read. -/
theorem defines_read (m : LoggerManager) : m.defines.reread.Read := by
  intro i hi
  obtain ⟨j, hj, rfl⟩ := List.mem_map.mp hi
  obtain ⟨e, -, rfl⟩ := List.mem_map.mp hj
  refine ⟨(m.define e).level.named_reread, fun a ha ↦ ?_⟩
  obtain ⟨b, hb, rfl⟩ := List.mem_map.mp ha
  refine ⟨?_, rfl⟩
  unfold LoggerManager.define at hb
  split at hb
  · cases hb
  · obtain ⟨p, -, hp⟩ := List.mem_filterMap.mp hb
    obtain ⟨ap, -, rfl⟩ := Option.map_eq_some_iff.mp hp
    exact ap.define_pure.imp_right And.left

theorem view_of_mem {e : String × LoggerPtr} (he : e ∈ m.loggers) (hl : m.logger e.2 = some lg) :
    m.view e.1 = some (m.viewOf lg) := by
  rw [LoggerManager.view, Keyed.find?_eq_some.mpr ⟨he, rfl⟩, Option.bind_some, hl, Option.map_some]

/-- Loading the dump into a new manager. -/
theorem restore (hL : Loaded m) (env : Env) :
    ∃ m', onChange env Keyed.empty m.defines.reread .new = .ok m' ∧ Loaded m' ∧
      ∀ e ∈ m.loggers, m'.view e.1 = (m.view e.1).map LoggerView.reread := by
  have hread := defines_read m
  obtain ⟨m', h⟩ := onChange_total env hread.typed LoggerManager.new_valid announces_new
    fun i _ (hi : i ∈ (Keyed.empty : LogDefines)) ↦ absurd hi List.not_mem_nil
  refine ⟨m', h, onChange_loaded new_loaded hread h, fun e he ↦ ?_⟩
  obtain ⟨lg, hl⟩ := hL.separate.live e he
  have hmem : (m.define e).reread ∈ m.defines.reread :=
    List.mem_map.mpr ⟨_, List.mem_map.mpr ⟨e, he, rfl⟩, rfl⟩
  have hname : (m.define e).reread.name = e.1 := LoggerManager.define_name m e
  have hview := (onChange_new h).2.1 _ hmem
  rw [hname, define_view hL hl] at hview
  rw [hview, view_of_mem he hl, Option.map_some]

/-! ## Who receives an event -/

/-- What an appender is told by: its kind, with the file, and its pattern. -/
abbrev Told := AppenderKind × Option String

/-- The appenders of a view that take events of a level. -/
def LoggerView.taken (level : Level) (v : LoggerView) : List Told :=
  v.appenders.filterMap fun a ↦
    a.bind fun a ↦ if a.level ≤ level then some (a.kind, a.pattern) else none

/-- The appenders that receive an event of a level from a logger. -/
def receivers (level : Level) (v root : LoggerView) : List Told :=
  if v.level ≤ level then
    if v.appenders ≠ [] then v.taken level
    else if root.level ≤ level then root.taken level else []
  else []

/-- What tells the appender of a line. -/
def LoggerManager.told (m : LoggerManager) (o : AppenderPtr × String) : Option Told :=
  (m.appender o.1).map fun ap ↦ (ap.kind, ap.formatter.map LogFormatter.pattern)

/-- The targets that take an event, read off the views. -/
theorem taken_eq {level : Level} (as : List AppenderPtr) :
    ((as.filter fun a ↦ m.Takes level a).map fun a ↦
        (m.appender a).map fun ap ↦ (ap.kind, ap.formatter.map LogFormatter.pattern)) =
      ((as.map fun a ↦ (m.appender a).map LogAppender.view).filterMap fun a ↦
        a.bind fun a ↦ if a.level ≤ level then some (a.kind, a.pattern) else none).map some := by
  induction as with
  | nil => rfl
  | cons a as ih =>
      cases ha : m.appender a with
      | none =>
          have hnot : ¬ m.Takes level a := by simp [LoggerManager.Takes, ha]
          simp [hnot, ha, ih]
      | some ap =>
          have htakes : m.Takes level a ↔ ap.level ≤ level := by simp [LoggerManager.Takes, ha]
          by_cases hle : ap.level ≤ level
          · simp [htakes.mpr hle, ha, hle, LogAppender.view, ih]
          · simp [mt htakes.mp hle, ha, hle, LogAppender.view, ih]

/-- Logging reaches the receivers. -/
theorem log_told (hL : Loaded m) {e : String × LoggerPtr} {r : Logger} (env : Env) (level : Level)
    (event : LogEvent) (hl : m.logger e.2 = some lg) (hroot : m.logger m.root = some r) :
    ∃ out, m.log env e.2 level event = .ok out ∧
      out.map m.told = (receivers level (m.viewOf lg) (m.viewOf r)).map some := by
  have hformatter : ∀ {k lgk}, m.logger k = some lgk → ∀ a ∈ lgk.appenders,
      ∃ ap, m.appender a = some ap ∧ ap.formatter ≠ none := by
    intro k lgk hk a ha
    obtain ⟨ap, hap⟩ := hL.separate.attached k lgk hk a ha
    refine ⟨ap, hap, ?_⟩
    have hsound := hL.sound k lgk hk
    cases hown : ap.hasFormatter with
    | true =>
        obtain ⟨f, hf, -⟩ := hsound.own a ha ap hap hown
        simp [hf]
    | false =>
        obtain ⟨f, hf, -⟩ := hsound.formatter
        simp [hsound.inherited a ha ap hap hown, hf]
  have hall : ∀ a ∈ (LoggerManager.targets level lg r).filter fun a ↦ m.Takes level a,
      ∃ ap, m.appender a = some ap ∧ ap.formatter ≠ none := by
    intro a ha
    obtain ⟨hmem, -⟩ := List.mem_filter.mp ha
    rcases LoggerManager.mem_targets hmem with hmem | hmem
    · exact hformatter hl a hmem
    · exact hformatter hroot a hmem
  obtain ⟨out, hout, hfst⟩ := LoggerManager.deliver_all env level event hall
  refine ⟨out, (LoggerManager.log_eq hL.routed hroot hl).trans hout, ?_⟩
  have htold : out.map m.told = (out.map Prod.fst).map fun a ↦ (m.appender a).map fun ap ↦
      (ap.kind, ap.formatter.map LogFormatter.pattern) := by
    rw [List.map_map]
    rfl
  rw [htold, hfst, taken_eq]
  unfold LoggerManager.targets receivers
  by_cases hle : lg.level ≤ level
  · by_cases happ : lg.appenders = []
    · by_cases hroot' : r.level ≤ level
      · simp [LoggerManager.viewOf, LoggerView.taken, hle, happ, hroot']
      · simp [LoggerManager.viewOf, hle, happ, hroot']
    · simp [LoggerManager.viewOf, LoggerView.taken, hle, happ]
  · simp [LoggerManager.viewOf, hle]

/-- What loading makes of the view of a logger. -/
structure LoggerView.Plain (v : LoggerView) : Prop where
  level : v.level.Named ∨ v.appenders = []
  low : ∀ a ∈ v.appenders, ∃ b, a = some b ∧ b.level ≤ .DEBUG

theorem Loaded.plain (hL : Loaded m) (hl : m.logger l = some lg) : (m.viewOf lg).Plain := by
  have hsound := hL.sound l lg hl
  refine ⟨hsound.level.imp_right fun h ↦ by simp [LoggerManager.viewOf, h], fun a ha ↦ ?_⟩
  obtain ⟨p, hp, rfl⟩ := List.mem_map.mp ha
  obtain ⟨ap, hap⟩ := hL.separate.attached l lg hl p hp
  exact ⟨ap.view, by simp [hap], hsound.low p hp ap hap⟩

/-- No event from DEBUG on can tell the levels of the appenders apart. -/
theorem LoggerView.Plain.taken {v : LoggerView} {level : Level} (h : v.Plain)
    (hlevel : .DEBUG ≤ level) :
    v.reread.taken level = v.taken level ∧ (v.taken level = [] ↔ v.appenders = []) := by
  obtain ⟨vlevel, pattern, as⟩ := v
  have hlow := h.low
  clear h
  simp only [LoggerView.reread, LoggerView.taken] at hlow ⊢
  have hunknow : Level.UNKNOW ≤ level := Nat.zero_le _
  induction as with
  | nil => simp
  | cons a as ih =>
      obtain ⟨b, rfl, hb⟩ := hlow a (by simp)
      obtain ⟨ih, -⟩ := ih fun c hc ↦ hlow c (by simp [hc])
      have hle : b.level ≤ level := Nat.le_trans hb hlevel
      simp only [List.map_cons, Option.map_some, List.filterMap_cons, Option.bind_some, hunknow,
        hle, if_true, ih]
      simp

/-- A level outside the enumeration lets no event pass. -/
theorem not_named_le {j level : Level} (hj : ¬ j.Named) (hlevel : level ≤ .FATAL) :
    ¬ j ≤ level := by
  cases j with
  | other v hv =>
      intro hle
      have hle : v ≤ 5 := Nat.le_trans hle hlevel
      exact absurd hv (Nat.not_lt_of_le hle)
  | _ => exact absurd trivial hj

theorem named_le_fatal {j : Level} (hj : j.Named) : j ≤ .FATAL := by
  cases j with
  | other v hv => exact absurd hj id
  | _ => decide

/-- **When a dump loses a logger's silence.**  The receivers are the same after the
dump exactly if the logger has a level of the enumeration, or the root has no
appenders that could receive instead. -/
theorem receivers_reread_iff {v r : LoggerView} (hv : v.Plain) (hr : r.Plain) :
    (∀ level, .DEBUG ≤ level → level ≤ .FATAL →
      receivers level v.reread r.reread = receivers level v r) ↔
      v.level.Named ∨ r.appenders = [] := by
  have hnil : ∀ v : LoggerView, v.reread.appenders = [] ↔ v.appenders = [] := by
    intro v
    simp [LoggerView.reread]
  constructor
  · intro h
    by_contra hnot
    rw [not_or] at hnot
    obtain ⟨hnamed, happ⟩ := hnot
    have hvnil := hv.level.resolve_left hnamed
    have hrnamed := hr.level.resolve_right happ
    obtain ⟨htaken, hempty⟩ := hr.taken (by decide : Level.DEBUG ≤ .FATAL)
    have heq := h .FATAL (by decide) (by decide)
    have hleft : receivers .FATAL v.reread r.reread = r.taken .FATAL := by
      have hvlevel : v.reread.level ≤ .FATAL := named_le_fatal v.level.named_reread
      have hrlevel : r.reread.level ≤ .FATAL := named_le_fatal r.level.named_reread
      have hvre : v.reread.appenders = [] := (hnil v).mpr hvnil
      simp [receivers, hvlevel, hrlevel, hvre, htaken]
    have hright : receivers .FATAL v r = [] := by
      simp [receivers, not_named_le hnamed (by decide : Level.FATAL ≤ .FATAL)]
    rw [hleft, hright] at heq
    exact happ (hempty.mp heq)
  · intro h level hlow hhigh
    obtain ⟨hvtaken, -⟩ := hv.taken hlow
    obtain ⟨hrtaken, hrempty⟩ := hr.taken hlow
    -- the root delivers the same, whatever its level has become
    have hroot : (if r.reread.level ≤ level then r.reread.taken level else []) =
        if r.level ≤ level then r.taken level else [] := by
      rw [hrtaken]
      by_cases hrnamed : r.level.Named
      · have hlevel : r.reread.level = r.level := Level.reread_named hrnamed
        rw [hlevel]
      · rw [hrempty.mpr (hr.level.resolve_left hrnamed), ite_self, ite_self]
    by_cases hnamed : v.level.Named
    · have hlevel : v.reread.level = v.level := Level.reread_named hnamed
      simp only [receivers, hlevel, hvtaken, hroot, ne_eq, hnil]
    · have hrnil := h.resolve_left hnamed
      have hvnil : v.reread.appenders = [] := (hnil v).mpr (hv.level.resolve_left hnamed)
      have hright : receivers level v r = [] := by
        simp [receivers, not_named_le hnamed hhigh]
      rw [hright, receivers, hroot, hrempty.mpr hrnil, hvnil]
      simp

/-! ## Loading, dumping and loading again -/

/-- A text is loaded into the configuration variable: what cannot be read, and what
is equal to the value, changes nothing. -/
def Loads (y : YamlCpp) (s : LogDefines × LoggerManager) (v : Env × String)
    (t : LogDefines × LoggerManager) : Prop :=
  match LogDefines.fromString y v.2 with
  | .error _ => t = s
  | .ok c => if c = s.1 then t = s else ∃ m', onChange v.1 s.1 c s.2 = .ok m' ∧ t = (c, m')

/-- The same appenders receive every event from DEBUG to FATAL, under every name of
the first manager. -/
def SameReceivers (m m' : LoggerManager) : Prop :=
  ∀ e ∈ m.loggers, ∃ l', (e.1, l') ∈ m'.loggers ∧
    ∀ env level event, .DEBUG ≤ level → level ≤ .FATAL →
      ∃ out out', m.log env e.2 level event = .ok out ∧ m'.log env l' level event = .ok out' ∧
        out.map m.told = out'.map m'.told

/-- No logger has been left without an entry, or the root could not receive its
events either. -/
def Silenceable (m : LoggerManager) : Prop :=
  (∀ r, m.logger m.root = some r → r.appenders = []) ∨
    ∀ e ∈ m.loggers, ∀ lg, m.logger e.2 = some lg → lg.level.Named

variable {y : YamlCpp} {s t : LogDefines × LoggerManager} {vs : List (Env × String)}

theorem Loads.loaded {v : Env × String} (hL : Loaded s.2) (h : Loads y s v t) : Loaded t.2 := by
  unfold Loads at h
  split at h
  · rw [h]
    exact hL
  · rename_i c hc
    split at h
    · rw [h]
      exact hL
    · obtain ⟨m', hm', rfl⟩ := h
      exact onChange_loaded hL (LogDefines.fromString_read hc) hm'

/-- The dump of a loaded manager, and what loading it makes of a new one. -/
theorem Loaded.restore_same_iff (hL : Loaded m) (env : Env) :
    ∃ m', onChange env Keyed.empty m.defines.reread .new = .ok m' ∧
      (SameReceivers m m' ↔ Silenceable m) := by
  obtain ⟨m', hm', hL', hviews⟩ := restore hL env
  refine ⟨m', hm', ?_⟩
  obtain ⟨r, hr, -⟩ := hL.separate.root
  obtain ⟨r', hr', -⟩ := hL'.separate.root
  have hrootView : m'.viewOf r' = (m.viewOf r).reread := by
    have hview := hviews ("root", m.root) hL.routed.rootName
    rw [view_of_mem hL.routed.rootName hr] at hview
    exact Option.some.inj ((view_of_mem hL'.routed.rootName hr').symm.trans hview)
  -- the logger of a name, on both sides
  have hname : ∀ e ∈ m.loggers, ∃ lg l' lg', m.logger e.2 = some lg ∧ (e.1, l') ∈ m'.loggers ∧
      m'.logger l' = some lg' ∧ m'.viewOf lg' = (m.viewOf lg).reread := by
    intro e he
    obtain ⟨lg, hl⟩ := hL.separate.live e he
    have hview := hviews e he
    rw [view_of_mem he hl, Option.map_some, LoggerManager.view] at hview
    obtain ⟨lg', hlg', hv⟩ := Option.map_eq_some_iff.mp hview
    obtain ⟨e', he', hl'⟩ := Option.bind_eq_some_iff.mp hlg'
    obtain ⟨hmem, hfst⟩ := Keyed.find?_eq_some.mp he'
    exact ⟨lg, e'.2, lg', hl, by rw [← hfst]; exact hmem, hl', hv⟩
  have hsame : SameReceivers m m' ↔ ∀ e ∈ m.loggers, ∀ lg, m.logger e.2 = some lg →
      ∀ level, .DEBUG ≤ level → level ≤ .FATAL →
        receivers level (m.viewOf lg).reread (m.viewOf r).reread =
          receivers level (m.viewOf lg) (m.viewOf r) := by
    constructor
    · intro h e he lg hl level hlow hhigh
      obtain ⟨l', hmem, hlog⟩ := h e he
      obtain ⟨lg₀, l₁, lg', hl₀, hmem₁, hl', hv⟩ := hname e he
      obtain rfl : lg = lg₀ := Option.some.inj (hl.symm.trans hl₀)
      obtain rfl : l' = l₁ := congrArg Prod.snd (Keyed.eq_of_key hmem hmem₁ rfl)
      have event : LogEvent := ⟨"", 0, 0, 0, 0, 0, "", "", level, ""⟩
      obtain ⟨out, out', hout, hout', htold⟩ := hlog .plain level event hlow hhigh
      obtain ⟨out₁, hout₁, ht₁⟩ := log_told hL .plain level event hl hr
      obtain ⟨out₂, hout₂, ht₂⟩ := log_told (e := (e.1, l')) hL' .plain level event hl' hr'
      obtain rfl : out = out₁ := Except.ok.inj (hout.symm.trans hout₁)
      obtain rfl : out' = out₂ := Except.ok.inj (hout'.symm.trans hout₂)
      rw [ht₁, ht₂, hv, hrootView] at htold
      exact (List.map_injective_iff.mpr (fun _ _ ↦ Option.some.inj) htold).symm
    · intro h e he
      obtain ⟨lg, l', lg', hl, hmem, hl', hv⟩ := hname e he
      refine ⟨l', hmem, fun env level event hlow hhigh ↦ ?_⟩
      obtain ⟨out, hout, ht⟩ := log_told hL env level event hl hr
      obtain ⟨out', hout', ht'⟩ := log_told (e := (e.1, l')) hL' env level event hl' hr'
      refine ⟨out, out', hout, hout', ?_⟩
      rw [ht, ht', hv, hrootView, h e he lg hl level hlow hhigh]
  rw [hsame]
  constructor
  · intro h
    by_cases hnil : r.appenders = []
    · refine .inl fun r₀ hr₀ ↦ ?_
      obtain rfl : r = r₀ := Option.some.inj (hr.symm.trans hr₀)
      exact hnil
    · refine .inr fun e he lg hl ↦ ?_
      have hnamed := (receivers_reread_iff (hL.plain hl) (hL.plain hr)).mp (h e he lg hl)
      exact hnamed.resolve_right (by simpa [LoggerManager.viewOf] using hnil)
  · intro h e he lg hl
    refine (receivers_reread_iff (hL.plain hl) (hL.plain hr)).mpr
      (h.symm.imp (fun h ↦ h e he lg hl) fun h ↦ ?_)
    simp [LoggerManager.viewOf, h r hr]

/-- **Dumping and reloading the loggers.**  After any texts have been loaded into a
new manager, its dump can be read and applied to another one.  The same appenders
receive every event from DEBUG to FATAL exactly if no logger has been left without
an entry, or the root has no appenders. -/
theorem dump_reloads_iff (hy : y.Reloads) (hstr : ∀ t, y.asString (.scalar t) = .ok t)
    (h : Run (Loads y) (Keyed.empty, .new) vs t) (env : Env) :
    ∃ text c m', t.2.toYamlString y = .ok text ∧ LogDefines.fromString y text = .ok c ∧
      onChange env Keyed.empty c .new = .ok m' ∧ (SameReceivers t.2 m' ↔ Silenceable t.2) := by
  have hL : Loaded t.2 := h.invariant (I := fun s ↦ Loaded s.2) (fun _ _ _ hL h ↦ h.loaded hL)
    new_loaded
  obtain ⟨text, hdump, hread⟩ := LoggerManager.toYamlString_read hy hstr hL.routed hL.patterned
  obtain ⟨m', hm', hiff⟩ := hL.restore_same_iff env
  exact ⟨text, _, m', hdump, hread, hm', hiff⟩

/-- There is a text from which a configuration is read. -/
theorem exists_text (hy : y.Reloads) (hstr : ∀ t, y.asString (.scalar t) = .ok t)
    (hc : c.Read) (hpure : ∀ i ∈ c, ∀ a ∈ i.appenders, a.Pure) :
    ∃ text, LogDefines.fromString y text = .ok c := by
  obtain ⟨text, -, hread⟩ := LogDefines.reread_toString (y := y) hpure hstr fun n _ ↦ hy n
  have hplain : c.Plain := fun i hi ↦ ⟨(hc i hi).1, fun a ha ↦
    ⟨by rw [((hc i hi).2 a ha).2]; trivial, hpure i hi a ha⟩⟩
  have hsame : c.reread = c := by
    rw [reread_eq_forget hplain]
    exact forget_eq_self_iff.mpr fun i hi a ha ↦ ((hc i hi).2 a ha).2
  exact ⟨text, hsame ▸ hread⟩

theorem mem_oneLogger {level : Level} :
    i ∈ oneLogger name level ↔ i = { name, level, appenders := [{ type := 2 }] } := by
  simp [oneLogger, Keyed.mem_def, Keyed.insert, Keyed.place]

/-- A configuration with one logger is loaded into a new manager. -/
theorem loads_oneLogger (hy : y.Reloads) (hstr : ∀ t, y.asString (.scalar t) = .ok t) :
    ∃ text m, LogDefines.fromString y text = .ok (oneLogger "system" .INFO) ∧
      Loads y (Keyed.empty, .new) (.plain, text) (oneLogger "system" .INFO, m) ∧
      onChange .plain Keyed.empty (oneLogger "system" .INFO) .new = .ok m := by
  have hread : (oneLogger "system" .INFO).Read := by
    intro i hi
    rw [mem_oneLogger.mp hi]
    exact ⟨trivial, fun a ha ↦ by rw [List.mem_singleton.mp ha]; exact ⟨.inr rfl, rfl⟩⟩
  obtain ⟨text, htext⟩ := exists_text hy hstr hread fun i hi a ha ↦ by
    rw [mem_oneLogger.mp hi] at ha
    rw [List.mem_singleton.mp ha]
    exact .inr ⟨rfl, rfl⟩
  obtain ⟨m, hm⟩ := onChange_total .plain hread.typed LoggerManager.new_valid announces_new
    fun i _ (hi : i ∈ (Keyed.empty : LogDefines)) ↦ absurd hi List.not_mem_nil
  have hne : oneLogger "system" .INFO ≠ Keyed.empty := by decide
  exact ⟨text, m, htext, by simpa [Loads, htext, hne] using hm, hm⟩

/-- The loggers of a new manager have levels of the enumeration. -/
theorem new_named {v : LoggerView} (h : LoggerManager.new.view name = some v) :
    v.level.Named := by
  obtain ⟨lg, hlg, rfl⟩ := Option.map_eq_some_iff.mp h
  obtain ⟨e, -, hl⟩ := Option.bind_eq_some_iff.mp hlg
  obtain ⟨-, rfl⟩ := new_logger hl
  trivial

/-- The dump of a manager with one configured logger. -/
theorem dump_reloads_iff_oneLogger :
    ∃ v t text c m', Run (Loads (YamlCpp.showing [])) (Keyed.empty, .new) [v] t ∧
      t.1 = oneLogger "system" .INFO ∧ t.2.toYamlString (YamlCpp.showing []) = .ok text ∧
      LogDefines.fromString (YamlCpp.showing []) text = .ok c ∧
      onChange .plain Keyed.empty c .new = .ok m' ∧ SameReceivers t.2 m' := by
  have hy := YamlCpp.showing_nil_reloads
  obtain ⟨v, m, -, hload, hm⟩ := loads_oneLogger hy fun _ ↦ rfl
  have hrun := Run.cons hload (.nil _)
  obtain ⟨text, c, m', hdump, hread, hm', hiff⟩ := dump_reloads_iff hy (fun _ ↦ rfl) hrun .plain
  refine ⟨_, _, text, c, m', hrun, rfl, hdump, hread, hm', hiff.mpr (.inr fun e he lg hl ↦ ?_)⟩
  have hview := view_of_mem he hl
  obtain ⟨-, hviews, hothers⟩ := onChange_view LoggerManager.new_separate hm
  by_cases hname : e.1 = "system"
  · rw [hname, hviews _ (mem_oneLogger.mpr rfl), Option.some.injEq] at hview
    have hlevel : lg.level = .INFO := (congrArg LoggerView.level hview).symm
    rw [hlevel]
    trivial
  · rw [hothers e.1 (fun i hi heq ↦ hname (by rw [← heq, mem_oneLogger.mp hi]))
      fun i hi ↦ absurd hi List.not_mem_nil] at hview
    exact new_named hview

/-- The configured logger is removed again.  It was silent, and after the dump its
events go to the root. -/
theorem dump_removed :
    ∃ v w t, LogDefines.fromString (YamlCpp.showing []) v = .ok (oneLogger "system" .INFO) ∧
      LogDefines.fromString (YamlCpp.showing []) w = .ok Keyed.empty ∧
      Run (Loads (YamlCpp.showing [])) (Keyed.empty, .new) [(.plain, v), (.plain, w)] t ∧
      ∃ text c m', t.2.toYamlString (YamlCpp.showing []) = .ok text ∧
        LogDefines.fromString (YamlCpp.showing []) text = .ok c ∧
        onChange .plain Keyed.empty c .new = .ok m' ∧ ¬ SameReceivers t.2 m' := by
  have hy := YamlCpp.showing_nil_reloads
  obtain ⟨v, m, hv, hload, hm⟩ := loads_oneLogger hy fun _ ↦ rfl
  have hempty : LogDefines.Read Keyed.empty := fun _ hi ↦ absurd hi List.not_mem_nil
  obtain ⟨w, hw⟩ := exists_text hy (fun _ ↦ rfl) hempty fun _ hi ↦ absurd hi List.not_mem_nil
  have hL : Loaded m := hload.loaded new_loaded
  obtain ⟨hs, hf⟩ := onChange_formatted LoggerManager.new_separate formatted_new hm
  obtain ⟨m₂, hm₂⟩ : ∃ m₂, onChange .plain (oneLogger "system" .INFO) Keyed.empty m = .ok m₂ :=
    onChange_total .plain hempty.typed hs.toValid hf.announces
      fun _ hi ↦ absurd hi List.not_mem_nil
  have hne : (Keyed.empty : LogDefines) ≠ oneLogger "system" .INFO := by decide
  have hload₂ : Loads (YamlCpp.showing []) (oneLogger "system" .INFO, m) (.plain, w)
      (Keyed.empty, m₂) := by
    simpa [Loads, hw, hne] using hm₂
  have hL₂ : Loaded m₂ := hload₂.loaded hL
  obtain ⟨text, hdump, hread⟩ :=
    LoggerManager.toYamlString_read hy (fun _ ↦ rfl) hL₂.routed hL₂.patterned
  obtain ⟨m', hm', hiff⟩ := hL₂.restore_same_iff .plain
  refine ⟨v, w, _, hv, hw, .cons hload (.cons hload₂ (.nil _)), text, _, m', hdump, hread, hm',
    fun hsame ↦ ?_⟩
  rcases hiff.mp hsame with hroot | hnamed
  · -- the root has kept the appender it was made with
    obtain ⟨r, hr, -⟩ := hL₂.separate.root
    have hview := view_of_mem hL₂.routed.rootName hr
    have hnot : ∀ i ∈ oneLogger "system" .INFO, i.name ≠ "root" := by
      intro i hi
      rw [mem_oneLogger.mp hi]
      decide
    rw [(onChange_view hs hm₂).2.2 "root" (fun _ hi ↦ absurd hi List.not_mem_nil) hnot,
      (onChange_view LoggerManager.new_separate hm).2.2 "root" hnot
        fun _ hi ↦ absurd hi List.not_mem_nil] at hview
    have happ := congrArg (Option.map LoggerView.appenders) hview
    simp only [LoggerManager.viewOf, hroot r hr, Option.map_some, List.map_nil] at happ
    cases happ
  · -- the removed logger has kept the level 100
    obtain ⟨u, hview, hlevel, -⟩ := onChange_silenced hs hm₂ (mem_oneLogger.mpr rfl) rfl
    obtain ⟨lg, hlg, rfl⟩ := Option.map_eq_some_iff.mp hview
    obtain ⟨e, he, hl⟩ := Option.bind_eq_some_iff.mp hlg
    exact hlevel (hnamed e (Keyed.find?_eq_some.mp he).1 lg hl)

end Sylar.Log
