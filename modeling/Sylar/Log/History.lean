import Sylar.Log.Initer

/-!
# Loading one configuration after another

What a logger does is determined by its level, its formatter and its appenders.
`view` reads these off a manager, and the listener's loops act on views: an entry
of the new configuration rewrites the view of its logger and leaves all others
alone.

Level and appenders are rewritten from the entry alone.  The formatter is not: an
entry without a pattern, or with one the parser rejects, keeps the pattern that
is there.
-/

namespace Sylar.Log

open Foundation

/-- What an appender does. -/
structure AppenderView where
  kind : AppenderKind
  level : Level
  pattern : Option String
deriving DecidableEq, Repr

/-- What a logger does. -/
structure LoggerView where
  level : Level
  pattern : Option String
  appenders : List (Option AppenderView)
deriving DecidableEq, Repr

def LogAppender.view (ap : LogAppender) : AppenderView :=
  ⟨ap.kind, ap.level, ap.formatter.map LogFormatter.pattern⟩

namespace LoggerManager

/-- The view of a logger object. -/
def viewOf (m : LoggerManager) (lg : Logger) : LoggerView :=
  ⟨lg.level, lg.formatter.map LogFormatter.pattern,
    lg.appenders.map fun a ↦ (m.appender a).map LogAppender.view⟩

/-- The view of the logger with a name. -/
def view (m : LoggerManager) (name : String) : Option LoggerView :=
  ((m.loggers.find? name).bind fun e ↦ m.logger e.2).map m.viewOf

/-- Loggers are not shared between names, nor appenders between loggers. -/
structure Separate (m : LoggerManager) : Prop extends m.Valid where
  names : ∀ e ∈ m.loggers, ∀ e' ∈ m.loggers, e.2 = e'.2 → e = e'
  appenders : ∀ k l lg lg', m.logger k = some lg → m.logger l = some lg' → k ≠ l →
    ∀ a ∈ lg.appenders, a ∉ lg'.appenders

theorem Separate.ptr_ne {m : LoggerManager} (hs : m.Separate) {name x : String} {l : LoggerPtr}
    {e : String × LoggerPtr} (hf : m.loggers.find? name = some (name, l))
    (hfx : m.loggers.find? x = some e) (hx : x ≠ name) : e.2 ≠ l := by
  intro hel
  obtain ⟨he, hex⟩ := Keyed.find?_eq_some.mp hfx
  have heq := hs.names e he _ (Keyed.find?_eq_some.mp hf).1 hel
  rw [heq] at hex
  exact hx hex.symm

/-- Replacing a logger keeps `Separate` if its appenders belong to no other. -/
theorem Replaced.separate {m m' : LoggerManager} {l : LoggerPtr} {lg' : Logger}
    (h : m.Replaced l lg' m') (hs : m.Separate) (hv : m'.Valid)
    (hown : ∀ k lg, k ≠ l → m.logger k = some lg → ∀ a ∈ lg.appenders, a ∉ lg'.appenders) :
    m'.Separate := by
  refine ⟨hv, h.loggers ▸ hs.names, fun k j lgk lgj hk hj hkj a ha ha' ↦ ?_⟩
  rcases h.cases hk with ⟨rfl, rfl⟩ | ⟨hkl, hk⟩
  · rcases h.cases hj with ⟨rfl, _⟩ | ⟨hjl, hj⟩
    · exact hkj rfl
    · exact hown j lgj hjl hj a ha' ha
  · rcases h.cases hj with ⟨rfl, rfl⟩ | ⟨_, hj⟩
    · exact hown k lgk hkl hk a ha ha'
    · exact hs.appenders k j lgk lgj hk hj hkj a ha ha'

/-- Replacing a logger changes no other view, if the appenders of the others are
kept. -/
theorem Replaced.view_ne {m m' : LoggerManager} {l : LoggerPtr} {lg' : Logger} {name x : String}
    (h : m.Replaced l lg' m') (hs : m.Separate) (hf : m.loggers.find? name = some (name, l))
    (hkept : ∀ k lg, k ≠ l → m.logger k = some lg → ∀ a ∈ lg.appenders,
      m'.appender a = m.appender a) (hx : x ≠ name) : m'.view x = m.view x := by
  unfold view
  rw [h.loggers]
  cases hfx : m.loggers.find? x with
  | none => rfl
  | some e =>
      have hne := hs.ptr_ne hf hfx hx
      rw [Option.bind_some, Option.bind_some, h.others e.2 hne]
      cases hlg : m.logger e.2 with
      | none => rfl
      | some lgx =>
          simp only [Option.map_some, viewOf, Option.some.injEq, LoggerView.mk.injEq, true_and]
          exact List.map_congr_left fun a ha ↦ by rw [hkept e.2 lgx hne hlg a ha]

end LoggerManager

/-- The pattern in use after an entry's pattern has been set. -/
def patternOr (p : String) (old : Option String) : Option String :=
  if Accepted p then some p else old

/-- The view an entry gives its logger. -/
def LogDefine.view (i : LogDefine) (old : Option String) : LoggerView :=
  ⟨i.level, patternOr i.formatter old, i.appenders.map fun a ↦
    some ⟨a.kind, a.level, patternOr a.formatter (patternOr i.formatter old)⟩⟩

/-- The pattern of a logger, which a new one has as well. -/
def patternOf (v : Option LoggerView) : Option String :=
  (v.map LoggerView.pattern).getD (some defaultPattern)

variable {m m' : LoggerManager} {l : LoggerPtr} {lg : Logger} {i : LogDefine}
variable {old new : LogDefines} {name : String}

theorem formatterOr_pattern (p : String) (f : Option LogFormatter) :
    (formatterOr p f).map LogFormatter.pattern = patternOr p (f.map LogFormatter.pattern) := by
  unfold formatterOr patternOr
  split <;> simp

theorem build_view (a : LogAppenderDefine) (f : Option LogFormatter) :
    (a.build f).view = ⟨a.kind, a.level, patternOr a.formatter (f.map LogFormatter.pattern)⟩ := by
  simp [LogAppender.view, LogAppenderDefine.build, formatterOr_pattern]

/-- The view of the logger the tail has run on. -/
theorem Configured.viewOf (h : Configured m l lg i m') {lg' : Logger}
    (hl : m'.logger l = some lg') :
    m'.viewOf lg' = i.view (lg.formatter.map LogFormatter.pattern) := by
  rw [h.logger, Option.some.injEq] at hl
  subst hl
  simp only [LoggerManager.viewOf, LogDefine.view, formatterOr_pattern, LoggerView.mk.injEq,
    true_and]
  refine List.ext_getElem? fun n ↦ ?_
  simp only [List.getElem?_map]
  cases hd : i.appenders[n]? with
  | none =>
      have hlen := List.getElem?_eq_none_iff.mp hd
      rw [List.getElem?_eq_none_iff.mpr (by simpa using hlen)]
      rfl
  | some d =>
      have hlt := (List.getElem?_eq_some_iff.mp hd).1
      rw [List.getElem?_range' hlt, Nat.one_mul]
      simp [h.built n d hd, build_view, formatterOr_pattern]

theorem Configured.separate (h : Configured m l lg i m') (hs : m.Separate)
    (hl : m.logger l = some lg) : m'.Separate := by
  refine h.replaced.separate hs (h.valid hs.toValid hl) fun k lgk _ hk a ha ha' ↦ ?_
  obtain ⟨ap, hap⟩ := hs.attached k lgk hk a ha
  exact absurd (hs.appender_lt hap) (Nat.not_lt_of_le (List.mem_range'_1.mp ha').1)

/-- The tail rewrites the view of its logger and no other. -/
theorem Configured.view (h : Configured m l lg i m') (hs : m.Separate) (hl : m.logger l = some lg)
    (hf : m.loggers.find? name = some (name, l)) :
    m'.view name = some (i.view (lg.formatter.map LogFormatter.pattern)) ∧
      ∀ x ≠ name, m'.view x = m.view x := by
  constructor
  · unfold LoggerManager.view
    rw [h.loggers, hf, Option.bind_some, h.logger, Option.map_some, h.viewOf h.logger]
  · intro x hx
    refine h.replaced.view_ne hs hf (fun k lgk hkl hk a ha ↦ ?_) hx
    obtain ⟨ap, hap⟩ := hs.attached k lgk hk a ha
    exact h.kept a (hs.appender_lt hap) (hs.appenders k l lgk lg hk hl hkl a ha)

/-- A logger fetched by name has the view it had, or that of a new logger. -/
theorem getLogger_view (hs : m.Separate) (name : String) :
    (m.getLogger name).2.Separate ∧
      (m.getLogger name).2.loggers.find? name = some (name, (m.getLogger name).1) ∧
      (∃ lg, (m.getLogger name).2.logger (m.getLogger name).1 = some lg ∧
        lg.formatter.map LogFormatter.pattern = patternOf (m.view name)) ∧
      ∀ x ≠ name, (m.getLogger name).2.view x = m.view x := by
  have hvalid := (getLogger_valid hs.toValid name).1
  cases hf : m.loggers.find? name with
  | some e =>
      obtain ⟨he, hname⟩ := Keyed.find?_eq_some.mp hf
      obtain ⟨lg, hlg⟩ := hs.live e he
      have hget : m.getLogger name = (e.2, m) := by simp [LoggerManager.getLogger, hf]
      rw [hget]
      refine ⟨hs, by rw [hf, ← hname], ⟨lg, hlg, ?_⟩, fun _ _ ↦ rfl⟩
      simp [patternOf, LoggerManager.view, hf, hlg, LoggerManager.viewOf]
  | none =>
      have hget : m.getLogger name = (m.nextLogger,
          { m.newLogger { Logger.new name with root := some m.root } with
            loggers := m.loggers.insert (name, m.nextLogger) }) := by
        rw [LoggerManager.getLogger, hf]
        rfl
      have hold : ∀ {k lg}, m.logger k = some lg → k ≠ m.nextLogger := fun hk ↦ hs.ne_nextLogger hk
      rw [hget] at hvalid ⊢
      refine ⟨⟨hvalid, fun e he e' he' heq ↦ ?_, fun k j lgk lgj hk hj hkj a ha ha' ↦ ?_⟩,
        by simp [Keyed.find?_insert, hf], ⟨_, Function.update_self _ _ _, ?_⟩, fun x hx ↦ ?_⟩
      · rcases Keyed.mem_place he with rfl | he <;> rcases Keyed.mem_place he' with rfl | he'
        · rfl
        · obtain ⟨lg, hlg⟩ := hs.live e' he'
          exact absurd heq.symm (hold hlg)
        · obtain ⟨lg, hlg⟩ := hs.live e he
          exact absurd heq (hold hlg)
        · exact hs.names e he e' he' heq
      · rcases LoggerManager.newLogger_cases hk with ⟨rfl, rfl⟩ | ⟨_, hk⟩
        · cases ha
        · rcases LoggerManager.newLogger_cases hj with ⟨rfl, rfl⟩ | ⟨_, hj⟩
          · cases ha'
          · exact hs.appenders k j lgk lgj hk hj hkj a ha ha'
      · simp [patternOf, LoggerManager.view, hf, Logger.new]
      · have hxn : (m.loggers.insert (name, m.nextLogger)).find? x = m.loggers.find? x := by
          simp [Keyed.find?_insert, Ne.symm hx]
        unfold LoggerManager.view
        rw [hxn]
        cases hfx : m.loggers.find? x with
        | none => rfl
        | some e =>
            obtain ⟨lg, hlg⟩ := hs.live e (Keyed.find?_eq_some.mp hfx).1
            simp [LoggerManager.newLogger, hold hlg, hlg, LoggerManager.viewOf]

/-! ## The loops of the listener -/

theorem configure_types (h : configure i (some l) m = .ok m') :
    ∀ a ∈ i.appenders, a.type = 1 ∨ a.type = 2 := by
  unfold configure at h
  rw [Except.bind_ok_iff] at h
  obtain ⟨m₁, _, h⟩ := h
  have hloop : ∃ m₃, i.appenders.foldlM (applyAppender (some l)) m₃ = .ok m' := by
    by_cases hne : i.formatter ≠ ""
    · rw [if_pos hne, Except.bind_ok_iff] at h
      obtain ⟨m₂, _, h⟩ := h
      rw [Except.bind_ok_iff] at h
      obtain ⟨m₃, _, h⟩ := h
      exact ⟨m₃, h⟩
    · rw [if_neg hne, Except.ok_bind, Except.bind_ok_iff] at h
      obtain ⟨m₃, _, h⟩ := h
      exact ⟨m₃, h⟩
  obtain ⟨m₃, hm₃⟩ := hloop
  intro a ha
  obtain ⟨u, u', hu⟩ := foldlM_rounds hm₃ a ha
  exact applyAppender_type hu

/-- A round that ends has configured the logger it fetched. -/
theorem applyDefine_spec (hv : m.Valid) (h : applyDefine old m i = .ok m') :
    ∃ lg, (m.getLogger i.name).2.logger (m.getLogger i.name).1 = some lg ∧
      Configured (m.getLogger i.name).2 (m.getLogger i.name).1 lg i m' := by
  have hi : i ∉ old := by
    intro hi
    rw [applyDefine_null hi] at h
    cases h
  rw [applyDefine_eq hi] at h
  obtain ⟨hv', lg, hlg⟩ := getLogger_valid hv i.name
  obtain ⟨m₁, hm₁, hc⟩ := configure_spec hlg (hv'.attached _ lg hlg) (configure_types h)
  rw [hm₁, Except.ok.injEq] at h
  exact ⟨lg, hlg, h ▸ hc⟩

theorem applyDefine_configured (hs : m.Separate) (h : applyDefine old m i = .ok m') :
    (m.getLogger i.name).2.Separate ∧
      ∃ lg, (m.getLogger i.name).2.logger (m.getLogger i.name).1 = some lg ∧
        Configured (m.getLogger i.name).2 (m.getLogger i.name).1 lg i m' :=
  ⟨(getLogger_view hs i.name).1, applyDefine_spec hs.toValid h⟩

/-- One entry of the new configuration. -/
theorem applyDefine_view (hs : m.Separate) (h : applyDefine old m i = .ok m') :
    m'.Separate ∧ m'.view i.name = some (i.view (patternOf (m.view i.name))) ∧
      ∀ x ≠ i.name, m'.view x = m.view x := by
  obtain ⟨hs', lg, hlg, hc⟩ := applyDefine_configured hs h
  obtain ⟨-, hf, ⟨lg', hlg', hpat⟩, hviews⟩ := getLogger_view hs i.name
  obtain rfl : lg = lg' := Option.some.inj (hlg.symm.trans hlg')
  obtain ⟨hview, hothers⟩ := hc.view hs' hlg hf
  exact ⟨hc.separate hs' hlg, hpat ▸ hview, fun x hx ↦ (hothers x hx).trans (hviews x hx)⟩

/-- A write to one logger object that attaches nothing. -/
theorem setLogger_view {g : Logger} (hs : m.Separate) (hl : m.logger l = some lg)
    (hroot : g.root = lg.root) (happ : ∀ a ∈ g.appenders, a ∈ lg.appenders)
    (hf : m.loggers.find? name = some (name, l)) :
    (m.setLogger l g).Separate ∧ ∀ x ≠ name, (m.setLogger l g).view x = m.view x := by
  have h : m.Replaced l g (m.setLogger l g) := LoggerManager.setLogger_replaced
  refine ⟨h.separate hs (setLogger_valid hs.toValid hl hroot happ) fun k lgk hkl hk a ha ha' ↦ ?_,
    fun x hx ↦ h.view_ne hs hf (fun _ _ _ _ _ _ ↦ rfl) hx⟩
  exact hs.appenders k l lgk lg hk hl hkl a ha (happ a ha')

theorem removeDefine_kept {it : LogDefine} (hf : new.find? i.name = some it) :
    removeDefine new m i = .ok m := by
  simp [removeDefine, hf]

/-- One entry of the old configuration. -/
theorem removeDefine_view (hs : m.Separate) (h : removeDefine new m i = .ok m') :
    m'.Separate ∧ ∀ x, x ≠ i.name ∨ (∃ j ∈ new, j.name = x) → m'.view x = m.view x := by
  cases hf : new.find? i.name with
  | some it =>
      rw [removeDefine_kept hf, Except.ok.injEq] at h
      exact ⟨h ▸ hs, fun x _ ↦ by rw [h]⟩
  | none =>
      obtain ⟨hs', hfind, ⟨lg, hlg, _⟩, hviews⟩ := getLogger_view hs i.name
      rw [removeDefine_eq hf hlg, Except.ok.injEq] at h
      subst h
      obtain ⟨hs'', hothers⟩ := setLogger_view (g := { lg with
        level := .other 100 (by decide), appenders := [] }) hs' hlg rfl (by simp) hfind
      refine ⟨hs'', fun x hx ↦ ?_⟩
      have hne : x ≠ i.name := by
        rcases hx with hx | ⟨j, hj, rfl⟩
        · exact hx
        · exact Keyed.find?_eq_none.mp hf j hj
      rw [hothers x hne, hviews x hne]

/-- The loop over the new configuration: each entry rewrites the view its logger
had before the loop, since no other entry has its name. -/
theorem applyDefine_loop {is : List LogDefine} (hs : m.Separate)
    (hsorted : is.Pairwise fun i j ↦ i.name < j.name)
    (h : is.foldlM (applyDefine old) m = .ok m') :
    m'.Separate ∧ (∀ i ∈ is, m'.view i.name = some (i.view (patternOf (m.view i.name)))) ∧
      ∀ x, (∀ i ∈ is, i.name ≠ x) → m'.view x = m.view x := by
  induction is generalizing m with
  | nil =>
      cases h
      exact ⟨hs, by simp, fun _ _ ↦ rfl⟩
  | cons i is ih =>
      rw [List.foldlM_cons, Except.bind_ok_iff] at h
      obtain ⟨m₁, h₁, h⟩ := h
      obtain ⟨hs₁, hview, hothers⟩ := applyDefine_view hs h₁
      obtain ⟨hlt, hsorted⟩ := List.pairwise_cons.mp hsorted
      obtain ⟨hs', hviews, hrest⟩ := ih hs₁ hsorted h
      refine ⟨hs', fun j hj ↦ ?_, fun x hx ↦ ?_⟩
      · rcases List.mem_cons.mp hj with rfl | hj
        · rw [hrest j.name fun k hk ↦ (hlt k hk).ne', hview]
        · rw [hviews j hj, hothers j.name (hlt j hj).ne']
      · rw [hrest x fun k hk ↦ hx k (by simp [hk]), hothers x fun e ↦ hx i (by simp) e.symm]

theorem removeDefine_loop {is : List LogDefine} (hs : m.Separate)
    (h : is.foldlM (removeDefine new) m = .ok m') :
    m'.Separate ∧
      ∀ x, (∀ i ∈ is, i.name ≠ x) ∨ (∃ j ∈ new, j.name = x) → m'.view x = m.view x := by
  induction is generalizing m with
  | nil =>
      cases h
      exact ⟨hs, fun _ _ ↦ rfl⟩
  | cons i is ih =>
      rw [List.foldlM_cons, Except.bind_ok_iff] at h
      obtain ⟨m₁, h₁, h⟩ := h
      obtain ⟨hs₁, hothers⟩ := removeDefine_view hs h₁
      obtain ⟨hs', hrest⟩ := ih hs₁ h
      refine ⟨hs', fun x hx ↦ ?_⟩
      rw [hrest x (hx.imp_left fun h k hk ↦ h k (by simp [hk])),
        hothers x (hx.imp_left fun h e ↦ h i (by simp) e.symm)]

/-- A logger whose entry is gone has no appenders, and a level outside the
enumeration. -/
theorem removeDefine_silenced (hs : m.Separate) (hf : new.find? i.name = none)
    (h : removeDefine new m i = .ok m') :
    ∃ v, m'.view i.name = some v ∧ ¬ v.level.Named ∧ v.appenders = [] := by
  obtain ⟨-, hfind, ⟨lg, hlg, -⟩, -⟩ := getLogger_view hs i.name
  rw [removeDefine_eq hf hlg, Except.ok.injEq] at h
  subst h
  rw [LoggerManager.view, LoggerManager.setLogger_loggers, hfind, Option.bind_some,
    LoggerManager.setLogger_self]
  exact ⟨_, rfl, id, rfl⟩

theorem removeDefine_loop_silenced {is : List LogDefine} (hs : m.Separate)
    (hsorted : is.Pairwise fun i j ↦ i.name < j.name)
    (h : is.foldlM (removeDefine new) m = .ok m') (hi : i ∈ is) (hf : new.find? i.name = none) :
    ∃ v, m'.view i.name = some v ∧ ¬ v.level.Named ∧ v.appenders = [] := by
  induction is generalizing m with
  | nil => cases hi
  | cons j is ih =>
      rw [List.foldlM_cons, Except.bind_ok_iff] at h
      obtain ⟨m₁, h₁, h⟩ := h
      have hs₁ := (removeDefine_view hs h₁).1
      obtain ⟨hlt, hsorted⟩ := List.pairwise_cons.mp hsorted
      rcases List.mem_cons.mp hi with rfl | hi
      · rw [(removeDefine_loop hs₁ h).2 i.name (.inl fun k hk ↦ (hlt k hk).ne')]
        exact removeDefine_silenced hs hf h₁
      · exact ih hs₁ hsorted h hi

/-- What the listener does to the loggers whose entries are gone. -/
theorem onChange_silenced {env : Env} (hs : m.Separate) (h : onChange env old new m = .ok m')
    (hi : i ∈ old) (hf : new.find? i.name = none) :
    ∃ v, m'.view i.name = some v ∧ ¬ v.level.Named ∧ v.appenders = [] := by
  obtain ⟨_, m₁, h₁, h₂⟩ := onChange_ok h
  exact removeDefine_loop_silenced (applyDefine_loop hs new.sorted h₁).1 old.sorted h₂ hi hf

/-- What the listener does to the views. -/
theorem onChange_view {env : Env} (hs : m.Separate) (h : onChange env old new m = .ok m') :
    m'.Separate ∧ (∀ i ∈ new, m'.view i.name = some (i.view (patternOf (m.view i.name)))) ∧
      ∀ x, (∀ i ∈ new, i.name ≠ x) → (∀ i ∈ old, i.name ≠ x) → m'.view x = m.view x := by
  obtain ⟨_, m₁, h₁, h₂⟩ := onChange_ok h
  obtain ⟨hs₁, hviews, hothers⟩ := applyDefine_loop hs new.sorted h₁
  obtain ⟨hs₂, hkept⟩ := removeDefine_loop hs₁ h₂
  refine ⟨hs₂, fun i hi ↦ ?_, fun x hx hx' ↦ ?_⟩
  · rw [hkept i.name (.inr ⟨i, hi, rfl⟩), hviews i hi]
  · rw [hkept x (.inl hx'), hothers x hx]

end Sylar.Log
