import Sylar.Log.Routing

/-!
# What the listener leaves alone

The listener works on loggers that it fetches by name.  `Confined` says that a step
was about the loggers of some names: the others are as they were, and so are the
appenders that were attached to none of those.

A logger whose entry is gone gets a level above all of those there are.  The filter in
front of it then holds everything back, whatever is attached to it or to the root,
until its level is set again.
-/

namespace Sylar.Log

open Foundation

namespace LoggerManager

variable {m m' m₁ : LoggerManager} {l k : LoggerPtr} {lg lg' : Logger} {a : AppenderPtr}
variable {ns ns' : String → Prop} {name : String} {i : LogDefine} {old new : LogDefines}

/-! ## Steps about some names -/

/-- `m'` is `m`, but for loggers of some names and their appenders.  No appender of `m`
is attached to another logger. -/
structure Confined (ns : String → Prop) (m m' : LoggerManager) : Prop where
  found : ∀ {x e}, m.loggers.find? x = some e → m'.loggers.find? x = some e
  named : ∀ {l lg}, m.logger l = some lg → ∃ lg', m'.logger l = some lg' ∧ lg'.name = lg.name
  logger : ∀ {l lg}, m.logger l = some lg → ¬ ns lg.name → m'.logger l = some lg
  nextAppender : m.nextAppender ≤ m'.nextAppender
  attached : ∀ {l lg'}, m'.logger l = some lg' → ∀ a ∈ lg'.appenders, a < m.nextAppender →
    ∃ lg, m.logger l = some lg ∧ lg.name = lg'.name ∧ a ∈ lg.appenders
  appender : ∀ {a}, a < m.nextAppender →
    (∀ l lg, m.logger l = some lg → ns lg.name → a ∉ lg.appenders) →
    m'.appender a = m.appender a

theorem Confined.refl (m : LoggerManager) : Confined ns m m where
  found := id
  named := fun hl ↦ ⟨_, hl, rfl⟩
  logger := fun hl _ ↦ hl
  nextAppender := Nat.le_refl _
  attached := fun hl _ ha _ ↦ ⟨_, hl, rfl, ha⟩
  appender := fun _ _ ↦ rfl

theorem Confined.mono (h : Confined ns m m') (hns : ∀ x, ns x → ns' x) : Confined ns' m m' where
  found := h.found
  named := h.named
  logger := fun hl hn ↦ h.logger hl fun hx ↦ hn (hns _ hx)
  nextAppender := h.nextAppender
  attached := h.attached
  appender := fun ha hnot ↦ h.appender ha fun l lg hl hx ↦ hnot l lg hl (hns _ hx)

theorem Confined.trans (h : Confined ns m m₁) (h' : Confined ns m₁ m') : Confined ns m m' where
  found := fun hx ↦ h'.found (h.found hx)
  named := fun hl ↦ by
    obtain ⟨lg₁, hl₁, hname₁⟩ := h.named hl
    obtain ⟨lg', hl', hname'⟩ := h'.named hl₁
    exact ⟨lg', hl', hname'.trans hname₁⟩
  logger := fun hl hn ↦ h'.logger (h.logger hl hn) hn
  nextAppender := Nat.le_trans h.nextAppender h'.nextAppender
  attached := fun hl' a ha hlt ↦ by
    obtain ⟨lg₁, hl₁, hname₁, ha₁⟩ := h'.attached hl' a ha (Nat.lt_of_lt_of_le hlt h.nextAppender)
    obtain ⟨lg, hl, hname, ha⟩ := h.attached hl₁ a ha₁ hlt
    exact ⟨lg, hl, hname.trans hname₁, ha⟩
  appender := fun hlt hnot ↦ by
    rw [h'.appender (Nat.lt_of_lt_of_le hlt h.nextAppender) fun l lg₁ hl₁ hx ha₁ ↦ ?_,
      h.appender hlt hnot]
    obtain ⟨lg, hl, hname, ha⟩ := h.attached hl₁ _ ha₁ hlt
    exact hnot l lg hl (hname ▸ hx) ha

/-- A logger that is fetched is created at most. -/
theorem getLogger_confined (hv : m.Valid) (name : String) : Confined ns m (m.getLogger name).2 where
  found := getLogger_find? name
  named := fun hl ↦ ⟨_, getLogger_kept hv hl, rfl⟩
  logger := fun hl _ ↦ getLogger_kept hv hl
  nextAppender := by
    unfold getLogger
    split <;> exact Nat.le_refl _
  attached := fun {l lg'} hl' a ha _ ↦ by
    rcases getLogger_logger hl' with hl | rfl
    · exact ⟨lg', hl, rfl, ha⟩
    · cases ha
  appender := fun _ _ ↦ by rw [getLogger_appender]

/-- A logger that is fetched has its name. -/
theorem getLogger_name (hr : m.Routed) {name : String}
    (hl : (m.getLogger name).2.logger (m.getLogger name).1 = some lg) : lg.name = name :=
  (getLogger_routed hr name).named _ (Keyed.find?_eq_some.mp (getLogger_found name)).1 lg hl

/-- One logger is replaced, and gets new appenders or none. -/
theorem Replaced.confined (h : m.Replaced l lg' m') (hl : m.logger l = some lg)
    (hold : lg.name = name) (hname : lg'.name = lg.name) (hnext : m.nextAppender ≤ m'.nextAppender)
    (hnew : ∀ a ∈ lg'.appenders, m.nextAppender ≤ a)
    (hkept : ∀ a < m.nextAppender, a ∉ lg.appenders → m'.appender a = m.appender a) :
    Confined (· = name) m m' where
  found := fun hx ↦ by rwa [h.loggers]
  named := fun {k lgk} hk ↦ by
    by_cases hkl : k = l
    · subst hkl
      obtain rfl : lg = lgk := Option.some.inj (hl.symm.trans hk)
      exact ⟨lg', h.self, hname⟩
    · exact ⟨lgk, (h.others k hkl).trans hk, rfl⟩
  logger := fun {k lgk} hk hn ↦ by
    have hkl : k ≠ l := by
      rintro rfl
      obtain rfl : lg = lgk := Option.some.inj (hl.symm.trans hk)
      exact hn hold
    exact (h.others k hkl).trans hk
  nextAppender := hnext
  attached := fun {k lgk} hk a ha hlt ↦ by
    rcases h.cases hk with ⟨-, rfl⟩ | ⟨-, hk⟩
    · exact absurd (hnew a ha) (Nat.not_le_of_lt hlt)
    · exact ⟨lgk, hk, rfl, ha⟩
  appender := fun hlt hnot ↦ hkept _ hlt (hnot l lg hl hold)

/-- One entry of the new configuration. -/
theorem applyDefine_confined (hr : m.Routed) (h : applyDefine old m i = .ok m') :
    m'.Routed ∧ Confined (· = i.name) m m' := by
  have hr₁ := getLogger_routed hr i.name
  obtain ⟨lg, hl, hc⟩ := applyDefine_spec hr.toValid h
  have hsteady : (m.getLogger i.name).2.Steady m' := by
    refine ⟨hc.loggers, hc.root, hc.nextLogger, fun k ↦ ?_⟩
    by_cases hk : k = (m.getLogger i.name).1
    · rw [hk, hc.logger, hl]
      rfl
    · rw [hc.others k hk]
  have hnext : (m.getLogger i.name).2.nextAppender ≤ m'.nextAppender := by
    rw [hc.nextAppender]
    exact Nat.le_add_right _ _
  exact ⟨hsteady.routed (hc.valid hr₁.toValid hl) hr₁,
    (getLogger_confined hr.toValid i.name).trans <| hc.replaced.confined hl (getLogger_name hr hl)
      rfl hnext (fun a ha ↦ (List.mem_range'_1.mp ha).1) hc.kept⟩

/-- One entry of the old configuration. -/
theorem removeDefine_confined (hr : m.Routed) (h : removeDefine new m i = .ok m') :
    m'.Routed ∧ Confined (fun x ↦ x = i.name ∧ new.find? i.name = none) m m' := by
  cases hf : new.find? i.name with
  | some it =>
      rw [removeDefine_kept hf, Except.ok.injEq] at h
      subst h
      exact ⟨hr, .refl m⟩
  | none =>
      have hr₁ := getLogger_routed hr i.name
      obtain ⟨hv₁, lg, hl⟩ := getLogger_valid hr.toValid i.name
      rw [removeDefine_eq hf hl, Except.ok.injEq] at h
      subst h
      refine ⟨(setLogger_steady hl ?_ ?_).routed (setLogger_valid hv₁ hl ?_ ?_) hr₁,
        ((getLogger_confined hr.toValid i.name).trans <| setLogger_replaced.confined hl
          (getLogger_name hr hl) ?_ (Nat.le_refl _) ?_ fun _ _ _ ↦ rfl).mono fun x hx ↦ ⟨hx, rfl⟩⟩
      all_goals simp

/-- A loop whose rounds are about some names is about all of these. -/
theorem loop_confined {f : LoggerManager → LogDefine → Except Exception LoggerManager}
    {names : LogDefine → String → Prop}
    {is : List LogDefine} (hr : m.Routed) (h : is.foldlM f m = .ok m')
    (hround : ∀ {m m' i}, m.Routed → f m i = .ok m' → m'.Routed ∧ Confined (names i) m m') :
    m'.Routed ∧ Confined (fun x ↦ ∃ i ∈ is, names i x) m m' := by
  induction is generalizing m with
  | nil =>
      cases h
      exact ⟨hr, .refl _⟩
  | cons i is ih =>
      rw [List.foldlM_cons, Except.bind_ok_iff] at h
      obtain ⟨m₁, h₁, h⟩ := h
      obtain ⟨hr₁, hc₁⟩ := hround hr h₁
      obtain ⟨hr', hc⟩ := ih hr₁ h
      refine ⟨hr', (hc₁.mono ?_).trans (hc.mono ?_)⟩
      · intro x hx
        exact ⟨i, List.mem_cons_self, hx⟩
      · rintro x ⟨j, hj, hx⟩
        exact ⟨j, List.mem_cons_of_mem i hj, hx⟩

/-- A logger whose entry is gone. -/
theorem removeDefine_loop_silences {is : List LogDefine} (hr : m.Routed)
    (hsorted : is.Pairwise fun i j ↦ i.name < j.name)
    (h : is.foldlM (removeDefine new) m = .ok m') (hi : i ∈ is) (hf : new.find? i.name = none) :
    ∃ l lg, m'.loggers.find? i.name = some (i.name, l) ∧ m'.logger l = some lg ∧
      lg.level = .other 100 (by decide) ∧ lg.appenders = [] := by
  induction is generalizing m with
  | nil => cases hi
  | cons j is ih =>
      rw [List.foldlM_cons, Except.bind_ok_iff] at h
      obtain ⟨m₁, h₁, h⟩ := h
      obtain ⟨hr₁, -⟩ := removeDefine_confined hr h₁
      obtain ⟨hlt, hsorted⟩ := List.pairwise_cons.mp hsorted
      rcases List.mem_cons.mp hi with rfl | hi
      · obtain ⟨-, lg, hl⟩ := getLogger_valid hr.toValid i.name
        rw [removeDefine_eq hf hl, Except.ok.injEq] at h₁
        subst h₁
        -- the entries that follow have other names
        obtain ⟨-, hc⟩ := loop_confined hr₁ h removeDefine_confined
        have hname : lg.name = i.name := getLogger_name hr hl
        refine ⟨_, _, hc.found (getLogger_found i.name), hc.logger setLogger_self ?_, rfl, rfl⟩
        rintro ⟨j, hj, hj', -⟩
        exact (hlt j hj).ne (hname.symm.trans hj')
      · exact ih hr₁ hsorted h hi

/-- **What the listener does to the manager.** -/
theorem onChange_confined {env : Env} (hr : m.Routed) (h : onChange env old new m = .ok m') :
    m'.Routed ∧ Confined (fun x ↦ (∃ i ∈ new, i.name = x) ∨ ∃ i ∈ old, i.name = x) m m' ∧
      ∀ i ∈ old, new.find? i.name = none → ∃ l lg, m'.loggers.find? i.name = some (i.name, l) ∧
        m'.logger l = some lg ∧ lg.level = .other 100 (by decide) ∧ lg.appenders = [] := by
  obtain ⟨_, m₁, h₁, h₂⟩ := onChange_ok h
  obtain ⟨hr₁, hc₁⟩ := loop_confined hr h₁ applyDefine_confined
  obtain ⟨hr', hc₂⟩ := loop_confined hr₁ h₂ removeDefine_confined
  refine ⟨hr', (hc₁.mono ?_).trans (hc₂.mono ?_), fun i hi hf ↦ ?_⟩
  · rintro x ⟨i, hi, rfl⟩
    exact .inl ⟨i, hi, rfl⟩
  · rintro x ⟨i, hi, rfl, -⟩
    exact .inr ⟨i, hi, rfl⟩
  · exact removeDefine_loop_silences hr₁ old.sorted h₂ hi hf

/-! ## Later runs -/

/-- What happens to the manager: a call from the program, or a change of the
configuration. -/
inductive Change
  | call (c : Call)
  | configure (env : Env) (old new : LogDefines)

/-- The change completes. -/
def Changes (m : LoggerManager) : Change → LoggerManager → Prop
  | .call c, m' => m.Performs c m'
  | .configure env old new, m' => onChange env old new m = .ok m'

/-- The level of a logger is not set, and no configuration has an entry for its name. -/
def Leaves (name : String) (l : LoggerPtr) (_ : LoggerManager) : Change → Prop
  | .call (.setLevel k _) => k ≠ l
  | .configure _ _ new => ∀ i ∈ new, i.name ≠ name
  | _ => True

/-- A logger lets nothing through: no appender is a target of an event of one of the six
levels, whatever the root is like, and neither `Logger::log` nor the macros write. -/
def Silent (m : LoggerManager) (lg : Logger) (l : LoggerPtr) : Prop :=
  ∀ level : Level, level.Named → (∀ r, targets level lg r = []) ∧ ∀ env,
    (∀ event, m.log env l level event = .ok []) ∧
    ∀ content, m.SYLAR_LOG_LEVEL env l level content = .ok []

theorem Changes.routed {x : Change} (hr : m.Routed) (h : m.Changes x m') : m'.Routed := by
  cases x with
  | call c => exact Performs.routed hr h
  | configure env old new => exact (onChange_confined hr h).1

theorem Changes.found {x : Change} (hr : m.Routed) (h : m.Changes x m') {e : String × LoggerPtr}
    (he : m.loggers.find? name = some e) : m'.loggers.find? name = some e := by
  cases x with
  | call c => exact Performs.find? h hr he
  | configure env old new => exact (onChange_confined hr h).2.1.found he

/-- The level of a logger changes only when it is set, and it gets appenders only when
they are added. -/
theorem Effect.kept {c : Call} (h : m.Effect c m') (hv : m.Valid) (hl : m.logger l = some lg) :
    ∃ lg', m'.logger l = some lg' ∧ ((∀ level, c ≠ .setLevel l level) → lg'.level = lg.level) ∧
      ((∀ a, c ≠ .addAppender l a) → lg.appenders = [] → lg'.appenders = []) := by
  have hset : ∀ {n : LoggerManager} {k : LoggerPtr} {lgk g : Logger}, n.logger = m.logger →
      m.logger k = some lgk → (k = l → (∀ level, c ≠ .setLevel l level) → g.level = lgk.level) →
      (k = l → (∀ a, c ≠ .addAppender l a) → lgk.appenders = [] → g.appenders = []) →
      ∃ lg', (n.setLogger k g).logger l = some lg' ∧
        ((∀ level, c ≠ .setLevel l level) → lg'.level = lg.level) ∧
        ((∀ a, c ≠ .addAppender l a) → lg.appenders = [] → lg'.appenders = []) := by
    intro n k lgk g hn hk hlevel happ
    by_cases hkl : k = l
    · subst hkl
      obtain rfl : lg = lgk := Option.some.inj (hl.symm.trans hk)
      exact ⟨g, setLogger_self, hlevel rfl, happ rfl⟩
    · exact ⟨lg, by rw [setLogger_ne (Ne.symm hkl), hn, hl], fun _ ↦ rfl, fun _ h ↦ h⟩
  cases h with
  | getLogger name => exact ⟨lg, getLogger_kept hv hl, fun _ ↦ rfl, fun _ h ↦ h⟩
  | setLevel level hk =>
      refine hset rfl hk ?_ fun _ _ h ↦ h
      rintro rfl hne
      exact absurd rfl (hne level)
  | setFormatter hk hc hloop =>
      rw [(hv.followed hk hloop).logger]
      exact hset rfl hk (fun _ _ ↦ rfl) fun _ _ h ↦ h
  | @addAppender k lgk a ap hk ha =>
      refine hset ?_ hk (fun _ _ ↦ rfl) ?_
      · split <;> rfl
      · rintro rfl hne
        exact absurd rfl (hne (some a))
  | delAppender a hk =>
      refine hset rfl hk (fun _ _ ↦ rfl) ?_
      intro _ _ happ
      rw [happ, List.erase_nil]
  | clearAppender hk => exact hset rfl hk (fun _ _ ↦ rfl) fun _ _ _ ↦ rfl
  | _ => exact ⟨lg, hl, fun _ ↦ rfl, fun _ h ↦ h⟩

/-- Nothing passes the level 100. -/
theorem silent_of_level (hl : m.logger l = some lg) (h : lg.level = .other 100 (by decide)) :
    m.Silent lg l := by
  intro level hnamed
  have hlevel : ¬ lg.level ≤ level := by
    rw [h]
    cases level with
    | other v hv => exact hnamed.elim
    | _ => decide
  refine ⟨fun r ↦ if_neg hlevel, fun env ↦ ⟨fun event ↦ ?_, fun content ↦ ?_⟩⟩
  · rw [log, logFrom_eq hl, if_neg hlevel]
  · simp only [SYLAR_LOG_LEVEL, derefLogger_some hl, Except.ok_bind, if_neg hlevel]

/-- The logger under a name has the level 100, and no appender where none is added. -/
structure Silenced (B : Prop) (name : String) (l : LoggerPtr) (m : LoggerManager) : Prop where
  found : m.loggers.find? name = some (name, l)
  logger : ∃ lg, m.logger l = some lg ∧ lg.level = .other 100 (by decide) ∧
    (B → lg.appenders = [])

/-- **Step lemma.**  A later configuration either has nothing to do with the logger or
takes its appenders and its level away again. -/
theorem Silenced.step {B : Prop} {x : Change} (hs : Silenced B name l m) (hr : m.Routed)
    (hx : Leaves name l m x) (hB : B → ∀ a, x ≠ .call (.addAppender l a)) (h : m.Changes x m') :
    Silenced B name l m' := by
  obtain ⟨lg, hl, hlevel, happ⟩ := hs.logger
  refine ⟨h.found hr hs.found, ?_⟩
  cases x with
  | call c =>
      obtain ⟨lg', hl', hlevel', happ'⟩ := Effect.kept (Performs.effect h) hr.toValid hl
      refine ⟨lg', hl', (hlevel' ?_).trans hlevel, fun hb ↦ happ' ?_ (happ hb)⟩
      · rintro level rfl
        exact hx rfl
      · rintro a rfl
        exact hB hb a rfl
  | configure env old new =>
      obtain ⟨-, hc, hsilent⟩ := onChange_confined hr h
      have hname : lg.name = name := hr.named _ (Keyed.find?_eq_some.mp hs.found).1 lg hl
      by_cases hold : ∃ i ∈ old, i.name = name
      · obtain ⟨i, hi, rfl⟩ := hold
        obtain ⟨k, lg', hk, hl', hlevel', happ'⟩ := hsilent i hi (Keyed.find?_eq_none.mpr hx)
        rw [hc.found hs.found] at hk
        cases hk
        exact ⟨lg', hl', hlevel', fun _ ↦ happ'⟩
      · refine ⟨lg, hc.logger hl ?_, hlevel, happ⟩
        rintro (⟨i, hi, hi'⟩ | ⟨i, hi, hi'⟩)
        · exact hx i hi (hi'.trans hname)
        · exact hold ⟨i, hi, hi'.trans hname⟩

/-- **Run lemma.** -/
theorem Silenced.run {B : Prop} {tr : List Change}
    (h : Run (Guarded (Leaves name l) Changes) m tr m') (hr : m.Routed) (hs : Silenced B name l m)
    (hB : B → ∀ a, .call (.addAppender l a) ∉ tr) : Silenced B name l m' := by
  induction h with
  | nil _ => exact hs
  | @cons m m₁ m' x tr hx _ ih =>
      have hstep : Silenced B name l m₁ := hs.step hr hx.1
        (fun hb a heq ↦ hB hb a (by rw [heq]; exact List.mem_cons_self)) hx.2
      exact ih (hx.2.routed hr) hstep fun hb a ha ↦ hB hb a (List.mem_cons_of_mem _ ha)

theorem routed_of_run {tr : List Change} (h : Run Changes m tr m') (hr : m.Routed) : m'.Routed :=
  h.invariant (fun _ _ _ hr hx ↦ hx.routed hr) hr

/-- **What a change of the configuration is about.**  In every state that calls and
changes of the configuration lead to, and for all configurations with which the listener
completes: a logger that neither names stays as it is, and so does what no named logger
shares with it; a logger that the new one no longer names has no appender and lets
nothing through, until its level is set or a configuration names it; and names keep
their loggers for good. -/
theorem onChange_frame {env : Env} {tr : List Change} (hrun : Run Changes .new tr m)
    (h : onChange env old new m = .ok m') :
    (∀ l lg, m.logger l = some lg →
      (∀ i ∈ old, i.name ≠ lg.name) → (∀ i ∈ new, i.name ≠ lg.name) →
      m'.logger l = some lg ∧ ∀ a ∈ lg.appenders,
        (∀ k lgk, m.logger k = some lgk → a ∈ lgk.appenders →
          (∀ i ∈ old, i.name ≠ lgk.name) ∧ ∀ i ∈ new, i.name ≠ lgk.name) →
        m'.appender a = m.appender a) ∧
    (∀ i ∈ old, (∀ j ∈ new, j.name ≠ i.name) → ∃ l lg,
      m'.loggers.find? i.name = some (i.name, l) ∧ m'.logger l = some lg ∧ lg.appenders = [] ∧
      ∀ tr' m'', Run (Guarded (Leaves i.name l) Changes) m' tr' m'' →
        m''.loggers.find? i.name = some (i.name, l) ∧ ∃ lg', m''.logger l = some lg' ∧
          m''.Silent lg' l ∧ ((∀ a, .call (.addAppender l a) ∉ tr') → lg'.appenders = [])) ∧
    ∀ tr' m'', Run Changes m tr' m'' →
      ∀ name e, m.loggers.find? name = some e → m''.loggers.find? name = some e := by
  have hr := routed_of_run hrun new_routed
  obtain ⟨hr', hc, hsilent⟩ := onChange_confined hr h
  refine ⟨fun l lg hl hold hnew ↦ ⟨hc.logger hl ?_, fun a ha hshared ↦ ?_⟩,
    fun i hi hf ↦ ?_, fun tr' m'' h' name e he ↦ ?_⟩
  · rintro (⟨i, hi, hname⟩ | ⟨i, hi, hname⟩)
    · exact hnew i hi hname
    · exact hold i hi hname
  · obtain ⟨ap, hap⟩ := hr.attached l lg hl a ha
    refine hc.appender (hr.appender_lt hap) fun k lgk hk hname hak ↦ ?_
    obtain ⟨hold', hnew'⟩ := hshared k lgk hk hak
    rcases hname with ⟨i, hi, hname⟩ | ⟨i, hi, hname⟩
    · exact hnew' i hi hname
    · exact hold' i hi hname
  · obtain ⟨l, lg, hfound, hl, hlevel, happ⟩ := hsilent i hi (Keyed.find?_eq_none.mpr hf)
    refine ⟨l, lg, hfound, hl, happ, fun tr' m'' h' ↦ ?_⟩
    have hs := Silenced.run (B := ∀ a, .call (.addAppender l a) ∉ tr') h' hr'
      ⟨hfound, lg, hl, hlevel, fun _ ↦ happ⟩ id
    obtain ⟨lg', hl', hlevel', happ'⟩ := hs.logger
    exact ⟨hs.found, lg', hl', silent_of_level hl' hlevel', happ'⟩
  · exact h'.invariant_given (J := Routed) (I := fun m₁ ↦ m₁.loggers.find? name = some e)
      (fun _ _ _ hr hx ↦ hx.routed hr) (fun _ _ _ hr he hx ↦ hx.found hr he) hr he

/-- The entry of one logger is replaced by that of another. -/
theorem onChange_frame_replaced : ∃ m' l lg,
    onChange .plain (oneLogger "system" .INFO) (oneLogger "test" .INFO) .new = .ok m' ∧
      m'.logger 0 = some { Logger.new "root" with appenders := [0] } ∧
      m'.loggers.find? "system" = some ("system", l) ∧ m'.logger l = some lg ∧ m'.Silent lg l := by
  have htyped : (oneLogger "test" .INFO).Typed := by
    simp [LogDefines.Typed, oneLogger, Keyed.mem_def, Keyed.insert, Keyed.place]
  have hdiff : ∀ i ∈ oneLogger "test" .INFO, i ∉ oneLogger "system" .INFO := by
    simp [oneLogger, Keyed.mem_def, Keyed.insert, Keyed.place]
  obtain ⟨m', h⟩ := onChange_total .plain htyped new_valid announces_new hdiff
  obtain ⟨hkept, hgone, -⟩ := onChange_frame (.nil _) h
  obtain ⟨l, lg, hfound, -, -, hlater⟩ := hgone
    { name := "system", level := .INFO, appenders := [{ type := 2 }] }
    (by simp [oneLogger, Keyed.mem_def, Keyed.insert, Keyed.place])
    (by simp [oneLogger, Keyed.mem_def, Keyed.insert, Keyed.place])
  obtain ⟨-, lg', hl', hsilent, -⟩ := hlater [] m' (.nil _)
  refine ⟨m', l, lg', h, ?_, hfound, hl', hsilent⟩
  refine (hkept 0 { Logger.new "root" with appenders := [0] } rfl ?_ ?_).1
  all_goals simp [oneLogger, Logger.new, Keyed.mem_def, Keyed.insert, Keyed.place]

end LoggerManager

end Sylar.Log
