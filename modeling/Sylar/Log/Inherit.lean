import Sylar.Log.Calls

/-!
# Inherited formatters

An appender without a formatter of its own is given the logger's when it is
attached, and follows it when the logger's is changed.  What it holds is a copy,
and a flag says so.

Two calls leave the copy out of date.  An attached appender whose own formatter
is taken away is left without any, and an appender that is attached again keeps
the copy of what was the formatter when it was detached.
-/

namespace Sylar.Log

open Foundation

/-- The appenders that satisfy `mine` are attached to the logger at `l` alone, and
its formatter is never made null. -/
def Call.Uses (l : LoggerPtr) (mine : AppenderPtr → Prop) : Call → Prop
  | addAppender k (some a) => k = l ↔ mine a
  | setFormatter k val => k = l → val ≠ none
  | _ => True

/-- The formatter an appender has of its own after a call. -/
def Call.own (a : AppenderPtr) (f : Option LogFormatter) : Call → Option LogFormatter
  | appenderSetFormatter b val => if b = a then val else f
  | _ => f

/-- The formatter an appender has been given last, if it has not been taken away
again. -/
def ownFormatter (cs : List Call) (a : AppenderPtr) : Option LogFormatter :=
  cs.foldl (Call.own a) none

namespace LoggerManager

variable {m m' : LoggerManager} {l k : LoggerPtr} {lg lg' : Logger} {a : AppenderPtr}
variable {ap ap' : LogAppender} {c : Call} {cs : List Call} {mine : AppenderPtr → Prop}

@[simp] theorem ownFormatter_snoc : ownFormatter (cs ++ [c]) a = c.own a (ownFormatter cs a) := by
  simp [ownFormatter]

/-- Every attached appender formats with its own formatter, if it has one, and
with the logger's current one if not. -/
def Formats (l : LoggerPtr) (cs : List Call) (m : LoggerManager) : Prop :=
  ∀ lg, m.logger l = some lg → ∀ a ∈ lg.appenders, ∃ ap, m.appender a = some ap ∧
    ap.hasFormatter = (ownFormatter cs a).isSome ∧
    ap.formatter = (ownFormatter cs a).or lg.formatter ∧ ap.formatter ≠ none

/-- The call leaves no copy of the formatter out of date. -/
def Keeps (l : LoggerPtr) (m : LoggerManager) : Call → Prop
  | .addAppender k (some a) => k = l → ∀ lg ap, m.logger l = some lg → m.appender a = some ap →
      ap.hasFormatter = false → ap.formatter = none ∨ ap.formatter = lg.formatter
  | .appenderSetFormatter a none => ∀ lg, m.logger l = some lg → a ∉ lg.appenders
  | _ => True

/-! ## What a call does to one appender, and to one logger -/

theorem setAppender_cases {b : AppenderPtr} {bp : LogAppender}
    (h : (m.setAppender a ap).appender b = some bp) :
    b = a ∧ bp = ap ∨ b ≠ a ∧ m.appender b = some bp := by
  by_cases hba : b = a
  · subst hba
    rw [setAppender_self, Option.some.injEq] at h
    exact .inl ⟨rfl, h.symm⟩
  · exact .inr ⟨hba, by rwa [setAppender_ne hba] at h⟩

/-- The flag says whether the appender has been given a formatter, and one that it
has been given is not replaced by a copy. -/
theorem Effect.flag (h : m.Effect c m') (hv : m.Valid) (ha : m'.appender a = some ap') :
    (∃ val, c = .appenderSetFormatter a val ∧ ap'.formatter = val ∧
      ap'.hasFormatter = val.isSome) ∨
    (m.appender a = none ∧ ap'.hasFormatter = false ∧ c.own a none = none) ∨
    (∀ f, c.own a f = f) ∧ ∃ ap, m.appender a = some ap ∧ ap'.hasFormatter = ap.hasFormatter ∧
      (ap.hasFormatter = true → ap.formatter ≠ none → ap'.formatter = ap.formatter) := by
  have hsame : ∀ {ap}, m.appender a = some ap → ∃ bp, m.appender a = some bp ∧
      ap.hasFormatter = bp.hasFormatter ∧
      (bp.hasFormatter = true → bp.formatter ≠ none → ap.formatter = bp.formatter) :=
    fun h ↦ ⟨_, h, rfl, fun _ _ ↦ rfl⟩
  cases h with
  | getLogger name => exact .inr (.inr ⟨fun _ ↦ rfl, hsame (getLogger_appender ▸ ha)⟩)
  | setLevel level hl => exact .inr (.inr ⟨fun _ ↦ rfl, hsame ha⟩)
  | @setFormatter l lg c val m' hl hc hloop =>
      have hown : ∀ f, c.own a f = f := by
        rcases hc with rfl | ⟨p, rfl, -⟩ <;> exact fun _ ↦ rfl
      refine .inr (.inr ⟨hown, ?_⟩)
      rw [(hv.followed hl hloop).appender, setLogger_appender] at ha
      split at ha
      · obtain ⟨ap, hap, rfl⟩ := Option.map_eq_some_iff.mp ha
        refine ⟨ap, hap, ?_, fun hflag _ ↦ by simp [follow, hflag]⟩
        unfold follow
        split <;> rfl
      · exact hsame ha
  | rejected l hp => exact .inr (.inr ⟨fun _ ↦ rfl, hsame ha⟩)
  | @addAppender l lg b bp hl hb =>
      refine .inr (.inr ⟨fun _ ↦ rfl, ?_⟩)
      by_cases hnone : bp.formatter = none
      · rw [if_pos hnone] at ha
        rcases setAppender_cases ha with ⟨rfl, rfl⟩ | ⟨_, ha⟩
        · exact ⟨bp, hb, rfl, fun _ hne ↦ absurd hnone hne⟩
        · exact hsame ha
      · rw [if_neg hnone] at ha
        exact hsame ha
  | delNothing l => exact .inr (.inr ⟨fun _ ↦ rfl, hsame ha⟩)
  | delAppender b hl => exact .inr (.inr ⟨fun _ ↦ rfl, hsame ha⟩)
  | clearAppender hl => exact .inr (.inr ⟨fun _ ↦ rfl, hsame ha⟩)
  | newAppender kind =>
      by_cases hab : a = m.nextAppender
      · subst hab
        rw [newAppender_self, Option.some.injEq] at ha
        exact .inr (.inl ⟨hv.freshAppender _ (Nat.le_refl _), ha ▸ rfl, rfl⟩)
      · rw [newAppender_ne hab] at ha
        exact .inr (.inr ⟨fun _ ↦ rfl, hsame ha⟩)
  | @appenderSetLevel b bp level hb =>
      refine .inr (.inr ⟨fun _ ↦ rfl, ?_⟩)
      rcases setAppender_cases ha with ⟨rfl, rfl⟩ | ⟨_, ha⟩
      · exact ⟨bp, hb, rfl, fun _ _ ↦ rfl⟩
      · exact hsame ha
  | @appenderSetFormatter b bp val hb =>
      rcases setAppender_cases ha with ⟨rfl, rfl⟩ | ⟨hab, ha⟩
      · exact .inl ⟨val, rfl, rfl, rfl⟩
      · exact .inr (.inr ⟨fun _ ↦ if_neg hab.symm, hsame ha⟩)

/-- An appender is only attached by `addAppender`, and a formatter only set by
`setFormatter`. -/
theorem Effect.logger (h : m.Effect c m') (hv : m.Valid) (hl' : m'.logger k = some lg') :
    (lg'.appenders = [] ∧ lg'.formatter ≠ none) ∨
    ∃ lg, m.logger k = some lg ∧
      (∀ a ∈ lg'.appenders, a ∈ lg.appenders ∨ c = .addAppender k (some a)) ∧
      (lg'.formatter = lg.formatter ∨ c = .setFormatter k lg'.formatter ∨
        lg'.formatter ≠ none) := by
  have hkeep : ∀ {l lg g}, m.logger l = some lg → (m.setLogger l g).logger k = some lg' →
      (∀ a ∈ g.appenders, a ∈ lg.appenders) → g.formatter = lg.formatter →
      ∃ lg, m.logger k = some lg ∧
        (∀ a ∈ lg'.appenders, a ∈ lg.appenders ∨ c = .addAppender k (some a)) ∧
        (lg'.formatter = lg.formatter ∨ c = .setFormatter k lg'.formatter ∨
          lg'.formatter ≠ none) := by
    intro l lg g hl hk happ hfmt
    rcases setLogger_replaced.cases hk with ⟨rfl, rfl⟩ | ⟨_, hk⟩
    · exact ⟨lg, hl, fun a ha ↦ .inl (happ a ha), .inl hfmt⟩
    · exact ⟨lg', hk, fun a ha ↦ .inl ha, .inl rfl⟩
  have hsame : m.logger k = some lg' → ∃ lg, m.logger k = some lg ∧
      (∀ a ∈ lg'.appenders, a ∈ lg.appenders ∨ c = .addAppender k (some a)) ∧
      (lg'.formatter = lg.formatter ∨ c = .setFormatter k lg'.formatter ∨
        lg'.formatter ≠ none) :=
    fun hk ↦ ⟨lg', hk, fun a ha ↦ .inl ha, .inl rfl⟩
  cases h with
  | getLogger name =>
      rcases getLogger_logger hl' with hk | rfl
      · exact .inr (hsame hk)
      · exact .inl ⟨rfl, by simp [Logger.new]⟩
  | setLevel level hl => exact .inr (hkeep hl hl' (fun _ ha ↦ ha) rfl)
  | @setFormatter l lg c val m' hl hc hloop =>
      have hfol := hv.followed hl hloop
      rcases setLogger_replaced.cases (hfol.logger ▸ hl') with ⟨rfl, rfl⟩ | ⟨_, hk⟩
      · refine .inr ⟨lg, hl, fun a ha ↦ .inl ha, .inr ?_⟩
        rcases hc with rfl | ⟨p, -, rfl⟩
        · exact .inl rfl
        · exact .inr (by simp)
      · exact .inr (hsame hk)
  | rejected l hp => exact .inr (hsame hl')
  | @addAppender l lg b bp hl hb =>
      have hl'' : (m.setLogger l { lg with appenders := lg.appenders ++ [b] }).logger k =
          some lg' := by
        by_cases hnone : bp.formatter = none
        · rwa [if_pos hnone] at hl'
        · rwa [if_neg hnone] at hl'
      rcases setLogger_replaced.cases hl'' with ⟨rfl, rfl⟩ | ⟨_, hk⟩
      · refine .inr ⟨lg, hl, fun a ha ↦ (List.mem_append.mp ha).imp_right fun ha ↦ ?_, .inl rfl⟩
        rw [List.mem_singleton.mp ha]
      · exact .inr (hsame hk)
  | delNothing l => exact .inr (hsame hl')
  | delAppender b hl => exact .inr (hkeep hl hl' (fun _ ha ↦ List.mem_of_mem_erase ha) rfl)
  | clearAppender hl => exact .inr (hkeep hl hl' (by simp) rfl)
  | newAppender kind => exact .inr (hsame hl')
  | appenderSetLevel level ha => exact .inr (hsame hl')
  | appenderSetFormatter val ha => exact .inr (hsame hl')

/-! ## The invariant -/

/-- The flags of the appenders agree with what they have been given. -/
structure Flagged (cs : List Call) (m : LoggerManager) : Prop where
  flag : ∀ a ap, m.appender a = some ap → ap.hasFormatter = (ownFormatter cs a).isSome ∧
    ∀ f, ownFormatter cs a = some f → ap.formatter = some f
  unborn : ∀ a, m.appender a = none → ownFormatter cs a = none

/-- The logger at `l` has appenders of its own and a formatter, which the
appenders without one hold a copy of. -/
structure Inherits (l : LoggerPtr) (mine : AppenderPtr → Prop) (m : LoggerManager) : Prop where
  mine : ∀ k lg, m.logger k = some lg → ∀ a ∈ lg.appenders, k = l ↔ mine a
  formatter : ∀ lg, m.logger l = some lg → lg.formatter ≠ none
  follows : ∀ lg, m.logger l = some lg → ∀ a ∈ lg.appenders, ∀ ap, m.appender a = some ap →
    ap.hasFormatter = false → ap.formatter = lg.formatter

theorem Effect.live (h : m.Effect c m') (hv : m.Valid) (ha : m.appender a = some ap) :
    ∃ ap', m'.appender a = some ap' := by
  have hset : ∀ {b bp}, ∃ ap', (m.setAppender b bp).appender a = some ap' := by
    intro b bp
    by_cases hab : a = b
    · exact ⟨bp, by rw [hab]; exact setAppender_self⟩
    · exact ⟨ap, by rw [setAppender_ne hab, ha]⟩
  cases h with
  | getLogger name => exact ⟨ap, by rw [getLogger_appender, ha]⟩
  | @setFormatter l lg c val m' hl hc hloop =>
      rw [(hv.followed hl hloop).appender, setLogger_appender, ha]
      split
      · exact ⟨_, rfl⟩
      · exact ⟨_, rfl⟩
  | @addAppender l lg b bp hl hb =>
      split
      · exact hset
      · exact ⟨ap, ha⟩
  | newAppender kind =>
      exact ⟨ap, by rw [newAppender_ne (Nat.ne_of_lt (hv.appender_lt ha)), ha]⟩
  | appenderSetLevel level hb => exact hset
  | appenderSetFormatter val hb => exact hset
  | _ => exact ⟨ap, ha⟩

theorem Flagged.step (hf : m.Flagged cs) (hv : m.Valid) (h : m.Effect c m') :
    Flagged (cs ++ [c]) m' := by
  refine ⟨fun a ap' ha ↦ ?_, fun a ha ↦ ?_⟩
  · rw [ownFormatter_snoc]
    rcases h.flag hv ha with ⟨val, rfl, hval, hflag⟩ | ⟨hnone, hflag, hown⟩ |
      ⟨hown, ap, hap, hflag, hkeep⟩
    · simp [Call.own, hval, hflag]
    · rw [hf.unborn a hnone, hown]
      exact ⟨hflag, fun f hfo ↦ by cases hfo⟩
    · obtain ⟨hflag', hval⟩ := hf.flag a ap hap
      rw [hown]
      refine ⟨hflag.trans hflag', fun f hfo ↦ ?_⟩
      have hfor := hval f hfo
      rw [hkeep (by rw [hflag', hfo]; rfl) (by rw [hfor]; simp), hfor]
  · have hnone : m.appender a = none := by
      by_contra hne
      obtain ⟨ap, hap⟩ := Option.ne_none_iff_exists'.mp hne
      obtain ⟨ap', hap'⟩ := h.live hv hap
      rw [ha] at hap'
      cases hap'
    rw [ownFormatter_snoc, hf.unborn a hnone]
    cases h with
    | @setFormatter l lg c val m' hl hc hloop => rcases hc with rfl | ⟨p, rfl, -⟩ <;> rfl
    | @appenderSetFormatter b bp val hb =>
        refine if_neg fun hab ↦ ?_
        rw [← hab, hb] at hnone
        cases hnone
    | _ => rfl

theorem Inherits.mine_step (hi : m.Inherits l mine) (hv : m.Valid) (h : m.Effect c m')
    (hu : c.Uses l mine) (hk : m'.logger k = some lg) (ha : a ∈ lg.appenders) :
    k = l ↔ mine a := by
  rcases h.logger hv hk with ⟨hnil, -⟩ | ⟨lg₀, hlg₀, happ, -⟩
  · rw [hnil] at ha
    cases ha
  · rcases happ a ha with ha | rfl
    · exact hi.mine k lg₀ hlg₀ a ha
    · exact hu

theorem Inherits.formatter_step (hi : m.Inherits l mine) (hv : m.Valid) (h : m.Effect c m')
    (hu : c.Uses l mine) (hl : m'.logger l = some lg) : lg.formatter ≠ none := by
  rcases h.logger hv hl with ⟨-, hne⟩ | ⟨lg₀, hlg₀, -, hfmt | rfl | hne⟩
  · exact hne
  · rw [hfmt]
    exact hi.formatter lg₀ hlg₀
  · exact hu rfl
  · exact hne

/-- A logger that is replaced by one with the same formatter and no more appenders. -/
theorem Inherits.follows_setLogger {g : Logger} (hi : m.Inherits l mine) (hk : m.logger k = some lg)
    (hl' : (m.setLogger k g).logger l = some lg')
    (happ : ∀ a ∈ g.appenders, a ∈ lg.appenders) (hfmt : g.formatter = lg.formatter)
    (ha : a ∈ lg'.appenders)
    (hap : m.appender a = some ap) (hflag : ap.hasFormatter = false) :
    ap.formatter = lg'.formatter := by
  rcases setLogger_replaced.cases hl' with ⟨rfl, rfl⟩ | ⟨_, hl⟩
  · rw [hfmt]
    exact hi.follows lg hk a (happ a ha) ap hap hflag
  · exact hi.follows lg' hl a ha ap hap hflag

/-- Every other call brings the copies up to date. -/
theorem Inherits.follows_step (hi : m.Inherits l mine) (hv : m.Valid) (h : m.Effect c m')
    (hu : c.Uses l mine) (hkeep : m.Keeps l c) (hl' : m'.logger l = some lg')
    (ha : a ∈ lg'.appenders) (hap : m'.appender a = some ap) (hflag : ap.hasFormatter = false) :
    ap.formatter = lg'.formatter := by
  cases h with
  | getLogger name =>
      rcases getLogger_logger hl' with hl | rfl
      · exact hi.follows lg' hl a ha ap (getLogger_appender ▸ hap) hflag
      · cases ha
  | setLevel level hk => exact hi.follows_setLogger hk hl' (fun _ h ↦ h) rfl ha hap hflag
  | @setFormatter k lg c val m' hk hc hloop =>
      have hfol := hv.followed hk hloop
      rw [hfol.appender, setLogger_appender] at hap
      rcases setLogger_replaced.cases (hfol.logger ▸ hl') with ⟨rfl, rfl⟩ | ⟨hne, hl⟩
      · rw [if_pos ha] at hap
        obtain ⟨ap₀, -, rfl⟩ := Option.map_eq_some_iff.mp hap
        unfold follow at hflag ⊢
        split
        · rename_i h
          rw [if_pos h, h] at hflag
          cases hflag
        · rfl
      · -- the appenders of another logger are not those of `l`
        have hnot : a ∉ lg.appenders := fun ha' ↦
          hne ((hi.mine k lg hk a ha').mpr ((hi.mine l lg' hl a ha).mp rfl)).symm
        rw [if_neg hnot] at hap
        exact hi.follows lg' hl a ha ap hap hflag
  | rejected k hp => exact hi.follows lg' hl' a ha ap hap hflag
  | @addAppender k lg b bp hk hb =>
      by_cases hnone : bp.formatter = none
      · rw [if_pos hnone] at hl' hap
        rcases setLogger_replaced.cases hl' with ⟨rfl, rfl⟩ | ⟨hne, hl⟩
        · rcases setAppender_cases hap with ⟨rfl, rfl⟩ | ⟨hab, hap⟩
          · rfl
          · rcases List.mem_append.mp ha with ha | ha
            · exact hi.follows lg hk a ha ap hap hflag
            · exact absurd (List.mem_singleton.mp ha) hab
        · rcases setAppender_cases hap with ⟨rfl, rfl⟩ | ⟨hab, hap⟩
          · exact absurd (hu.mpr ((hi.mine l lg' hl a ha).mp rfl)).symm hne
          · exact hi.follows lg' hl a ha ap hap hflag
      · rw [if_neg hnone] at hl' hap
        rcases setLogger_replaced.cases hl' with ⟨rfl, rfl⟩ | ⟨hne, hl⟩
        · rcases List.mem_append.mp ha with ha | ha
          · exact hi.follows lg hk a ha ap hap hflag
          · rw [List.mem_singleton.mp ha] at hap
            obtain rfl : bp = ap := Option.some.inj (hb.symm.trans hap)
            exact (hkeep rfl lg bp hk hb hflag).resolve_left hnone
        · exact hi.follows lg' hl a ha ap hap hflag
  | delNothing k => exact hi.follows lg' hl' a ha ap hap hflag
  | delAppender b hk =>
      exact hi.follows_setLogger hk hl' (fun _ h ↦ List.mem_of_mem_erase h) rfl ha hap hflag
  | clearAppender hk => exact hi.follows_setLogger hk hl' (by simp) rfl ha hap hflag
  | newAppender kind =>
      obtain ⟨ap₀, hap₀⟩ := hv.attached l lg' hl' a ha
      rw [newAppender_ne (Nat.ne_of_lt (hv.appender_lt hap₀))] at hap
      exact hi.follows lg' hl' a ha ap hap hflag
  | @appenderSetLevel b bp level hb =>
      rcases setAppender_cases hap with ⟨rfl, rfl⟩ | ⟨_, hap⟩
      · exact hi.follows lg' hl' a ha bp hb hflag
      · exact hi.follows lg' hl' a ha ap hap hflag
  | @appenderSetFormatter b bp val hb =>
      rcases setAppender_cases hap with ⟨rfl, rfl⟩ | ⟨_, hap⟩
      · cases val with
        | none => exact absurd ha (hkeep lg' hl')
        | some f => cases hflag
      · exact hi.follows lg' hl' a ha ap hap hflag

theorem Inherits.step (hi : m.Inherits l mine) (hv : m.Valid) (h : m.Effect c m')
    (hu : c.Uses l mine) (hkeep : m.Keeps l c) : m'.Inherits l mine :=
  ⟨fun _ _ hk _ ha ↦ hi.mine_step hv h hu hk ha, fun _ hl ↦ hi.formatter_step hv h hu hl,
    fun _ hl' _ ha _ hap hflag ↦ hi.follows_step hv h hu hkeep hl' ha hap hflag⟩

/-- The invariant gives what is wanted. -/
theorem Inherits.formats (hi : m.Inherits l mine) (hv : m.Valid) (hf : m.Flagged cs) :
    m.Formats l cs := by
  intro lg hl a ha
  obtain ⟨ap, hap⟩ := hv.attached l lg hl a ha
  obtain ⟨hflag, hval⟩ := hf.flag a ap hap
  refine ⟨ap, hap, hflag, ?_⟩
  cases hown : ownFormatter cs a with
  | some f => simp [hval f hown]
  | none =>
      rw [hown] at hflag
      have hfmt := hi.follows lg hl a ha ap hap hflag
      exact ⟨hfmt, hfmt ▸ hi.formatter lg hl⟩

/-- A call that leaves a copy out of date is seen at once. -/
theorem Formats.keeps (hf : m.Flagged cs) (h : m.Effect c m')
    (hafter : m'.Formats l (cs ++ [c])) : m.Keeps l c := by
  cases h with
  | @addAppender k lg b bp hk hb =>
      rintro rfl lg₀ bp₀ hk₀ hb₀ hflag
      obtain rfl : lg = lg₀ := Option.some.inj (hk.symm.trans hk₀)
      obtain rfl : bp = bp₀ := Option.some.inj (hb.symm.trans hb₀)
      refine or_iff_not_imp_left.mpr fun hnone ↦ ?_
      rw [if_neg hnone] at hafter
      obtain ⟨ap, hap, -, hfmt, -⟩ := hafter _ setLogger_self b (by simp)
      obtain rfl : bp = ap := Option.some.inj (hb.symm.trans hap)
      have hown : ownFormatter cs b = none := by
        simpa [hflag] using (hf.flag b bp hb).1
      simpa [Call.own, hown] using hfmt
  | @appenderSetFormatter b bp val hb =>
      cases val with
      | some f => trivial
      | none =>
          intro lg hl ha
          obtain ⟨ap, hap, -, -, hne⟩ := hafter lg hl b ha
          rw [setAppender_self, Option.some.injEq] at hap
          exact hne (hap ▸ rfl)
  | @setFormatter k lg c val m' hk hc hloop => rcases hc with rfl | ⟨p, rfl, -⟩ <;> trivial
  | _ => trivial

/-! ## Runs -/

theorem new_flagged : Flagged [] .new := by
  refine ⟨fun a ap ha ↦ ?_, fun _ _ ↦ rfl⟩
  by_cases hzero : a = 0
  · subst hzero
    cases ha
    exact ⟨rfl, fun f hf ↦ by cases hf⟩
  · simp [LoggerManager.new, hzero] at ha

theorem new_inherits (hmine : mine 0 ↔ l = LoggerManager.new.root) :
    LoggerManager.new.Inherits l mine := by
  have hlogger : ∀ {k lg}, LoggerManager.new.logger k = some lg →
      k = 0 ∧ lg = { Logger.new "root" with appenders := [0] } := by
    intro k lg hk
    by_cases hzero : k = 0
    · subst hzero
      exact ⟨rfl, (Option.some.inj hk).symm⟩
    · simp [LoggerManager.new, hzero] at hk
  refine ⟨fun k lg hk a ha ↦ ?_, fun lg hl ↦ ?_, fun lg hl a ha ap hap _ ↦ ?_⟩
  · obtain ⟨rfl, rfl⟩ := hlogger hk
    rw [List.mem_singleton.mp ha, hmine]
    exact eq_comm
  · rw [(hlogger hl).2]
    simp [Logger.new]
  · obtain ⟨-, rfl⟩ := hlogger hl
    rw [List.mem_singleton.mp ha] at hap
    cases hap
    rfl

/-- **Inherited formatters.**  A run from a new manager in which some appenders
are attached to one logger alone, and no call leaves a copy of its formatter out
of date: at the end every attached appender formats with its own formatter, or
else with the logger's current one, and neither is null.  The next call keeps
this exactly if it leaves no copy out of date either. -/
theorem formats_runs (hmine : mine 0 ↔ l = LoggerManager.new.root)
    (h : Run (Guarded (Keeps l) Performs) .new cs m) (hu : ∀ c ∈ cs, c.Uses l mine) :
    m.Formats l cs ∧ ∀ c m', c.Uses l mine → m.Performs c m' →
      (m'.Formats l (cs ++ [c]) ↔ m.Keeps l c) := by
  have hinv : (∀ c ∈ cs, c.Uses l mine) → m.Valid ∧ m.Flagged cs ∧ m.Inherits l mine := by
    refine h.history (P := fun cs m ↦ (∀ c ∈ cs, c.Uses l mine) →
      m.Valid ∧ Flagged cs m ∧ m.Inherits l mine)
      (fun _ ↦ ⟨new_valid, new_flagged, new_inherits hmine⟩) fun cs m c m' _ ih hstep hu ↦ ?_
    obtain ⟨hv, hf, hi⟩ := ih fun c hc ↦ hu c (by simp [hc])
    have heff := hstep.2.effect
    exact ⟨(heff.steady hv).1, hf.step hv heff, hi.step hv heff (hu c (by simp)) hstep.1⟩
  obtain ⟨hv, hf, hi⟩ := hinv hu
  refine ⟨hi.formats hv hf, fun c m' huc hstep ↦ ⟨Formats.keeps hf hstep.effect, fun hkeep ↦ ?_⟩⟩
  have heff := hstep.effect
  exact (hi.step hv heff huc hkeep).formats (heff.steady hv).1 (hf.step hv heff)

/-- A manager with a logger to which an appender is attached. -/
def attached : LoggerManager :=
  let ap : LogAppender :=
    { LogAppender.new .StdoutLogAppender with formatter := some (.new defaultPattern) }
  (((LoggerManager.new.getLogger "system").2.newAppender (.new .StdoutLogAppender)).setAppender 1
    ap).setLogger 1 { Logger.new "system" with appenders := [1], root := some 0 }

theorem attached_run : Run (Guarded (Keeps 1) Performs) .new
    [.getLogger "system", .newAppender .StdoutLogAppender, .addAppender 1 (some 1)] attached := by
  refine .cons ⟨trivial, rfl⟩ (.cons ⟨trivial, rfl⟩
    (.cons ⟨fun _ lg ap _ hap _ ↦ ?_, rfl⟩ (.nil _)))
  cases hap
  exact .inl rfl

/-- An appender follows the formatter of its logger. -/
theorem formats_runs_follows :
    ∃ m ap, Run (Guarded (Keeps 1) Performs) .new
        [.getLogger "system", .newAppender .StdoutLogAppender, .addAppender 1 (some 1),
          .setFormatter 1 (some (.new "%m"))] m ∧
      m.appender 1 = some ap ∧ ap.formatter = some (.new "%m") := by
  have h := attached_run.snoc (l := Call.setFormatter 1 (some (.new "%m"))) ⟨trivial, rfl⟩
  have huses : ∀ c ∈ [Call.getLogger "system", .newAppender .StdoutLogAppender,
      .addAppender 1 (some 1)] ++ [.setFormatter 1 (some (.new "%m"))], c.Uses 1 (· = 1) := by
    simp [Call.Uses]
  obtain ⟨hformats, -⟩ := formats_runs (by decide) h huses
  obtain ⟨ap, hap, -, hfmt, -⟩ := hformats _ rfl 1 (by simp)
  exact ⟨_, ap, h, hap, hfmt.trans rfl⟩

/-- The formatter of an attached appender is taken away.  It is left with none, and
the next event goes through a null pointer. -/
theorem formats_taken_away :
    ∃ m, Run Performs .new
        [.getLogger "system", .newAppender .StdoutLogAppender, .addAppender 1 (some 1),
          .appenderSetFormatter 1 none] m ∧
      (∀ c ∈ [Call.getLogger "system", .newAppender .StdoutLogAppender, .addAppender 1 (some 1),
          .appenderSetFormatter 1 none], c.Uses 1 (· = 1)) ∧
      ¬ m.Formats 1 [.getLogger "system", .newAppender .StdoutLogAppender,
          .addAppender 1 (some 1), .appenderSetFormatter 1 none] ∧
      ∀ env event, m.log env 1 .FATAL event = .error .nullFormatter := by
  refine ⟨_, attached_run.unguard.snoc (l := Call.appenderSetFormatter 1 none) rfl,
    by simp [Call.Uses], fun h ↦ ?_, fun env event ↦ rfl⟩
  obtain ⟨ap, hap, -, -, hne⟩ := h _ rfl 1 (by simp)
  cases hap
  exact hne rfl

end LoggerManager

end Sylar.Log
