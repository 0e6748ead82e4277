import Sylar.Thread.Object

/-!
# When the start of a thread is safe

The constructor leaves the object ready when it returns: it has waited for `run`
to set the ID and to take the callback.  When it throws because the waiting was
interrupted, the new thread may be anywhere in `run`, which goes on with an object
whose members are destroyed.

The members are left alone if and only if, whenever the waiting is interrupted,
`run` is past `notify` and its callback does not use the object of its thread.
-/

namespace Sylar.Thread

open Foundation

variable {ι F : Type} [DecidableEq ι] {calls : F → Set Use}

/-! ## What is promised -/

/-- The ID is set, and the callback has been moved into the new thread. -/
def Startup.Ready (x : Startup F) : Prop :=
  ∃ t, x.run = some t ∧ x.object.m_id = t.tid ∧ x.object.m_cb = none ∧ t.cb = x.cb

/-- A constructor that has returned leaves its object ready, and if it has thrown, no
thread started on the object will read or write it. -/
structure SafeStart (calls : F → Set Use) (s : ι → Option (Startup F)) : Prop where
  returned : ∀ o x, s o = some x → x.constructor = .returned → x.Ready
  threw : ∀ o x, s o = some x → x.constructor = .threw →
    ∀ tr s₁ a s₂, Run (Step calls) s tr s₁ → Step calls s₁ (o, a) s₂ →
      ∀ x₁, s₁ o = some x₁ → ∀ m, ¬ x₁.Touches a m

/-- The new thread is past `notify`, and its callback does not use the object.  What a callback
uses it may use at any time, so this is not known of one that has done so for the last time. -/
def Startup.Quiet (calls : F → Set Use) (x : Startup F) : Prop :=
  ∀ t, x.run = some t →
    t.next = .done ∨ t.next = .callback ∧ ∀ c, x.cb = some c → calls c = ∅

/-- The waiting for the new thread is interrupted only when that thread is quiet. -/
def QuietInterrupts (calls : F → Set Use) (s : ι → Option (Startup F)) : ι × Act F → Prop
  | (o, .sem_wait false) => ∀ x, s o = some x → x.Quiet calls
  | _ => True

/-! ## The handshake -/

namespace Statement

/-- The ID has been set. -/
def IdSet : Statement → Prop
  | readName | setId => False
  | _ => True

/-- The callback has been taken. -/
def Swapped : Statement → Prop
  | notify | callback | done => True
  | _ => False

/-- The semaphore has been notified. -/
def Notified : Statement → Prop
  | callback | done => True
  | _ => False

variable {p : Statement}

theorem Notified.swapped (h : p.Notified) : p.Swapped := by
  cases p <;> first | exact trivial | exact h.elim

theorem Notified.idSet (h : p.Notified) : p.IdSet := by
  cases p <;> first | exact trivial | exact h.elim

end Statement

namespace Startup

variable {x x' : Startup F} {t : NewThread F} {a : Act F}

/-- What holds of an object while its constructor and its thread take their steps. -/
structure Sound (x : Startup F) : Prop where
  creating : x.constructor = .creating → x.run = none
  waiting : x.constructor = .waiting → ∃ t, x.run = some t ∧
    (0 < x.object.m_semaphore → t.next.Notified)
  returned : x.constructor = .returned → ∃ t, x.run = some t ∧ t.next.Notified
  fresh : x.run = none → x.object.m_cb = x.cb ∧ x.object.m_semaphore = 0
  idSet : ∀ t, x.run = some t → t.next.IdSet → x.object.m_id = t.tid
  untaken : ∀ t, x.run = some t → ¬ t.next.Swapped → x.object.m_cb = x.cb ∧ t.cb = none
  taken : ∀ t, x.run = some t → t.next.Swapped → x.object.m_cb = none ∧ t.cb = x.cb

/-- The thread goes on to `t'`, and the members to those of `y`. -/
theorem Sound.run (h : x.Sound) (ht : x.run = some t) {y : Thread F} {t' : NewThread F}
    (htid : t'.tid = t.tid)
    (hnotified : t.next.Notified → t'.next.Notified)
    (hsem : 0 < y.m_semaphore → 0 < x.object.m_semaphore ∨ t'.next.Notified)
    (hid : t'.next.IdSet → y.m_id = t.tid)
    (hcb : ¬ t'.next.Swapped → y.m_cb = x.cb ∧ t'.cb = none)
    (htaken : t'.next.Swapped → y.m_cb = none ∧ t'.cb = x.cb) :
    ({ x with object := y, run := some t' } : Startup F).Sound := by
  have hself : ∀ {u : NewThread F}, some t' = some u → u = t' := fun hu ↦ (Option.some.inj hu).symm
  constructor
  · intro hc
    rw [h.creating hc] at ht
    cases ht
  · intro hc
    obtain ⟨u, hu, hn⟩ := h.waiting hc
    obtain rfl := Option.some.inj (ht.symm.trans hu)
    refine ⟨t', rfl, fun hpos ↦ ?_⟩
    rcases hsem hpos with hpos | hn'
    · exact hnotified (hn hpos)
    · exact hn'
  · intro hc
    obtain ⟨u, hu, hn⟩ := h.returned hc
    obtain rfl := Option.some.inj (ht.symm.trans hu)
    exact ⟨t', rfl, hnotified hn⟩
  · rintro ⟨⟩
  · intro u hu hset
    obtain rfl := hself hu
    rw [htid]
    exact hid hset
  · intro u hu
    obtain rfl := hself hu
    exact hcb
  · intro u hu
    obtain rfl := hself hu
    exact htaken

theorem Sound.execute (h : x.Sound) (ht : x.run = some t) (hx : x.execute t = some x') :
    x'.Sound := by
  have hid := h.idSet t ht
  have huntaken := h.untaken t ht
  have htaken := h.taken t ht
  unfold Startup.execute at hx
  cases hn : t.next with
  | readName =>
      rw [hn] at hx huntaken
      obtain rfl := Option.some.inj hx
      exact h.run ht rfl (by rw [hn]; exact id) .inl nofun (fun _ ↦ huntaken id) nofun
  | setId =>
      rw [hn] at hx huntaken
      obtain rfl := Option.some.inj hx
      exact h.run ht rfl (by rw [hn]; exact id) .inl (fun _ ↦ rfl) (fun _ ↦ huntaken id) nofun
  | setName =>
      rw [hn] at hx hid huntaken
      obtain rfl := Option.some.inj hx
      exact h.run ht rfl (by rw [hn]; exact id) .inl hid (fun _ ↦ huntaken id) nofun
  | swap =>
      rw [hn] at hx hid huntaken
      obtain rfl := Option.some.inj hx
      exact h.run ht rfl (by rw [hn]; exact id) .inl hid (fun hs ↦ absurd trivial hs)
        fun _ ↦ ⟨(huntaken id).2, (huntaken id).1⟩
  | notify =>
      rw [hn] at hx hid htaken
      obtain rfl := Option.some.inj hx
      exact h.run ht rfl (fun _ ↦ trivial) (fun _ ↦ .inr trivial) hid
        (fun hs ↦ absurd trivial hs) htaken
  | callback =>
      rw [hn] at hx
      cases hx
  | done =>
      rw [hn] at hx
      cases hx

/-- The constructor goes on to `c`. -/
theorem Sound.constructor_eq (h : x.Sound) {c : Constructor} {n : Nat} (hrun : x.run ≠ none)
    (hc : c = .returned ∧ (∃ t, x.run = some t ∧ t.next.Notified) ∨ c = .threw) :
    ({ x with object := { x.object with m_semaphore := n }, constructor := c } :
      Startup F).Sound := by
  constructor
  · rintro rfl
    rcases hc with ⟨hc, -⟩ | hc <;> cases hc
  · rintro rfl
    rcases hc with ⟨hc, -⟩ | hc <;> cases hc
  · rintro rfl
    rcases hc with ⟨-, ht⟩ | hc
    · exact ht
    · cases hc
  · exact fun hnone ↦ absurd hnone hrun
  · exact h.idSet
  · exact h.untaken
  · exact h.taken

variable {s : Option (Startup F)}

/-- **Step lemma.** -/
theorem Sound.step (h : ∀ y, s = some y → y.Sound) (hs : Step calls s a x') : x'.Sound := by
  cases hs with
  | construct => exact ⟨fun _ ↦ rfl, nofun, nofun, fun _ ↦ ⟨rfl, rfl⟩, nofun, nofun, nofun⟩
  | @create x tid hc =>
      have hx := h x rfl
      obtain ⟨hcb, hsem⟩ := hx.fresh (hx.creating hc)
      refine ⟨nofun, fun _ ↦ ⟨_, rfl, fun hpos ↦ ?_⟩, nofun, nofun, ?_, ?_, ?_⟩
      · exact absurd hpos (by simp [hsem])
      · rintro _ ⟨⟩ ⟨⟩
      · rintro _ ⟨⟩ -
        exact ⟨hcb, rfl⟩
      · rintro _ ⟨⟩ ⟨⟩
  | @create_error x hc =>
      have hx := h x rfl
      exact ⟨nofun, nofun, nofun, hx.fresh, hx.idSet, hx.untaken, hx.taken⟩
  | @wait x hc hpos =>
      have hx := h x rfl
      obtain ⟨t, ht, hn⟩ := hx.waiting hc
      exact hx.constructor_eq (by rw [ht]; nofun) (.inl ⟨rfl, t, ht, hn hpos⟩)
  | @wait_error x hc =>
      have hx := h x rfl
      obtain ⟨t, ht, -⟩ := hx.waiting hc
      exact hx.constructor_eq (by rw [ht]; nofun) (.inr rfl)
  | run ht hx => exact (h _ rfl).execute ht hx
  | @use x t c u ht hn hc hu =>
      have hx := h x rfl
      cases u with
      | SetName name =>
          exact hx.run ht rfl id .inl (hx.idSet t ht) (hx.untaken t ht) (hx.taken t ht)
      | getName => exact hx
      | getID => exact hx
  | @callbackEnds x t ht hn =>
      have hx := h x rfl
      have hid := hx.idSet t ht
      have htaken := hx.taken t ht
      rw [hn] at hid htaken
      exact hx.run ht rfl (fun _ ↦ trivial) .inl hid (fun hs ↦ absurd trivial hs) htaken

theorem Sound.ready (h : x.Sound) (hc : x.constructor = .returned) : x.Ready := by
  obtain ⟨t, ht, hn⟩ := h.returned hc
  obtain ⟨hcb, hcb'⟩ := h.taken t ht hn.swapped
  exact ⟨t, ht, h.idSet t ht hn.idSet, hcb, hcb'⟩

/-! ## Objects whose constructor has thrown -/

/-- Each statement before the callback reads or writes the object. -/
theorem execute_touches (hn : ¬ t.next.Notified) :
    ∃ x' m, x.execute t = some x' ∧ m ∈ t.next.touched := by
  unfold Startup.execute
  cases hnext : t.next with
  | readName => exact ⟨_, .m_name, rfl, .head _⟩
  | setId => exact ⟨_, .m_id, rfl, .head _⟩
  | setName => exact ⟨_, .m_name, rfl, .head _⟩
  | swap => exact ⟨_, .m_cb, rfl, .head _⟩
  | notify => exact ⟨_, .m_semaphore, rfl, .head _⟩
  | callback => exact absurd (by rw [hnext]; trivial) hn
  | done => exact absurd (by rw [hnext]; trivial) hn

/-- A thread that has not ended executes a statement, and the constructor stays where
it is. -/
theorem execute_keeps (hx : x.execute t = some x') :
    x'.constructor = x.constructor ∧ t.next ≠ .done := by
  unfold Startup.execute at hx
  cases hn : t.next <;> rw [hn] at hx <;> cases hx <;> exact ⟨rfl, by simp⟩

/-- A thread that is not quiet can read or write the object with its next step. -/
theorem Sound.exists_touch (h : x.Sound) (hq : ¬ x.Quiet calls) :
    ∃ a x' m, Step calls (some x) a x' ∧ x.Touches a m := by
  unfold Quiet at hq
  push Not at hq
  obtain ⟨t, ht, hdone, hcalls⟩ := hq
  by_cases hn : t.next.Notified
  · have hnext : t.next = .callback := by
      cases hnext : t.next with
      | callback => rfl
      | done => exact absurd hnext hdone
      | _ => exact absurd hn (by rw [hnext]; exact id)
    obtain ⟨c, hc, u, hu⟩ := hcalls hnext
    exact ⟨.use u, _, u.member, .use ht hnext ((h.taken t ht hn.swapped).2.trans hc) hu, rfl⟩
  · obtain ⟨x', m, hx, hm⟩ := execute_touches (x := x) hn
    exact ⟨.run, x', m, .run ht hx, t, ht, hm⟩

/-- A quiet thread leaves the object alone. -/
theorem Sound.quiet_step (h : x.Sound) (hc : x.constructor = .threw) (hq : x.Quiet calls)
    (hs : Step calls (some x) a x') :
    (∀ m, ¬ x.Touches a m) ∧ x'.constructor = .threw ∧ x'.Quiet calls := by
  cases hs with
  | create hc' => cases hc.symm.trans hc'
  | create_error hc' => cases hc.symm.trans hc'
  | wait hc' _ => cases hc.symm.trans hc'
  | wait_error hc' => cases hc.symm.trans hc'
  | @run _ _ t ht hx =>
      unfold Startup.execute at hx
      rcases hq t ht with hn | ⟨hn, -⟩ <;> (rw [hn] at hx; cases hx)
  | @use _ t c u ht hn hcb hu =>
      rcases hq t ht with hn' | ⟨-, hnone⟩
      · cases hn.symm.trans hn'
      · have htaken := h.taken t ht (by rw [hn]; trivial)
        rw [hnone c (htaken.2.symm.trans hcb)] at hu
        exact hu.elim
  | @callbackEnds _ t ht hn =>
      refine ⟨fun _ hm ↦ hm, hc, ?_⟩
      rintro _ ⟨⟩
      exact .inl rfl

/-- A constructor leaves a quiet thread behind when it throws, provided that its
waiting is only interrupted then. -/
theorem quiet_of_step (h : ∀ y, s = some y → y.Sound)
    (hq : ∀ y, s = some y → y.constructor = .threw → y.Quiet calls) (hs : Step calls s a x')
    (hint : ∀ y, s = some y → a = .sem_wait false → y.Quiet calls)
    (hc : x'.constructor = .threw) : x'.Quiet calls := by
  have hkept : ∀ y, s = some y → y.constructor = .threw → x'.Quiet calls := by
    rintro y rfl hc
    exact ((h y rfl).quiet_step hc (hq y rfl hc) hs).2.2
  cases hs with
  | construct => cases hc
  | create hc' => cases hc
  | @create_error x hc' =>
      intro t ht
      rw [show x.run = none from (h x rfl).creating hc'] at ht
      cases ht
  | wait hc' _ => cases hc
  | @wait_error x hc' => exact hint x rfl rfl
  | @run x _ t ht hx =>
      exact hkept x rfl ((execute_keeps hx).1.symm.trans hc)
  | @use x t c u ht hn hcb hu =>
      refine hkept x rfl ?_
      cases u <;> exact hc
  | @callbackEnds x t ht hn => exact hkept x rfl hc

end Startup

/-! ## Any number of objects -/

variable {s s' : ι → Option (Startup F)} {o : ι} {a : Act F} {x : Startup F}
variable {tr : List (ι × Act F)}

/-- All objects are sound. -/
def AllSound (s : ι → Option (Startup F)) : Prop := ∀ o x, s o = some x → x.Sound

/-- Where a constructor has thrown, the thread is quiet. -/
def AllQuiet (calls : F → Set Use) (s : ι → Option (Startup F)) : Prop :=
  ∀ o x, s o = some x → x.constructor = .threw → x.Quiet calls

/-- What is there after an object has been written. -/
theorem update_cases {β : Type} {s : ι → Option β} {x y : β} {o o' : ι}
    (h : Function.update s o (some x) o' = some y) :
    o' = o ∧ y = x ∨ o' ≠ o ∧ s o' = some y := by
  by_cases ho : o' = o
  · subst ho
    rw [Function.update_self] at h
    exact .inl ⟨rfl, (Option.some.inj h).symm⟩
  · rw [Function.update_of_ne ho] at h
    exact .inr ⟨ho, h⟩

theorem AllSound.step {l : ι × Act F} (h : AllSound s) (hs : Step calls s l s') : AllSound s' := by
  obtain ⟨hstep⟩ := hs
  rename_i o a x
  intro o' y hy
  rcases update_cases hy with ⟨rfl, rfl⟩ | ⟨-, hy⟩
  · exact Startup.Sound.step (h o') hstep
  · exact h o' y hy

/-- The property is that of the threads whose constructor has thrown. -/
theorem AllSound.safe_iff (h : AllSound s) : SafeStart calls s ↔ AllQuiet calls s := by
  constructor
  · intro hsafe o x hx hc
    by_contra hq
    obtain ⟨a, x', m, hstep, hm⟩ := (h o x hx).exists_touch hq
    rw [← hx] at hstep
    exact hsafe.threw o x hx hc [] s a _ (.nil s) (.mk hstep) x hx m hm
  · intro hq
    refine ⟨fun o x hx hc ↦ (h o x hx).ready hc, fun o x hx hc tr s₁ a s₂ hr hs x₁ hx₁ ↦ ?_⟩
    -- the constructor stays as it is, and so does the thread
    obtain ⟨hsound, y, hy, hyc, hyq⟩ := hr.invariant
      (I := fun s₁ ↦ AllSound s₁ ∧ ∃ y, s₁ o = some y ∧ y.constructor = .threw ∧ y.Quiet calls)
      (by
        rintro s₁ l s₂ ⟨hsound, y, hy, hyc, hyq⟩ hs
        refine ⟨hsound.step hs, ?_⟩
        obtain ⟨hstep⟩ := hs
        rename_i o' a' x'
        by_cases ho : o = o'
        · subst ho
          rw [hy] at hstep
          obtain ⟨-, hc', hq'⟩ := (hsound o y hy).quiet_step hyc hyq hstep
          exact ⟨x', Function.update_self .., hc', hq'⟩
        · exact ⟨y, by rw [Function.update_of_ne ho, hy], hyc, hyq⟩)
      ⟨h, x, hx, hc, hq o x hx hc⟩
    obtain rfl := Option.some.inj (hy.symm.trans hx₁)
    obtain ⟨hstep⟩ := hs
    rw [hy] at hstep
    exact ((hsound o y hy).quiet_step hyc hyq hstep).1

theorem AllQuiet.step {l : ι × Act F} (h : AllSound s) (hq : AllQuiet calls s)
    (hs : Step calls s l s') (hint : QuietInterrupts calls s l) : AllQuiet calls s' := by
  obtain ⟨hstep⟩ := hs
  rename_i o a x
  intro o' y hy hc
  rcases update_cases hy with ⟨rfl, rfl⟩ | ⟨-, hy⟩
  · refine Startup.quiet_of_step (h o') (hq o') hstep ?_ hc
    rintro z hz rfl
    exact hint z hz
  · exact hq o' y hy hc

/-- What is interrupted before the thread is quiet is not safe. -/
theorem AllSound.quietInterrupts {l : ι × Act F} (h : AllSound s) (hs : Step calls s l s')
    (hsafe : SafeStart calls s') : QuietInterrupts calls s l := by
  have hq := (h.step hs).safe_iff.mp hsafe
  obtain ⟨o, a⟩ := l
  cases a with
  | sem_wait success =>
      cases success with
      | true => trivial
      | false =>
          intro x hx
          obtain ⟨hstep⟩ := hs
          rw [hx] at hstep
          cases hstep
          exact hq o { x with constructor := .threw } (Function.update_self ..) rfl
  | _ => trivial

/-- **The start of threads.**  For any number of objects and any interleaving of
their constructors and threads, the states of a run are safe if and only if
whenever a constructor's waiting is interrupted, its thread is past `notify` and
will not use the object. -/
theorem safeStart_iff {tr : List (ι × Act F)} :
    Run (Ending (SafeStart calls) (Step calls)) (fun _ ↦ none) tr s ↔
      Run (Guarded (QuietInterrupts calls) (Step calls)) (fun _ ↦ none) tr s := by
  have hsound₀ : AllSound (fun _ : ι ↦ (none : Option (Startup F))) := by
    intro o x hx
    cases hx
  have hquiet₀ : AllQuiet calls (fun _ : ι ↦ (none : Option (Startup F))) := by
    intro o x hx
    cases hx
  constructor
  · intro h
    have hsound : ∀ s l s', AllSound s → Ending (SafeStart calls) (Step (ι := ι) calls) s l s' →
        AllSound s' :=
      fun _ _ _ hj hs ↦ hj.step hs.1
    exact h.mono_given hsound (fun _ _ _ hj hs ↦ ⟨hj.quietInterrupts hs.1 hs.2, hs.1⟩) hsound₀
  · intro h
    have hkept : ∀ s l s', AllSound s ∧ AllQuiet calls s →
        Guarded (QuietInterrupts calls) (Step (ι := ι) calls) s l s' →
        AllSound s' ∧ AllQuiet calls s' :=
      fun _ _ _ hj hs ↦ ⟨hj.1.step hs.2, hj.2.step hj.1 hs.2 hs.1⟩
    refine h.mono_given hkept (fun s l s' hj hs ↦ ⟨hs.2, ?_⟩) ⟨hsound₀, hquiet₀⟩
    obtain ⟨hsound, hquiet⟩ := hkept s l s' hj hs
    exact hsound.safe_iff.mpr hquiet

/-- The waiting is interrupted before the new thread has done anything. -/
theorem not_safeStart : ¬ ∀ (tr : List (Unit × Act Unit)) (s : Unit → Option (Startup Unit)),
    Run (Step fun _ ↦ ∅) (fun _ ↦ none) tr s → SafeStart (fun _ ↦ ∅) s := by
  intro hall
  have hsafe := hall
    [((), .construct (some ()) "worker"), ((), .pthread_create (some 7)), ((), .sem_wait false)] _
    (.cons (.mk .construct) <| .cons (.mk (.create rfl)) <| .cons (.mk (.wait_error rfl)) <| .nil _)
  exact hsafe.threw () _ rfl rfl [] _ .run _ (.nil _) (.mk (.run rfl rfl)) _ rfl .m_name
    ⟨_, rfl, .head _⟩

end Sylar.Thread
