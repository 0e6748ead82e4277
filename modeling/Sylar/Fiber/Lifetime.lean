import Sylar.Fiber.Transfers
import Sylar.Fiber.Finished

/-!
# A fiber outlives its stack

A program that calls `swapIn` from the main fiber only, and keeps a pointer until
it returns, never destroys a child fiber that has an activation on its stack.
`Effect` collects what a successful action of such a program does: the invariant
is kept, and a fiber disappears only with the last pointer from outside.  That
the actions are successful is then a matter of the pointer that is kept.
-/

namespace Sylar.Fibers

open Foundation

/-- User code does not set `t_fiber`, and does not call `MainFunc` or `swapOut`. -/
def RefAction.Plain : RefAction → Prop
  | .call (.setThis _) | .call .mainFunc | .call (.swapOut _) | .call (.forget _) => False
  | _ => True

/-- The states in which a fiber may be destroyed. -/
def Fiber.Idle (fb : Fiber) : Prop := fb.state = .INIT ∨ fb.state = .TERM ∨ fb.state = .EXCEPT

/-- The pointers to one fiber that an action takes from the outside. -/
def RefAction.taken : RefAction → FiberId → Nat
  | .drop f, g | .capture f, g => if f = g then 1 else 0
  | _, _ => 0

namespace Machine

variable {m : Machine} {f g t : FiberId}

@[simp] theorem modify_eq_none {u : Fiber → Fiber} :
    (m.modify f u).fibers g = none ↔ m.fibers g = none := by
  by_cases h : g = f
  · subst h
    simp
  · simp [h]

end Machine

namespace Shared

variable {s s' : Shared} {f g t : FiberId} {fb : Fiber} {l : Landing} {x : RefAction} {n : Nat}

/-! ## What an action does -/

/-- All that matters here of a successful action. -/
structure Effect (s : Shared) (x : RefAction) (s' : Shared) : Prop where
  good : s'.Good
  /-- A fiber disappears with the last pointer to it, which was outside. -/
  gone : ∀ f fb, s.machine.fibers f = some fb → s'.machine.fibers f = none →
    x = .drop f ∧ s.machine.tThreadFiber ≠ some f ∧ s.uses f = 1 ∧ fb.Idle
  outside : ∀ g, s.outside g ≤ s'.outside g + x.taken g
  /-- Only `swapIn` gives control to a child. -/
  stack : ∀ g, s'.machine.stack = some g → s.machine.stack = some g ∨ x = .call (.swapIn g)

/-- An action that destroys nothing. -/
theorem Effect.of_alive (hg : s'.Good)
    (halive : ∀ f, s'.machine.fibers f = none → s.machine.fibers f = none)
    (hout : ∀ g, s.outside g ≤ s'.outside g + x.taken g)
    (hst : ∀ g, s'.machine.stack = some g → s.machine.stack = some g ∨ x = .call (.swapIn g)) :
    s.Effect x s' :=
  ⟨hg, fun f fb hf hnone ↦ by simp [halive f hnone] at hf, hout, hst⟩

theorem back_none {u : Fiber → Fiber} {p : Point} {c : Nat} {cs : List FiberId}
    (h : (s.back f u p n c cs).machine.fibers g = none) : s.machine.fibers g = none := by
  simpa [Shared.back] using h

theorem Effect.back {u : Fiber → Fiber} {p : Point} {c : Nat} {cs : List FiberId}
    (hg : (s.back f u p n c cs).Good) : s.Effect x (s.back f u p n c cs) :=
  .of_alive hg (fun _ ↦ back_none) (fun _ ↦ Nat.le_add_right _ _) (fun _ h ↦ nomatch h)

theorem Effect.stay {st : State} {p : Point} (hg : (s.stay t st p).Good) :
    s.Effect x (s.stay t st p) :=
  .of_alive hg (fun _ h ↦ by simpa [Shared.stay] using h) (fun _ ↦ Nat.le_add_right _ _)
    (fun _ h ↦ nomatch h)

theorem started_none (ht : s.machine.tFiber = none) (h : s.started.machine.fibers g = none) :
    s.machine.fibers g = none := by
  by_cases hg : g = s.machine.next
  · simp [Shared.started, Machine.getThis, ht, Machine.newMain, hg] at h
  · simpa [Shared.started, Machine.getThis, ht, Machine.newMain, hg] using h

theorem started_stack : s.started.machine.stack = s.machine.stack := by
  cases ht : s.machine.tFiber <;> simp [Shared.started, Machine.getThis, ht, Machine.newMain]

theorem Good.effect_yieldTo {st : State} (h : s.Good) (hst : st = .READY ∨ st = .HOLD)
    (hok : s.yieldTo st = .ok (l, s')) : s.Effect x s' := by
  rcases h.control with hin | ⟨f, hin⟩
  · cases ht : s.machine.tThreadFiber with
    | some t =>
        obtain ⟨c, hc⟩ := h.yieldTo_main hin ht st
        rw [hc] at hok
        cases hok
        exact .stay (h.stay hin ht _ _)
    | none =>
        have hthis := hin.2.2.trans ht
        obtain ⟨hg, hin', ht'⟩ := h.started hin hthis
        obtain ⟨c, hc⟩ := hg.yieldTo_main hin' ht' st
        rw [h.yieldTo_first hin hthis, hc] at hok
        cases hok
        refine .of_alive (hg.stay hin' ht' _ _) (fun f hf ↦ started_none hthis ?_)
          (fun _ ↦ Nat.le_add_right _ _) (fun _ h ↦ nomatch h)
        simpa [Shared.stay] using hf
  · have hg := h.yield_child hin hst hok
    obtain ⟨k, hk⟩ := h.yieldTo_child hin st
    rw [hk] at hok
    cases hok
    exact .back hg

theorem Good.effect_callback (h : s.Good)
    (hok : s.callbackReturns = .ok (l, s') ∨ s.callbackThrows = .ok (l, s')) : s.Effect x s' := by
  rcases h.control with ⟨_, hframes, _⟩ | ⟨f, hin⟩
  · rcases hok with hok | hok
    · simp [callbackReturns, hframes] at hok
    · simp [callbackThrows, hframes] at hok
  · rcases hok with hok | hok
    · rcases h.callbackReturns_eq hin with ⟨_, herr⟩ | ⟨hpos, k, hk⟩
      · rw [herr] at hok
        cases hok
      · rw [hk] at hok
        cases hok
        exact .back (h.finished hin (c := 0) hpos (fun _ ↦ rfl) (fun _ ↦ .inl ⟨rfl, rfl, rfl⟩))
    · rcases h.callbackThrows_eq hin with ⟨_, herr⟩ | ⟨hpos, k, hk⟩
      · rw [herr] at hok
        cases hok
      · rw [hk] at hok
        cases hok
        exact .back (h.finished hin hpos (fun _ ↦ rfl) (fun _ ↦ .inr rfl))

/-- `swapIn` from the main fiber, by the state of the fiber it is called on. -/
theorem Good.effect_swapIn (h : s.Good) (hin : s.InMain) (hok : s.swapIn f = .ok (l, s')) :
    s.Effect (.call (.swapIn f)) s' := by
  cases hf : s.machine.fibers f with
  | none => simp [swapIn, hf] at hok
  | some fb =>
      by_cases hexec : fb.state = .EXEC
      · simp [swapIn, hf, hexec] at hok
      · cases ht : s.machine.tThreadFiber with
        | none => simp [swapIn, hf, hexec, ht] at hok
        | some t =>
            by_cases htf : t = f
            · subst htf
              obtain ⟨c, hc⟩ := Good.swapIn_main hin ht hf hexec
              rw [hc] at hok
              cases hok
              exact .stay (h.stay hin ht _ _)
            · have hf0 : s.machine.tThreadFiber ≠ some f := fun h' ↦
                htf (Option.some.inj (ht.symm.trans h'))
              have hgood := h.inside hin ht hf hf0 rfl
              have heffect : s.Effect (.call (.swapIn f))
                  (s.inside t f (s.outside f + s.captured f + 1)) := by
                refine .of_alive hgood (fun g hg ↦ ?_) (fun _ ↦ Nat.le_add_right _ _)
                  (fun g hg ↦ .inr ?_)
                · simpa [Shared.inside, Machine.enter] using hg
                · obtain rfl : f = g := Option.some.inj hg
                  rfl
              cases hst : fb.state with
              | EXEC => exact absurd hst hexec
              | INIT =>
                  obtain ⟨cb, hcb⟩ := h.swapIn_init ht hf hf0 hst
                  rw [hcb] at hok
                  cases hok
                  exact heffect
              | READY =>
                  obtain ⟨k, hk⟩ := h.swapIn_suspended hin ht hf hf0 (.inl hst)
                  rw [hk] at hok
                  cases hok
                  exact heffect
              | HOLD =>
                  obtain ⟨k, hk⟩ := h.swapIn_suspended hin ht hf hf0 (.inr hst)
                  rw [hk] at hok
                  cases hok
                  exact heffect
              | TERM => exact absurd hok (h.swapIn_fails ht hf hf0 (.inl hst))
              | EXCEPT => exact absurd hok (h.swapIn_fails ht hf hf0 (.inr hst))

theorem reset_idle (hok : s.reset f = .ok s') :
    ∃ fb, s.machine.fibers f = some fb ∧ fb.stack = true ∧ fb.Idle := by
  cases hr : s.machine.reset f with
  | error e => simp [reset, hr] at hok
  | ok m =>
      obtain ⟨fb, hf, hs, hst, _⟩ := Machine.reset_ok hr
      exact ⟨fb, hf, hs, by unfold Fiber.Idle; tauto⟩

theorem Good.effect_reset (h : s.Good) (hok : s.reset f = .ok s') : s.Effect x s' := by
  obtain ⟨fb, hf, hs, hst⟩ := reset_idle hok
  have hf0 := h.is_child hf hs
  rw [h.reset_eq hf hf0 hst] at hok
  by_cases hout : s.outside f = 0
  · rw [if_pos hout] at hok
    cases hok
  · rw [if_neg hout] at hok
    cases hok
    exact .of_alive (h.renewed hf hf0 hst hout) (fun g hg ↦ by simpa [Shared.renewed] using hg)
      (fun _ ↦ Nat.le_add_right _ _) (fun _ hg ↦ .inl hg)

theorem Good.effect_drop (h : s.Good) (hok : s.perform (.drop f) = .ok (l, s')) :
    s.Effect (.drop f) s' := by
  have hgood := h.drop hok
  have hle : ∀ n g, s.outside f ≤ n + 1 →
      s.outside g ≤ Function.update s.outside f n g + (RefAction.drop f).taken g := by
    intro n g hn
    by_cases hg : g = f
    · subst hg
      simpa [RefAction.taken] using hn
    · simp [hg]
  by_cases hout : s.outside f = 0
  · simp [perform, hout] at hok
  · rcases h.drop_eq hout with ⟨heq, -⟩ | ⟨heq, hf0, huses, -, fb, hf, hst⟩ <;> rw [heq] at hok <;>
      cases hok
    · exact .of_alive hgood (fun _ hg ↦ hg) (fun g ↦ hle _ g (by omega)) (fun _ hg ↦ .inl hg)
    · refine ⟨hgood, fun g fbg hg hnone ↦ ?_, fun g ↦ hle 0 g ?_, fun _ hg ↦ .inl hg⟩
      · have hgf : g = f := by
          by_contra hne
          have hsame : (s.bury f).machine.fibers g = s.machine.fibers g :=
            Function.update_of_ne hne _ _
          rw [hsame, hg] at hnone
          cases hnone
        subst hgf
        obtain rfl := Option.some.inj (hg.symm.trans hf)
        exact ⟨rfl, hf0, huses, hst⟩
      · have hcount := (h.child f fb hf hf0).counted
        omega

/-- A pointer that is kept outside is one more. -/
theorem outside_le_keep : s.outside g ≤ (s.keep f).outside g + n := by
  rw [keep_outside]
  by_cases hgf : g = f
  · simp [hgf, Nat.add_assoc]
  · simp [hgf]

theorem Good.effect_getThis (h : s.Good) (hok : s.perform (.call .getThis) = .ok (l, s')) :
    s.Effect (.call .getThis) s' := by
  obtain ⟨f, s₁, heq, hgood, hcases⟩ := h.getThis
  rw [perform, heq] at hok
  cases hok
  rcases hcases with ⟨-, rfl⟩ | ⟨ht, rfl, rfl⟩
  · exact .of_alive hgood (fun _ hg ↦ hg) (fun _ ↦ outside_le_keep) (fun _ hg ↦ .inl hg)
  · exact .of_alive hgood (fun _ hg ↦ started_none ht hg) (fun _ ↦ outside_le_keep)
      (fun _ hg ↦ .inl (started_stack.symm.trans hg))

/-- **Step lemma.**  What a successful action does, `swapIn` being called from the
main fiber only. -/
theorem Good.effect (h : s.Good) (hx : x.Plain)
    (hnest : ∀ f, x = .call (.swapIn f) → s.machine.stack = none)
    (hok : s.perform x = .ok (l, s')) : s.Effect x s' := by
  cases x with
  | call a =>
      cases a with
      | construct n =>
          simp only [perform, Except.ok.injEq, Prod.mk.injEq] at hok
          obtain ⟨-, rfl⟩ := hok
          refine .of_alive (h.construct n) (fun g hg ↦ ?_) (fun _ ↦ outside_le_keep)
            (fun _ hg ↦ .inl hg)
          by_cases hgn : g = s.machine.next
          · exact hgn ▸ h.unused _ (Nat.le_refl _)
          · exact (Function.update_of_ne hgn _ _).symm.trans hg
      | reset f =>
          obtain ⟨s₁, hr, heq⟩ := Except.map_ok_iff.mp hok
          cases heq
          exact h.effect_reset hr
      | swapIn f =>
          have hin : s.InMain := by
            rcases h.control with hin | ⟨g, hin⟩
            · exact hin
            · have hst := hin.stack
              rw [hnest f rfl] at hst
              cases hst
          exact h.effect_swapIn hin hok
      | yieldToReady => exact h.effect_yieldTo (.inl rfl) hok
      | yieldToHold => exact h.effect_yieldTo (.inr rfl) hok
      | callbackReturns => exact h.effect_callback (.inl hok)
      | callbackThrows => exact h.effect_callback (.inr hok)
      | getThis => exact h.effect_getThis hok
      | swapOut _ => exact hx.elim
      | setThis _ => exact hx.elim
      | mainFunc => exact hx.elim
      | forget _ => exact hx.elim
      | totalFibers | getFiberID =>
          cases hok
          exact .of_alive h (fun _ hg ↦ hg) (fun _ ↦ Nat.le_add_right _ _) (fun _ hg ↦ .inl hg)
  | copy f =>
      cases hf : s.machine.fibers f with
      | none => simp [perform, hf] at hok
      | some fb =>
          simp only [perform, hf, Except.ok.injEq, Prod.mk.injEq] at hok
          obtain ⟨-, rfl⟩ := hok
          exact .of_alive (h.keep (by simp [hf])) (fun _ hg ↦ hg) (fun _ ↦ outside_le_keep)
            (fun _ hg ↦ .inl hg)
  | drop f => exact h.effect_drop hok
  | capture f =>
      have hgood := h.capture hok
      cases hcb : (s.machine.fibers f).bind Fiber.cb with
      | none => simp [perform, hcb] at hok
      | some cb =>
          by_cases hout : s.outside f = 0
          · simp [perform, hcb, hout] at hok
          · simp only [perform, hcb, if_neg hout, Except.ok.injEq, Prod.mk.injEq] at hok
            obtain ⟨-, rfl⟩ := hok
            refine .of_alive hgood (fun _ hg ↦ hg) (fun g ↦ ?_) (fun _ hg ↦ .inl hg)
            by_cases hgf : g = f
            · subst hgf
              simp only [Function.update_self, RefAction.taken, if_true]
              omega
            · simp [hgf]
  | uncapture f =>
      have hgood := h.uncapture hok
      by_cases hcap : s.captured f = 0
      · simp [perform, hcap] at hok
      · simp only [perform, if_neg hcap, Except.ok.injEq, Prod.mk.injEq] at hok
        obtain ⟨-, rfl⟩ := hok
        exact .of_alive hgood (fun _ hg ↦ hg) (fun _ ↦ outside_le_keep) (fun _ hg ↦ .inl hg)

/-! ## Runs -/

theorem Good.tick (h : s.Good) (n : Nat) :
    (s.withMachine { s.machine with clock := n }).Good := by
  refine ⟨fun t ht ↦ ?_, h.curs, h.unused, fun f hf ↦ ?_, fun f fb hf hf0 ↦ ?_, h.count, ?_⟩
  · have hm := h.main t ht
    exact ⟨hm.object, hm.counted, hm.captured⟩
  · have hd := h.dead f hf
    exact ⟨hd.uses, hd.outside, hd.captured, hd.curs⟩
  · have ho := h.child f fb hf hf0
    exact ⟨ho.stack, ho.counted, ho.used, ho.activation.of_eq rfl rfl fun hs ↦ hs, ho.context,
      ho.emptied⟩
  · exact control_of_objects h.control rfl rfl rfl rfl rfl fun _ _ hg _ ↦ hg

theorem Effect.tick (h : s.Effect x s') (n : Nat) :
    s.Effect x (s'.withMachine { s'.machine with clock := n }) :=
  ⟨h.good.tick n, h.gone, h.outside, h.stack⟩

theorem step_ok_iff : s.step x = .ok (l, s') ↔ ∃ s₁, s.perform x = .ok (l, s₁) ∧
    s' = s₁.withMachine { s₁.machine with clock := s.machine.clock + 1 } := by
  rw [step, Except.map_ok_iff]
  constructor
  · rintro ⟨⟨l₁, s₁⟩, hok, heq⟩
    cases heq
    exact ⟨s₁, hok, rfl⟩
  · rintro ⟨s₁, hok, rfl⟩
    exact ⟨(l, s₁), hok, rfl⟩

theorem good_fresh (n : Nat) : (fresh n).Good where
  main _ ht := nomatch ht
  curs := rfl
  unused _ _ := rfl
  dead _ _ := ⟨rfl, rfl, rfl, rfl⟩
  child _ _ hf := nomatch hf
  count := rfl
  control := .inl ⟨rfl, rfl, rfl⟩

/-! ## Keeping a pointer -/

/-- There is a pointer to `f` outside that can be given up, even while the one
that the caller of `swapIn` keeps is needed. -/
def Spare (s : Shared) (f : FiberId) : Prop :=
  0 < s.outside f ∧ (s.machine.stack = some f → 1 < s.outside f)

/-- What a program may do that calls `swapIn` from the main fiber, on fibers it
is meant for, and keeps a pointer until it returns. -/
def Kept (s : Shared) : RefAction → Prop
  | .call (.construct _) | .call .getThis | .call .totalFibers | .call .getFiberID
  | .call .yieldToReady | .call .yieldToHold => True
  | .call (.reset f) =>
      0 < s.outside f ∧ ∃ fb, s.machine.fibers f = some fb ∧ fb.stack = true ∧ fb.Idle
  | .call (.swapIn f) =>
      s.machine.stack = none ∧ s.machine.tThreadFiber ≠ none ∧ 0 < s.outside f ∧
        ∃ fb, s.machine.fibers f = some fb ∧ fb.Resumable
  | .call .callbackReturns | .call .callbackThrows => s.machine.stack ≠ none
  | .call (.setThis _) | .call .mainFunc | .call (.swapOut _) | .call (.forget _) => False
  | .copy f => s.machine.fibers f ≠ none
  | .drop f => s.Spare f
  | .capture f => s.Spare f ∧ ∃ fb, s.machine.fibers f = some fb ∧ fb.cb ≠ none
  | .uncapture f => 0 < s.captured f

theorem Kept.plain (h : s.Kept x) : x.Plain := by
  unfold RefAction.Plain
  split
  · exact h
  · exact h
  · exact h
  · exact h
  · trivial

theorem Kept.nest (h : s.Kept x) (f : FiberId) (hx : x = .call (.swapIn f)) :
    s.machine.stack = none := by
  subst hx
  exact h.1

/-- The pointer that is kept is there. -/
def Held (s : Shared) : Prop := ∀ f, s.machine.stack = some f → 0 < s.outside f

theorem Effect.held (he : s.Effect x s') (h : s.Held) (hk : s.Kept x) : s'.Held := by
  intro f hst
  have hle := he.outside f
  have hspare : ∀ {g}, s.Spare g → s.machine.stack = some f →
      (if g = f then 1 else 0) < s.outside f := by
    intro g hg hst
    by_cases hgf : g = f
    · subst hgf
      simpa using hg.2 hst
    · simpa [hgf] using h f hst
  have htaken : x.taken f < s.outside f := by
    rcases he.stack f hst with hst | rfl
    · cases x with
      | drop g => exact hspare hk hst
      | capture g => exact hspare hk.1 hst
      | call _ | copy _ | uncapture _ => exact h f hst
    · exact hk.2.2.1
  omega

/-- What such a program does is always successful. -/
theorem Good.kept_ok (h : s.Good) (hh : s.Held) (hk : s.Kept x) :
    ∃ l s', s.perform x = .ok (l, s') := by
  have hyield : ∀ st, ∃ l s', s.yieldTo st = .ok (l, s') := by
    intro st
    rcases h.control with hin | ⟨f, hin⟩
    · cases ht : s.machine.tThreadFiber with
      | some t =>
          obtain ⟨c, hc⟩ := h.yieldTo_main hin ht st
          exact ⟨_, _, hc⟩
      | none =>
          obtain ⟨hg, hin', ht'⟩ := h.started hin (hin.2.2.trans ht)
          obtain ⟨c, hc⟩ := hg.yieldTo_main hin' ht' st
          exact ⟨_, _, (h.yieldTo_first hin (hin.2.2.trans ht) st).trans hc⟩
    · obtain ⟨k, hk⟩ := h.yieldTo_child hin st
      exact ⟨_, _, hk⟩
  have hchild : s.machine.stack ≠ none → ∃ f, s.InChild f ∧ 0 < s.outside f := by
    intro hst
    rcases h.control with hin | ⟨f, hin⟩
    · exact absurd hin.1 hst
    · exact ⟨f, hin, hh f hin.stack⟩
  cases x with
  | call a =>
      cases a with
      | construct n => exact ⟨_, _, rfl⟩
      | reset f =>
          obtain ⟨hout, fb, hf, hs, hst⟩ := hk
          have hr := h.reset_eq hf (h.is_child hf hs) hst
          rw [if_neg (Nat.ne_of_gt hout)] at hr
          exact ⟨_, _, by rw [perform, hr]; rfl⟩
      | swapIn f =>
          obtain ⟨hstack, ht, -, fb, hf, hst⟩ := hk
          have hin : s.InMain := by
            rcases h.control with hin | ⟨g, hin⟩
            · exact hin
            · cases hstack.symm.trans hin.stack
          obtain ⟨t, ht⟩ := Option.ne_none_iff_exists'.mp ht
          by_cases htf : t = f
          · subst htf
            obtain ⟨c, hc⟩ := Good.swapIn_main hin ht hf (Fiber.not_exec_iff.mpr (.inl hst))
            exact ⟨_, _, hc⟩
          · have hf0 : s.machine.tThreadFiber ≠ some f := fun h' ↦
              htf (Option.some.inj (ht.symm.trans h'))
            rcases hst with hst | hst
            · obtain ⟨cb, hcb⟩ := h.swapIn_init ht hf hf0 hst
              exact ⟨_, _, hcb⟩
            · obtain ⟨k, hk⟩ := h.swapIn_suspended hin ht hf hf0 hst
              exact ⟨_, _, hk⟩
      | yieldToReady => exact hyield .READY
      | yieldToHold => exact hyield .HOLD
      | callbackReturns =>
          obtain ⟨f, hin, hpos⟩ := hchild hk
          rcases h.callbackReturns_eq hin with ⟨hzero, _⟩ | ⟨_, k, hk⟩
          · omega
          · exact ⟨_, _, hk⟩
      | callbackThrows =>
          obtain ⟨f, hin, hpos⟩ := hchild hk
          rcases h.callbackThrows_eq hin with ⟨hzero, _⟩ | ⟨_, k, hk⟩
          · omega
          · exact ⟨_, _, hk⟩
      | getThis =>
          obtain ⟨f, s₁, heq, -⟩ := h.getThis
          exact ⟨_, _, by rw [perform, heq]; rfl⟩
      | swapOut _ => exact hk.elim
      | setThis _ => exact hk.elim
      | mainFunc => exact hk.elim
      | forget _ => exact hk.elim
      | totalFibers => exact ⟨_, _, rfl⟩
      | getFiberID => exact ⟨_, _, rfl⟩
  | copy f =>
      obtain ⟨fb, hf⟩ := Option.ne_none_iff_exists'.mp hk
      exact ⟨_, _, by rw [perform, hf]⟩
  | drop f =>
      rcases h.drop_eq (Nat.ne_of_gt hk.1) with ⟨heq, _⟩ | ⟨heq, _⟩
      · exact ⟨_, _, heq⟩
      · exact ⟨_, _, heq⟩
  | capture f =>
      obtain ⟨hspare, fb, hf, hcb⟩ := hk
      obtain ⟨cb, hcb⟩ := Option.ne_none_iff_exists'.mp hcb
      exact ⟨_, _, by simp only [perform, hf, Option.bind_some, hcb,
        if_neg (Nat.ne_of_gt hspare.1)]; rfl⟩
  | uncapture f => exact ⟨_, _, by rw [perform, if_neg (Nat.ne_of_gt hk)]⟩

theorem Good.kept_step (h : s.Good) (hh : s.Held) (hk : s.Kept x) :
    ∃ l s', s.step x = .ok (l, s') ∧ s.Effect x s' := by
  obtain ⟨l, s₁, hok⟩ := h.kept_ok hh hk
  exact ⟨l, _, step_ok_iff.mpr ⟨s₁, hok, rfl⟩, (h.effect hk.plain hk.nest hok).tick _⟩

theorem good_of_kept {tr : List RefAction} (hr : Run (Guarded Kept RefStep) (fresh n) tr s) :
    s.Good ∧ s.Held := by
  refine hr.invariant (I := fun s ↦ s.Good ∧ s.Held) ?_ ⟨good_fresh n, fun _ h ↦ nomatch h⟩
  rintro s x s' ⟨h, hh⟩ ⟨hk, l, hok⟩
  obtain ⟨s₁, hp, rfl⟩ := step_ok_iff.mp hok
  have he := (h.effect hk.plain hk.nest hp).tick (s.machine.clock + 1)
  exact ⟨he.good, he.held hh hk⟩

theorem Owned.curs_self (h : s.Owned f fb) : ∀ g ∈ s.curs (some f), g = f := by
  have ha := h.activation
  unfold Activation at ha
  cases hst : fb.state <;> simp only [hst] at ha <;> simp [ha]

/-- **A child fiber loses its last pointer only where it may be destroyed.**  The
count is that of the pointers outside, in its callback and in the `cur`s on its
own stack; every action is successful, the destructor included; and the fiber
that has been destroyed was in `INIT`, `TERM` or `EXCEPT` and not running. -/
theorem destroyed_idle {tr : List RefAction}
    (hr : Run (Guarded Kept RefStep) (fresh n) tr s) :
    (∀ f fb, s.machine.fibers f = some fb → s.machine.tThreadFiber ≠ some f →
      s.uses f = s.outside f + s.captured f + (s.curs (some f)).length ∧ 0 < s.uses f ∧
        ∀ g ∈ s.curs (some f), g = f) ∧
      (∀ x, s.Kept x → ∃ l s', s.step x = .ok (l, s') ∧
        ∀ f fb, s.machine.fibers f = some fb → s.machine.tThreadFiber ≠ some f → s'.uses f = 0 →
          x = .drop f ∧ s'.machine.fibers f = none ∧ fb.Idle ∧ s.machine.tFiber ≠ some f ∧
            s.machine.stack ≠ some f) ∧
      ∀ f, s.machine.stack = some f → s.machine.fibers f ≠ none := by
  obtain ⟨h, hh⟩ := good_of_kept hr
  refine ⟨fun f fb hf hf0 ↦ ?_, fun x hk ↦ ?_, fun f hst ↦ ?_⟩
  · have ho := h.child f fb hf hf0
    exact ⟨ho.counted, ho.used, ho.curs_self⟩
  · obtain ⟨l, s', hok, he⟩ := h.kept_step hh hk
    refine ⟨l, s', hok, fun f fb hf hf0 hzero ↦ ?_⟩
    have hgone : s'.machine.fibers f = none := by
      cases hf' : s'.machine.fibers f with
      | none => rfl
      | some fb' =>
          by_cases hmain : s'.machine.tThreadFiber = some f
          · have hcount := (he.good.main f hmain).counted
            omega
          · have hused := (he.good.child f fb' hf' hmain).used
            omega
    obtain ⟨hx, -, -, hidle⟩ := he.gone f fb hf hgone
    have hrun : ¬ s.InChild f := fun hin ↦ idle_ne (.inr hin) hf hf0 hidle rfl
    rcases h.control with hin | ⟨g, hin⟩
    · exact ⟨hx, hgone, hidle, hin.2.2 ▸ hf0, by simp [hin.1]⟩
    · have hgf : g ≠ f := fun hgf ↦ hrun (hgf ▸ hin)
      exact ⟨hx, hgone, hidle, by simpa [hin.this] using hgf, by simpa [hin.stack] using hgf⟩
  · rcases h.control with hin | ⟨g, hin⟩
    · cases hin.1.symm.trans hst
    · obtain rfl := Option.some.inj (hin.stack.symm.trans hst)
      obtain ⟨fb, hf, _⟩ := hin.exec
      simp [hf]

/-- A fiber is made, switched in, and yields. -/
def untilYield : List RefAction :=
  [.call .getThis, .call (.construct 0), .call (.swapIn 1), .call .yieldToHold]

theorem untilYield_run : ∃ s, Run (Guarded Kept RefStep) (fresh 1024) untilYield s ∧
    s.outside 1 = 1 ∧ s.machine.stack = none ∧ s.machine.tThreadFiber = some 0 ∧
      ∃ fb, s.machine.fibers 1 = some fb :=
  ⟨_, .cons ⟨trivial, _, rfl⟩ (.cons ⟨trivial, _, rfl⟩ (.cons
    ⟨⟨rfl, nofun, by decide, _, rfl, .inl rfl⟩, _, rfl⟩ (.cons ⟨trivial, _, rfl⟩ (.nil _)))),
    rfl, rfl, rfl, _, rfl⟩

theorem destroyed_idle_untilYield : ∃ s, Run (Guarded Kept RefStep) (fresh 1024) untilYield s ∧
    s.uses 1 = s.outside 1 + s.captured 1 + (s.curs (some 1)).length ∧
      ∃ l s', s.step (.drop 1) = .ok (l, s') := by
  obtain ⟨s, hr, hout, hst, ht, fb, hf⟩ := untilYield_run
  have h := destroyed_idle hr
  obtain ⟨l, s', hok, -⟩ := h.2.1 (.drop 1) ⟨by omega, by simp [hst]⟩
  exact ⟨s, hr, (h.1 1 fb hf (by simp [ht])).1, l, s', hok⟩

end Shared

end Sylar.Fibers
