import Sylar.Config.Containers

/-!
# How setting a value can end

From the three ways in which `setValue` ends follow what a throwing listener
leaves behind, what the result of `fromString` says, and what becomes of a
container that is given a text of the wrong shape.
-/

namespace Sylar

open Foundation Yaml

namespace ConfigVar

variable {α : Type} [BEq α] {c : ConfigVar α}

/-! ## All or nothing -/

/-- Every listener has been called and the value is stored, or none has and the
old one is kept. -/
def AllOrNothing (c : ConfigVar α) (v : α) (ns : List (Notification α)) (c' : ConfigVar α) :
    Prop :=
  ns = callsOf c.val v c.cbs.toList ∧ c'.val = v ∨ ns = [] ∧ c'.val = c.val

/-- The value compares equal to the stored one, or no listener throws.  A value that
does not even compare equal to itself may also be refused by the last listener, if it
is the one that is stored. -/
def Unanimous (c : ConfigVar α) (v : α) : Prop :=
  (v == c.val) = true ∨ (∀ i ∈ c.cbs, i.2 c.val v = .ok ()) ∨
    v = c.val ∧ ∃ pre i, c.cbs.toList = pre ++ [i] ∧ ∀ j ∈ pre, j.2 c.val v = .ok ()

/-- `fromString` is all or nothing.  Where the text does not convert there is
nothing to be stored. -/
def FromStringAllOrNothing (cast : LexicalCast α) (c : ConfigVar α) (val : String) : Prop :=
  let r := c.fromString cast val
  match cast.fromString val with
  | .ok v => AllOrNothing c v r.1 r.2.2
  | .error _ => r.1 = [] ∧ r.2.2.val = c.val

theorem setValue_allOrNothing (c : ConfigVar α) (v : α) :
    AllOrNothing c v (c.setValue v).1 (c.setValue v).2.2 ↔ c.Unanimous v := by
  rcases setValue_cases c v with
    ⟨heq, hr⟩ | ⟨_, hall, hr⟩ | ⟨hne, pre, i, post, e, hcbs, hpre, hi, hr⟩ <;> rw [hr]
  · exact iff_of_true (.inr ⟨rfl, rfl⟩) (.inl heq)
  · exact iff_of_true (.inl ⟨rfl, rfl⟩) (.inr (.inl hall))
  · constructor
    · rintro (⟨hcalls, hval⟩ | ⟨hcalls, _⟩)
      · -- all of them have been called, so that the one that throws is the last
        have hpost : post = [] := by
          have hlen := congrArg List.length hcalls
          rw [hcbs] at hlen
          simpa [callsOf] using hlen
        exact .inr (.inr ⟨hval.symm, pre, i, by rw [hcbs, hpost], hpre⟩)
      · simp [callsOf] at hcalls
    · rintro (heq | hall | ⟨hval, pre', i', hcbs', hpre'⟩)
      · rw [heq] at hne
        cases hne
      · have hthrows := hall i (by rw [Keyed.mem_def, hcbs]; simp)
        rw [hi] at hthrows
        cases hthrows
      · rcases List.eq_nil_or_concat post with rfl | ⟨post, j, rfl⟩
        · exact .inl ⟨by rw [hcbs], hval.symm⟩
        · -- the one that throws is among those before the last
          have hsplit : (pre ++ i :: post) ++ [j] = pre' ++ [i'] := by
            rw [← hcbs', hcbs, List.concat_eq_append, List.append_assoc, List.cons_append]
          have hpre'' := List.append_inj_left' hsplit rfl
          have hthrows := hpre' i (by rw [← hpre'']; simp)
          rw [hi] at hthrows
          cases hthrows

/-- **Listeners that throw.**  A call is all or nothing exactly if there is nothing
to change or no listener throws. -/
theorem all_or_nothing_iff (c : ConfigVar α) :
    (∀ v, AllOrNothing c v (c.setValue v).1 (c.setValue v).2.2 ↔ c.Unanimous v) ∧
    ∀ (cast : LexicalCast α) (val : String), FromStringAllOrNothing cast c val ↔
      ∀ v, cast.fromString val = .ok v → c.Unanimous v := by
  refine ⟨setValue_allOrNothing c, fun cast val ↦ ?_⟩
  rw [FromStringAllOrNothing]
  cases hv : cast.fromString val with
  | error e => simp [fromString_error hv]
  | ok v => simpa [fromString_ok hv] using setValue_allOrNothing c v

/-- A variable with two listeners, of which the second throws. -/
def divided : ConfigVar Nat :=
  let c := (ConfigVar.new "system.port" 8080 "").addListener 0 fun _ _ ↦ .ok ()
  (c.2.addListener c.1 fun _ _ ↦ .error (.thrown "refused")).2

/-- The first listener has been told of a value that is never stored. -/
theorem not_all_or_nothing :
    ¬ AllOrNothing divided 80 (divided.setValue 80).1 (divided.setValue 80).2.2 := by
  rintro (⟨_, hval⟩ | ⟨hcalls, _⟩)
  · revert hval
    decide
  · revert hcalls
    decide

/-! ## The result -/

/-- The text converts, and the value is there as the result of this call. -/
def Applied (cast : LexicalCast α) (c : ConfigVar α) (val : String) : Prop :=
  let c' := (c.fromString cast val).2.2
  ∃ v, cast.fromString val = .ok v ∧ (c.setValue v).2.1 = .ok () ∧
    (c'.val = v ∨ (v == c'.val) = true)

/-- The value has been left as it was because the conversion or a listener
failed. -/
def Failed (cast : LexicalCast α) (c : ConfigVar α) (val : String) : Prop :=
  (c.fromString cast val).2.2.val = c.val ∧
    ((∃ e, cast.fromString val = .error e) ∨
      ∃ v e, cast.fromString val = .ok v ∧ (c.setValue v).2.1 = .error e)

/-- The result of `fromString` says what has happened. -/
def Truthful (cast : LexicalCast α) (c : ConfigVar α) (val : String) : Prop :=
  ((c.fromString cast val).2.1 = true ↔ Applied cast c val) ∧
    ((c.fromString cast val).2.1 = false ↔ Failed cast c val)

/-- The text does not convert, or it gives another value and a listener throws. -/
def Refused (cast : LexicalCast α) (c : ConfigVar α) (val : String) : Prop :=
  ∀ v, cast.fromString val = .ok v → (v == c.val) = false ∧ ∃ i ∈ c.cbs, ∃ e, i.2 c.val v = .error e

theorem fromString_false (cast : LexicalCast α) (c : ConfigVar α) (val : String) :
    (c.fromString cast val).2.1 = false := by
  rw [fromString]
  split <;> rfl

theorem applied_of_not_refused {cast : LexicalCast α} {val : String}
    (h : ¬ Refused cast c val) : Applied cast c val := by
  rw [Refused] at h
  push Not at h
  obtain ⟨v, hv, hnone⟩ := h
  refine ⟨v, hv, ?_⟩
  rw [fromString_ok hv]
  rcases setValue_cases c v with
    ⟨heq, hr⟩ | ⟨_, _, hr⟩ | ⟨hne, pre, i, post, e, hcbs, _, hi, hr⟩ <;> rw [hr]
  · exact ⟨rfl, .inr heq⟩
  · exact ⟨rfl, .inl rfl⟩
  · exact absurd hi (hnone hne i (by rw [Keyed.mem_def, hcbs]; simp) e)

theorem failed_of_refused {cast : LexicalCast α} {val : String} (h : Refused cast c val) :
    Failed cast c val ∧ ¬ Applied cast c val := by
  cases hv : cast.fromString val with
  | error e =>
      refine ⟨⟨by rw [fromString_error hv], .inl ⟨e, hv⟩⟩, ?_⟩
      rintro ⟨v, hv', _⟩
      cases hv.symm.trans hv'
  | ok v =>
      obtain ⟨hne, i, hi, e, hthrows⟩ := h v hv
      rcases setValue_cases c v with
        ⟨heq, _⟩ | ⟨_, hall, _⟩ | ⟨_, _, _, _, e', _, _, _, hr⟩
      · rw [heq] at hne
        cases hne
      · rw [hall i hi] at hthrows
        cases hthrows
      · refine ⟨⟨by rw [fromString_ok hv, hr], .inr ⟨v, e', hv, by rw [hr]⟩⟩, ?_⟩
        rintro ⟨v', hv', hok, _⟩
        cases hv.symm.trans hv'
        rw [hr] at hok
        cases hok

/-- **The result of `fromString`** is always `false`, which is right exactly if the
text is refused. -/
theorem truthful_iff (cast : LexicalCast α) (c : ConfigVar α) (val : String) :
    Truthful cast c val ↔ Refused cast c val := by
  rw [Truthful, fromString_false]
  constructor
  · rintro ⟨htrue, _⟩
    by_contra h
    exact Bool.false_ne_true (htrue.mpr (applied_of_not_refused h))
  · intro h
    obtain ⟨hfailed, hnot⟩ := failed_of_refused h
    exact ⟨iff_of_false Bool.false_ne_true hnot, iff_of_true rfl hfailed⟩

/-- A text that is stored is reported like one that is not. -/
theorem not_truthful :
    ¬ Truthful LexicalCast.flag (ConfigVar.new "system.flag" false "") "1" := by
  rintro ⟨htrue, _⟩
  have h := htrue.mpr ⟨true, by decide, by decide, .inl (by decide)⟩
  revert h
  decide

/-! ## Texts of the wrong shape -/

/-- The text changes nothing, and no listener hears of it. -/
def Rejects (cast : LexicalCast α) (text : String) (c : ConfigVar α) : Prop :=
  (c.fromString cast text).1 = [] ∧ (c.fromString cast text).2.2.val = c.val

/-- A text that is read as a value which only equals itself is rejected exactly if
this is the value already. -/
theorem rejects_iff {cast : LexicalCast α} {text : String} {v : α}
    (hread : cast.fromString text = .ok v) (hv : ∀ w, (v == w) = true ↔ w = v)
    (c : ConfigVar α) : Rejects cast text c ↔ c.val = v := by
  rw [Rejects, fromString_ok hread]
  rcases setValue_cases c v with
    ⟨heq, hr⟩ | ⟨hne, _, hr⟩ | ⟨hne, pre, i, post, e, _, _, _, hr⟩ <;> rw [hr]
  · exact iff_of_true ⟨rfl, rfl⟩ ((hv _).mp heq)
  · constructor
    · exact fun h ↦ h.2.symm
    · intro hval
      rw [(hv _).mpr hval] at hne
      cases hne
  · constructor
    · intro h
      simp [callsOf] at h
    · intro hval
      rw [(hv _).mpr hval] at hne
      cases hne

end ConfigVar

namespace LexicalCast

variable {α σ : Type} {y : YamlCpp} {text s : String}

/-- A loop over a node without elements runs zero times. -/
theorem fromSequence_empty {n : Node} (h : y.load text = .ok n) (hn : n.size = 0)
    (cast : LexicalCast α) (add : σ → α → σ) (m_set : σ) :
    fromSequence y cast add m_set text = .ok m_set := by
  rw [fromSequence, h, Except.ok_bind, hn]
  rfl

theorem fromPairs_empty {n : Node} (h : y.load text = .ok n) (hn : n.size = 0)
    (cast : LexicalCast α) (add : σ → String × α → σ) (m_map : σ) :
    fromPairs y cast add m_map text = .ok m_map := by
  rw [fromPairs, h, Except.ok_bind]
  cases n with
  | null => rfl
  | scalar s => rfl
  | sequence ns => rw [List.eq_nil_of_length_eq_zero hn]
  | map ps =>
      rw [List.eq_nil_of_length_eq_zero hn]
      rfl

theorem nil_beq_iff [BEq α] (l : List α) : (([] : List α) == l) = true ↔ l = [] := by
  cases l with
  | nil => exact iff_of_true rfl rfl
  | cons a l => exact iff_of_false Bool.false_ne_true (List.cons_ne_nil a l)

theorem keyed_empty_beq_iff {κ : Type} [LinearOrder κ] {key : α → κ} [BEq α] (s : Keyed key) :
    ((Keyed.empty : Keyed key) == s) = true ↔ s = .empty :=
  (nil_beq_iff s.toList).trans ⟨fun h ↦ Keyed.ext h, fun h ↦ by rw [h]; rfl⟩

theorem unordered_empty_beq_iff {c : Comparison α} [BEq α] (s : Unordered c) :
    ((Unordered.empty : Unordered c) == s) = true ↔ s = .empty := by
  obtain ⟨l, hl⟩ := s
  cases l with
  | nil => exact iff_of_true rfl rfl
  | cons a l =>
      refine iff_of_false Bool.false_ne_true fun h ↦ ?_
      exact List.cons_ne_nil a l (congrArg Unordered.toList h)

/-- **A scalar for a container** is read as the container without elements, and
rejected exactly if the variable holds that already. -/
theorem scalar_rejected_iff (h : y.load text = .ok (.scalar s)) [BEq α] (cast : LexicalCast α) :
    (∀ c, ConfigVar.Rejects (vector y cast) text c ↔ c.val = []) ∧
    (∀ c, ConfigVar.Rejects (list y cast) text c ↔ c.val = []) ∧
    (∀ {κ : Type} [LinearOrder κ] (less : Less α κ) (c : ConfigVar (Keyed less.key)),
      c.Rejects (set y cast less) text ↔ c.val = .empty) ∧
    (∀ [PartialEquivBEq α] (o : Layout α) (c : ConfigVar (Unordered (.beq α))),
      c.Rejects (unordered_set y cast o) text ↔ c.val = .empty) ∧
    (∀ c : ConfigVar (Keyed (Prod.fst : String × α → String)),
      c.Rejects (map y cast) text ↔ c.val = .empty) ∧
    ∀ (o : Layout (String × α)) (c : ConfigVar (Unordered (.byKey String α))),
      c.Rejects (unordered_map y cast o) text ↔ c.val = .empty :=
  ⟨ConfigVar.rejects_iff (fromSequence_empty h rfl cast _ _) nil_beq_iff,
    ConfigVar.rejects_iff (fromSequence_empty h rfl cast _ _) nil_beq_iff,
    fun _ ↦ ConfigVar.rejects_iff (fromSequence_empty h rfl cast _ _) keyed_empty_beq_iff,
    fun _ ↦ ConfigVar.rejects_iff (fromSequence_empty h rfl cast _ _) unordered_empty_beq_iff,
    ConfigVar.rejects_iff (fromPairs_empty h rfl cast _ _) keyed_empty_beq_iff,
    fun _ ↦ ConfigVar.rejects_iff (fromPairs_empty h rfl cast _ _) unordered_empty_beq_iff⟩

theorem load_flag : (YamlCpp.showing flags).load "1" = .ok (.scalar "1") := by
  simp [YamlCpp.showing, flags]

theorem scalar_rejected_iff_flags :
    (ConfigVar.new "system.flags" [] "").Rejects (list (YamlCpp.showing flags) flag) "1" :=
  ((scalar_rejected_iff load_flag flag).2.1 _).mpr rfl

/-- One flag where a list of flags is expected leaves no flags. -/
theorem scalar_not_rejected :
    ¬ (ConfigVar.new "system.flags" [true, false] "").Rejects
      (list (YamlCpp.showing flags) flag) "1" := by
  intro h
  have hread := fromSequence_empty load_flag rfl flag (fun m_set a ↦ m_set ++ [a]) []
  have hval := (ConfigVar.rejects_iff hread nil_beq_iff _).mp h
  revert hval
  decide

end LexicalCast

end Sylar
