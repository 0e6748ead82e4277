import Sylar.Config.Loading

/-!
# What a listener hears

Any number of variables of one type, which share the counter that gives out the
keys of listeners.  On one thread every operation has one result, so an execution
is a list of operations, and the calls of listeners and the changes of values are
functions of it.

A listener hears the changes of its variable from its registration to its
removal, and nothing else.
-/

namespace Sylar

open Foundation Yaml

/-! ## Notifications of one variable -/

namespace ConfigVar

variable {α : Type} [BEq α] {c c' : ConfigVar α} {ns : List (Notification α)}

/-- The change from one value to another, if there is one. -/
def changeOf (a b : α) : List (α × α) := if a == b then [] else [(a, b)]

/-- All listeners have been told of the change. -/
structure Notifies (c : ConfigVar α) (ns : List (Notification α)) (c' : ConfigVar α) : Prop where
  cbs : c'.cbs = c.cbs
  calls : c'.val = c.val ∧ ns = [] ∨
    (c.val == c'.val) = false ∧ ns = c.cbs.toList.map fun i ↦ ⟨i.1, c.val, c'.val⟩

theorem setValue_notifies [LawfulBEq α] (h : c.Returning) (v : α) :
    c.Notifies (c.setValue v).1 (c.setValue v).2.2 := by
  rw [setValue_returning h]
  by_cases hv : v == c.val
  · rw [if_pos hv]
    exact ⟨rfl, .inl ⟨rfl, rfl⟩⟩
  · rw [if_neg hv]
    refine ⟨rfl, .inr ⟨?_, rfl⟩⟩
    have hne : v ≠ c.val := by simpa using hv
    simpa using hne.symm

theorem fromString_notifies [LawfulBEq α] (h : c.Returning) (cast : LexicalCast α) (val : String) :
    c.Notifies (c.fromString cast val).1 (c.fromString cast val).2.2 := by
  unfold fromString
  split
  · exact ⟨rfl, .inl ⟨rfl, rfl⟩⟩
  · exact setValue_notifies h _

/-- The listener with a key hears the change if it is there. -/
theorem Notifies.told [LawfulBEq α] (h : c.Notifies ns c') (key : Nat) :
    (ns.filter fun n ↦ n.key = key).map (fun n ↦ (n.old_value, n.new_value)) =
      if (c.getListener key).isSome then changeOf c.val c'.val else [] := by
  rcases h.calls with ⟨hval, rfl⟩ | ⟨hval, rfl⟩
  · simp [changeOf, hval]
  · have hfilter := c.cbs.filter_key key
    rw [List.filter_map, List.map_map]
    simp only [Function.comp_def]
    rw [hfilter, changeOf, hval, getListener]
    cases c.cbs.find? key <;> simp

end ConfigVar

/-- The variables of one type. -/
structure Variables (ι α : Type) where
  var : ι → ConfigVar α
  /-- The counter, which is static in `addListener`. -/
  s_fun_id : Nat

namespace Variables

variable {ι α : Type}

/-- The variables as they are constructed, before the first `addListener`. -/
def start (c : ι → ConfigVar α) : Variables ι α := ⟨c, 0⟩

/-- What is called. -/
inductive Op (ι α : Type)
  | addListener (i : ι) (cb : on_change_cb α)
  | delListener (i : ι) (key : Nat)
  | clearListener (i : ι)
  | setValue (i : ι) (v : α)
  | fromString (i : ι) (val : String)

namespace Op

def isRegistration : Op ι α → Bool
  | addListener _ _ => true
  | _ => false

/-- It removes the listener of a variable with a key. -/
def Removes (i : ι) (key : Nat) : Op ι α → Prop
  | delListener j k => j = i ∧ k = key
  | clearListener j => j = i
  | _ => False

end Op

/-- How many of them register a listener. -/
def registrations (ops : List (Op ι α)) : Nat := ops.countP Op.isRegistration

/-- The listeners that they register return. -/
def Returning (ops : List (Op ι α)) : Prop :=
  ∀ i cb, .addListener i cb ∈ ops → ∀ a b, cb a b = .ok ()

variable {op : Op ι α} {ops ops' : List (Op ι α)}

theorem registrations_append :
    registrations (ops ++ ops') = registrations ops + registrations ops' :=
  List.countP_append

theorem registrations_cons :
    registrations (op :: ops) = registrations [op] + registrations ops := by
  rw [← List.singleton_append, registrations_append]

theorem Returning.of_subset (h : Returning ops) (hs : ∀ op ∈ ops', op ∈ ops) : Returning ops' :=
  fun i cb hi ↦ h i cb (hs _ hi)

theorem Returning.cons (h : Returning (op :: ops)) : Returning [op] ∧ Returning ops :=
  ⟨h.of_subset (by simp), h.of_subset (by simp +contextual)⟩

variable [DecidableEq ι]

/-- One variable is another. -/
def put (s : Variables ι α) (i : ι) (c : ConfigVar α) : Variables ι α :=
  { s with var := Function.update s.var i c }

/-- `addListener` on a variable. -/
def addListener (s : Variables ι α) (i : ι) (cb : on_change_cb α) : Nat × Variables ι α :=
  let r := (s.var i).addListener s.s_fun_id cb
  (r.1, { s.put i r.2 with s_fun_id := r.1 })

/-- The keys in use have been given out, and the listeners return. -/
structure Sound (s : Variables ι α) : Prop where
  keys : ∀ i, ∀ x ∈ (s.var i).cbs, x.1 ≤ s.s_fun_id
  returning : ∀ i, (s.var i).Returning

variable {s : Variables ι α} {i : ι} {key : Nat}

theorem Sound.put (h : s.Sound) {c : ConfigVar α}
    (hc : ∀ x ∈ c.cbs, x ∈ (s.var i).cbs) : (s.put i c).Sound := by
  refine ⟨fun j x hx ↦ ?_, fun j x hx ↦ ?_⟩
  · by_cases hj : j = i
    · subst hj
      exact h.keys j x (hc x (by simpa [Variables.put] using hx))
    · exact h.keys j x (by simpa [Variables.put, hj] using hx)
  · by_cases hj : j = i
    · subst hj
      exact h.returning j x (hc x (by simpa [Variables.put] using hx))
    · exact h.returning j x (by simpa [Variables.put, hj] using hx)

/-- The new key is greater than all those in use. -/
theorem Sound.addListener_eq (h : s.Sound) (i : ι) (cb : on_change_cb α)
    (hb : s.s_fun_id + 1 < 2 ^ 64) :
    (s.addListener i cb).1 = s.s_fun_id + 1 ∧
      ((s.addListener i cb).2.var i).cbs.toList =
        (s.var i).cbs.toList ++ [(s.s_fun_id + 1, cb)] ∧
      ∀ j, j ≠ i → (s.addListener i cb).2.var j = s.var j := by
  have hlast := Keyed.assign_last (s := (s.var i).cbs) (a := (s.s_fun_id + 1, cb)) fun x hx ↦
    Nat.lt_succ_of_le (h.keys i x hx)
  refine ⟨?_, ?_, fun j hj ↦ by simp [addListener, Variables.put, hj]⟩
  · rw [addListener, ConfigVar.addListener_eq _ hb]
  · rw [addListener, ConfigVar.addListener_eq _ hb]
    simpa [Variables.put] using hlast

/-- What the listener of a variable with a key hears. -/
def told (i : ι) (key : Nat) (ns : List (ι × Notification α)) : List (α × α) :=
  (ns.filter fun n ↦ n.1 = i ∧ n.2.key = key).map fun n ↦ (n.2.old_value, n.2.new_value)

theorem told_append (ns ns' : List (ι × Notification α)) :
    told i key (ns ++ ns') = told i key ns ++ told i key ns' := by
  simp [told]

/-! ## Executions -/

variable [BEq α] (cast : LexicalCast α)

/-- An operation: the key it returns, the calls of listeners, and what is left. -/
def step (s : Variables ι α) : Op ι α → Option Nat × List (ι × Notification α) × Variables ι α
  | .addListener i cb => (some (s.addListener i cb).1, [], (s.addListener i cb).2)
  | .delListener i key => (none, [], s.put i ((s.var i).delListener key))
  | .clearListener i => (none, [], s.put i (s.var i).clearListener)
  | .setValue i v =>
      let r := (s.var i).setValue v
      (none, r.1.map fun n ↦ (i, n), s.put i r.2.2)
  | .fromString i val =>
      let r := (s.var i).fromString cast val
      (none, r.1.map fun n ↦ (i, n), s.put i r.2.2)

/-- The state after some operations. -/
def after (s : Variables ι α) (ops : List (Op ι α)) : Variables ι α :=
  ops.foldl (fun s op ↦ (s.step cast op).2.2) s

/-- The keys that are returned. -/
def keys (s : Variables ι α) : List (Op ι α) → List Nat
  | [] => []
  | op :: ops => (s.step cast op).1.toList ++ keys (s.step cast op).2.2 ops

/-- The calls of listeners. -/
def calls (s : Variables ι α) : List (Op ι α) → List (ι × Notification α)
  | [] => []
  | op :: ops => (s.step cast op).2.1 ++ calls (s.step cast op).2.2 ops

/-- The changes of a variable's value. -/
def changes (i : ι) (s : Variables ι α) : List (Op ι α) → List (α × α)
  | [] => []
  | op :: ops =>
      ConfigVar.changeOf (s.var i).val ((s.step cast op).2.2.var i).val ++
        changes i (s.step cast op).2.2 ops

/-- Changes one after the other, from a value to a value. -/
def Leads : α → List (α × α) → α → Prop
  | a, [], b => a = b
  | a, c :: cs, b => c.1 = a ∧ c.1 ≠ c.2 ∧ Leads c.2 cs b

/-! ## Lists of operations -/

theorem calls_append : s.calls cast (ops ++ ops') =
    s.calls cast ops ++ (s.after cast ops).calls cast ops' := by
  induction ops generalizing s with
  | nil => rfl
  | cons op ops ih => simp [calls, ih, after]

/-! ## One operation -/

theorem step_keeps_cbs [LawfulBEq α] (h : s.Sound) (hop : op.isRegistration = false) :
    (s.step cast op).2.2.s_fun_id = s.s_fun_id ∧
      ∃ i c, (s.step cast op).2.2 = s.put i c ∧ ∀ x ∈ c.cbs, x ∈ (s.var i).cbs := by
  cases op with
  | addListener i cb => cases hop
  | delListener i key => exact ⟨rfl, i, _, rfl, fun x hx ↦ (List.mem_filter.mp hx).1⟩
  | clearListener i => exact ⟨rfl, i, _, rfl, nofun⟩
  | setValue i v =>
      refine ⟨rfl, i, _, rfl, fun x hx ↦ ?_⟩
      rwa [(ConfigVar.setValue_notifies (h.returning i) v).cbs] at hx
  | fromString i val =>
      refine ⟨rfl, i, _, rfl, fun x hx ↦ ?_⟩
      rwa [(ConfigVar.fromString_notifies (h.returning i) cast val).cbs] at hx

/-- **Step lemma.** -/
theorem Sound.step [LawfulBEq α] (h : s.Sound) (hret : Returning [op])
    (hb : s.s_fun_id + registrations [op] < 2 ^ 64) :
    (s.step cast op).2.2.Sound ∧
      (s.step cast op).2.2.s_fun_id = s.s_fun_id + registrations [op] := by
  cases hop : op.isRegistration with
  | false =>
      obtain ⟨hid, i, c, heq, hc⟩ := step_keeps_cbs cast h hop
      exact ⟨heq ▸ h.put hc, by simpa [registrations, hop] using hid⟩
  | true =>
      cases op with
      | delListener _ _ | clearListener _ | setValue _ _ | fromString _ _ => cases hop
      | addListener i cb =>
          have hb' : s.s_fun_id + 1 < 2 ^ 64 := hb
          obtain ⟨hid, hlist, hne⟩ := h.addListener_eq i cb hb'
          have hid' : (s.addListener i cb).2.s_fun_id = s.s_fun_id + 1 := hid
          have hmem : ∀ j x, x ∈ ((s.addListener i cb).2.var j).cbs →
              x ∈ (s.var j).cbs ∨ x = (s.s_fun_id + 1, cb) := by
            intro j x hx
            by_cases hj : j = i
            · subst hj
              rw [Keyed.mem_def, hlist] at hx
              simpa [Keyed.mem_def] using hx
            · rw [hne j hj] at hx
              exact .inl hx
          refine ⟨⟨fun j x hx ↦ ?_, fun j x hx ↦ ?_⟩, hid'⟩
          · change x.1 ≤ (s.addListener i cb).2.s_fun_id
            rw [hid']
            rcases hmem j x hx with hx | rfl
            · exact Nat.le_succ_of_le (h.keys j x hx)
            · exact Nat.le_refl _
          · rcases hmem j x hx with hx | rfl
            · exact h.returning j x hx
            · exact hret i cb (by simp)

/-- A listener hears the change that an operation makes, if it is registered. -/
theorem Sound.told_step [LawfulBEq α] (h : s.Sound) :
    told i key (s.step cast op).2.1 = if ((s.var i).getListener key).isSome then
      ConfigVar.changeOf (s.var i).val ((s.step cast op).2.2.var i).val else [] := by
  have hquiet : ∀ {c : ConfigVar α} {j : ι}, c.val = (s.var j).val →
      [] = if ((s.var i).getListener key).isSome then
        ConfigVar.changeOf (s.var i).val ((s.put j c).var i).val else [] := by
    intro c j hc
    by_cases hj : i = j
    · subst hj
      simp [Variables.put, hc, ConfigVar.changeOf]
    · simp [Variables.put, hj, ConfigVar.changeOf]
  have hwrite : ∀ {j : ι} {ns : List (Notification α)} {c : ConfigVar α},
      (s.var j).Notifies ns c → told i key (ns.map fun n ↦ (j, n)) =
        if ((s.var i).getListener key).isSome then
          ConfigVar.changeOf (s.var i).val ((s.put j c).var i).val else [] := by
    intro j ns c hn
    by_cases hj : j = i
    · subst hj
      have htold := hn.told key
      simpa [told, List.filter_map, Function.comp_def, Variables.put] using htold
    · simp [told, List.filter_map, Function.comp_def, Variables.put, hj, Ne.symm hj,
        ConfigVar.changeOf]
  cases op with
  | addListener j cb => exact hquiet rfl
  | delListener j k => exact hquiet rfl
  | clearListener j => exact hquiet rfl
  | setValue j v => exact hwrite (ConfigVar.setValue_notifies (h.returning j) v)
  | fromString j val => exact hwrite (ConfigVar.fromString_notifies (h.returning j) cast val)

theorem getListener_removed (hop : op.Removes i key) :
    (s.step cast op).2.1 = [] ∧ ((s.step cast op).2.2.var i).getListener key = none := by
  cases op with
  | addListener _ _ | setValue _ _ | fromString _ _ => exact hop.elim
  | delListener j k =>
      obtain ⟨rfl, rfl⟩ := hop
      exact ⟨rfl, by simp [Variables.step, Variables.put, ConfigVar.getListener,
        ConfigVar.delListener, Keyed.find?_erase]⟩
  | clearListener j =>
      obtain rfl : j = i := hop
      exact ⟨rfl, by simp [Variables.step, Variables.put, ConfigVar.getListener,
        ConfigVar.clearListener]⟩

/-- A listener stays until it is removed, and no other gets its key. -/
theorem Sound.getListener_step [LawfulBEq α] (h : s.Sound) (op : Op ι α) (i : ι) (key : Nat)
    (hb : s.s_fun_id + registrations [op] < 2 ^ 64)
    (hkey : key ≤ s.s_fun_id ∨ s.s_fun_id + registrations [op] < key)
    (hrem : (s.var i).getListener key = none ∨ ¬ op.Removes i key) :
    ((s.step cast op).2.2.var i).getListener key = (s.var i).getListener key := by
  have hput : ∀ {j : ι} {c : ConfigVar α}, (j = i → c.getListener key = (s.var i).getListener key) →
      ((s.put j c).var i).getListener key = (s.var i).getListener key := by
    intro j c hc
    by_cases hj : i = j
    · subst hj
      simpa [Variables.put] using hc rfl
    · simp [Variables.put, hj]
  have hcbs : ∀ {j : ι} {c : ConfigVar α}, c.cbs = (s.var j).cbs →
      (j = i → c.getListener key = (s.var i).getListener key) := by
    rintro j c hc rfl
    rw [ConfigVar.getListener, hc, ConfigVar.getListener]
  by_cases hop : op.Removes i key
  · rw [(getListener_removed cast hop).2, hrem.resolve_right (not_not_intro hop)]
  · cases op with
    | addListener j cb =>
        have hb' : s.s_fun_id + 1 < 2 ^ 64 := hb
        have hkey' : key ≤ s.s_fun_id ∨ s.s_fun_id + 1 < key := hkey
        refine hput ?_
        rintro rfl
        have hne : key ≠ s.s_fun_id + 1 := by omega
        rw [ConfigVar.addListener_eq _ hb']
        simp [ConfigVar.getListener, Keyed.find?_assign, hne]
    | delListener j k =>
        refine hput ?_
        rintro rfl
        have hk : key ≠ k := fun hk ↦ hop ⟨rfl, hk.symm⟩
        simp [ConfigVar.delListener, ConfigVar.getListener, Keyed.find?_erase, hk]
    | clearListener j => exact hput fun hj ↦ absurd hj hop
    | setValue j v => exact hput (hcbs (ConfigVar.setValue_notifies (h.returning j) v).cbs)
    | fromString j val =>
        exact hput (hcbs (ConfigVar.fromString_notifies (h.returning j) cast val).cbs)

/-! ## Runs -/

/-- **Run lemma.** -/
theorem Sound.after [LawfulBEq α] (h : s.Sound) (hret : Returning ops)
    (hb : s.s_fun_id + registrations ops < 2 ^ 64) :
    (s.after cast ops).Sound ∧
      (s.after cast ops).s_fun_id = s.s_fun_id + registrations ops := by
  induction ops generalizing s with
  | nil => exact ⟨h, rfl⟩
  | cons op ops ih =>
      rw [registrations_cons] at hb ⊢
      obtain ⟨hsound, hid⟩ := h.step cast hret.cons.1 (by omega)
      obtain ⟨hsound', hid'⟩ := ih hsound hret.cons.2 (by omega)
      exact ⟨hsound', by rw [← Nat.add_assoc, ← hid]; exact hid'⟩

/-- While a listener is not removed, or is not there, it hears the changes or
nothing. -/
theorem Sound.told_calls [LawfulBEq α] (h : s.Sound) (i : ι) (key : Nat) (hret : Returning ops)
    (hb : s.s_fun_id + registrations ops < 2 ^ 64)
    (hkey : key ≤ s.s_fun_id ∨ s.s_fun_id + registrations ops < key)
    (hrem : (s.var i).getListener key = none ∨ ∀ op ∈ ops, ¬ op.Removes i key) :
    told i key (s.calls cast ops) =
        (if ((s.var i).getListener key).isSome then s.changes cast i ops else []) ∧
      ((s.after cast ops).var i).getListener key = (s.var i).getListener key := by
  induction ops generalizing s with
  | nil => exact ⟨by simp [told, calls, changes], rfl⟩
  | cons op ops ih =>
      rw [registrations_cons] at hb hkey
      have hstays := h.getListener_step cast op i key (by omega) (by omega)
        (hrem.imp_right fun hr ↦ hr op (by simp))
      obtain ⟨hsound, hid⟩ := h.step cast hret.cons.1 (by omega)
      obtain ⟨htold, hafter⟩ := ih hsound hret.cons.2 (by omega) (by omega)
        (hrem.imp (hstays.trans ·) fun hr o ho ↦ hr o (by simp [ho]))
      refine ⟨?_, hafter.trans hstays⟩
      rw [calls, told_append, h.told_step, htold, hstays, changes]
      split <;> simp

theorem changes_lead [LawfulBEq α] :
    Leads (s.var i).val (s.changes cast i ops) ((s.after cast ops).var i).val := by
  induction ops generalizing s with
  | nil => exact rfl
  | cons op ops ih =>
      rw [changes, ConfigVar.changeOf]
      by_cases hv : (s.var i).val == ((s.step cast op).2.2.var i).val
      · rw [if_pos hv, List.nil_append, eq_of_beq hv]
        exact ih
      · rw [if_neg hv]
        exact ⟨rfl, fun heq ↦ hv (by simpa using heq), ih⟩

theorem Sound.keys_sorted [LawfulBEq α] (h : s.Sound) (hret : Returning ops)
    (hb : s.s_fun_id + registrations ops < 2 ^ 64) :
    (s.keys cast ops).Pairwise (· < ·) ∧ ∀ k ∈ s.keys cast ops, s.s_fun_id < k := by
  induction ops generalizing s with
  | nil => exact ⟨.nil, nofun⟩
  | cons op ops ih =>
      rw [registrations_cons] at hb
      obtain ⟨hsound, hid⟩ := h.step cast hret.cons.1 (by omega)
      obtain ⟨hsorted, hgt⟩ := ih hsound hret.cons.2 (by omega)
      cases op with
      | addListener i cb =>
          have hb' : s.s_fun_id + 1 < 2 ^ 64 := by
            have hone : registrations [Op.addListener i cb] = 1 := rfl
            omega
          have hkey : (s.addListener i cb).1 = s.s_fun_id + 1 := (h.addListener_eq i cb hb').1
          have hcounter : (s.step cast (.addListener i cb)).2.2.s_fun_id = s.s_fun_id + 1 := hkey
          rw [hcounter] at hgt
          refine ⟨.cons (fun k hk ↦ ?_) hsorted, fun k hk ↦ ?_⟩
          · rw [hkey]
            exact hgt k hk
          · rcases List.mem_cons.mp hk with rfl | hk
            · rw [hkey]
              exact Nat.lt_succ_self _
            · exact Nat.lt_of_succ_lt (hgt k hk)
      | delListener _ _ | clearListener _ | setValue _ _ | fromString _ _ =>
          exact ⟨hsorted, fun k hk ↦ Nat.lt_of_le_of_lt (by rw [hid]; exact Nat.le_add_right _ _)
            (hgt k hk)⟩

/-- It has no effect: the value is there already, or the text is not converted. -/
def Op.Idle (cast : LexicalCast α) (s : Variables ι α) : Op ι α → Prop
  | setValue i v => v = (s.var i).val
  | fromString _ val => ∃ e, cast.fromString val = .error e
  | _ => False

theorem step_idle [LawfulBEq α] (hop : op.Idle cast s) :
    (s.step cast op).2.1 = [] ∧ (s.step cast op).2.2 = s := by
  cases op with
  | addListener _ _ | delListener _ _ | clearListener _ => exact hop.elim
  | setValue i v =>
      obtain rfl : v = (s.var i).val := hop
      simp [Variables.step, ConfigVar.setValue, Variables.put]
  | fromString i val =>
      obtain ⟨e, he⟩ := hop
      simp [Variables.step, ConfigVar.fromString, he, Variables.put]

/-- **A listener hears exactly the changes made while it is registered.**  Keys
are distinct, and a registration adds its listener to those that are there.  The
changes of a value form a chain, each to another value; and what the listener of
a registration hears in the whole execution are those between the registration
and the first operation that removes it. -/
theorem listeners_exact [LawfulBEq α] (c : ι → ConfigVar α) (hc : ∀ i, (c i).cbs = .empty)
    (cast : LexicalCast α) (ops : List (Op ι α)) (hret : Returning ops)
    (hcount : registrations ops < 2 ^ 64) :
    ((start c).keys cast ops).Nodup ∧
      (∀ i, Leads (c i).val ((start c).changes cast i ops) (((start c).after cast ops).var i).val) ∧
      (∀ pre op post, ops = pre ++ op :: post → op.Idle cast ((start c).after cast pre) →
        (((start c).after cast pre).step cast op).2.1 = [] ∧
          (((start c).after cast pre).step cast op).2.2 = (start c).after cast pre) ∧
      ∀ pre i cb post, ops = pre ++ .addListener i cb :: post →
        let s := (start c).after cast pre
        let r := s.addListener i cb
        (r.2.var i).cbs.toList = (s.var i).cbs.toList ++ [(r.1, cb)] ∧
        ∀ mid rest, post = mid ++ rest → (∀ op ∈ mid, ¬ op.Removes i r.1) →
          (∀ op ∈ rest.head?, op.Removes i r.1) →
          (∀ mid', mid' <+: mid → ((r.2.after cast mid').var i).getListener r.1 = some cb) ∧
            told i r.1 ((start c).calls cast ops) = r.2.changes cast i mid := by
  have hstart : (start c).Sound :=
    ⟨fun i x hx ↦ by simp [start, hc, Keyed.mem_def] at hx,
      fun i x hx ↦ by simp [start, hc, Keyed.mem_def] at hx⟩
  have hzero : (start c).s_fun_id = 0 := rfl
  refine ⟨?_, fun i ↦ changes_lead cast (s := start c),
    fun pre op post _ hop ↦ step_idle cast hop, ?_⟩
  · exact (hstart.keys_sorted cast hret (by omega)).1.imp fun h ↦ Nat.ne_of_lt h
  · rintro pre i cb post rfl s r
    rw [registrations_append, registrations_cons] at hcount
    have hone : registrations [Op.addListener i cb] = 1 := rfl
    have hpre : Returning pre := hret.of_subset fun op hop ↦ List.mem_append_left _ hop
    have hpost : Returning post := hret.of_subset (by simp +contextual)
    obtain ⟨hsound, hid⟩ := hstart.after cast hpre (by omega)
    obtain ⟨hkey, hlist, -⟩ := hsound.addListener_eq i cb (by omega)
    have hkey' : r.1 = s.s_fun_id + 1 := hkey
    have hid' : s.s_fun_id = 0 + registrations pre := hid
    have hadd : Returning [.addListener i cb] := hret.of_subset (by simp)
    have hr : r.2.Sound := (hsound.step cast hadd (by omega)).1
    have hnew : (r.2.var i).getListener r.1 = some cb := by
      simp [r, addListener, Variables.put, ConfigVar.addListener, ConfigVar.getListener,
        Keyed.find?_assign]
    refine ⟨hkey' ▸ hlist, ?_⟩
    rintro mid rest rfl hmid hrest
    rw [registrations_append] at hcount
    have hrid : r.2.s_fun_id = r.1 := rfl
    -- before the registration the key is not in use
    have hbefore := (hstart.told_calls cast i r.1 hpre (by omega) (.inr (by omega))
      (.inl (by simp [start, ConfigVar.getListener, hc]))).1
    have hduring : ∀ mid', mid' <+: mid →
        told i r.1 (r.2.calls cast mid') = r.2.changes cast i mid' ∧
          ((r.2.after cast mid').var i).getListener r.1 = some cb := by
      rintro mid' ⟨suffix, rfl⟩
      rw [registrations_append] at hcount
      have hmid' : Returning mid' := hpost.of_subset (by simp +contextual)
      have h := hr.told_calls cast i r.1 hmid' (by omega) (.inl (Nat.le_refl _))
        (.inr fun op hop ↦ hmid op (List.mem_append_left _ hop))
      simpa [hnew] using h
    refine ⟨fun mid' hm ↦ (hduring mid' hm).2, ?_⟩
    -- after the removal the key is not given out again
    have hafter : told i r.1 ((r.2.after cast mid).calls cast rest) = [] := by
      cases rest with
      | nil => rfl
      | cons op rest =>
          have hmid' : Returning mid := hpost.of_subset fun o ho ↦ List.mem_append_left _ ho
          have hrest' : Returning (op :: rest) :=
            hpost.of_subset fun o ho ↦ List.mem_append_right _ ho
          have hsplit : registrations (op :: rest) = registrations [op] + registrations rest :=
            registrations_cons
          obtain ⟨hsound₁, hid₁⟩ := hr.after cast hmid' (by omega)
          obtain ⟨hquiet, hgone⟩ := getListener_removed cast (s := r.2.after cast mid)
            (hrest op (by simp))
          obtain ⟨hsound₂, hid₂⟩ := hsound₁.step cast hrest'.cons.1 (by omega)
          have h := (hsound₂.told_calls cast i r.1 hrest'.cons.2 (by omega) (.inl (by omega))
            (.inl hgone)).1
          rw [calls, hquiet, List.nil_append, h, hgone]
          rfl
    have hcalls : s.calls cast (.addListener i cb :: (mid ++ rest)) =
        r.2.calls cast mid ++ (r.2.after cast mid).calls cast rest := by
      rw [calls, calls_append]
      rfl
    rw [calls_append, hcalls, told_append, told_append, hbefore,
      (hduring mid (List.prefix_refl _)).1, hafter]
    simp [start, ConfigVar.getListener, hc]

/-- One variable of type `int`. -/
def onePort : Unit → ConfigVar Int := fun _ ↦ .new "system.port" 8080 "system port"

/-- Conversions that never succeed. -/
def noCast : LexicalCast Int :=
  ⟨fun _ ↦ .error .bad_lexical_cast, fun _ ↦ .error .bad_lexical_cast⟩

/-- A listener that does nothing. -/
def silent : on_change_cb Int := fun _ _ ↦ .ok ()

/-- Two changes, between which the listener is removed. -/
theorem listeners_exact_onePort :
    told () 1 ((start onePort).calls noCast
      [.addListener () silent, .setValue () 9090, .delListener () 1, .setValue () 80]) =
      [(8080, 9090)] := by
  have h := listeners_exact onePort (fun _ ↦ rfl) noCast
    [.addListener () silent, .setValue () 9090, .delListener () 1, .setValue () 80]
    (fun i cb hcb ↦ by
      obtain rfl : cb = silent := by simpa using hcb
      exact fun _ _ ↦ rfl) (by decide)
  exact ((h.2.2.2 [] () silent [.setValue () 9090, .delListener () 1, .setValue () 80] rfl).2
    [.setValue () 9090] [.delListener () 1, .setValue () 80] rfl (by simp [Op.Removes])
    (fun op hop ↦ Option.some.inj hop ▸ ⟨rfl, rfl⟩)).2

end Variables

end Sylar
