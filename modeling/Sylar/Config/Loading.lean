import Sylar.Config.Binding
import Mathlib.Data.List.Infix
import Mathlib.Data.List.Nodup

/-!
# What a document does to each variable

`LoadFromYaml` lists the members of a document and sends each to the variable
bound to its key.  For one variable this is a loop over the nodes at its own
path, whatever else the document and the registry contain.

The paths of a document are described without the traversal: `entries` lists its
nodes with the keys that lead to them, and a node is reached when all that is
accumulated on the way to it is a valid name.
-/

namespace Sylar

open Foundation Yaml

/-! ## The nodes of a document -/

namespace Yaml.Node

mutual

/-- The nodes of a document in preorder, with the texts of the keys that lead to
them. -/
def entries (ks : List String) : Node → List (List String × Node)
  | .map ps => (ks, .map ps) :: entries.pairs ks ps
  | .null => [(ks, .null)]
  | .scalar s => [(ks, .scalar s)]
  | .sequence ns => [(ks, .sequence ns)]

def entries.pairs (ks : List String) : List (Node × Node) → List (List String × Node)
  | [] => []
  | it :: ps => entries.pair ks it ++ entries.pairs ks ps

def entries.pair (ks : List String) : Node × Node → List (List String × Node)
  | (k, v) => entries (ks ++ [k.Scalar]) v

end

end Yaml.Node

open Yaml.Node

/-- The dotted path of some keys.  While it is empty, no dot is added. -/
def dotted (ks : List String) : String :=
  ks.foldl (fun pre k ↦ if pre = "" then k else pre ++ "." ++ k) ""

/-- All that is accumulated along the keys is a valid name. -/
def Visible (ks : List String) : Prop := ∀ pre, pre <+: ks → ValidName (dotted pre)

instance (ks : List String) : Decidable (Visible ks) :=
  decidable_of_iff (∀ pre ∈ ks.inits, ValidName (dotted pre)) (by simp [Visible, List.mem_inits])

/-- The nodes at a dotted path, in preorder. -/
def Yaml.Node.reached (root : Node) (k : String) : List Node :=
  ((root.entries []).filter fun i ↦ Visible i.1 ∧ dotted i.1 = k).map Prod.snd

/-- Each dotted path leads to one node at most. -/
def Yaml.Node.Once (root : Node) : Prop := ∀ k, k ≠ "" → (root.reached k).length ≤ 1

/-- It is so where the dotted paths of all nodes are different. -/
theorem once_of_nodup {root : Node} (h : ((root.entries []).map fun i ↦ dotted i.1).Nodup) :
    root.Once := by
  intro k _
  have hcount : ((root.entries []).map fun i ↦ dotted i.1).count k ≤ 1 :=
    List.nodup_iff_count_le_one.mp h k
  rw [List.count, List.countP_map] at hcount
  rw [Yaml.Node.reached, List.length_map, ← List.countP_eq_length_filter]
  refine le_trans (List.countP_mono_left fun i _ hi ↦ ?_) hcount
  simpa using (of_decide_eq_true hi).2

/-- The visible ones of some nodes, under their dotted paths. -/
def shown (l : List (List String × Node)) : List (String × Node) :=
  (l.filter fun i ↦ Visible i.1).map fun i ↦ (dotted i.1, i.2)

section Paths

variable {ks : List String} {k : String} {n : Node} {l l' : List (List String × Node)}

theorem dotted_concat :
    dotted (ks ++ [k]) = if dotted ks = "" then k else dotted ks ++ "." ++ k := by
  rw [dotted, List.foldl_append]
  rfl

theorem Visible.valid (h : Visible ks) : ValidName (dotted ks) := h ks (List.prefix_refl ks)

/-- A path is visible as soon as it is itself valid and what leads to it is. -/
theorem visible_concat : Visible (ks ++ [k]) ↔ Visible ks ∧ ValidName (dotted (ks ++ [k])) := by
  constructor
  · exact fun h ↦ ⟨fun pre hp ↦ h pre (hp.trans (List.prefix_append _ _)), h.valid⟩
  · rintro ⟨h, hk⟩ pre hp
    rcases List.prefix_concat_iff.mp hp with rfl | hp
    · exact hk
    · exact h pre hp

@[simp] theorem shown_nil : shown [] = [] := rfl

@[simp] theorem shown_append : shown (l ++ l') = shown l ++ shown l' := by
  simp [shown]

theorem shown_cons_of_visible {i : List String × Node} (h : Visible i.1) :
    shown (i :: l) = (dotted i.1, i.2) :: shown l := by
  simp [shown, h]

theorem shown_eq_nil (h : ∀ i ∈ l, ¬ Visible i.1) : shown l = [] := by
  simpa [shown] using fun ks n hi ↦ h (ks, n) hi

mutual

/-- The keys that lead to a node go on those to what it is below of. -/
theorem prefix_of_mem_entries : ∀ (n : Node) (ks : List String), ∀ i ∈ n.entries ks, ks <+: i.1
  | .map ps, ks, i, hi => by
      rcases List.mem_cons.mp hi with rfl | hi
      · exact List.prefix_refl ks
      · exact prefix_of_mem_pairs ps ks i hi
  | .null, ks, i, hi => by
      rw [List.mem_singleton.mp hi]
  | .scalar _, ks, i, hi => by
      rw [List.mem_singleton.mp hi]
  | .sequence _, ks, i, hi => by
      rw [List.mem_singleton.mp hi]

theorem prefix_of_mem_pairs : ∀ (ps : List (Node × Node)) (ks : List String),
    ∀ i ∈ entries.pairs ks ps, ks <+: i.1
  | [], _, _, hi => nomatch hi
  | it :: ps, ks, i, hi => by
      rcases List.mem_append.mp hi with hi | hi
      · exact prefix_of_mem_pair it ks i hi
      · exact prefix_of_mem_pairs ps ks i hi

theorem prefix_of_mem_pair : ∀ (it : Node × Node) (ks : List String),
    ∀ i ∈ entries.pair ks it, ks <+: i.1
  | (k, v), ks, i, hi =>
      (List.prefix_append ks [k.Scalar]).trans (prefix_of_mem_entries v (ks ++ [k.Scalar]) i hi)

end

/-- What is below a path that is not visible is not visible. -/
theorem shown_entries_hidden (h : ¬ Visible ks) : shown (n.entries ks) = [] :=
  shown_eq_nil fun i hi hv ↦ h fun pre hp ↦ hv pre (hp.trans (prefix_of_mem_entries n ks i hi))

theorem ListAllMember_hidden (n : Node) {pre : String} (h : ¬ ValidName pre) :
    ListAllMember pre n = [] := by
  cases n <;> rw [ListAllMember, if_neg h]

mutual

/-- The traversal lists the visible nodes. -/
theorem ListAllMember_visible : ∀ (n : Node) (ks : List String), Visible ks →
    ListAllMember (dotted ks) n = shown (n.entries ks)
  | .map ps, ks, h => by
      rw [ListAllMember, if_pos h.valid, entries, shown_cons_of_visible h,
        ListAllMember_pairs ps ks h]
  | .null, ks, h => by
      rw [ListAllMember, if_pos h.valid, entries, shown_cons_of_visible h, shown_nil]
  | .scalar _, ks, h => by
      rw [ListAllMember, if_pos h.valid, entries, shown_cons_of_visible h, shown_nil]
  | .sequence _, ks, h => by
      rw [ListAllMember, if_pos h.valid, entries, shown_cons_of_visible h, shown_nil]

theorem ListAllMember_pairs : ∀ (ps : List (Node × Node)) (ks : List String), Visible ks →
    ListAllMember.pairs (dotted ks) ps = shown (entries.pairs ks ps)
  | [], _, _ => rfl
  | it :: ps, ks, h => by
      rw [ListAllMember.pairs, entries.pairs, shown_append, ListAllMember_pair it ks h,
        ListAllMember_pairs ps ks h]

theorem ListAllMember_pair : ∀ (it : Node × Node) (ks : List String), Visible ks →
    ListAllMember.pair (dotted ks) it = shown (entries.pair ks it)
  | (k, v), ks, h => by
      rw [ListAllMember.pair, entries.pair, ← dotted_concat]
      by_cases hk : ValidName (dotted (ks ++ [k.Scalar]))
      · exact ListAllMember_visible v _ (visible_concat.mpr ⟨h, hk⟩)
      · rw [ListAllMember_hidden v hk, shown_entries_hidden fun hv ↦ hk hv.valid]

end

end Paths

/-! ## One variable -/

namespace ConfigVar

variable {α : Type} {cast : LexicalCast α} {c : ConfigVar α} {texts : List String} {val : String}

/-- Its listeners return. -/
def Returning (c : ConfigVar α) : Prop := ∀ i ∈ c.cbs, ∀ a b, i.2 a b = .ok ()

/-- What the last text gives that can be converted. -/
def lastConverted (cast : LexicalCast α) (texts : List String) : Option α :=
  (texts.filterMap fun val ↦ (cast.fromString val).toOption).getLast?

variable [BEq α]

/-- `fromString` with one text after the other. -/
def reload (cast : LexicalCast α) (c : ConfigVar α) (texts : List String) :
    List (Notification α) × ConfigVar α :=
  texts.foldl (fun s val ↦
    let r := s.2.fromString cast val
    (s.1 ++ r.1, r.2.2)) ([], c)

theorem reload_concat : c.reload cast (texts ++ [val]) =
    ((c.reload cast texts).1 ++ ((c.reload cast texts).2.fromString cast val).1,
      ((c.reload cast texts).2.fromString cast val).2.2) := by
  simp [reload]

/-- A value that differs is stored, and every listener is told. -/
theorem setValue_returning (h : c.Returning) (v : α) : c.setValue v =
    if v == c.val then ([], .ok (), c)
    else (c.cbs.toList.map fun i ↦ ⟨i.1, c.val, v⟩, .ok (), { c with val := v }) := by
  rcases setValue_cases c v with ⟨heq, hr⟩ | ⟨hne, _, hr⟩ | ⟨_, pre, i, post, e, hcbs, _, hi, _⟩
  · rw [hr, if_pos heq]
  · rw [hr, if_neg (ne_true_of_eq_false hne)]
    rfl
  · rw [h i (by rw [Keyed.mem_def, hcbs]; simp)] at hi
    cases hi

theorem fromString_returning (h : c.Returning) {v : α} (hv : cast.fromString val = .ok v) :
    (c.fromString cast val).2.2 = if v == c.val then c else { c with val := v } := by
  rw [fromString_ok hv, setValue_returning h]
  split <;> rfl

/-- The listeners stay, and the value is the one converted last, up to the type's
own equality: a value that compares equal to the stored one is not stored. -/
theorem reload_val (h : c.Returning) : (c.reload cast texts).2.cbs = c.cbs ∧
    (lastConverted cast texts = none → (c.reload cast texts).2.val = c.val) ∧
    ∀ v, lastConverted cast texts = some v →
      (c.reload cast texts).2.val = v ∨ (v == (c.reload cast texts).2.val) = true := by
  induction texts using List.reverseRecOn with
  | nil => exact ⟨rfl, fun _ ↦ rfl, nofun⟩
  | append_singleton texts val ih =>
      obtain ⟨hcbs, hval⟩ := ih
      have hret : (c.reload cast texts).2.Returning := fun i hi ↦ h i (by rwa [hcbs] at hi)
      rw [reload_concat]
      cases hv : cast.fromString val with
      | error e =>
          have hlast : lastConverted cast (texts ++ [val]) = lastConverted cast texts := by
            simp [lastConverted, hv, Except.toOption]
          have hsame : ((c.reload cast texts).2.fromString cast val).2.2 =
              (c.reload cast texts).2 := by
            rw [fromString_error hv]
          simp only [hsame, hlast]
          exact ⟨hcbs, hval⟩
      | ok v =>
          have hlast : lastConverted cast (texts ++ [val]) = some v := by
            simp [lastConverted, hv, Except.toOption]
          simp only [fromString_returning hret hv, hlast, reduceCtorEq, false_implies, true_and,
            Option.some.injEq, forall_eq']
          split
          · exact ⟨hcbs, .inr ‹_›⟩
          · exact ⟨hcbs, .inl rfl⟩

/-- A text that has been loaded has no effect when it is loaded again: it was not
converted, or its value is there. -/
theorem fromString_again [ReflBEq α] (cast : LexicalCast α) (h : c.Returning) (val : String) :
    (c.fromString cast val).2.2.fromString cast val = ([], false, (c.fromString cast val).2.2) := by
  cases hv : cast.fromString val with
  | error e => rw [fromString_error hv, fromString_error hv]
  | ok v =>
      have hval : (v == (c.fromString cast val).2.2.val) = true := by
        rw [fromString_returning h hv]
        by_cases heq : (v == c.val) = true
        · rwa [if_pos heq]
        · rw [if_neg heq]
          exact beq_self_eq_true v
      generalize (c.fromString cast val).2.2 = c' at hval
      rw [fromString_ok hv, setValue_same hval]

end ConfigVar

/-! ## One variable among others -/

namespace Config

variable {τ : Type} {T : τ → Type} {m m' : Config T} {k : String} {p : VarPtr} {t : τ}
variable {c : ConfigVar (T t)}

/-- Two names are never bound to one variable. -/
def Distinct (m : Config T) : Prop :=
  ∀ k k' p, m.datas k = some p → m.datas k' = some p → k = k'

section Load

variable [∀ t, BEq (T t)] (y : YamlCpp) (cast : ∀ t, LexicalCast (T t)) {i : String × Node}

theorem loadMember_datas : (m.loadMember y cast i).2.datas = m.datas := by
  unfold loadMember
  split
  · rfl
  · split
    · rfl
    · unfold fromString
      split <;> rfl

/-- A text that has no effect on a variable has none on the registry. -/
theorem fromString_idle {val : String} (hc : m.vars p = some ⟨t, c⟩)
    (h : c.fromString (cast t) val = ([], false, c)) : m.fromString cast p val = ([], m) := by
  simp only [fromString, hc, h, List.map_nil]
  rw [← hc, Function.update_eq_self]

/-- A member with another key leaves the variable alone. -/
theorem loadMember_other (hd : m.Distinct) (hp : m.datas k = some p) (hv : ValidName i.1)
    (hi : i.1 ≠ k) : (m.loadMember y cast i).2.vars p = m.vars p ∧
      ((m.loadMember y cast i).1.filter fun n ↦ n.1 = p) = [] := by
  unfold loadMember
  split
  · exact ⟨rfl, rfl⟩
  · rw [tolower_of_valid hv, LookupBase]
    cases hq : m.datas i.1 with
    | none => exact ⟨rfl, rfl⟩
    | some q =>
        have hqp : q ≠ p := fun h ↦ hi (hd i.1 k p (h ▸ hq) hp)
        simp only [fromString]
        split
        · exact ⟨rfl, rfl⟩
        · refine ⟨Function.update_of_ne (Ne.symm hqp) _ _, ?_⟩
          simp [List.filter_map, Function.comp_def, hqp]

/-- A member with its key is what `fromString` is called with. -/
theorem loadMember_same (hk : k ≠ "") (hp : m.datas k = some p) (hv : ValidName k)
    (hc : m.vars p = some ⟨t, c⟩) (n : Node) :
    (m.loadMember y cast (k, n)).2.vars p =
        some ⟨t, (c.fromString (cast t) (textOf y n)).2.2⟩ ∧
      ((m.loadMember y cast (k, n)).1.filter fun n ↦ n.1 = p) =
        (c.fromString (cast t) (textOf y n)).1.map fun x ↦ (p, ⟨t, x⟩) := by
  simp [loadMember, hk, tolower_of_valid hv, LookupBase, hp, fromString, hc, List.filter_map,
    Function.comp_def]

/-- The loop of `LoadFromYaml`. -/
def loadMembers (m : Config T)
    (is : List (String × Node)) : List (VarPtr × Σ t, Notification (T t)) × Config T :=
  is.foldl (fun s i ↦
    let r := s.2.loadMember y cast i
    (s.1 ++ r.1, r.2)) ([], m)

theorem loadMembers_concat {is : List (String × Node)} :
    m.loadMembers y cast (is ++ [i]) =
      ((m.loadMembers y cast is).1 ++ ((m.loadMembers y cast is).2.loadMember y cast i).1,
        ((m.loadMembers y cast is).2.loadMember y cast i).2) := by
  simp [loadMembers]

/-- The texts that members have for a key. -/
def textsOf (is : List (String × Node)) (k : String) : List String :=
  (is.filter fun i ↦ i.1 = k).map fun i ↦ textOf y i.2

/-- The loop as one variable sees it. -/
theorem loadMembers_variable (hd : m.Distinct) (hk : k ≠ "") (hp : m.datas k = some p)
    (hname : ValidName k) (hc : m.vars p = some ⟨t, c⟩) (is : List (String × Node))
    (his : ∀ i ∈ is, ValidName i.1) :
    (m.loadMembers y cast is).2.datas = m.datas ∧
      (m.loadMembers y cast is).2.vars p = some ⟨t, (c.reload (cast t) (textsOf y is k)).2⟩ ∧
      ((m.loadMembers y cast is).1.filter fun n ↦ n.1 = p) =
        (c.reload (cast t) (textsOf y is k)).1.map fun x ↦ (p, ⟨t, x⟩) := by
  induction is using List.reverseRecOn with
  | nil => exact ⟨rfl, hc, rfl⟩
  | append_singleton is i ih =>
      obtain ⟨hdatas, hvars, hcalls⟩ := ih fun j hj ↦ his j (by simp [hj])
      have hd' : (m.loadMembers y cast is).2.Distinct := by rwa [Distinct, hdatas]
      have hp' : (m.loadMembers y cast is).2.datas k = some p := by rw [hdatas, hp]
      rw [loadMembers_concat]
      refine ⟨(loadMember_datas y cast).trans hdatas, ?_⟩
      by_cases hkey : i.1 = k
      · have htexts : textsOf y (is ++ [i]) k = textsOf y is k ++ [textOf y i.2] := by
          simp [textsOf, hkey]
        have hi : i = (k, i.2) := by rw [← hkey]
        obtain ⟨hv, hn⟩ := loadMember_same y cast hk hp' hname hvars i.2
        rw [htexts, ConfigVar.reload_concat, List.filter_append, List.map_append, hcalls, ← hn,
          ← hi]
        exact ⟨hi ▸ hv, rfl⟩
      · have htexts : textsOf y (is ++ [i]) k = textsOf y is k := by
          simp [textsOf, hkey]
        obtain ⟨hv, hn⟩ := loadMember_other y cast hd' hp' (his i (by simp)) hkey
        rw [htexts, List.filter_append, hn, List.append_nil]
        exact ⟨hv.trans hvars, hcalls⟩

/-- A document is listed from the empty path on. -/
theorem ListAllMember_root (root : Node) : ListAllMember "" root = shown (root.entries []) := by
  refine ListAllMember_visible root [] fun pre hp ↦ ?_
  rw [List.prefix_nil.mp hp]
  decide

/-- The members of a document that have a key are the nodes that are reached at
that path. -/
theorem textsOf_document (root : Node) (k : String) :
    textsOf y (ListAllMember "" root) k = (root.reached k).map (textOf y) := by
  rw [ListAllMember_root, textsOf, Yaml.Node.reached, shown, List.filter_map, List.filter_filter,
    List.map_map, List.map_map]
  simp only [Function.comp_def, Bool.decide_and, Bool.and_comm]

theorem valid_of_mem_document (root : Node) : ∀ i ∈ ListAllMember "" root, ValidName i.1 := by
  intro i hi
  rw [ListAllMember_root, shown, List.mem_map] at hi
  obtain ⟨j, hj, rfl⟩ := hi
  have hvis : Visible j.1 := by simpa using (List.mem_filter.mp hj).2
  exact hvis.valid

theorem loadMembers_datas {is : List (String × Node)} :
    (m.loadMembers y cast is).2.datas = m.datas := by
  induction is using List.reverseRecOn with
  | nil => rfl
  | append_singleton is i ih => rw [loadMembers_concat, loadMember_datas, ih]

/-- Members that have no effect one by one have none together. -/
theorem loadMembers_idle {is : List (String × Node)}
    (h : ∀ i ∈ is, m.loadMember y cast i = ([], m)) : m.loadMembers y cast is = ([], m) := by
  induction is using List.reverseRecOn with
  | nil => rfl
  | append_singleton is i ih =>
      rw [loadMembers_concat, ih fun j hj ↦ h j (by simp [hj]), h i (by simp)]
      rfl

end Load

theorem Valid.write (hv : m.Valid) (hc : m.vars p = some ⟨t, c⟩) (c' : ConfigVar (T t)) :
    ({ m with vars := Function.update m.vars p (some ⟨t, c'⟩) } : Config T).Valid := by
  refine ⟨fun x q hq ↦ ?_, fun q hq ↦ ?_, hv.names⟩
  · obtain ⟨u, hb, d, hd⟩ := hv.live x q hq
    by_cases hqp : q = p
    · subst hqp
      exact ⟨t, hb, c', Function.update_self _ _ _⟩
    · exact ⟨u, hb, d, (Function.update_of_ne hqp _ _).trans hd⟩
  · have hqp : q ≠ p := by
      rintro rfl
      rw [hv.fresh q hq] at hc
      cases hc
    exact (Function.update_of_ne hqp _ _).trans (hv.fresh q hq)

/-- The listeners of all variables return. -/
def Returning (m : Config T) : Prop := ∀ p t (c : ConfigVar (T t)), m.vars p = some ⟨t, c⟩ →
  c.Returning

theorem Returning.create (h : m.Returning) {name description : String} {d : T t} :
    (m.create t name d description).Returning := by
  intro q u c hc
  have hwritten : Function.update m.vars m.next (some ⟨t, .new name d description⟩) q =
      some ⟨u, c⟩ := hc
  by_cases hq : q = m.next
  · rw [hq, Function.update_self] at hwritten
    cases hwritten
    intro i hi
    cases hi
  · rw [Function.update_of_ne hq] at hwritten
    exact h q u c hwritten

/-! ## The registries that come up -/

variable [DecidableEq τ]

/-- Variables are looked up and created, and written by whoever has a pointer to
them. -/
inductive Reachable : Config T → Prop
  | empty : Reachable empty
  | Lookup {m m' : Config T} {l : Done T} : Reachable m → m.step l m' → Reachable m'
  | write {m : Config T} {p : VarPtr} {t : τ} {c : ConfigVar (T t)} (c' : ConfigVar (T t)) :
      Reachable m → m.vars p = some ⟨t, c⟩ →
      Reachable { m with vars := Function.update m.vars p (some ⟨t, c'⟩) }

theorem step_datas {l : Done T} (hv : m.Valid) (h : m.step l m') :
    m'.datas = m.datas ∨ ∃ name, m'.datas = Function.update m.datas name (some m.next) := by
  obtain ⟨x, r⟩ := l
  cases x with
  | LookupName t name =>
      obtain ⟨-, rfl⟩ := Prod.mk.inj h
      exact .inl rfl
  | Lookup t name d description =>
      rcases Lookup_cases hv h with ⟨rfl, -⟩ | ⟨-, h⟩
      · exact .inl rfl
      · rcases register_cases h with ⟨rfl, -⟩ | ⟨-, -, rfl⟩
        · exact .inl rfl
        · exact .inr ⟨name, rfl⟩

theorem Reachable.valid (h : m.Reachable) : m.Valid := by
  induction h with
  | empty => exact empty_valid
  | Lookup _ hs ih => exact step_valid ih hs
  | write c' _ hc ih => exact ih.write hc c'

theorem Reachable.distinct (h : m.Reachable) : m.Distinct := by
  induction h with
  | empty => exact fun _ _ _ h ↦ nomatch h
  | write _ _ _ ih => exact ih
  | @Lookup m m' l hr hs ih =>
      rcases step_datas hr.valid hs with heq | ⟨name, heq⟩
      · exact fun k k' p hk hk' ↦ ih k k' p (heq ▸ hk) (heq ▸ hk')
      · have hold : ∀ k, m.datas k ≠ some m.next := fun k hk ↦ by
          obtain ⟨_, _, _, hc⟩ := hr.valid.live k m.next hk
          rw [hr.valid.fresh _ (Nat.le_refl _)] at hc
          cases hc
        intro k k' p hk hk'
        rw [heq, Function.update_apply] at hk hk'
        split at hk
        · cases hk
          split at hk'
          · rw [‹k = name›, ‹k' = name›]
          · exact absurd hk' (hold k')
        · split at hk'
          · cases hk'
            exact absurd hk (hold k)
          · exact ih k k' p hk hk'

/-- **Each variable is loaded on its own.**  `fromString` is called on it with the
texts of the nodes that are reached at its path, in preorder, and nothing else in
the document or the registry has a part in what becomes of it. -/
theorem loads_each [∀ t, BEq (T t)] (hm : m.Reachable) (y : YamlCpp)
    (cast : ∀ t, LexicalCast (T t)) (root : Node) (hk : k ≠ "") (hp : m.datas k = some p)
    (hc : m.vars p = some ⟨t, c⟩) (hret : c.Returning) :
    let texts := (root.reached k).map (textOf y)
    let r := m.LoadFromYaml y cast root
    let s := c.reload (cast t) texts
    r.2.datas = m.datas ∧ r.2.vars p = some ⟨t, s.2⟩ ∧
      (r.1.filter fun n ↦ n.1 = p) = (s.1.map fun n ↦ (p, ⟨t, n⟩)) ∧
      (root.reached k = [] → s = ([], c)) ∧
      (ConfigVar.lastConverted (cast t) texts = none → s.2.val = c.val) ∧
      ∀ v, ConfigVar.lastConverted (cast t) texts = some v →
        s.2.val = v ∨ (v == s.2.val) = true := by
  intro texts r s
  have hvar := loadMembers_variable y cast hm.distinct hk hp
    (hm.valid.names k p hp) hc (ListAllMember "" root) (valid_of_mem_document root)
  rw [textsOf_document] at hvar
  obtain ⟨hdatas, hvars, hcalls⟩ := hvar
  refine ⟨hdatas, hvars, hcalls, fun hnone ↦ ?_, (ConfigVar.reload_val hret).2⟩
  simp only [s, texts, hnone]
  rfl

/-- **A document is loaded once.**  Where each dotted path leads to one node at most, no
listener is called and no variable changes when the document is loaded again.  Of the
equality of the values this takes that a value equals itself. -/
theorem loads_twice [∀ t, BEq (T t)] [∀ t, ReflBEq (T t)] (hm : m.Reachable) (hret : m.Returning)
    (y : YamlCpp) (cast : ∀ t, LexicalCast (T t)) (root : Node) (honce : root.Once) :
    (m.LoadFromYaml y cast root).2.LoadFromYaml y cast root =
      ([], (m.LoadFromYaml y cast root).2) := by
  refine loadMembers_idle y cast fun i hi ↦ ?_
  have hname : ValidName i.1 := valid_of_mem_document root i hi
  have hdatas : (m.LoadFromYaml y cast root).2.datas = m.datas := loadMembers_datas y cast
  rw [loadMember]
  by_cases hk : i.1 = ""
  · rw [if_pos hk]
  · rw [if_neg hk, tolower_of_valid hname, LookupBase, hdatas]
    cases hp : m.datas i.1 with
    | none => rfl
    | some p =>
        obtain ⟨t, -, c, hc⟩ := hm.valid.live i.1 p hp
        -- the variable has seen this one text
        have htexts : textsOf y (ListAllMember "" root) i.1 = [textOf y i.2] := by
          have hmem : textOf y i.2 ∈ textsOf y (ListAllMember "" root) i.1 :=
            List.mem_map.mpr ⟨i, List.mem_filter.mpr ⟨hi, by simp⟩, rfl⟩
          have hlength : (textsOf y (ListAllMember "" root) i.1).length ≤ 1 := by
            rw [textsOf_document, List.length_map]
            exact honce i.1 hk
          obtain ⟨val, hval⟩ := List.length_eq_one_iff.mp
            (Nat.le_antisymm hlength (List.length_pos_of_mem hmem))
          rw [hval, List.mem_singleton] at hmem
          rw [hval, hmem]
        obtain ⟨-, hvars, -⟩ := loadMembers_variable y cast hm.distinct hk hp hname hc _
          (valid_of_mem_document root)
        rw [htexts] at hvars
        have hvars' : (m.LoadFromYaml y cast root).2.vars p =
            some ⟨t, (c.fromString (cast t) (textOf y i.2)).2.2⟩ := hvars
        exact fromString_idle cast hvars'
          (ConfigVar.fromString_again (cast t) (hret p t c hc) (textOf y i.2))

instance : ∀ t, BEq (CppType.Val t)
  | .int => inferInstanceAs (BEq Int)
  | .string => inferInstanceAs (BEq String)

/-- A parser that accepts nothing and an emitter that writes nothing. -/
def noYaml : YamlCpp :=
  { load := fun _ ↦ .error .ParserException, emit := fun _ ↦ ""
    asString := fun _ ↦ .error .BadConversion, asSize := fun _ ↦ none }

/-- Conversions that know one number. -/
def onePortCast : ∀ t, LexicalCast (CppType.Val t)
  | .int =>
      { fromString := fun s ↦ if s = "9090" then .ok (9090 : Int) else .error .bad_lexical_cast
        toString := fun _ ↦ .error .bad_lexical_cast }
  | .string => { fromString := .ok, toString := .ok }

/-- A document with the port twice, the second time not a number, and a key that
hides what is below it. -/
def onePortDocument : Node :=
  .map [(.scalar "system", .map [(.scalar "port", .scalar "9090")]),
    (.scalar "Hidden", .map [(.scalar "port", .scalar "1")]),
    (.scalar "system.port", .scalar "many")]

theorem reached_onePort : (onePortDocument.reached "system.port").map (textOf noYaml) =
    ["9090", "many"] := by
  decide

/-- A document that gives the port once, between other keys. -/
def onceDocument : Node :=
  .map [(.scalar "system", .map [(.scalar "port", .scalar "9090"), (.scalar "name", .null)]),
    (.scalar "logs", .sequence [])]

theorem loads_each_onePort : ∃ c : ConfigVar Int,
    (onePort.LoadFromYaml noYaml onePortCast onePortDocument).2.vars 0 = some ⟨.int, c⟩ ∧
      c.val = 9090 := by
  have hc : onePort.vars 0 = some ⟨.int, .new "system.port" (8080 : Int) "system port"⟩ := rfl
  have h := loads_each (.Lookup .empty step_onePort) noYaml onePortCast onePortDocument (by decide)
    (k := "system.port") (p := 0) rfl hc nofun
  exact ⟨_, h.2.1, by rw [reached_onePort]; rfl⟩

instance : ∀ t, ReflBEq (CppType.Val t)
  | .int => inferInstanceAs (ReflBEq Int)
  | .string => inferInstanceAs (ReflBEq String)

theorem loads_twice_onePort :
    (onePort.LoadFromYaml noYaml onePortCast onceDocument).2.LoadFromYaml noYaml onePortCast
        onceDocument =
      ([], (onePort.LoadFromYaml noYaml onePortCast onceDocument).2) := by
  have hempty : (empty : Config CppType.Val).Returning := by
    intro p t c hc
    cases hc
  exact loads_twice (.Lookup .empty step_onePort) hempty.create noYaml onePortCast onceDocument
    (once_of_nodup (by decide))

end Config

end Sylar
