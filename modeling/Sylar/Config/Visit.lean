import Sylar.Config.Containers
import Sylar.Config.Loading

/-!
# Visiting all variables

`Visit` calls a function on every variable of the registry, in the order in which the
`unordered_map` is iterated, which may be any.  What `tests/test_config.cc` prints this
way are the names of the variables and their values as texts.  Written down as a
document, this is a snapshot of the registry, and `LoadFromYaml` restores it.
-/

namespace Sylar

open Foundation Yaml

namespace Config

variable {τ : Type} {T : τ → Type}

/-- The variable at an address is the one to which its name is bound. -/
def Listed (m : Config T) (p : VarPtr) : Prop := ∃ c ∈ m.vars p, m.datas c.2.name = some p

instance (m : Config T) (p : VarPtr) : Decidable (m.Listed p) :=
  decidable_of_iff ((m.vars p).any fun c ↦ m.datas c.2.name = some p) (by
    simp [Listed, Option.any_eq_true])

/-- The variables in `GetDatas()`, by address. -/
def entries (m : Config T) : List VarPtr := (List.range m.next).filter fun p ↦ m.Listed p

/-- An order in which the map may be iterated. -/
structure Order (T : τ → Type) where
  list : Config T → List VarPtr
  perm : ∀ m, (list m).Perm m.entries

/-- `Config::Visit`. -/
def Visit {σ : Type} (order : Order T) (m : Config T) (cb : σ → VarPtr → σ) (s : σ) : σ :=
  (order.list m).foldl cb s

/-! ## What is visited -/

section Entries

variable {m m' : Config T} {name k : String} {p q : VarPtr} {t : τ}

/-- A name is bound to a variable that has this name. -/
def Named (m : Config T) : Prop :=
  ∀ name p, m.datas name = some p → ∃ c, m.vars p = some c ∧ c.2.name = name

theorem Named.create (h : m.Named) (hv : m.Valid) (hname : ValidName name) {d : T t}
    {description : String} : (m.create t name d description).Named := by
  intro x p hp
  by_cases hx : x = name
  · subst hx
    obtain rfl : m.next = p := by simpa [Config.create] using hp
    exact ⟨_, Function.update_self .., tolower_of_valid hname⟩
  · have hp : m.datas x = some p := by simpa [Config.create, hx] using hp
    obtain ⟨c, hc, hcx⟩ := h x p hp
    have hne : p ≠ m.next := by
      rintro rfl
      rw [hv.fresh _ (Nat.le_refl _)] at hc
      cases hc
    exact ⟨c, by simpa [Config.create, hne] using hc, hcx⟩

theorem Named.write (h : m.Named) {c c' : ConfigVar (T t)} (hc : m.vars p = some ⟨t, c⟩)
    (hname : c'.name = c.name) :
    Named { m with vars := Function.update m.vars p (some ⟨t, c'⟩) } := by
  intro x q hq
  obtain ⟨d, hd, hdx⟩ := h x q hq
  by_cases hqp : q = p
  · subst hqp
    obtain rfl := Option.some.inj (hc.symm.trans hd)
    exact ⟨_, Function.update_self .., hname.trans hdx⟩
  · exact ⟨d, (Function.update_of_ne hqp _ _).trans hd, hdx⟩

/-- The variables that are visited are those a name is bound to. -/
theorem mem_entries (hv : m.Valid) (hn : m.Named) :
    p ∈ m.entries ↔ ∃ name, m.datas name = some p := by
  simp only [entries, List.mem_filter, List.mem_range, decide_eq_true_eq]
  constructor
  · rintro ⟨-, c, -, hp⟩
    exact ⟨_, hp⟩
  · rintro ⟨name, hp⟩
    obtain ⟨c, hc, rfl⟩ := hn name p hp
    refine ⟨?_, c, hc, hp⟩
    by_contra hlt
    rw [hv.fresh p (Nat.le_of_not_lt hlt)] at hc
    cases hc

theorem nodup_entries : m.entries.Nodup := List.nodup_range.filter _

/-- Every variable is visited once. -/
theorem filter_order (order : Order T) (hp : p ∈ m.entries) :
    ((order.list m).filter fun q ↦ q = p) = [p] := by
  have hperm := (order.perm m).filter fun q ↦ q = p
  have hsingle : (m.entries.filter fun q ↦ q = p) = [p] := by
    rw [List.filter_eq, List.count_eq_one_of_mem nodup_entries hp, List.replicate_one]
  rw [hsingle] at hperm
  exact List.perm_singleton.mp hperm

variable [DecidableEq τ]

/-- The registries that come up when variables keep the names they were created
with. -/
inductive Registered : Config T → Prop
  | empty : Registered empty
  | Lookup {m m' : Config T} {l : Done T} : Registered m → m.step l m' → Registered m'
  | write {m : Config T} {p : VarPtr} {t : τ} {c : ConfigVar (T t)} (c' : ConfigVar (T t)) :
      Registered m → m.vars p = some ⟨t, c⟩ → c'.name = c.name →
      Registered { m with vars := Function.update m.vars p (some ⟨t, c'⟩) }

theorem Registered.reachable (h : m.Registered) : m.Reachable := by
  induction h with
  | empty => exact .empty
  | Lookup _ hs ih => exact .Lookup ih hs
  | write c' _ hc _ ih => exact .write c' ih hc

theorem named_of_step (h : m.Named) (hv : m.Valid) {l : Done T} (hs : m.step l m') : m'.Named := by
  obtain ⟨x, r⟩ := l
  cases x with
  | LookupName t name =>
      obtain ⟨-, rfl⟩ := Prod.mk.inj hs
      exact h
  | Lookup t name d description =>
      rcases Lookup_cases hv hs with ⟨rfl, -⟩ | ⟨-, hs⟩
      · exact h
      · rcases register_cases hs with ⟨rfl, -⟩ | ⟨hname, -, rfl⟩
        · exact h
        · exact h.create hv hname

theorem Registered.named (h : m.Registered) : m.Named := by
  induction h with
  | empty => exact fun _ _ h ↦ nomatch h
  | Lookup hr hs ih => exact named_of_step ih hr.reachable.valid hs
  | write c' _ hc hname ih => exact ih.write hc hname

end Entries

/-! ## A snapshot -/

section Snapshot

variable (cast : ∀ t, LexicalCast (T t))

/-- What is printed about a variable: its name, and its value as a text. -/
def line (m : Config T) (p : VarPtr) : Option (String × String) :=
  (m.vars p).map fun c ↦ (c.2.name, c.2.toString (cast c.1))

/-- The lines of all variables. -/
def lines (order : Order T) (m : Config T) : List (String × String) :=
  m.Visit order (fun s p ↦ s ++ (m.line cast p).toList) []

/-- Some lines as a document. -/
def document (ls : List (String × String)) : Node :=
  .map (ls.map fun l ↦ (.scalar l.1, .scalar l.2))

variable {cast} {order : Order T} {m m' : Config T} {k : String} {p : VarPtr} {t : τ}
variable {c c' : ConfigVar (T t)}

theorem lines_eq : m.lines cast order = (order.list m).filterMap (m.line cast) := by
  rw [lines, Visit]
  generalize order.list m = ps
  suffices h : ∀ s, ps.foldl (fun s p ↦ s ++ (m.line cast p).toList) s =
      s ++ ps.filterMap (m.line cast) from h []
  induction ps with
  | nil => intro s; simp
  | cons p ps ih =>
      intro s
      rw [List.foldl_cons, ih, List.append_assoc]
      congr 1
      cases hl : m.line cast p with
      | none =>
          rw [List.filterMap_cons_none hl]
          rfl
      | some l =>
          rw [List.filterMap_cons_some hl]
          rfl

/-- The lines are about the names that are bound. -/
theorem bound_of_mem_lines (hv : m.Valid) (hn : m.Named) {l : String × String}
    (h : l ∈ m.lines cast order) : ∃ p, m.datas l.1 = some p := by
  rw [lines_eq, List.mem_filterMap] at h
  obtain ⟨p, hp, hl⟩ := h
  obtain ⟨name, hname⟩ := (mem_entries hv hn).mp ((order.perm m).mem_iff.mp hp)
  obtain ⟨c, hc, rfl⟩ := hn name p hname
  rw [line, hc] at hl
  cases hl
  exact ⟨p, hname⟩

/-- There is one line about each. -/
theorem filter_lines (hv : m.Valid) (hn : m.Named) (hp : m.datas k = some p)
    (hc : m.vars p = some ⟨t, c⟩) :
    ((m.lines cast order).filter fun l ↦ l.1 = k) = [(k, c.toString (cast t))] := by
  have hname : c.name = k := by
    obtain ⟨d, hd, hdk⟩ := hn k p hp
    obtain rfl := Option.some.inj (hc.symm.trans hd)
    exact hdk
  have honly : ∀ q ∈ order.list m, ∀ l, m.line cast q = some l → (l.1 = k ↔ q = p) := by
    intro q hq l hl
    obtain ⟨name, hname'⟩ := (mem_entries hv hn).mp ((order.perm m).mem_iff.mp hq)
    obtain ⟨d, hd, rfl⟩ := hn name q hname'
    rw [line, hd] at hl
    cases hl
    constructor
    · intro h
      exact Option.some.inj (hname'.symm.trans ((congrArg m.datas h).trans hp))
    · rintro rfl
      obtain rfl := Option.some.inj (hc.symm.trans hd)
      exact hname
  rw [lines_eq, List.filter_filterMap]
  have hfilter : (order.list m).filterMap (fun q ↦ (m.line cast q).filter fun l ↦ l.1 = k) =
      ((order.list m).filter fun q ↦ q = p).filterMap (m.line cast) := by
    rw [List.filterMap_filter]
    refine List.filterMap_congr fun q hq ↦ ?_
    cases hl : m.line cast q with
    | none => simp
    | some l => simp [Option.filter, honly q hq l hl]
  rw [hfilter, filter_order order ((mem_entries hv hn).mpr ⟨k, hp⟩)]
  simp [line, hc, hname]

theorem filter_lines_none (hv : m.Valid) (hn : m.Named) (hk : m.datas k = none) :
    ((m.lines cast order).filter fun l ↦ l.1 = k) = [] := by
  rw [List.filter_eq_nil_iff]
  intro l hl hlk
  obtain ⟨p, hp⟩ := bound_of_mem_lines hv hn hl
  rw [of_decide_eq_true hlk, hk] at hp
  cases hp

theorem members_document {ls : List (String × String)} (h : ∀ l ∈ ls, ValidName l.1) :
    ListAllMember "" (document ls) =
      ("", document ls) :: ls.map fun l ↦ (l.1, .scalar l.2) := by
  rw [document, ListAllMember, if_pos (by decide)]
  congr 1
  induction ls with
  | nil => rfl
  | cons l ls ih =>
      obtain ⟨hl, hls⟩ := List.forall_mem_cons.mp h
      rw [List.map_cons, List.map_cons, ListAllMember.pairs, ListAllMember.pair, if_pos rfl,
        Node.Scalar, ListAllMember, if_pos hl, ih hls]
      rfl

/-- The texts that a document of lines has for a name. -/
theorem textsOf_document_lines (y : YamlCpp) {ls : List (String × String)}
    (h : ∀ l ∈ ls, ValidName l.1) (hk : k ≠ "") :
    textsOf y (ListAllMember "" (document ls)) k = (ls.filter fun l ↦ l.1 = k).map Prod.snd := by
  rw [members_document h, textsOf, List.filter_cons_of_neg (by simpa using hk.symm),
    List.filter_map, List.map_map]
  rfl

/-- A variable after a value has been loaded, and the calls of its listeners. -/
def stored [∀ t, BEq (T t)] (v : T t) (c : ConfigVar (T t)) : ConfigVar (T t) :=
  if v == c.val then c else { c with val := v }

def told [∀ t, BEq (T t)] (v : T t) (c : ConfigVar (T t)) : List (Notification (T t)) :=
  if v == c.val then [] else ConfigVar.callsOf c.val v c.cbs.toList

theorem reload_stored [∀ t, BEq (T t)] (h : c.Returning) {val : String} {v : T t}
    (hv : (cast t).fromString val = .ok v) : c.reload (cast t) [val] = (told v c, stored v c) := by
  have hone : c.reload (cast t) [val] =
      ((c.fromString (cast t) val).1, (c.fromString (cast t) val).2.2) := rfl
  rw [hone, ConfigVar.fromString_ok hv, ConfigVar.setValue_returning h, told, stored]
  split
  · rfl
  · rfl

/-- The text of a value converts to one that is equal to it. -/
def KeepsText [∀ t, BEq (T t)] (cast : ∀ t, LexicalCast (T t)) (v : T t) : Prop :=
  ∃ s v', (cast t).toString v = .ok s ∧ (cast t).fromString s = .ok v' ∧ (v' == v) = true

/-- **A snapshot is restored.**  The lines about one registry, in any order, are loaded
into another, later or in another process.  Where a name is bound to variables of one
type in both, the second gets the value of the first, and its listeners are called
exactly if the values differ; a variable whose name the first does not have is not
touched.  Of the conversions this takes that the texts of the values convert back. -/
theorem restores [DecidableEq τ] [∀ t, BEq (T t)] (hm : m.Registered) (hm' : m'.Reachable)
    (hret : m'.Returning)
    (htexts : ∀ p t (c : ConfigVar (T t)), m.vars p = some ⟨t, c⟩ → KeepsText cast c.val)
    (y : YamlCpp) (order : Order T) :
    let r := m'.LoadFromYaml y cast (document (m.lines cast order))
    r.2.datas = m'.datas ∧
      ∀ k p t (c' : ConfigVar (T t)), k ≠ "" → m'.datas k = some p → m'.vars p = some ⟨t, c'⟩ →
        (∀ q (c : ConfigVar (T t)), m.datas k = some q → m.vars q = some ⟨t, c⟩ →
          ∃ v, (v == c.val) = true ∧ r.2.vars p = some ⟨t, stored v c'⟩ ∧
            (r.1.filter fun n ↦ n.1 = p) = (told v c').map fun x ↦ (p, ⟨t, x⟩)) ∧
        (m.datas k = none →
          r.2.vars p = some ⟨t, c'⟩ ∧ (r.1.filter fun n ↦ n.1 = p) = []) := by
  intro r
  have hv := hm.reachable.valid
  have hn := hm.named
  have hvalid : ∀ l ∈ m.lines cast order, ValidName l.1 := by
    intro l hl
    obtain ⟨p, hp⟩ := bound_of_mem_lines hv hn hl
    exact hv.names l.1 p hp
  refine ⟨loadMembers_datas y cast, fun k p t c' hk hp hc' ↦ ?_⟩
  obtain ⟨-, hvars, hcalls⟩ := loadMembers_variable y cast hm'.distinct hk hp
    (hm'.valid.names k p hp) hc' (ListAllMember "" (document (m.lines cast order)))
    (valid_of_mem_document _)
  rw [textsOf_document_lines y hvalid hk] at hvars hcalls
  constructor
  · intro q c hq hc
    obtain ⟨s, v, hs, hfrom, heq⟩ := htexts q t c hc
    have htext : c.toString (cast t) = s := by rw [ConfigVar.toString, hs]
    rw [filter_lines hv hn hq hc, htext, List.map_singleton,
      reload_stored (hret p t c' hc') hfrom] at hvars hcalls
    exact ⟨v, heq, hvars, hcalls⟩
  · intro hnone
    rw [filter_lines_none hv hn hnone] at hvars hcalls
    exact ⟨hvars, hcalls⟩

end Snapshot

/-- The entries themselves, by address. -/
def Order.byAddress (T : τ → Type) : Order T := ⟨entries, fun _ ↦ .refl _⟩

/-- Conversions of numbers that know one of them. -/
def portCast : ∀ t, LexicalCast (CppType.Val t)
  | .int =>
      { fromString := fun s ↦ if s = "9090" then .ok (9090 : Int) else .error .bad_lexical_cast
        toString := fun _ ↦ .ok "9090" }
  | .string => { fromString := .ok, toString := .ok }

/-- The variable of `onePort`, and the same after it has been set to 9090. -/
def port : ConfigVar Int := .new "system.port" 8080 "system port"

def port9090 : ConfigVar Int := { port with val := 9090 }

/-- `onePort` after that. -/
def portSet : Config CppType.Val :=
  { onePort with vars := Function.update onePort.vars 0 (some ⟨.int, port9090⟩) }

theorem portSet_registered : portSet.Registered := by
  have hport : onePort.vars 0 = some ⟨.int, port⟩ := rfl
  exact Registered.write (t := .int) (c := port) port9090 (.Lookup .empty step_onePort) hport rfl

theorem onePort_returning : onePort.Returning := by
  have hempty : (empty : Config CppType.Val).Returning := by
    intro p t c hc
    cases hc
  exact hempty.create

theorem portSet_texts (p : VarPtr) (t : CppType) (c : ConfigVar t.Val)
    (hc : portSet.vars p = some ⟨t, c⟩) : KeepsText portCast c.val := by
  by_cases hp : p = 0
  · subst hp
    cases hc
    exact ⟨"9090", (9090 : Int), rfl, rfl, rfl⟩
  · have hnone : portSet.vars p = none := by
      show Function.update (Function.update (fun _ ↦ none) 0 _) 0 _ p = none
      rw [Function.update_of_ne hp, Function.update_of_ne hp]
    rw [hnone] at hc
    cases hc

theorem restores_onePort : ∃ v : Int, (v == 9090) = true ∧
    (onePort.LoadFromYaml noYaml portCast
      (document (portSet.lines portCast (.byAddress _)))).2.vars 0 =
        some ⟨.int, stored (T := CppType.Val) (t := .int) v port⟩ := by
  obtain ⟨-, h⟩ := restores portSet_registered (.Lookup .empty step_onePort) onePort_returning
    portSet_texts noYaml (.byAddress _)
  obtain ⟨v, hv, hvars, -⟩ := (h "system.port" 0 .int port (by decide) rfl rfl).1 0 port9090 rfl rfl
  exact ⟨v, hv, hvars⟩

end Config

end Sylar
