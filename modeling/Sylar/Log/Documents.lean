import Sylar.Log.Declared
import Sylar.Log.Convert
import Sylar.Config.Loading

/-!
# From documents to lines

A configuration of the loggers comes in a document.  `LoadFromYaml` finds the nodes at
`logs` and hands their texts to the variable `g_log_defines`, which converts each of them,
compares the result with the value it has, and tells its listener, the one of `LogIniter`.
The listener changes the loggers.

What the loggers write afterwards is what the documents declare, one after the other:
`documents` is computed from the documents alone, and `documents_declared` says that the
library agrees with it.  A document is fatal exactly if it changes the configuration and
keeps an entry of it, which is where the listener goes through a null pointer.
-/

namespace Sylar

open Foundation Yaml

namespace ConfigVar

variable {α : Type} [BEq α] {cast : LexicalCast α} {c : ConfigVar α}

/-- The first text, and then the others. -/
theorem reload_cons (val : String) (texts : List String) : c.reload cast (val :: texts) =
    ((c.fromString cast val).1 ++ ((c.fromString cast val).2.2.reload cast texts).1,
      ((c.fromString cast val).2.2.reload cast texts).2) := by
  induction texts using List.reverseRecOn with
  | nil => simp [reload]
  | append_singleton texts v ih =>
      rw [← List.cons_append, reload_concat, ih, reload_concat, List.append_assoc]

end ConfigVar

namespace Config

variable {τ : Type} {T : τ → Type} [DecidableEq τ] {m m' : Config T}

/-- A variable that is looked up is not changed, and neither are the others. -/
theorem step_vars (hv : m.Valid) {l : Done T} (h : m.step l m') {p : VarPtr}
    {c : Σ t, ConfigVar (T t)} (hc : m.vars p = some c) : m'.vars p = some c := by
  obtain ⟨x, r⟩ := l
  cases x with
  | LookupName t name =>
      obtain ⟨-, rfl⟩ := Prod.mk.inj h
      exact hc
  | Lookup t name d description =>
      rcases Lookup_cases hv h with ⟨rfl, -⟩ | ⟨-, h⟩
      · exact hc
      · rcases register_cases h with ⟨rfl, -⟩ | ⟨-, -, rfl⟩
        · exact hc
        · have hne : p ≠ m.next := by
            rintro rfl
            rw [hv.fresh _ (Nat.le_refl _)] at hc
            cases hc
          exact (Function.update_of_ne hne _ _).trans hc

/-- A name stays bound unless it is looked up with a default of another type. -/
theorem step_bound (hv : m.Valid) {l : Done T} (h : m.step l m') {name : String} {t : τ}
    {p : VarPtr} (hb : m.Bound name t p)
    (hl : ∀ u d description, l.1 = .Lookup u name d description → u = t) :
    m'.datas name = some p := by
  obtain ⟨x, r⟩ := l
  cases x with
  | LookupName u other =>
      obtain ⟨-, rfl⟩ := Prod.mk.inj h
      exact hb.1
  | Lookup u other d description =>
      rcases Lookup_cases hv h with ⟨rfl, -⟩ | ⟨hnot, h⟩
      · exact hb.1
      · rcases register_cases h with ⟨rfl, -⟩ | ⟨-, -, rfl⟩
        · exact hb.1
        · have hne : name ≠ other := by
            rintro rfl
            obtain rfl : u = t := hl u d description rfl
            exact hnot p hb
          exact (hb.create hv hne).1

/-- Documents only write to variables. -/
theorem Reachable.loadMembers [∀ t, BEq (T t)] (y : YamlCpp) (cast : ∀ t, LexicalCast (T t))
    (h : m.Reachable) (is : List (String × Node)) : (m.loadMembers y cast is).2.Reachable := by
  induction is using List.reverseRecOn with
  | nil => exact h
  | append_singleton is i ih =>
      rw [loadMembers_concat]
      unfold loadMember
      split
      · exact ih
      · split
        · exact ih
        · unfold fromString
          split
          · exact ih
          · exact ih.write _ ‹_›

end Config

namespace Log

variable {τ : Type} {T : τ → Type}

/-! ## The two stores of the library -/

/-- The types of the variables: that of `g_log_defines`, and others. -/
abbrev Values (T : τ → Type) : Option τ → Type
  | none => LogDefines
  | some t => T t

instance [∀ t, BEq (T t)] : ∀ t, BEq (Values T t)
  | none => inferInstanceAs (BEq LogDefines)
  | some t => inferInstanceAs (BEq (T t))

/-- The `LexicalCast` between texts and `std::set<LogDefine>`. -/
def LogDefines.cast (y : YamlCpp) : LexicalCast LogDefines :=
  ⟨LogDefines.fromString y, LogDefines.toString y⟩

/-- The `LexicalCast` of each type. -/
def casts (y : YamlCpp) (cast : ∀ t, LexicalCast (T t)) : ∀ t, LexicalCast (Values T t)
  | none => LogDefines.cast y
  | some t => cast t

/-- `g_log_defines`, after the constructor of `LogIniter` has added its listener.  The
listener throws nothing; what it does to the loggers is `onChange`. -/
def g_log_defines : ConfigVar LogDefines :=
  (ConfigVar.addListener 0 (.new "logs" Keyed.empty "logs config") fun _ _ ↦ .ok ()).2

/-- `g_log_defines` with another value. -/
def definesWith (v : LogDefines) : ConfigVar LogDefines := { g_log_defines with val := v }

/-- The registry and the manager. -/
structure Stores (T : τ → Type) where
  config : Config (Values T)
  manager : LoggerManager

/-- A call of a listener, where that of `LogIniter` is on the variable at `p`.  The others
do not touch the loggers. -/
def hear (env : Env) (p : VarPtr) (m : LoggerManager) :
    VarPtr × (Σ t, Notification (Values T t)) → Except Fault LoggerManager
  | (q, ⟨none, n⟩) => if q = p then onChange env n.old_value n.new_value m else .ok m
  | (_, ⟨some _, _⟩) => .ok m

/-- The call that would bind the name `logs` to a new variable, of another type. -/
def Diverts : LookupCall (Values T) → Prop
  | .Lookup (some _) name _ _ => name = "logs"
  | _ => False

/-- What happens to the stores. -/
inductive Event (T : τ → Type)
  /-- A logger is fetched. -/
  | getLogger (name : String)
  /-- A variable is looked up. -/
  | Lookup (l : Config.Done (Values T))
  /-- Whoever has a pointer to a variable changes its value or its listeners. -/
  | write (q : VarPtr) (t : Option τ) (c : ConfigVar (Values T t))
  | LoadFromYaml (env : Env) (root : Node)

section Steps

variable [DecidableEq τ] [∀ t, BEq (T t)] (y : YamlCpp) (cast : ∀ t, LexicalCast (T t))

/-- The steps of the library, where `g_log_defines` is at `p`.  There is none where the
listener ends the program, and `logs` is not given to a variable of another type. -/
inductive Step (p : VarPtr) : Stores T → Event T → Stores T → Prop
  | getLogger {s : Stores T} (name : String) :
      Step p s (.getLogger name) ⟨s.config, (s.manager.getLogger name).2⟩
  | Lookup {s : Stores T} {l : Config.Done (Values T)} {config : Config (Values T)} :
      ¬ Diverts l.1 → s.config.step l config →
      Step p s (.Lookup l) ⟨config, s.manager⟩
  | write {s : Stores T} {q : VarPtr} {t : Option τ} {c c' : ConfigVar (Values T t)} :
      q ≠ p → s.config.vars q = some ⟨t, c⟩ →
      Step p s (.write q t c')
        ⟨{ s.config with vars := Function.update s.config.vars q (some ⟨t, c'⟩) }, s.manager⟩
  | LoadFromYaml {s : Stores T} {env : Env} {root : Node} {m : LoggerManager} :
      (s.config.LoadFromYaml y (casts y cast) root).1.foldlM (hear env p) s.manager = .ok m →
      Step p s (.LoadFromYaml env root)
        ⟨(s.config.LoadFromYaml y (casts y cast) root).2, m⟩

end Steps

/-! ## What documents declare -/

/-- The configurations a document has for the loggers, in order. -/
def configurations (y : YamlCpp) (root : Node) : List LogDefines :=
  (root.reached "logs").filterMap fun n ↦ (LogDefines.fromString y (Config.textOf y n)).toOption

/-- A configuration comes into force.  The one that is in force already changes nothing. -/
def settle (d : LogDefines × Declarations) (new : LogDefines) : LogDefines × Declarations :=
  if new = d.1 then d else (new, d.2.load d.1 new)

/-- Documents declare, and nothing else does. -/
def declare (y : YamlCpp) (d : LogDefines × Declarations) : Event T → LogDefines × Declarations
  | .LoadFromYaml _ root => (configurations y root).foldl settle d
  | _ => d

/-- The configuration in force, and what is declared, after the documents of a run. -/
def documents (y : YamlCpp) (tr : List (Event T)) : LogDefines × Declarations :=
  tr.foldl (declare y) (Keyed.empty, .initial)

/-- No configuration that differs from the one before it keeps an entry of it. -/
def Renewed : LogDefines → List LogDefines → Prop
  | _, [] => True
  | old, new :: news => (new = old ∨ ∀ i ∈ new, i ∉ old) ∧ Renewed new news

/-- In any case the configuration is in force afterwards. -/
theorem settle_fst (d : LogDefines × Declarations) (new : LogDefines) :
    (settle d new).1 = new := by
  unfold settle
  split
  · exact Eq.symm ‹_›
  · rfl

/-! ## The listener and its variable -/

section Listener

variable {y : YamlCpp} {env : Env} {m m' : LoggerManager} {d : LogDefines × Declarations}
variable {old new : LogDefines} {val : String} {texts : List String} {key : Nat}

/-- `operator==` of configurations. -/
theorem beq_iff : (new == old) = true ↔ new = old := by
  show (new.toList == old.toList) = true ↔ _
  rw [beq_iff_eq]
  exact ⟨Keyed.ext, congrArg Keyed.toList⟩

/-- What the manager does when it is told of a change of `g_log_defines`. -/
def listen (env : Env) (m : LoggerManager) (n : Notification LogDefines) :
    Except Fault LoggerManager :=
  onChange env n.old_value n.new_value m

theorem definesWith_returning : (definesWith old).Returning := by
  intro i hi a b
  obtain rfl : i = (1, fun _ _ ↦ .ok ()) := List.mem_singleton.mp hi
  rfl

/-- The variable is given a text. -/
theorem fromString_same (h : LogDefines.fromString y val = .ok old) :
    (definesWith old).fromString (LogDefines.cast y) val = ([], false, definesWith old) := by
  have hval : (old == (definesWith old).val) = true := beq_iff.mpr rfl
  rw [ConfigVar.fromString_ok h, ConfigVar.setValue_same hval]

theorem fromString_changed (h : LogDefines.fromString y val = .ok new) (hne : new ≠ old) :
    (definesWith old).fromString (LogDefines.cast y) val =
      ([⟨1, old, new⟩], false, definesWith new) := by
  have hval : ¬ (new == (definesWith old).val) = true := mt beq_iff.mp hne
  rw [ConfigVar.fromString_ok h, ConfigVar.setValue_returning definesWith_returning, if_neg hval]
  rfl

theorem Shows.announces (h : Shows m d.2) : Announces m := by
  refine (formatted_iff.mpr ⟨fun l lg hl ↦ ?_, fun l lg hl a ha ap hap ↦ ?_⟩).announces
  · obtain ⟨f, hf, -⟩ := h.parsed.logger l lg hl
    exact ⟨f, hf, trivial⟩
  · obtain ⟨f, hf, -⟩ := h.parsed.appender l lg hl a ha ap hap
    exact ⟨f, hf, trivial⟩

/-- The listener ends exactly if no entry has been kept. -/
theorem Shows.ends_iff (h : Shows m d.2) (hnew : new.Typed) :
    (∃ m', listen env m ⟨key, old, new⟩ = .ok m') ↔ ∀ i ∈ new, i ∉ old := by
  constructor
  · rintro ⟨m', hm'⟩ i hi hold
    obtain ⟨_, m₁, h₁, _⟩ := onChange_ok hm'
    obtain ⟨u, u', hu⟩ := foldlM_rounds h₁ i hi
    rw [applyDefine_null hold] at hu
    cases hu
  · exact onChange_total env hnew h.separate.toValid h.announces

/-- The configurations among some texts. -/
def converted (y : YamlCpp) (texts : List String) : List LogDefines :=
  texts.filterMap fun v ↦ (LogDefines.fromString y v).toOption

theorem converted_document {root : Node} :
    converted y ((root.reached "logs").map (Config.textOf y)) = configurations y root :=
  List.filterMap_map ..

theorem converted_error {e : Exception} (h : LogDefines.fromString y val = .error e) :
    converted y (val :: texts) = converted y texts :=
  List.filterMap_cons_none (by rw [h]; rfl)

theorem converted_ok (h : LogDefines.fromString y val = .ok new) :
    converted y (val :: texts) = new :: converted y texts :=
  List.filterMap_cons_some (by rw [h]; rfl)

/-- Texts are given to `g_log_defines` one after the other.  The last configuration is
its value. -/
theorem reload_val_defines : ((definesWith d.1).reload (LogDefines.cast y) texts).2 =
    definesWith ((converted y texts).foldl settle d).1 := by
  induction texts generalizing d with
  | nil => rfl
  | cons val texts ih =>
      rw [ConfigVar.reload_cons]
      cases hval : LogDefines.fromString y val with
      | error e =>
          rw [converted_error hval, ConfigVar.fromString_error hval]
          exact ih
      | ok new =>
          rw [converted_ok hval, List.foldl_cons, ← ih, settle_fst]
          by_cases hnew : new = d.1
          · subst hnew
            rw [fromString_same hval]
          · rw [fromString_changed hval hnew]

/-- **The listener of one variable.**  If the manager shows what has been declared before
the texts, it shows afterwards what is declared then. -/
theorem Shows.reload {d : LogDefines × Declarations} (h : Shows m d.2)
    (hm : ((definesWith d.1).reload (LogDefines.cast y) texts).1.foldlM (listen env) m = .ok m') :
    Shows m' ((converted y texts).foldl settle d).2 := by
  induction texts generalizing m d with
  | nil =>
      cases hm
      exact h
  | cons val texts ih =>
      rw [ConfigVar.reload_cons] at hm
      cases hval : LogDefines.fromString y val with
      | error e =>
          rw [ConfigVar.fromString_error hval] at hm
          rw [converted_error hval]
          exact ih h hm
      | ok new =>
          rw [converted_ok hval, List.foldl_cons]
          by_cases hnew : new = d.1
          · subst hnew
            rw [fromString_same hval] at hm
            rw [settle, if_pos rfl]
            exact ih h hm
          · rw [fromString_changed hval hnew, List.singleton_append, List.foldlM_cons,
              Except.bind_ok_iff] at hm
            obtain ⟨m₁, h₁, hm⟩ := hm
            rw [settle, if_neg hnew]
            exact ih (h.onChange h₁) hm

variable (env) in
/-- The listener survives exactly if every change is a complete one. -/
theorem Shows.reload_iff {d : LogDefines × Declarations} (h : Shows m d.2) :
    (∃ m', ((definesWith d.1).reload (LogDefines.cast y) texts).1.foldlM (listen env) m = .ok m') ↔
      Renewed d.1 (converted y texts) := by
  induction texts generalizing m d with
  | nil => exact iff_of_true ⟨m, rfl⟩ trivial
  | cons val texts ih =>
      rw [ConfigVar.reload_cons]
      cases hval : LogDefines.fromString y val with
      | error e =>
          rw [ConfigVar.fromString_error hval, converted_error hval]
          exact ih h
      | ok new =>
          rw [converted_ok hval, Renewed]
          by_cases hnew : new = d.1
          · subst hnew
            rw [fromString_same hval, eq_self, true_or, true_and]
            exact ih h
          · rw [fromString_changed hval hnew, List.singleton_append, List.foldlM_cons,
              or_iff_right hnew]
            have htyped : new.Typed := (LogDefines.fromString_read hval).typed
            rw [← h.ends_iff htyped]
            cases hl : listen env m ⟨1, d.1, new⟩ with
            | error f => exact iff_of_false nofun fun ⟨⟨_, hm⟩, _⟩ ↦ nomatch hm
            | ok m₁ =>
                have hshows : Shows m₁ (new, d.2.load d.1 new).2 := h.onChange hl
                exact (ih hshows).trans (and_iff_right ⟨m₁, rfl⟩).symm

end Listener

/-! ## Runs -/

section Runs

variable {y : YamlCpp} {cast : ∀ t, LexicalCast (T t)} {p : VarPtr} {s s₀ t : Stores T}
variable {e : Event T} {tr : List (Event T)} {d : LogDefines × Declarations} {env : Env}
variable {m : LoggerManager} {root : Node}

/-- Of the calls of a document's listeners the manager hears those of one variable. -/
theorem foldlM_hear {ns : List (VarPtr × Σ t, Notification (Values T t))}
    {xs : List (Notification LogDefines)}
    (h : (ns.filter fun n ↦ n.1 = p) = xs.map fun n ↦ (p, ⟨none, n⟩)) :
    ns.foldlM (hear env p) m = xs.foldlM (listen env) m := by
  induction ns generalizing xs m with
  | nil =>
      rw [List.map_eq_nil_iff.mp h.symm]
      rfl
  | cons n ns ih =>
      obtain ⟨q, o, n⟩ := n
      by_cases hq : q = p
      · subst hq
        rw [List.filter_cons_of_pos (by simp)] at h
        cases xs with
        | nil => cases h
        | cons x xs =>
            rw [List.map_cons, List.cons.injEq] at h
            obtain ⟨hx, hxs⟩ := h
            cases hx
            rw [List.foldlM_cons, List.foldlM_cons, hear, if_pos rfl, listen]
            exact congrArg _ (funext fun _ ↦ ih hxs)
      · rw [List.filter_cons_of_neg (by simpa using hq)] at h
        have hsilent : hear env p m (q, ⟨o, n⟩) = .ok m := by
          cases o with
          | none => exact if_neg hq
          | some _ => rfl
        rw [List.foldlM_cons, hsilent]
        exact ih h

variable [DecidableEq τ]

/-- The stores after the constructor of `LogIniter`: `g_log_defines` is registered, and
loggers have been fetched. -/
structure Initialized (p : VarPtr) (s : Stores T) : Prop where
  reachable : s.config.Reachable
  bound : s.config.datas "logs" = some p
  var : s.config.vars p = some ⟨none, g_log_defines⟩
  fetched : ∃ names : List String,
    s.manager = names.foldl (fun m name ↦ (m.getLogger name).2) .new

/-- The stores agree with what has been declared. -/
structure Follows (p : VarPtr) (s : Stores T) (d : LogDefines × Declarations) : Prop where
  reachable : s.config.Reachable
  bound : s.config.datas "logs" = some p
  var : s.config.vars p = some ⟨none, definesWith d.1⟩
  shows : Shows s.manager d.2

theorem Initialized.follows (h : Initialized p s) : Follows p s (Keyed.empty, .initial) := by
  refine ⟨h.reachable, h.bound, h.var, ?_⟩
  obtain ⟨names, hnames⟩ := h.fetched
  rw [hnames]
  clear hnames
  induction names using List.reverseRecOn with
  | nil => exact shows_new
  | append_singleton names name ih =>
      rw [List.foldl_append]
      exact (ih.getLogger name).1

variable [∀ t, BEq (T t)]

variable (y cast) in
/-- What a document does to `g_log_defines`. -/
theorem Follows.document (h : Follows p s d) (root : Node) :
    let r := s.config.LoadFromYaml y (casts y cast) root
    r.2.datas = s.config.datas ∧
      r.2.vars p = some ⟨none, definesWith ((configurations y root).foldl settle d).1⟩ ∧
      ∀ env m, r.1.foldlM (hear env p) m =
        ((definesWith d.1).reload (LogDefines.cast y)
          ((root.reached "logs").map (Config.textOf y))).1.foldlM (listen env) m := by
  intro r
  obtain ⟨hdatas, hvar, hcalls⟩ := Config.loadMembers_variable y (casts y cast)
    h.reachable.distinct (by decide) h.bound (h.reachable.valid.names _ _ h.bound) h.var
    (ListAllMember "" root) (Config.valid_of_mem_document root)
  rw [Config.textsOf_document] at hvar hcalls
  refine ⟨hdatas, ?_, fun env m ↦ foldlM_hear hcalls⟩
  rw [← converted_document, ← reload_val_defines]
  exact hvar

/-- **Step lemma.** -/
theorem Follows.step (h : Follows p s d) (hs : Step y cast p s e t) :
    Follows p t (declare y d e) := by
  cases hs with
  | getLogger name => exact ⟨h.reachable, h.bound, h.var, (h.shows.getLogger name).1⟩
  | Lookup hdivert hl =>
      have hv := h.reachable.valid
      refine ⟨h.reachable.Lookup hl, Config.step_bound hv hl ⟨h.bound, _, h.var⟩ ?_,
        Config.step_vars hv hl h.var, h.shows⟩
      intro u d description hcall
      cases u with
      | none => rfl
      | some u =>
          rw [hcall] at hdivert
          exact absurd rfl hdivert
  | write hq hc =>
      exact ⟨h.reachable.write _ hc, h.bound, (Function.update_of_ne hq.symm _ _).trans h.var,
        h.shows⟩
  | LoadFromYaml hm =>
      obtain ⟨hdatas, hvar, hcalls⟩ := h.document y cast _
      rw [hcalls] at hm
      refine ⟨h.reachable.loadMembers y (casts y cast) _, hdatas.symm ▸ h.bound, hvar, ?_⟩
      rw [declare, ← converted_document]
      exact h.shows.reload hm

/-- **Run lemma.** -/
theorem follows_of_run (hi : Initialized p s₀) (h : Run (Step y cast p) s₀ tr s) :
    Follows p s (documents y tr) := by
  refine Run.history (P := fun tr s ↦ Follows p s (documents y tr)) hi.follows ?_ h
  intro tr s e t _ ih hs
  rw [documents, List.foldl_append]
  exact ih.step hs

variable (y cast) in
/-- A document is loaded if the listener survives it. -/
theorem Follows.loads (h : Follows p s d) (env : Env) (root : Node) :
    (∃ t, Step y cast p s (.LoadFromYaml env root) t) ↔ Renewed d.1 (configurations y root) := by
  obtain ⟨-, -, hcalls⟩ := h.document y cast root
  rw [← converted_document, ← h.shows.reload_iff env, ← hcalls]
  constructor
  · rintro ⟨t, ht⟩
    cases ht with
    | LoadFromYaml hm => exact ⟨_, hm⟩
  · rintro ⟨m, hm⟩
    exact ⟨_, .LoadFromYaml hm⟩

/-- **Loggers write what the documents declare.**  Documents are loaded one after the other,
and in between loggers are fetched, and variables looked up and changed.  A macro on the
logger of any name then writes the lines of the sinks that the documents have declared for
the name, in their order, and no others. -/
theorem documents_declared (hi : Initialized p s₀) (h : Run (Step y cast p) s₀ tr s) (env : Env)
    (name : String) (level : Level) (content : String) :
    ∃ lines, (s.manager.getLogger name).2.SYLAR_LOG_LEVEL env (s.manager.getLogger name).1 level
        content = .ok lines ∧
      (s.manager.getLogger name).2.written lines =
        linesOf env level (env.event name level content)
          ((documents y tr).2.route name level) :=
  ((follows_of_run hi h).shows.getLogger name).1.macro_lines (LoggerManager.getLogger_found name)
    env level content

end Runs

/-! ## One document -/

/-- A program with no other variables than `g_log_defines` and some numbers. -/
def initialStores : Stores fun _ : Unit ↦ Nat where
  config :=
    let m : Config (Values fun _ : Unit ↦ Nat) :=
      Config.empty.create none "logs" Keyed.empty "logs config"
    { m with vars := Function.update m.vars 0 (some ⟨none, g_log_defines⟩) }
  manager := .new

theorem initialStores_initialized : Initialized 0 initialStores where
  reachable := .write _ (.Lookup .empty (Config.step_new rfl (by decide))) rfl
  bound := rfl
  var := rfl
  fetched := ⟨[], rfl⟩

/-- `LexicalCast<std::string, uint32_t>`, on decimal digits. -/
def digits : LexicalCast Nat where
  fromString v := v.toNat?.elim (.error .bad_lexical_cast) .ok
  toString n := .ok (toString n)

/-- A document that declares one logger. -/
def consoleDocument : Node := .map [(.scalar "logs", consoleTree [])]

theorem configurations_console :
    configurations consoleYaml consoleDocument = [console .UNKNOW] := by
  rfl

theorem renewed_console : Renewed Keyed.empty (configurations consoleYaml consoleDocument) := by
  rw [configurations_console]
  exact ⟨.inr fun _ _ hi ↦ (by cases hi), trivial⟩

theorem documents_declared_console : ∃ s lines,
    Run (Step consoleYaml (fun _ ↦ digits) 0) initialStores
      [.LoadFromYaml .plain consoleDocument] s ∧
    (s.manager.getLogger "system").2.SYLAR_LOG_LEVEL .plain (s.manager.getLogger "system").1 .WARN
      "disk full" = .ok lines ∧
    (s.manager.getLogger "system").2.written lines =
      linesOf .plain .WARN (Env.plain.event "system" .WARN "disk full")
        [⟨.StdoutLogAppender, .UNKNOW, defaultPattern⟩] := by
  obtain ⟨s, hs⟩ := (initialStores_initialized.follows.loads consoleYaml
    (fun _ ↦ digits) .plain consoleDocument).mpr renewed_console
  have hrun := Run.cons hs (.nil s)
  obtain ⟨lines, hlines, hwritten⟩ :=
    documents_declared initialStores_initialized hrun .plain "system" .WARN "disk full"
  exact ⟨s, lines, hrun, hlines, hwritten⟩

end Log

end Sylar
