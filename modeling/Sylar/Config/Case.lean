import Sylar.Config.Aliases
import Sylar.Config.Loading

/-!
# Keys in upper case

`LoadFromYaml` takes a key in lower case when it looks for the variable, but what
it looks for comes from `ListAllMember`, which takes a letter in upper case for
an invalid character.  So a key that is not in lower case does not get as far as
the conversion.

`lower` is the document with its keys in lower case, and a path spells a name
when it is the name up to case.
-/

namespace Sylar

open Foundation Yaml Yaml.Node

namespace Yaml.Node

/-- A key in lower case. -/
def lowerKey : Node → Node
  | .scalar s => .scalar (tolower s)
  | n => n

mutual

/-- A document with the keys of its maps in lower case.  The nodes of a sequence
are not members, and stay as they are. -/
def lower : Node → Node
  | .map ps => .map (lower.pairs ps)
  | .null => .null
  | .scalar s => .scalar s
  | .sequence ns => .sequence ns

def lower.pairs : List (Node × Node) → List (Node × Node)
  | [] => []
  | it :: ps => lower.pair it :: lower.pairs ps

def lower.pair : Node × Node → Node × Node
  | (k, v) => (lowerKey k, lower v)

end

end Yaml.Node

/-- The keys spell the name up to case. -/
def Spells (ks : List String) (k : String) : Prop := tolower (dotted ks) = k

instance (ks : List String) (k : String) : Decidable (Spells ks k) :=
  inferInstanceAs (Decidable (tolower (dotted ks) = k))

/-- No letter of the keys is in upper case. -/
def NoUpper (ks : List String) : Prop := ∀ key ∈ ks, ∀ c ∈ key.toList, c.isUpper = false

/-- The nodes whose path spells a name, in preorder. -/
def Yaml.Node.spelled (root : Node) (k : String) : List Node :=
  ((root.entries []).filter fun i ↦ Spells i.1 k).map Prod.snd

/-! ## Names in lower case -/

section Names

variable {s : String} {k : String} {ks : List String}

@[simp] theorem tolower_append (s t : String) : tolower (s ++ t) = tolower s ++ tolower t := by
  simp only [tolower, String.toList_append, List.map_append, String.ofList_append]

@[simp] theorem tolower_eq_empty : tolower s = "" ↔ s = "" := by
  rw [tolower, String.ofList_eq_empty_iff, List.map_eq_nil_iff, String.toList_eq_nil_iff]

/-- A path in lower case is the path of the keys in lower case. -/
theorem tolower_dotted (ks : List String) : tolower (dotted ks) = dotted (ks.map tolower) := by
  induction ks using List.reverseRecOn with
  | nil => rfl
  | append_singleton ks k ih =>
      rw [List.map_append, List.map_singleton, dotted_concat, dotted_concat, ← ih]
      by_cases hempty : dotted ks = ""
      · rw [if_pos hempty, if_pos (tolower_eq_empty.mpr hempty)]
      · have hdot : tolower "." = "." := by decide
        rw [if_neg hempty, if_neg (mt tolower_eq_empty.mp hempty), tolower_append, tolower_append,
          hdot]

theorem validName_concat :
    ValidName (dotted (ks ++ [k])) ↔ ValidName (dotted ks) ∧ ValidName k := by
  rw [dotted_concat]
  exact validName_extend

/-- Whatever leads to a valid path is valid. -/
theorem visible_iff : Visible ks ↔ ValidName (dotted ks) := by
  refine ⟨Visible.valid, fun h ↦ ?_⟩
  induction ks using List.reverseRecOn with
  | nil =>
      intro pre hp
      rw [List.prefix_nil.mp hp]
      exact validName_empty
  | append_singleton ks k ih => exact visible_concat.mpr ⟨ih (validName_concat.mp h).1, h⟩

theorem tolower_of_noUpper (h : ∀ c ∈ s.toList, c.isUpper = false) : tolower s = s := by
  have hlower : ∀ c ∈ s.toList, c.toLower = id c := fun c hc ↦ by
    have hc' : ¬ (c.val ≥ 'A'.val ∧ c.val ≤ 'Z'.val) := of_decide_eq_false (h c hc)
    exact dif_neg hc'
  rw [tolower, List.map_congr_left hlower, List.map_id, String.ofList_toList]

/-- No name character is a letter in upper case. -/
theorem not_isUpper_of_valid (h : ValidName s) : ∀ c ∈ s.toList, c.isUpper = false := by
  have hall : (nameChars.all fun c ↦ c.isUpper = false) = true := by decide
  have hchars : ∀ c ∈ nameChars, c.isUpper = false := by simpa using hall
  exact fun c hc ↦ hchars c (h c hc)

theorem NoUpper.map_tolower (h : NoUpper ks) : ks.map tolower = ks := by
  conv_rhs => rw [← List.map_id ks]
  exact List.map_congr_left fun key hkey ↦ tolower_of_noUpper (h key hkey)

theorem noUpper_of_valid (h : ValidName (dotted ks)) : NoUpper ks := by
  induction ks using List.reverseRecOn with
  | nil => exact fun _ hkey ↦ nomatch hkey
  | append_singleton ks k ih =>
      obtain ⟨hks, hk⟩ := validName_concat.mp h
      intro key hkey
      rcases List.mem_append.mp hkey with hkey | hkey
      · exact ih hks key hkey
      · rw [List.mem_singleton.mp hkey]
        exact not_isUpper_of_valid hk

/-- Keys that spell a valid name are its path exactly if they are in lower case. -/
theorem Spells.dotted_eq_iff (hk : ValidName k) (h : Spells ks k) :
    dotted ks = k ↔ NoUpper ks := by
  constructor
  · intro heq
    apply noUpper_of_valid
    rwa [heq]
  · intro hno
    rw [← h, tolower_dotted, hno.map_tolower]

end Names

/-! ## The document in lower case -/

theorem lowerKey_Scalar (k : Node) : (lowerKey k).Scalar = tolower k.Scalar := by
  cases k <;> rfl

mutual

theorem entries_lower : ∀ (n : Node) (ks : List String), n.lower.entries (ks.map tolower) =
    (n.entries ks).map fun i ↦ (i.1.map tolower, i.2.lower)
  | .map ps, ks => by
      rw [lower, entries, entries, entries_lower_pairs ps ks, List.map_cons, lower]
  | .null, _ => rfl
  | .scalar _, _ => rfl
  | .sequence _, _ => rfl

theorem entries_lower_pairs : ∀ (ps : List (Node × Node)) (ks : List String),
    entries.pairs (ks.map tolower) (lower.pairs ps) =
      (entries.pairs ks ps).map fun i ↦ (i.1.map tolower, i.2.lower)
  | [], _ => rfl
  | it :: ps, ks => by
      rw [lower.pairs, entries.pairs, entries.pairs, List.map_append, entries_lower_pair it ks,
        entries_lower_pairs ps ks]

theorem entries_lower_pair : ∀ (it : Node × Node) (ks : List String),
    entries.pair (ks.map tolower) (lower.pair it) =
      (entries.pair ks it).map fun i ↦ (i.1.map tolower, i.2.lower)
  | (k, v), ks => by
      have hpath : ks.map tolower ++ [tolower k.Scalar] = (ks ++ [k.Scalar]).map tolower := by
        simp
      rw [lower.pair, entries.pair, entries.pair, lowerKey_Scalar, hpath, entries_lower]

end

/-- In lower case, all that spells a registered name is reached. -/
theorem reached_lower {k : String} (hk : ValidName k) (root : Node) :
    root.lower.reached k = (root.spelled k).map lower := by
  have hentries : root.lower.entries [] =
      (root.entries []).map fun i ↦ (i.1.map tolower, i.2.lower) := entries_lower root []
  rw [Yaml.Node.reached, hentries, List.filter_map, Yaml.Node.spelled, List.map_map, List.map_map]
  congr 1
  apply List.filter_congr
  intro i _
  rw [Function.comp_apply, decide_eq_decide, visible_iff, ← tolower_dotted]
  exact ⟨fun h ↦ h.2, fun h ↦ ⟨h.symm ▸ hk, h⟩⟩


namespace Config

variable {τ : Type} {T : τ → Type} {m : Config T} {k : String} {p : VarPtr}

/-! ## The calls of a load -/

/-- The call of `fromString` that `LoadFromYaml` makes for a member: the variable and
the text. -/
def callOf (y : YamlCpp) (m : Config T) (i : String × Node) : Option (VarPtr × String) :=
  if i.1 = "" then none
  else (m.LookupBase (tolower i.1)).map fun var ↦ (var, textOf y i.2)

/-- The calls it makes. -/
def loadCalls (y : YamlCpp) (m : Config T) (root : Node) : List (VarPtr × String) :=
  (ListAllMember "" root).filterMap (callOf y m)

/-- The texts one variable is given. -/
def callsOn (y : YamlCpp) (m : Config T) (p : VarPtr) (root : Node) : List String :=
  ((m.loadCalls y root).filter fun x ↦ x.1 = p).map Prod.snd

theorem loadMember_eq_callOf [∀ t, BEq (T t)] (y : YamlCpp) (cast : ∀ t, LexicalCast (T t))
    (m : Config T) (i : String × Node) : m.loadMember y cast i =
      match m.callOf y i with
      | none => ([], m)
      | some x => m.fromString cast x.1 x.2 := by
  rw [loadMember, callOf]
  split
  · rfl
  · cases m.LookupBase (tolower i.1) <;> rfl

/-- Loading a document is making these calls. -/
theorem LoadFromYaml_eq_calls [∀ t, BEq (T t)] (y : YamlCpp) (cast : ∀ t, LexicalCast (T t))
    (m : Config T) (root : Node) :
    m.LoadFromYaml y cast root = (m.loadCalls y root).foldl (fun s x ↦
      let r := s.2.fromString cast x.1 x.2
      (s.1 ++ r.1, r.2)) ([], m) := by
  show m.loadMembers y cast (ListAllMember "" root) = _
  rw [loadCalls]
  induction ListAllMember "" root using List.reverseRecOn with
  | nil => rfl
  | append_singleton is i ih =>
      have hsame : (m.loadMembers y cast is).2.callOf y i = m.callOf y i := by
        simp only [callOf, LookupBase, loadMembers_datas]
      rw [loadMembers_concat, List.filterMap_append, List.foldl_append, ← ih,
        loadMember_eq_callOf, hsame]
      cases hcall : m.callOf y i <;> simp [hcall]

/-- The calls on a variable are those for its own key. -/
theorem callOf_filter (hd : m.Distinct) (hk : k ≠ "") (hp : m.datas k = some p) (y : YamlCpp)
    {i : String × Node} (hi : ValidName i.1) :
    (m.callOf y i).filter (fun x ↦ x.1 = p) =
      if i.1 = k then some (p, textOf y i.2) else none := by
  rw [callOf, tolower_of_valid hi, LookupBase]
  split
  · rename_i hempty
    have hkey : ¬ i.1 = k := by
      rintro rfl
      exact hk hempty
    rw [if_neg hkey]
    rfl
  · split
    · rename_i hkey
      rw [hkey, hp]
      simp
    · rename_i hkey
      cases hq : m.datas i.1 with
      | none => rfl
      | some q =>
          have hqp : q ≠ p := fun h ↦ hkey (hd i.1 k p (h ▸ hq) hp)
          simp [hqp]

/-- A variable is given the nodes that are reached at its own path. -/
theorem callsOn_eq_reached (hd : m.Distinct) (hk : k ≠ "") (hp : m.datas k = some p)
    (y : YamlCpp) (root : Node) : m.callsOn y p root = (root.reached k).map (textOf y) := by
  rw [← textsOf_document, callsOn, loadCalls, List.filter_filterMap]
  have hcalls : ∀ i ∈ ListAllMember "" root, (m.callOf y i).filter (fun x ↦ x.1 = p) =
      if i.1 = k then some (p, textOf y i.2) else none := fun i hi ↦
    callOf_filter hd hk hp y (valid_of_mem_document root i hi)
  rw [List.filterMap_congr hcalls, List.map_filterMap, textsOf, ← List.filterMap_eq_map,
    List.filterMap_filter]
  apply List.filterMap_congr
  intro i _
  by_cases hkey : i.1 = k <;> simp [hkey]

/-- Of what spells a name, as much is reached as has it for its path. -/
theorem reached_eq_filter (hk : ValidName k) (root : Node) : root.reached k =
    (((root.entries []).filter fun i ↦ Spells i.1 k).filter fun i ↦ dotted i.1 = k).map
      Prod.snd := by
  rw [Yaml.Node.reached, List.filter_filter]
  congr 1
  apply List.filter_congr
  intro i _
  rw [← Bool.decide_and, decide_eq_decide, visible_iff]
  constructor
  · rintro ⟨hvalid, hpath⟩
    exact ⟨hpath, (tolower_of_valid hvalid).trans hpath⟩
  · rintro ⟨hpath, -⟩
    exact ⟨hpath ▸ hk, hpath⟩

/-- **Keys are matched in lower case only.**  With its keys in lower case, a document leads
to one call for each node whose path spells the name.  As it is, it leads to the same
calls exactly if no letter of these paths is in upper case. -/
theorem matched_iff [DecidableEq τ] (hm : m.Reachable) (y : YamlCpp) (root : Node) (hk : k ≠ "")
    (hp : m.datas k = some p)
    (hscalar : ∀ i ∈ root.entries [], Spells i.1 k → ∃ s, i.2 = .scalar s) :
    m.callsOn y p root.lower = (root.spelled k).map (textOf y) ∧
      (m.callsOn y p root = m.callsOn y p root.lower ↔
        ∀ i ∈ root.entries [], Spells i.1 k → NoUpper i.1) := by
  have hname : ValidName k := hm.valid.names k p hp
  have hlower : (root.spelled k).map lower = root.spelled k := by
    conv_rhs => rw [← List.map_id (root.spelled k)]
    apply List.map_congr_left
    intro n hn
    obtain ⟨i, hi, rfl⟩ := List.mem_map.mp hn
    obtain ⟨hi, hspells⟩ := List.mem_filter.mp hi
    obtain ⟨s, hs⟩ := hscalar i hi (of_decide_eq_true hspells)
    rw [hs]
    rfl
  have hcalls : m.callsOn y p root.lower = (root.spelled k).map (textOf y) := by
    rw [callsOn_eq_reached hm.distinct hk hp, reached_lower hname, hlower]
  refine ⟨hcalls, ?_⟩
  rw [hcalls, callsOn_eq_reached hm.distinct hk hp, reached_eq_filter hname, Yaml.Node.spelled]
  generalize hl : (root.entries []).filter (fun i ↦ Spells i.1 k) = l
  have hmem : ∀ i, i ∈ l ↔ i ∈ root.entries [] ∧ Spells i.1 k := fun i ↦ by
    rw [← hl, List.mem_filter, decide_eq_true_iff]
  constructor
  · intro hsame i hi hspells
    -- no node is missing, so none was filtered out
    have hlength : (l.filter fun i ↦ dotted i.1 = k).length = l.length := by
      simpa using congrArg List.length hsame
    have hpath := List.length_filter_eq_length_iff.mp hlength i ((hmem i).mpr ⟨hi, hspells⟩)
    exact (hspells.dotted_eq_iff hname).mp (of_decide_eq_true hpath)
  · intro hno
    have hall : l.filter (fun i ↦ dotted i.1 = k) = l := by
      rw [List.filter_eq_self]
      intro i hi
      obtain ⟨hi, hspells⟩ := (hmem i).mp hi
      exact decide_eq_true ((hspells.dotted_eq_iff hname).mpr (hno i hi hspells))
    rw [hall]

/-- The port under a key in upper case. -/
def portDocument : Node :=
  .map [(.scalar "System", .map [(.scalar "PORT", .scalar "9090")])]

theorem matched_onePort :
    onePort.callsOn noYaml 0 portDocument.lower =
        (portDocument.spelled "system.port").map (textOf noYaml) ∧
      (onePort.callsOn noYaml 0 portDocument = onePort.callsOn noYaml 0 portDocument.lower ↔
        ∀ i ∈ portDocument.entries [], Spells i.1 "system.port" → NoUpper i.1) := by
  have hscalar : ∀ i ∈ portDocument.entries [], Spells i.1 "system.port" →
      ∃ s, i.2 = .scalar s := by
    intro i hi hspells
    simp only [portDocument, entries, entries.pairs, entries.pair, List.append_nil,
      List.mem_cons, List.not_mem_nil, or_false] at hi
    rcases hi with rfl | rfl | rfl
    · exact absurd hspells (by decide)
    · exact absurd hspells (by decide)
    · exact ⟨"9090", rfl⟩
  exact matched_iff (.Lookup .empty step_onePort) noYaml portDocument (by decide) rfl hscalar

/-- The keys spell the name of the port, and nothing is called. -/
theorem not_matched : Spells ["System", "PORT"] "system.port" ∧
    onePort.callsOn noYaml 0 portDocument.lower = ["9090"] ∧
    onePort.callsOn noYaml 0 portDocument = [] := by
  decide

end Config

end Sylar
