import Sylar.Yaml.Node

/-!
# Texts that load as what was emitted

That yaml-cpp loads what it emits is taken for granted where values are written
and read again.  Here is a text format for which it is so, for every tree: it
writes chosen trees as chosen texts, and the others in a code of its own.
-/

namespace Sylar.Yaml

/-- The emitted text of a node loads as an equal node. -/
def YamlCpp.Reloads (y : YamlCpp) : Prop := ∀ n, y.load (y.emit n) = .ok n

namespace Node

/-- The characters of a scalar, up to an end mark. -/
def chars : List Char → List Char
  | [] => ['.']
  | c :: cs => ',' :: c :: chars cs

mutual

/-- A code in which no tree's text begins another's. -/
def code : Node → List Char
  | null => ['n']
  | scalar s => 's' :: chars s.toList
  | sequence ns => 'q' :: codes ns
  | map ps => 'm' :: codePairs ps

def codes : List Node → List Char
  | [] => ['.']
  | n :: ns => ',' :: (code n ++ codes ns)

def codePairs : List (Node × Node) → List Char
  | [] => ['.']
  | p :: ps => ',' :: (codePair p ++ codePairs ps)

def codePair : Node × Node → List Char
  | (k, v) => code k ++ code v

end

theorem chars_append_inj : ∀ {cs cs' t t' : List Char}, chars cs ++ t = chars cs' ++ t' →
    cs = cs' ∧ t = t'
  | [], [], _, _, h => by simpa [chars] using h
  | [], _ :: _, _, _, h => by simp [chars] at h
  | _ :: _, [], _, _, h => by simp [chars] at h
  | c :: cs, c' :: cs', t, t', h => by
      simp only [chars, List.cons_append, List.cons.injEq, true_and] at h
      obtain ⟨rfl, ht⟩ := chars_append_inj h.2
      exact ⟨by rw [h.1], ht⟩

mutual

/-- A tree is the only one that a text begins with. -/
theorem code_append_inj : ∀ (n n' : Node) (t t' : List Char), n.code ++ t = n'.code ++ t' →
    n = n' ∧ t = t'
  | null, n', t, t', h => by
      cases n' <;> simp [code] at h
      exact ⟨rfl, h⟩
  | scalar s, n', t, t', h => by
      cases n' <;> simp only [code, List.cons_append, List.cons.injEq, false_and, true_and,
        Char.reduceEq] at h
      obtain ⟨hs, ht⟩ := chars_append_inj h
      exact ⟨by rw [String.toList_inj.mp hs], ht⟩
  | sequence ns, n', t, t', h => by
      cases n' <;> simp only [code, List.cons_append, List.cons.injEq, false_and, true_and,
        Char.reduceEq] at h
      obtain ⟨rfl, ht⟩ := codes_append_inj ns _ t t' h
      exact ⟨rfl, ht⟩
  | map ps, n', t, t', h => by
      cases n' <;> simp only [code, List.cons_append, List.cons.injEq, false_and, true_and,
        Char.reduceEq] at h
      obtain ⟨rfl, ht⟩ := codePairs_append_inj ps _ t t' h
      exact ⟨rfl, ht⟩

theorem codes_append_inj : ∀ (ns ns' : List Node) (t t' : List Char),
    codes ns ++ t = codes ns' ++ t' → ns = ns' ∧ t = t'
  | [], ns', t, t', h => by
      cases ns' <;> simp [codes] at h
      exact ⟨rfl, h⟩
  | n :: ns, ns', t, t', h => by
      cases ns' with
      | nil => simp [codes] at h
      | cons n' ns' =>
          simp only [codes, List.cons_append, List.append_assoc, List.cons.injEq, true_and] at h
          obtain ⟨rfl, hrest⟩ := code_append_inj n n' _ _ h
          obtain ⟨rfl, ht⟩ := codes_append_inj ns ns' t t' hrest
          exact ⟨rfl, ht⟩

theorem codePairs_append_inj : ∀ (ps ps' : List (Node × Node)) (t t' : List Char),
    codePairs ps ++ t = codePairs ps' ++ t' → ps = ps' ∧ t = t'
  | [], ps', t, t', h => by
      cases ps' <;> simp [codePairs] at h
      exact ⟨rfl, h⟩
  | p :: ps, ps', t, t', h => by
      cases ps' with
      | nil => simp [codePairs] at h
      | cons p' ps' =>
          simp only [codePairs, List.cons_append, List.append_assoc, List.cons.injEq,
            true_and] at h
          obtain ⟨rfl, hrest⟩ := codePair_append_inj p p' _ _ h
          obtain ⟨rfl, ht⟩ := codePairs_append_inj ps ps' t t' hrest
          exact ⟨rfl, ht⟩

theorem codePair_append_inj : ∀ (p p' : Node × Node) (t t' : List Char),
    codePair p ++ t = codePair p' ++ t' → p = p' ∧ t = t'
  | (k, v), (k', v'), t, t', h => by
      simp only [codePair, List.append_assoc] at h
      obtain ⟨rfl, hrest⟩ := code_append_inj k k' _ _ h
      obtain ⟨rfl, ht⟩ := code_append_inj v v' _ _ hrest
      exact ⟨rfl, ht⟩

end

/-- The text of a tree in that code. -/
def text (n : Node) : String := String.ofList ('!' :: n.code)

theorem text_inj {n n' : Node} (h : n.text = n'.text) : n = n' := by
  have hlist : (String.ofList ('!' :: n.code)).toList = (String.ofList ('!' :: n'.code)).toList :=
    congrArg String.toList h
  rw [String.toList_ofList, String.toList_ofList, List.cons.injEq] at hlist
  exact (code_append_inj n n' [] [] (by simpa using hlist.2)).1

end Node

namespace YamlCpp

open Classical in
/-- The format that writes the trees of a table as the table says. -/
noncomputable def showing (table : List (Node × String)) : YamlCpp where
  load s :=
    match table.find? fun p ↦ p.2 = s with
    | some p => .ok p.1
    | none => if h : ∃ n : Node, n.text = s then .ok h.choose else .error .ParserException
  emit n :=
    match table.find? fun p ↦ p.1 = n with
    | some p => p.2
    | none => n.text
  asString
    | .scalar s => .ok s
    | _ => .error .BadConversion
  asSize := String.toNat?

/-- Different trees have different texts, and none of the format's own. -/
structure Legible (table : List (Node × String)) : Prop where
  texts : ∀ p ∈ table, ∀ q ∈ table, p.2 = q.2 → p = q
  plain : ∀ p ∈ table, p.2.toList.head? ≠ some '!'

open Classical in
theorem showing_reloads {table : List (Node × String)} (h : Legible table) :
    (showing table).Reloads := by
  intro n
  have hload : ∀ {s : String}, (table.find? fun p ↦ p.2 = s) = none → s = n.text →
      (showing table).load s = .ok n := by
    rintro s hnone rfl
    have hex : ∃ n' : Node, n'.text = n.text := ⟨n, rfl⟩
    simp only [showing, hnone, dif_pos hex]
    rw [Node.text_inj hex.choose_spec]
  cases hemit : table.find? fun p ↦ p.1 = n with
  | none =>
      have htext : (showing table).emit n = n.text := by
        simp only [showing]
        rw [hemit]
      rw [htext]
      refine hload (List.find?_eq_none.mpr fun p hp heq ↦ h.plain p hp ?_) rfl
      have heq : p.2 = n.text := by simpa using heq
      simp [heq, Node.text]
  | some p =>
      have hp : p ∈ table := List.mem_of_find?_eq_some hemit
      have hn : p.1 = n := by simpa using List.find?_some hemit
      have htext : (showing table).emit n = p.2 := by
        simp only [showing]
        rw [hemit]
      have hfind : (table.find? fun q ↦ q.2 = p.2) = some p := by
        cases hq : table.find? fun q ↦ q.2 = p.2 with
        | none =>
            have := List.find?_eq_none.mp hq p hp
            simp at this
        | some q =>
            have hq' : q.2 = p.2 := by simpa using List.find?_some hq
            rw [h.texts q (List.mem_of_find?_eq_some hq) p hp hq']
      rw [htext]
      simp only [showing, hfind, hn]

/-- The code alone is such a format. -/
theorem showing_nil_reloads : (showing []).Reloads :=
  showing_reloads ⟨fun _ h ↦ absurd h List.not_mem_nil, fun _ h ↦ absurd h List.not_mem_nil⟩

end YamlCpp

end Sylar.Yaml
