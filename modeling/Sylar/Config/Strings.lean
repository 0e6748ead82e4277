import Sylar.Config.Outcomes
import Mathlib.Data.Set.List

/-!
# Containers of strings

A string is its own text, but within a container that text is read as YAML, and
what is emitted of it is taken for the string when the container is read again.
So a string comes back exactly if it is the text of some node.

`Coding` is what is used of a way of writing lists of elements, and `Built` what
is used of a container that is filled with them.
-/

namespace Sylar

open Foundation Yaml Yaml.Node

/-- A text changes nothing exactly if it is read as a value that compares equal. -/
theorem ConfigVar.fromString_idle_iff {α : Type} [BEq α] {cast : LexicalCast α} {text : String}
    {v : α} (hread : cast.fromString text = .ok v) (hrefl : ∀ w : α, (w == w) = true)
    (c : ConfigVar α) : c.fromString cast text = ([], false, c) ↔ (v == c.val) = true := by
  rw [fromString_ok hread]
  rcases setValue_cases c v with
    ⟨heq, hr⟩ | ⟨hne, _, hr⟩ | ⟨hne, pre, i, post, e, _, _, _, hr⟩ <;> rw [hr]
  · exact iff_of_true rfl heq
  · refine iff_of_false (fun h ↦ ?_) (ne_true_of_eq_false hne)
    have hval : v = c.val := congrArg (fun r ↦ r.2.2.val) h
    rw [hval, hrefl] at hne
    cases hne
  · refine iff_of_false (fun h ↦ ?_) (ne_true_of_eq_false hne)
    simp [callsOf] at h

namespace LexicalCast

/-- `boost::lexical_cast` from a string to a string. -/
def string : LexicalCast String := ⟨.ok, .ok⟩

variable {β σ : Type} {y : YamlCpp}

/-! ## Writing strings -/

/-- The text is that of a node. -/
def Canonical (y : YamlCpp) (s : String) : Prop := ∃ n, y.emit n = s

theorem stored_string {s : String} {n : Node} : Stored y string s n ↔ y.load s = .ok n := by
  simp [Stored, string]

/-- A list of elements that each have an origin has a list of origins. -/
theorem exists_origins {α β : Type} {f : α → β} {l : List β} (h : ∀ b ∈ l, ∃ a, f a = b) :
    ∃ as : List α, as.map f = l :=
  (Set.ext_iff.mp (Set.range_list_map f) l).mpr h

/-- What is read of a container comes from good elements, and good elements come
back.  The empty text is read as the container without elements. -/
structure Coding (elems : σ → List β) (write : List β → Except Exception String)
    (read : String → Except Exception σ) (build : List β → σ) (good : β → Prop) : Prop where
  reads : ∀ v s, write (elems v) = .ok s → ∃ l, read s = .ok (build l) ∧ ∀ b ∈ l, good b
  writes : ∀ v, (∀ b ∈ elems v, good b) →
    ∃ s, write (elems v) = .ok s ∧ read s = .ok (build (elems v))
  fails : read "" = .ok (build [])

theorem coding_sequence (hy : y.Reloads) (hnull : y.load "" = .ok null) (elems : σ → List String)
    (add : σ → String → σ) (m_set : σ) :
    Coding elems (toSequence y string) (fromSequence y string add m_set)
      (fun l ↦ l.foldl add m_set) (Canonical y) := by
  have hread : ∀ ns : List Node,
      fromSequence y string add m_set (y.emit (rows ns)) =
        .ok ((ns.map y.emit).foldl add m_set) := fun ns ↦ by
    refine fromSequence_rows hy ?_ add m_set
    rw [List.forall₂_map_right_iff]
    exact List.forall₂_same.mpr fun n _ ↦ rfl
  refine ⟨fun v s hs ↦ ?_, fun v hgood ↦ ?_, fromSequence_empty hnull rfl _ _ _⟩
  · obtain ⟨ns, _, rfl⟩ := toSequence_eq_ok.mp hs
    refine ⟨ns.map y.emit, hread ns, fun b hb ↦ ?_⟩
    obtain ⟨n, _, rfl⟩ := List.mem_map.mp hb
    exact ⟨n, rfl⟩
  · obtain ⟨ns, hns⟩ := exists_origins hgood
    have hstored : List.Forall₂ (Stored y string) (elems v) ns := by
      rw [← hns, List.forall₂_map_left_iff]
      exact List.forall₂_same.mpr fun n _ ↦ stored_string.mpr (hy n)
    refine ⟨_, toSequence_eq_ok.mpr ⟨ns, hstored, rfl⟩, ?_⟩
    rw [hread, hns]

theorem coding_pairs (hy : y.Reloads) (hnull : y.load "" = .ok null)
    {elems : σ → List (String × String)}
    (hkeys : ∀ v, (elems v).Pairwise fun a b ↦ a.1 ≠ b.1)
    (add : σ → String × String → σ) (m_map : σ) :
    Coding elems (toPairs y string) (fromPairs y string add m_map)
      (fun l ↦ l.foldl add m_map) (fun p ↦ Canonical y p.2) := by
  have hread : ∀ qs : List (String × Node),
      fromPairs y string add m_map (y.emit (fields qs)) =
        .ok ((qs.map fun q ↦ (q.1, y.emit q.2)).foldl add m_map) := fun qs ↦ by
    refine fromPairs_fields hy ?_ add m_map
    rw [List.forall₂_map_right_iff]
    exact List.forall₂_same.mpr fun q _ ↦ ⟨rfl, rfl⟩
  refine ⟨fun v s hs ↦ ?_, fun v hgood ↦ ?_, fromPairs_empty hnull rfl _ _ _⟩
  · obtain ⟨qs, _, rfl⟩ := (toPairs_eq_ok (hkeys v)).mp hs
    refine ⟨_, hread qs, fun b hb ↦ ?_⟩
    obtain ⟨q, _, rfl⟩ := List.mem_map.mp hb
    exact ⟨q.2, rfl⟩
  · have horigin : ∀ p ∈ elems v, ∃ q : String × Node, (q.1, y.emit q.2) = p := fun p hp ↦ by
      obtain ⟨n, hn⟩ := hgood p hp
      exact ⟨(p.1, n), by rw [hn]⟩
    obtain ⟨qs, hqs⟩ := exists_origins horigin
    have hstored : List.Forall₂ (fun x q ↦ x.1 = q.1 ∧ Stored y string x.2 q.2) (elems v) qs := by
      rw [← hqs, List.forall₂_map_left_iff]
      exact List.forall₂_same.mpr fun q _ ↦ ⟨rfl, stored_string.mpr (hy q.2)⟩
    refine ⟨_, (toPairs_eq_ok (hkeys v)).mpr ⟨qs, hstored, rfl⟩, ?_⟩
    rw [hread, hqs]

/-! ## Containers and their elements -/

variable [BEq σ]

/-- Decoding the encoded value gives it back. -/
def Decodes (cast : LexicalCast σ) (v : σ) : Prop :=
  ∃ s v', cast.toString v = .ok s ∧ cast.fromString s = .ok v' ∧ (v' == v) = true

/-- A value survives its text under a condition, and a variable is left alone by
its own text under the same. -/
def KeptWhen (cast : LexicalCast σ) (cond : σ → Prop) : Prop :=
  (∀ v, Decodes cast v ↔ cond v) ∧
    ∀ c : ConfigVar σ, c.fromString cast (c.toString cast) = ([], false, c) ↔ cond c.val

/-- A container is built from a list, and the list of its own elements gives an
equal one. -/
structure Built (elems : σ → List β) (build : List β → σ) : Prop where
  refl : ∀ v : σ, (v == v) = true
  rebuild : ∀ v, (build (elems v) == v) = true
  mem : ∀ l v, (build l == v) = true → ∀ b ∈ elems v, b ∈ l

variable {elems : σ → List β} {build : List β → σ} {write : List β → Except Exception String}
  {read : String → Except Exception σ} {good : β → Prop}

theorem Coding.decodes_iff (hc : Coding elems write read build good) (hb : Built elems build)
    (v : σ) : Decodes ⟨read, fun v ↦ write (elems v)⟩ v ↔ ∀ b ∈ elems v, good b := by
  constructor
  · rintro ⟨s, v', hs, hread, heq⟩ b hmem
    obtain ⟨l, hl, hgood⟩ := hc.reads v s hs
    cases hl.symm.trans hread
    exact hgood b (hb.mem l v heq b hmem)
  · intro hgood
    obtain ⟨s, hs, hread⟩ := hc.writes v hgood
    exact ⟨s, _, hs, hread, hb.rebuild v⟩

/-- Where nothing can be written, the variable is read from the empty text. -/
theorem Coding.keptWhen (hc : Coding elems write read build good) (hb : Built elems build) :
    KeptWhen ⟨read, fun v ↦ write (elems v)⟩ fun v ↦ ∀ b ∈ elems v, good b := by
  refine ⟨hc.decodes_iff hb, fun c ↦ Iff.trans ?_ (hc.decodes_iff hb c.val)⟩
  cases hs : write (elems c.val) with
  | error e =>
      have htext : c.toString ⟨read, fun v ↦ write (elems v)⟩ = "" := by
        simp only [ConfigVar.toString, hs]
      rw [htext]
      apply Iff.trans (ConfigVar.fromString_idle_iff hc.fails hb.refl c)
      constructor
      · intro heq
        have hnone : ∀ b ∈ elems c.val, good b := fun b hmem ↦
          absurd (hb.mem [] c.val heq b hmem) List.not_mem_nil
        obtain ⟨s, hs', _⟩ := hc.writes c.val hnone
        cases hs.symm.trans hs'
      · rintro ⟨s, _, hs', _⟩
        cases hs.symm.trans hs'
  | ok s =>
      obtain ⟨l, hl, _⟩ := hc.reads c.val s hs
      have htext : c.toString ⟨read, fun v ↦ write (elems v)⟩ = s := by
        simp only [ConfigVar.toString, hs]
      rw [htext]
      apply Iff.trans (ConfigVar.fromString_idle_iff hl hb.refl c)
      constructor
      · exact fun heq ↦ ⟨s, _, hs, hl, heq⟩
      · rintro ⟨s', v', hs', hread, heq⟩
        cases hs.symm.trans hs'
        cases hl.symm.trans hread
        exact heq

theorem Built.list : Built (id : List String → List String)
    (fun l ↦ l.foldl (fun m_set a ↦ m_set ++ [a]) []) := by
  have hpush : ∀ l : List String, l.foldl (fun m_set a ↦ m_set ++ [a]) [] = l := fun l ↦ by
    simp [← List.flatMap_def]
  refine ⟨fun v ↦ beq_self_eq_true v, fun v ↦ ?_, fun l v h b hmem ↦ ?_⟩
  · simp only [hpush, id_eq, beq_self_eq_true]
  · simp only [hpush] at h
    rwa [eq_of_beq h]

theorem Built.keyed {κ : Type} [LinearOrder κ] [BEq β] [LawfulBEq β] (key : β → κ) :
    Built (Keyed.toList : Keyed key → List β) (Keyed.ofList key) := by
  refine ⟨fun v ↦ beq_self_eq_true v.toList, fun v ↦ ?_, fun l v h b hmem ↦ ?_⟩
  · rw [Keyed.ofList_toList]
    exact beq_self_eq_true v.toList
  · have heq : (Keyed.ofList key l).toList = v.toList := eq_of_beq h
    have hbuilt : b ∈ Keyed.ofList key l := by rwa [Keyed.mem_def, heq]
    exact Keyed.mem_ofList hbuilt

theorem Built.unordered [BEq β] [LawfulBEq β] {c : Comparison β} (hc : ∀ b, c.same b b = true)
    (o : Layout β) :
    Built (Unordered.toList : Unordered c → List β) (Unordered.ofList o c) := by
  have hself : ∀ l : List β, List.Forall₂ (fun a b ↦ (a == b) = true) l l := fun l ↦
    List.forall₂_same.mpr fun b _ ↦ beq_self_eq_true b
  refine ⟨fun v ↦ Unordered.beq_of_perm (hself _) (.refl _), fun v ↦ ?_, fun l v h b hmem ↦ ?_⟩
  · exact Unordered.beq_of_perm (hself _) (Unordered.ofList_perm o v.distinct)
  · exact Unordered.mem_ofList o ((Unordered.perm_of_beq hc h).mem_iff.mpr hmem)

/-- **Strings in containers** come back exactly if they are texts of nodes. -/
theorem strings_kept_iff (hy : y.Reloads) (hnull : y.load "" = .ok null) :
    KeptWhen (vector y string) (fun v ↦ ∀ s ∈ v, Canonical y s) ∧
    KeptWhen (list y string) (fun v ↦ ∀ s ∈ v, Canonical y s) ∧
    KeptWhen (set y string ⟨id, eq_of_beq⟩) (fun v ↦ ∀ s ∈ v.toList, Canonical y s) ∧
    (∀ o, KeptWhen (unordered_set y string o) fun v ↦ ∀ s ∈ v.toList, Canonical y s) ∧
    KeptWhen (map y string) (fun v ↦ ∀ p ∈ v.toList, Canonical y p.2) ∧
    ∀ o, KeptWhen (unordered_map y string o) fun v ↦ ∀ p ∈ v.toList, Canonical y p.2 := by
  refine ⟨?_, ?_, ?_, fun o ↦ ?_, ?_, fun o ↦ ?_⟩
  · exact (coding_sequence hy hnull _ _ _).keptWhen .list
  · exact (coding_sequence hy hnull _ _ _).keptWhen .list
  · exact (coding_sequence hy hnull _ _ _).keptWhen (.keyed id)
  · exact (coding_sequence hy hnull _ _ _).keptWhen (.unordered beq_self_eq_true o)
  · exact (coding_pairs hy hnull (fun v ↦ v.sorted.imp fun hlt ↦ hlt.ne) _ _).keptWhen
      (.keyed Prod.fst)
  · have hkeys : ∀ v : Unordered (.byKey String String),
        v.toList.Pairwise fun a b ↦ a.1 ≠ b.1 := fun v ↦
      v.distinct.imp fun hne ↦ by simpa [Comparison.byKey] using hne
    exact (coding_pairs hy hnull hkeys _ _).keptWhen
      (.unordered (fun p ↦ decide_eq_true rfl) o)

/-- A node without a value, which the empty text gives too. -/
def nulls : List (Node × String) := [(null, "~"), (null, "")]

theorem nulls_legible : YamlCpp.Legible nulls where
  texts := by simp [nulls]
  plain := by simp [nulls]

theorem load_empty : (YamlCpp.showing nulls).load "" = .ok null := by
  simp [YamlCpp.showing, nulls]

theorem emit_null : (YamlCpp.showing nulls).emit null = "~" := by
  simp [YamlCpp.showing, nulls]

theorem strings_kept_tilde : Decodes (vector (YamlCpp.showing nulls) string) ["~"] :=
  ((strings_kept_iff (YamlCpp.showing_reloads nulls_legible) load_empty).1.1 ["~"]).mpr
    fun s hs ↦ ⟨null, by rw [List.mem_singleton.mp hs, emit_null]⟩

/-- The empty text is not that of a node. -/
theorem not_canonical_empty (hy : y.Reloads) (hnull : y.load "" = .ok null)
    (hemit : y.emit null = "~") : ¬ Canonical y "" := by
  rintro ⟨n, hn⟩
  have hload := hy n
  rw [hn, hnull, Except.ok.injEq] at hload
  rw [← hload, hemit] at hn
  revert hn
  decide

/-- An empty string becomes `~`. -/
theorem empty_string_not_kept :
    ¬ Decodes (vector (YamlCpp.showing nulls) string) [""] ∧
      ∃ s, (vector (YamlCpp.showing nulls) string).toString [""] = .ok s ∧
        (vector (YamlCpp.showing nulls) string).fromString s = .ok ["~"] := by
  have hy := YamlCpp.showing_reloads nulls_legible
  constructor
  · intro h
    have hgood := ((coding_sequence hy load_empty _ _ _).decodes_iff .list [""]).mp h
    exact not_canonical_empty hy load_empty emit_null (hgood "" List.mem_cons_self)
  · refine ⟨_, toSequence_eq_ok.mpr ⟨[null], .cons (stored_string.mpr load_empty) .nil, rfl⟩, ?_⟩
    exact fromSequence_rows hy (.cons (by rw [emit_null]; rfl) .nil) _ _

end LexicalCast

end Sylar
