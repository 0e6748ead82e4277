import Sylar.Config.Listeners
import Sylar.Foundation.Unordered
import Sylar.Yaml.Text
import Mathlib.Data.String.Basic

/-!
# Containers as YAML text

The six pairs of `LexicalCast`s for containers.  Four of the containers are
written as sequences and two as maps; what differs is how an element is added
when they are read.

Each of them calls the conversions of its elements on text that has gone through
a node.  `Faithful` is what that takes of the elements, and the containers have
it again, so that they can be nested.
-/

namespace Sylar

open Foundation Yaml Yaml.Node

/-- `operator<` of a type, which compares a key.  Values that are equal have the
same key. -/
structure Less (α κ : Type) [BEq α] where
  key : α → κ
  agrees : ∀ {a b}, (a == b) = true → key a = key b

namespace LexicalCast

variable {α σ : Type} (y : YamlCpp) (cast : LexicalCast α)

/-! ## The conversions -/

/-- The loop over the elements of a node.  A node that is not there is written as
nothing. -/
def fromSequence (add : σ → α → σ) (m_set : σ) (v : String) : Except Exception σ := do
  let node ← y.load v
  (List.range node.size).foldlM (fun m_set i ↦ do
    let n ← node.index y.asSize i
    let a ← cast.fromString (n.elim "" y.emit)
    .ok (add m_set a)) m_set

/-- The loop that pushes the elements back. -/
def toSequence (v : List α) : Except Exception String := do
  let node ← v.foldlM (fun node i ↦ do
    let s ← cast.toString i
    let n ← y.load s
    node.push_back n) null
  .ok (y.emit node)

/-- The loop over the pairs of a node.  The elements of a sequence have no key. -/
def fromPairs (add : σ → String × α → σ) (m_map : σ) (v : String) : Except Exception σ := do
  let node ← y.load v
  match node with
  | .map ps => ps.foldlM (fun m_map it ↦ do
      let a ← cast.fromString (y.emit it.2)
      .ok (add m_map (it.1.Scalar, a))) m_map
  | .sequence (_ :: _) => .error .InvalidNode
  | _ => .ok m_map

/-- The loop that assigns the values to their keys. -/
def toPairs (v : List (String × α)) : Except Exception String := do
  let node ← v.foldlM (fun node i ↦ do
    let s ← cast.toString i.2
    let n ← y.load s
    node.set i.1 n) null
  .ok (y.emit node)

/-- `std::vector<T>`. -/
def vector : LexicalCast (List α) :=
  ⟨fromSequence y cast (fun m_set a ↦ m_set ++ [a]) [], toSequence y cast⟩

/-- `std::list<T>`. -/
def list : LexicalCast (List α) :=
  ⟨fromSequence y cast (fun m_set a ↦ m_set ++ [a]) [], toSequence y cast⟩

/-- `std::set<T>`. -/
def set [BEq α] {κ : Type} [LinearOrder κ] (less : Less α κ) : LexicalCast (Keyed less.key) :=
  ⟨fromSequence y cast Keyed.insert .empty, fun v ↦ toSequence y cast v.toList⟩

/-- `std::unordered_set<T>`, with some order of iteration. -/
def unordered_set [BEq α] [PartialEquivBEq α] (o : Layout α) :
    LexicalCast (Unordered (.beq α)) :=
  ⟨fromSequence y cast (Unordered.insert o) .empty, fun v ↦ toSequence y cast v.toList⟩

/-- `std::map<std::string, T>`. -/
def map : LexicalCast (Keyed (Prod.fst : String × α → String)) :=
  ⟨fromPairs y cast Keyed.insert .empty, fun v ↦ toPairs y cast v.toList⟩

/-- `std::unordered_map<std::string, T>`, with some order of iteration. -/
def unordered_map (o : Layout (String × α)) : LexicalCast (Unordered (.byKey String α)) :=
  ⟨fromPairs y cast (Unordered.insert o) .empty, fun v ↦ toPairs y cast v.toList⟩

end LexicalCast

namespace ConfigVar

variable {α : Type}

/-- `toString`, which gives the empty text where the conversion throws. -/
def toString (cast : LexicalCast α) (c : ConfigVar α) : String :=
  match cast.toString c.val with
  | .error _ => ""
  | .ok s => s

end ConfigVar

/-! ## The loops -/

namespace LexicalCast

section Loops

variable {α σ : Type} {y : YamlCpp} {cast : LexicalCast α}

/-- The node that the text of an element loads as. -/
def Stored (y : YamlCpp) (cast : LexicalCast α) (x : α) (n : Node) : Prop :=
  ∃ s, cast.toString x = .ok s ∧ y.load s = .ok n

/-- The elements are written as the list of their nodes, if each has one. -/
theorem toSequence_eq_ok {xs : List α} {s : String} : toSequence y cast xs = .ok s ↔
    ∃ ns, List.Forall₂ (Stored y cast) xs ns ∧ s = y.emit (rows ns) := by
  have hloop : ∀ (xs : List α) (ns : List Node) (r : Node), (xs.foldlM (fun node i ↦ do
      let s ← cast.toString i
      let n ← y.load s
      node.push_back n) (rows ns)) = .ok r ↔
        ∃ ms, List.Forall₂ (Stored y cast) xs ms ∧ r = rows (ns ++ ms) := by
    intro xs
    induction xs with
    | nil => intro ns r; simp [eq_comm]
    | cons x xs ih =>
        intro ns r
        simp only [List.foldlM_cons, Except.bind_ok_iff]
        constructor
        · rintro ⟨_, ⟨s, hs, n, hn, hpush⟩, hrest⟩
          rw [rows_push_back, Except.ok.injEq] at hpush
          obtain ⟨ms, hms, rfl⟩ := (ih _ r).mp (hpush ▸ hrest)
          exact ⟨n :: ms, .cons ⟨s, hs, hn⟩ hms, by simp⟩
        · rintro ⟨ms, hms, rfl⟩
          cases hms with
          | @cons _ n _ ms hx hms =>
              obtain ⟨s, hs, hn⟩ := hx
              exact ⟨_, ⟨s, hs, n, hn, rows_push_back⟩, (ih _ _).mpr ⟨ms, hms, by simp⟩⟩
  rw [toSequence, Except.bind_ok_iff]
  constructor
  · rintro ⟨r, hr, hs⟩
    obtain ⟨ns, hns, rfl⟩ := (hloop xs [] r).mp hr
    exact ⟨ns, hns, (Except.ok.inj hs).symm⟩
  · rintro ⟨ns, hns, rfl⟩
    exact ⟨_, (hloop xs [] _).mpr ⟨ns, hns, rfl⟩, rfl⟩

/-- A container is read from a list of nodes by adding what these come back as. -/
theorem fromSequence_rows (hy : y.Reloads) {ns : List Node} {xs : List α}
    (h : List.Forall₂ (fun n x ↦ cast.fromString (y.emit n) = .ok x) ns xs) (add : σ → α → σ)
    (m_set : σ) :
    fromSequence y cast add m_set (y.emit (rows ns)) = .ok (xs.foldl add m_set) := by
  rw [fromSequence, hy, Except.ok_bind, foldlM_rows y.asSize fun m_set n ↦ do
    let a ← cast.fromString (n.elim "" y.emit)
    .ok (add m_set a)]
  induction h generalizing m_set with
  | nil => rfl
  | cons hx _ ih => simpa [hx] using ih _

/-- The values are written under their keys, if each has a node. -/
theorem toPairs_eq_ok {xs : List (String × α)} {s : String}
    (hkeys : xs.Pairwise fun a b ↦ a.1 ≠ b.1) : toPairs y cast xs = .ok s ↔
      ∃ qs, List.Forall₂ (fun x q ↦ x.1 = q.1 ∧ Stored y cast x.2 q.2) xs qs ∧
        s = y.emit (fields qs) := by
  have hloop : ∀ (xs : List (String × α)) (ps : List (String × Node)) (r : Node),
      xs.Pairwise (fun a b ↦ a.1 ≠ b.1) → (∀ p ∈ ps, ∀ x ∈ xs, p.1 ≠ x.1) →
      ((xs.foldlM (fun node i ↦ do
        let s ← cast.toString i.2
        let n ← y.load s
        node.set i.1 n) (fields ps)) = .ok r ↔
          ∃ qs, List.Forall₂ (fun x q ↦ x.1 = q.1 ∧ Stored y cast x.2 q.2) xs qs ∧
            r = fields (ps ++ qs)) := by
    intro xs
    induction xs with
    | nil => intro ps r _ _; simp [eq_comm]
    | cons x xs ih =>
        intro ps r hkeys hps
        have hset : ∀ n, (fields ps).set x.1 n = .ok (fields (ps ++ [(x.1, n)])) := fun n ↦
          fields_set fun p hp ↦ hps p hp x (by simp)
        have hnext : ∀ n : Node, ∀ p ∈ ps ++ [(x.1, n)], ∀ x' ∈ xs, p.1 ≠ x'.1 := by
          intro n p hp x' hx'
          rcases List.mem_append.mp hp with hp | hp
          · exact hps p hp x' (by simp [hx'])
          · rw [List.mem_singleton.mp hp]
            exact List.rel_of_pairwise_cons hkeys hx'
        simp only [List.foldlM_cons, Except.bind_ok_iff]
        constructor
        · rintro ⟨_, ⟨s, hs, n, hn, hput⟩, hrest⟩
          rw [hset, Except.ok.injEq] at hput
          obtain ⟨qs, hqs, rfl⟩ := (ih _ r hkeys.of_cons (hnext n)).mp (hput ▸ hrest)
          exact ⟨(x.1, n) :: qs, .cons ⟨rfl, s, hs, hn⟩ hqs, by simp⟩
        · rintro ⟨qs, hqs, rfl⟩
          cases hqs with
          | @cons _ q _ qs hx hqs =>
              obtain ⟨hkey, s, hs, hn⟩ := hx
              refine ⟨_, ⟨s, hs, q.2, hn, hset q.2⟩,
                (ih _ _ hkeys.of_cons (hnext q.2)).mpr ⟨qs, hqs, ?_⟩⟩
              simp [hkey]
  rw [toPairs, Except.bind_ok_iff]
  constructor
  · rintro ⟨r, hr, hs⟩
    obtain ⟨qs, hqs, rfl⟩ := (hloop xs [] r hkeys (by simp)).mp hr
    exact ⟨qs, hqs, (Except.ok.inj hs).symm⟩
  · rintro ⟨qs, hqs, rfl⟩
    exact ⟨_, (hloop xs [] _ hkeys (by simp)).mpr ⟨qs, hqs, rfl⟩, rfl⟩

/-- A container is read from keys and nodes by adding the pairs. -/
theorem fromPairs_fields (hy : y.Reloads) {qs : List (String × Node)} {xs : List (String × α)}
    (h : List.Forall₂ (fun q x ↦ q.1 = x.1 ∧ cast.fromString (y.emit q.2) = .ok x.2) qs xs)
    (add : σ → String × α → σ) (m_map : σ) :
    fromPairs y cast add m_map (y.emit (fields qs)) = .ok (xs.foldl add m_map) := by
  have hloop : ∀ m_map : σ, (qs.map fun q ↦ (scalar q.1, q.2)).foldlM (fun m_map it ↦ do
      let a ← cast.fromString (y.emit it.2)
      .ok (add m_map (it.1.Scalar, a))) m_map = .ok (xs.foldl add m_map) := by
    induction h with
    | nil => exact fun _ ↦ rfl
    | cons hx _ ih => exact fun m_map ↦ by simpa [hx, Scalar] using ih _
  rw [fromPairs, hy, Except.ok_bind]
  cases qs with
  | nil => exact hloop m_map
  | cons q qs => exact hloop m_map

end Loops

/-! ## What is kept -/

variable {α σ : Type} {y : YamlCpp} {cast : LexicalCast α} [b : BEq α]

/-- A value is read again from the emitted text of the node that its own text
loads as. -/
def Faithful (y : YamlCpp) (cast : LexicalCast α) : Prop :=
  ∀ x, ∃ s n x', cast.toString x = .ok s ∧ y.load s = .ok n ∧
    cast.fromString (y.emit n) = .ok x' ∧ (x' == x) = true

/-- A value is read again from its own text. -/
def RoundTrips (cast : LexicalCast α) : Prop :=
  ∀ v, ∃ s v', cast.toString v = .ok s ∧ cast.fromString s = .ok v' ∧ (v' == v) = true

/-- Values are written as emitted nodes, and read from these. -/
def Emitted (y : YamlCpp) (cast : LexicalCast α) : Prop :=
  ∀ v, ∃ n v', cast.toString v = .ok (y.emit n) ∧ cast.fromString (y.emit n) = .ok v' ∧
    (v' == v) = true

theorem Emitted.faithful (h : Emitted y cast) (hy : y.Reloads) : Faithful y cast := fun v ↦ by
  obtain ⟨n, v', hs, hv, heq⟩ := h v
  exact ⟨_, n, v', hs, hy n, hv, heq⟩

theorem Emitted.roundTrips (h : Emitted y cast) : RoundTrips cast := fun v ↦ by
  obtain ⟨n, v', hs, hv, heq⟩ := h v
  exact ⟨_, v', hs, hv, heq⟩

/-- A variable is not changed by its own text, and no listener hears of it. -/
theorem RoundTrips.fromString_toString (h : RoundTrips cast) (c : ConfigVar α) :
    c.fromString cast (c.toString cast) = ([], false, c) := by
  obtain ⟨s, v', hs, hv, heq⟩ := h c.val
  have htext : c.toString cast = s := by
    rw [ConfigVar.toString, hs]
  rw [htext, ConfigVar.fromString_ok hv, ConfigVar.setValue_same heq]

/-! ## Sequences and maps -/

/-- The elements of two lists are equal one by one. -/
abbrev Pointwise (l l' : List α) : Prop := List.Forall₂ (fun a b ↦ (a == b) = true) l l'

theorem Pointwise.beq {l l' : List α} (h : Pointwise l l') : (l == l') = true := by
  induction h with
  | nil => rfl
  | cons hab _ ih => simp [hab, ih]

/-- A relation that only depends on elements up to equality holds along both lists. -/
theorem Pointwise.pairwise {l l' : List α} {R : α → α → Prop} (h : Pointwise l l')
    (hl : l'.Pairwise R)
    (hR : ∀ {a a' b b'}, (a == a') = true → (b == b') = true → R a' b' → R a b) :
    l.Pairwise R := by
  induction h with
  | nil => exact .nil
  | @cons a a' l l' haa' hll' ih =>
      obtain ⟨hhead, htail⟩ := List.pairwise_cons.mp hl
      refine .cons (fun b hb ↦ ?_) (ih htail)
      obtain ⟨b', hb', hbb'⟩ := exists_of_forall₂ hll' hb
      exact hR haa' hbb' (hhead b' hb')

/-- The elements are written as a list of nodes, from which a container is read
by adding what they come back as. -/
theorem Faithful.sequence (h : Faithful y cast) (hy : y.Reloads) (xs : List α) :
    ∃ ns xs', Pointwise xs' xs ∧ toSequence y cast xs = .ok (y.emit (rows ns)) ∧
      ∀ {σ : Type} (add : σ → α → σ) (m_set : σ),
        fromSequence y cast add m_set (y.emit (rows ns)) = .ok (xs'.foldl add m_set) := by
  have hnodes : ∀ xs : List α, ∃ ns xs', Pointwise xs' xs ∧ List.Forall₂ (Stored y cast) xs ns ∧
      List.Forall₂ (fun n x' ↦ cast.fromString (y.emit n) = .ok x') ns xs' := by
    intro xs
    induction xs with
    | nil => exact ⟨[], [], .nil, .nil, .nil⟩
    | cons x xs ih =>
        obtain ⟨s, n, x', hs, hn, hx, heq⟩ := h x
        obtain ⟨ns, xs', hxs, hns, hread⟩ := ih
        exact ⟨n :: ns, x' :: xs', .cons heq hxs, .cons ⟨s, hs, hn⟩ hns, .cons hx hread⟩
  obtain ⟨ns, xs', hxs, hns, hread⟩ := hnodes xs
  exact ⟨ns, xs', hxs, toSequence_eq_ok.mpr ⟨ns, hns, rfl⟩, fromSequence_rows hy hread⟩

/-- The values are written under their keys, and read with them. -/
theorem Faithful.pairs (h : Faithful y cast) (hy : y.Reloads) (xs : List (String × α))
    (hkeys : xs.Pairwise fun a b ↦ a.1 ≠ b.1) :
    ∃ n xs', Pointwise xs' xs ∧ toPairs y cast xs = .ok (y.emit n) ∧
      ∀ {σ : Type} (add : σ → String × α → σ) (m_map : σ),
        fromPairs y cast add m_map (y.emit n) = .ok (xs'.foldl add m_map) := by
  have hnodes : ∀ xs : List (String × α), ∃ (qs : List (String × Node)) (xs' : _),
      Pointwise xs' xs ∧
      List.Forall₂ (fun x q ↦ x.1 = q.1 ∧ Stored y cast x.2 q.2) xs qs ∧
      List.Forall₂ (fun q x' ↦ q.1 = x'.1 ∧ cast.fromString (y.emit q.2) = .ok x'.2) qs xs' := by
    intro xs
    induction xs with
    | nil => exact ⟨[], [], .nil, .nil, .nil⟩
    | cons x xs ih =>
        obtain ⟨s, n, a, hs, hn, ha, heq⟩ := h x.2
        obtain ⟨qs, xs', hxs, hqs, hread⟩ := ih
        have hpair : ((x.1, a) == x) = true := by
          change (x.1 == x.1 && a == x.2) = true
          simpa using heq
        exact ⟨(x.1, n) :: qs, (x.1, a) :: xs', .cons hpair hxs, .cons ⟨rfl, s, hs, hn⟩ hqs,
          .cons ⟨rfl, ha⟩ hread⟩
  obtain ⟨qs, xs', hxs, hqs, hread⟩ := hnodes xs
  exact ⟨fields qs, xs', hxs, (toPairs_eq_ok hkeys).mpr ⟨qs, hqs, rfl⟩,
    fromPairs_fields hy hread⟩

/-! ## The containers -/

theorem Faithful.vector (h : Faithful y cast) (hy : y.Reloads) :
    Emitted y (vector y cast) := fun v ↦ by
  obtain ⟨ns, xs', hxs, hs, hread⟩ := h.sequence hy v
  refine ⟨_, xs', hs, ?_, hxs.beq⟩
  have hpush : xs'.foldl (fun m_set a ↦ m_set ++ [a]) [] = xs' := by
    simp [← List.flatMap_def]
  rw [← hpush]
  exact hread _ _

theorem Faithful.list (h : Faithful y cast) (hy : y.Reloads) : Emitted y (list y cast) :=
  h.vector hy

theorem Faithful.set (h : Faithful y cast) (hy : y.Reloads) {κ : Type} [LinearOrder κ]
    (less : Less α κ) : Emitted y (set y cast less) := fun v ↦ by
  obtain ⟨ns, xs', hxs, hs, hread⟩ := h.sequence hy v.toList
  refine ⟨_, Keyed.ofList less.key xs', hs, hread _ _, ?_⟩
  have hsorted : xs'.Pairwise fun a b ↦ less.key a < less.key b :=
    hxs.pairwise v.sorted fun ha hb hlt ↦ by rwa [less.agrees ha, less.agrees hb]
  change ((Keyed.ofList less.key xs').toList == v.toList) = true
  rw [Keyed.toList_ofList hsorted]
  exact hxs.beq

theorem Faithful.unordered_set [EquivBEq α] (h : Faithful y cast) (hy : y.Reloads)
    (o : Layout α) : Emitted y (unordered_set y cast o) := fun v ↦ by
  obtain ⟨ns, xs', hxs, hs, hread⟩ := h.sequence hy v.toList
  refine ⟨_, Unordered.ofList o (.beq α) xs', hs, hread _ _, ?_⟩
  have hdistinct : xs'.Pairwise fun a b ↦ (Comparison.beq α).same a b = false :=
    hxs.pairwise v.distinct fun ha hb hne ↦ by
      change (_ == _) = false at hne ⊢
      rwa [BEq.congr_left ha, BEq.congr_right hb]
  exact Unordered.beq_of_perm hxs (Unordered.ofList_perm o hdistinct)

/-- Pairs that are equal have the same key. -/
theorem key_eq {a b : String × α} (h : (a == b) = true) : a.1 = b.1 := by
  change (a.1 == b.1 && a.2 == b.2) = true at h
  simp only [Bool.and_eq_true, beq_iff_eq] at h
  exact h.1

theorem Faithful.map (h : Faithful y cast) (hy : y.Reloads) : Emitted y (map y cast) :=
  fun v ↦ by
  obtain ⟨n, xs', hxs, hs, hread⟩ := h.pairs hy v.toList (v.sorted.imp fun hlt ↦ hlt.ne)
  refine ⟨_, Keyed.ofList Prod.fst xs', hs, hread _ _, ?_⟩
  have hsorted : xs'.Pairwise fun a b ↦ a.1 < b.1 :=
    hxs.pairwise v.sorted fun ha hb hlt ↦ by rwa [key_eq ha, key_eq hb]
  change ((Keyed.ofList Prod.fst xs').toList == v.toList) = true
  rw [Keyed.toList_ofList hsorted]
  exact hxs.beq

theorem Faithful.unordered_map (h : Faithful y cast) (hy : y.Reloads)
    (o : Layout (String × α)) : Emitted y (unordered_map y cast o) := fun v ↦ by
  have hkeys : v.toList.Pairwise fun a b ↦ a.1 ≠ b.1 :=
    v.distinct.imp fun hne ↦ by simpa [Comparison.byKey] using hne
  obtain ⟨n, xs', hxs, hs, hread⟩ := h.pairs hy v.toList hkeys
  refine ⟨_, Unordered.ofList o (.byKey String α) xs', hs, hread _ _, ?_⟩
  have hdistinct : xs'.Pairwise fun a b ↦ (Comparison.byKey String α).same a b = false :=
    hxs.pairwise v.distinct fun ha hb hne ↦ by
      simpa [Comparison.byKey, key_eq ha, key_eq hb] using hne
  exact Unordered.beq_of_perm hxs (Unordered.ofList_perm o hdistinct)

/-! ## Nesting -/

/-- The conversions of types built from containers over faithful elements.  An
element of an `std::unordered_set` needs an `==` that is an equivalence. -/
inductive Nesting (y : YamlCpp) : (α : Type) → BEq α → LexicalCast α → Prop
  | element {α : Type} {b : BEq α} {cast : LexicalCast α} (h : Faithful y cast) :
      Nesting y α b cast
  | vector {α : Type} {b : BEq α} {cast : LexicalCast α} (h : Nesting y α b cast) :
      Nesting y (List α) inferInstance (vector y cast)
  | list {α : Type} {b : BEq α} {cast : LexicalCast α} (h : Nesting y α b cast) :
      Nesting y (List α) inferInstance (list y cast)
  | set {α κ : Type} {b : BEq α} {cast : LexicalCast α} [LinearOrder κ] (less : Less α κ)
      (h : Nesting y α b cast) : Nesting y (Keyed less.key) inferInstance (set y cast less)
  | unordered_set {α : Type} {b : BEq α} {cast : LexicalCast α} [EquivBEq α] (o : Layout α)
      (h : Nesting y α b cast) :
      Nesting y (Unordered (.beq α)) inferInstance (unordered_set y cast o)
  | map {α : Type} {b : BEq α} {cast : LexicalCast α} (h : Nesting y α b cast) :
      Nesting y (Keyed (Prod.fst : String × α → String)) inferInstance (map y cast)
  | unordered_map {α : Type} {b : BEq α} {cast : LexicalCast α} (o : Layout (String × α))
      (h : Nesting y α b cast) :
      Nesting y (Unordered (.byKey String α)) inferInstance (unordered_map y cast o)

theorem Nesting.faithful (h : Nesting y α b cast) (hy : y.Reloads) :
    Faithful y cast := by
  induction h with
  | element h => exact h
  | vector _ ih => exact (ih.vector hy).faithful hy
  | list _ ih => exact (ih.list hy).faithful hy
  | set less _ ih => exact (ih.set hy less).faithful hy
  | unordered_set o _ ih => exact (ih.unordered_set hy o).faithful hy
  | map _ ih => exact (ih.map hy).faithful hy
  | unordered_map o _ ih => exact (ih.unordered_map hy o).faithful hy

/-- Values survive their text, and the elements of another container can be of
the type.  A variable is left alone by its own text. -/
structure Kept (y : YamlCpp) (cast : LexicalCast α) : Prop where
  roundTrips : RoundTrips cast
  faithful : Faithful y cast
  unchanged : ∀ c : ConfigVar α, c.fromString cast (c.toString cast) = ([], false, c)

theorem Emitted.kept (h : Emitted y cast) (hy : y.Reloads) : Kept y cast :=
  ⟨h.roundTrips, h.faithful hy, h.roundTrips.fromString_toString⟩

/-- The containers over any nesting of containers keep their values. -/
theorem containers_keep (hy : y.Reloads) (h : Nesting y α b cast) :
    Faithful y cast ∧
    Kept y (vector y cast) ∧
    Kept y (list y cast) ∧
    (∀ {κ : Type} [LinearOrder κ] (less : Less α κ), Kept y (set y cast less)) ∧
    (∀ [EquivBEq α] (o : Layout α), Kept y (unordered_set y cast o)) ∧
    Kept y (map y cast) ∧
    ∀ o : Layout (String × α), Kept y (unordered_map y cast o) := by
  have hf := h.faithful hy
  exact ⟨hf, (hf.vector hy).kept hy, (hf.list hy).kept hy,
    fun less ↦ (hf.set hy less).kept hy, fun o ↦ (hf.unordered_set hy o).kept hy,
    (hf.map hy).kept hy, fun o ↦ (hf.unordered_map hy o).kept hy⟩

/-- The conversion of flags. -/
def flag : LexicalCast Bool where
  fromString s :=
    if s = "1" then .ok true else if s = "0" then .ok false else .error .bad_lexical_cast
  toString b := .ok (if b then "1" else "0")

/-- How flags are shown. -/
def flags : List (Node × String) := [(scalar "1", "1"), (scalar "0", "0")]

theorem flags_legible : YamlCpp.Legible flags where
  texts := by simp [flags]
  plain := by simp [flags]

theorem flag_faithful : Faithful (YamlCpp.showing flags) flag := by
  rintro (_ | _)
  · exact ⟨"0", scalar "0", false, by simp [flag], by simp [YamlCpp.showing, flags],
      by simp [YamlCpp.showing, flags, flag], rfl⟩
  · exact ⟨"1", scalar "1", true, by simp [flag], by simp [YamlCpp.showing, flags],
      by simp [YamlCpp.showing, flags, flag], rfl⟩

theorem containers_keep_flags :
    (ConfigVar.new "system.flags" [[true, false], [], [true]] "").fromString
      (vector (YamlCpp.showing flags) (list (YamlCpp.showing flags) flag))
      ((ConfigVar.new "system.flags" [[true, false], [], [true]] "").toString
        (vector (YamlCpp.showing flags) (list (YamlCpp.showing flags) flag))) =
    ([], false, ConfigVar.new "system.flags" [[true, false], [], [true]] "") :=
  (containers_keep (YamlCpp.showing_reloads flags_legible)
    (.list (.element flag_faithful))).2.1.unchanged _

end LexicalCast

end Sylar
