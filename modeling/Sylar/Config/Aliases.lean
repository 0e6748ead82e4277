import Sylar.Config.Registry
import Sylar.Foundation.Fuel

/-!
# Documents with aliases

An alias is the node of its anchor, so a document is a graph and not a tree.
`ListAllMember` goes from a map to its values and remembers no node.  It is given
here over graphs, with fuel; on the part of a graph that is a tree it is the
traversal of the registry (`ListAllMember_unfolds`).

It comes to an end exactly if no map contains itself through keys of name
characters only.
-/

namespace Sylar

open Foundation Relation

namespace Yaml

variable {ι : Type}

/-- What is stored at a node, where the nodes below it are given by their
identities. -/
inductive Content (ι : Type)
  | null
  | scalar (s : String)
  | sequence (ns : List ι)
  | map (ps : List (ι × ι))
deriving DecidableEq, Repr

/-- A node graph. -/
abbrev Graph (ι : Type) := ι → Content ι

namespace Graph

variable (g : Graph ι)

/-- `node.Scalar()`. -/
def Scalar (i : ι) : String :=
  match g i with
  | .scalar s => s
  | _ => ""

/-- The prefix for the value of a key. -/
def extend (pre key : String) : String := if pre = "" then key else pre ++ "." ++ key

/-- `ListAllMember`. -/
def ListAllMember : Nat → String × ι → Option (List (String × ι))
  | 0, _ => none
  | fuel + 1, (pre, node) =>
      if ValidName pre then
        match g node with
        | .map ps => do
            let output ← ps.mapM fun it ↦
              ListAllMember fuel (extend pre (g.Scalar it.1), it.2)
            some ((pre, node) :: output.flatten)
        | _ => some [(pre, node)]
      else some []

/-- The recursive calls of a call. -/
def calls : String × ι → List (String × ι)
  | (pre, node) =>
      if ValidName pre then
        match g node with
        | .map ps => ps.map fun it ↦ (extend pre (g.Scalar it.1), it.2)
        | _ => []
      else []

/-- The call for the root of a document returns. -/
def Terminates (root : ι) : Prop := Returns g.ListAllMember ("", root)

mutual

/-- The part of the graph below a node is a tree. -/
def Unfolds : Node → ι → Prop
  | .null, i => g i = .null
  | .scalar s, i => g i = .scalar s
  | .sequence ns, i => ∃ is, g i = .sequence is ∧ Unfolds.all ns is
  | .map ps, i => ∃ is, g i = .map is ∧ Unfolds.pairs ps is

def Unfolds.all : List Node → List ι → Prop
  | [], is => is = []
  | n :: ns, is => ∃ i is', is = i :: is' ∧ Unfolds n i ∧ Unfolds.all ns is'

def Unfolds.pairs : List (Node × Node) → List (ι × ι) → Prop
  | [], is => is = []
  | p :: ps, is => ∃ i is', is = i :: is' ∧ Unfolds.pair p i ∧ Unfolds.pairs ps is'

def Unfolds.pair : Node × Node → ι × ι → Prop
  | (k, v), i => Unfolds k i.1 ∧ Unfolds v i.2

end

/-- The first map contains the second node under a key of name characters. -/
def Contains (i j : ι) : Prop :=
  ∃ ps, g i = .map ps ∧ ∃ k, (k, j) ∈ ps ∧ ValidName (g.Scalar k)

end Graph

end Yaml

open Yaml Yaml.Graph

variable {ι : Type} {g : Graph ι}

/-! ## Names -/

theorem validName_empty : ValidName "" := by
  intro c hc
  simp at hc

/-- The dot is a name character. -/
theorem validName_extend {pre key : String} :
    ValidName (extend pre key) ↔ ValidName pre ∧ ValidName key := by
  unfold extend
  split
  · rename_i hpre
    rw [hpre]
    exact ⟨fun h ↦ ⟨validName_empty, h⟩, fun h ↦ h.2⟩
  · have hdot : '.' ∈ nameChars := by decide
    have hdots : ∀ c ∈ ".".toList, c ∈ nameChars := by
      intro c hc
      rw [show ".".toList = ['.'] by decide, List.mem_singleton] at hc
      rw [hc]
      exact hdot
    simp only [ValidName, String.toList_append, List.mem_append]
    constructor
    · exact fun h ↦ ⟨fun c hc ↦ h c (.inl (.inl hc)), fun c hc ↦ h c (.inr hc)⟩
    · rintro ⟨hpre, hkey⟩ c ((hc | hc) | hc)
      · exact hpre c hc
      · exact hdots c hc
      · exact hkey c hc

/-! ## The recursion -/

theorem recursive_ListAllMember (g : Graph ι) : Recursive g.calls g.ListAllMember := by
  refine ⟨fun _ ↦ Bool.false_ne_true, fun n (pre, node) ↦ ?_⟩
  rw [Graph.ListAllMember, calls]
  split
  · cases hg : g node with
    | map ps =>
        simp only [List.forall_mem_map, ← mapM_isSome_iff (l := ps)]
        cases ps.mapM fun it ↦ g.ListAllMember n (extend pre (g.Scalar it.1), it.2) <;> simp
    | _ => simp
  · simp

theorem mem_calls {pre pre' : String} {i j : ι} : (pre', j) ∈ g.calls (pre, i) ↔
    ValidName pre ∧ ∃ ps, g i = .map ps ∧ ∃ k, (k, j) ∈ ps ∧ pre' = extend pre (g.Scalar k) := by
  rw [calls]
  split
  · rename_i hpre
    cases hg : g i with
    | map ps => simp [hpre, eq_comm]
    | _ => simp
  · rename_i hpre
    simp [hpre]

/-- From a valid prefix, only the keys matter to how deep the calls go. -/
theorem acc_calls_iff {pre : String} {i : ι} (hpre : ValidName pre) :
    Acc (fun b a ↦ b ∈ g.calls a) (pre, i) ↔ Acc (fun j i ↦ g.Contains i j) i := by
  constructor
  · intro h
    generalize hcall : (pre, i) = call at h
    induction h generalizing pre i with
    | intro call _ ih =>
        subst hcall
        refine ⟨i, fun j ⟨ps, hps, k, hk, hkey⟩ ↦ ?_⟩
        exact ih _ (mem_calls.mpr ⟨hpre, ps, hps, k, hk, rfl⟩)
          (validName_extend.mpr ⟨hpre, hkey⟩) rfl
  · intro h
    induction h generalizing pre with
    | intro i _ ih =>
        refine ⟨(pre, i), fun (pre', j) hcall ↦ ?_⟩
        obtain ⟨_, ps, hps, k, hk, rfl⟩ := mem_calls.mp hcall
        by_cases hkey : ValidName (g.Scalar k)
        · exact ih j ⟨ps, hps, k, hk, hkey⟩ (validName_extend.mpr ⟨hpre, hkey⟩)
        · -- the call is made, and returns at once
          refine ⟨_, fun b hb ↦ ?_⟩
          exact absurd (validName_extend.mp (mem_calls.mp hb).1).2 hkey

/-- **Listing the members of a document ends** exactly if no map that is reached
through keys of name characters contains itself through such keys. -/
theorem terminates_iff [Finite ι] (g : Graph ι) (root : ι) :
    g.Terminates root ↔
      ∀ i, ReflTransGen g.Contains root i → ¬ TransGen g.Contains i i := by
  rw [Terminates, (recursive_ListAllMember g).returns_iff_acc, acc_calls_iff validName_empty,
    acc_iff_acyclic]

/-! ## Trees -/

theorem Unfolds.scalar_eq {n : Node} {i : ι} (h : g.Unfolds n i) : g.Scalar i = n.Scalar := by
  unfold Graph.Scalar
  cases n with
  | null => rw [show g i = .null from h]; rfl
  | scalar s => rw [show g i = .scalar s from h]; rfl
  | sequence ns =>
      obtain ⟨is, hi, _⟩ := h
      rw [hi]
      rfl
  | map ps =>
      obtain ⟨is, hi, _⟩ := h
      rw [hi]
      rfl

mutual

/-- A tree has no cycles. -/
theorem Unfolds.acc : ∀ (n : Node) {i : ι}, g.Unfolds n i → Acc (fun j i ↦ g.Contains i j) i
  | .null, i, h => ⟨i, fun _ ⟨_, hps, _⟩ ↦ by cases hps.symm.trans h⟩
  | .scalar _, i, h => ⟨i, fun _ ⟨_, hps, _⟩ ↦ by cases hps.symm.trans h⟩
  | .sequence _, i, ⟨_, hi, _⟩ => ⟨i, fun _ ⟨_, hps, _⟩ ↦ by cases hps.symm.trans hi⟩
  | .map ps, i, ⟨is, hi, h⟩ => ⟨i, fun j ⟨ps', hps, k, hk, _⟩ ↦ by
      cases hps.symm.trans hi
      exact Unfolds.acc_pairs ps h (k, j) hk⟩

theorem Unfolds.acc_pairs : ∀ (ps : List (Node × Node)) {is : List (ι × ι)},
    Unfolds.pairs g ps is → ∀ it ∈ is, Acc (fun j i ↦ g.Contains i j) it.2
  | [], is, h, it, hit => by
      rw [show is = [] from h] at hit
      cases hit
  | p :: ps, is, ⟨i, is', his, hp, h⟩, it, hit => by
      rw [his, List.mem_cons] at hit
      rcases hit with rfl | hit
      · exact Unfolds.acc_pair p hp
      · exact Unfolds.acc_pairs ps h it hit

theorem Unfolds.acc_pair : ∀ (p : Node × Node) {i : ι × ι},
    Unfolds.pair g p i → Acc (fun j i ↦ g.Contains i j) i.2
  | (_, v), _, h => Unfolds.acc v h.2

end

/-- A document that is a tree is listed. -/
theorem terminates_of_tree {n : Node} {root : ι} (h : g.Unfolds n root) : g.Terminates root :=
  (recursive_ListAllMember g).returns_iff_acc.mpr
    ((acc_calls_iff validName_empty).mpr (Unfolds.acc n h))

/-- The members of a tree, by identity. -/
def Members (g : Graph ι) (out : List (String × ι)) (l : List (String × Node)) : Prop :=
  List.Forall₂ (fun a b ↦ a.1 = b.1 ∧ g.Unfolds b.2 a.2) out l

/-- A node that is not a map is a member alone. -/
theorem Members.leaf {fuel : Nat} {pre : String} {n : Node} {i : ι} {out : List (String × ι)}
    (hleaf : ∀ ps, g i ≠ .map ps) (h : g.Unfolds n i)
    (hlist : ListAllMember pre n = if ValidName pre then [(pre, n)] else [])
    (hout : g.ListAllMember (fuel + 1) (pre, i) = some out) :
    Members g out (ListAllMember pre n) := by
  rw [Graph.ListAllMember] at hout
  rw [hlist]
  split at hout
  · rename_i hpre
    rw [if_pos hpre]
    split at hout
    · rename_i ps hps
      exact absurd hps (hleaf ps)
    · cases hout
      exact .cons ⟨rfl, h⟩ .nil
  · rename_i hpre
    rw [if_neg hpre]
    cases hout
    exact .nil

mutual

/-- On a tree, `ListAllMember` is the traversal of the registry. -/
theorem ListAllMember_unfolds : ∀ (n : Node) {fuel : Nat} {pre : String} {i : ι}
    {out : List (String × ι)}, g.Unfolds n i → g.ListAllMember fuel (pre, i) = some out →
      Members g out (ListAllMember pre n)
  | n, 0, _, _, _, _, hout => by cases hout
  | .null, _ + 1, _, _, _, h, hout =>
      .leaf (fun _ hps ↦ by cases hps.symm.trans h) h (by rw [Sylar.ListAllMember]) hout
  | .scalar _, _ + 1, _, _, _, h, hout =>
      .leaf (fun _ hps ↦ by cases hps.symm.trans h) h (by rw [Sylar.ListAllMember]) hout
  | .sequence _, _ + 1, _, _, _, h, hout =>
      .leaf (fun _ hps ↦ by cases hps.symm.trans h.choose_spec.1) h
        (by rw [Sylar.ListAllMember]) hout
  | .map ps, fuel + 1, pre, i, out, h, hout => by
      obtain ⟨is, hi, hps⟩ := h
      rw [Graph.ListAllMember] at hout
      rw [Sylar.ListAllMember]
      split at hout
      · rename_i hpre
        rw [if_pos hpre]
        rw [hi] at hout
        obtain ⟨outs, houts, hout⟩ := Option.bind_eq_some_iff.mp hout
        cases hout
        exact .cons ⟨rfl, is, hi, hps⟩ (ListAllMember_unfolds_pairs ps hps houts)
      · rename_i hpre
        rw [if_neg hpre]
        cases hout
        exact .nil

theorem ListAllMember_unfolds_pairs : ∀ (ps : List (Node × Node)) {fuel : Nat} {pre : String}
    {is : List (ι × ι)} {outs : List (List (String × ι))}, Unfolds.pairs g ps is →
      (is.mapM fun it ↦ g.ListAllMember fuel (extend pre (g.Scalar it.1), it.2)) = some outs →
      Members g outs.flatten (ListAllMember.pairs pre ps)
  | [], _, _, is, outs, h, houts => by
      rw [show is = [] from h, List.mapM_nil] at houts
      cases houts
      exact .nil
  | p :: ps, _, _, is, outs, ⟨i, is', his, hp, h⟩, houts => by
      rw [his, List.mapM_cons] at houts
      obtain ⟨out, hout, houts⟩ := Option.bind_eq_some_iff.mp houts
      obtain ⟨rest, hrest, houts⟩ := Option.bind_eq_some_iff.mp houts
      cases houts
      rw [ListAllMember.pairs, List.flatten_cons]
      exact List.rel_append (ListAllMember_unfolds_pair p hp hout)
        (ListAllMember_unfolds_pairs ps h hrest)

theorem ListAllMember_unfolds_pair : ∀ (p : Node × Node) {fuel : Nat} {pre : String} {i : ι × ι}
    {out : List (String × ι)}, Unfolds.pair g p i →
      g.ListAllMember fuel (extend pre (g.Scalar i.1), i.2) = some out →
      Members g out (ListAllMember.pair pre p)
  | (k, v), fuel, pre, i, out, h, hout => by
      rw [ListAllMember.pair]
      rw [Unfolds.scalar_eq h.1] at hout
      exact ListAllMember_unfolds v h.2 hout

end

/-! ## Documents -/

/-- The document `x: &a {y: 1}` with a second key `z: *a`. -/
def shared : Graph (Fin 6)
  | 0 => .map [(1, 2), (5, 2)]
  | 1 => .scalar "x"
  | 2 => .map [(3, 4)]
  | 3 => .scalar "y"
  | 4 => .scalar "1"
  | 5 => .scalar "z"

theorem terminates_iff_shared :
    shared.Terminates 0 ∧ ¬ TransGen shared.Contains 0 0 ∧ ¬ TransGen shared.Contains 2 2 := by
  have hlisted : shared.Terminates 0 := ⟨3, by decide⟩
  have hnone := (terminates_iff shared 0).mp hlisted
  exact ⟨hlisted, hnone 0 .refl, hnone 2 (.single ⟨[(1, 2), (5, 2)], rfl, 1, by simp, by decide⟩)⟩

/-- The document `&x {a: *x}`. -/
def enclosing : Graph (Fin 2)
  | 0 => .map [(1, 0)]
  | 1 => .scalar "a"

theorem not_terminates_enclosing : ¬ enclosing.Terminates 0 := by
  intro h
  have hacc := (acc_calls_iff validName_empty).mp
    ((recursive_ListAllMember enclosing).returns_iff_acc.mp h)
  refine not_cycle_of_acc hacc (.single ⟨[(1, 0)], rfl, 1, by simp, ?_⟩)
  decide

end Sylar
