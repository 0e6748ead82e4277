import Sylar.Foundation.Fallible
import Mathlib.Logic.Function.Basic

/-!
# YAML trees

`YAML::Node` as the configuration system uses it: a tree that is read by
subscripts and built by assignments and `push_back`.  A node that is not defined
is `none`.

A node built by assignments is, for its readers, a partial function from keys to
nodes, and one built by `push_back` is a list.  `Reads` and `rows` say so, and a
writer's result is described by them and not by the tree it happens to build.
-/

namespace Sylar.Yaml

open Foundation

/-- The exceptions of yaml-cpp and of the code that calls it. -/
inductive Exception
  | BadSubscript
  | BadPushback
  | BadConversion
  | ParserException
  | InvalidNode
  | bad_lexical_cast
  | invalid_argument (what : String)
  /-- What a listener throws. -/
  | thrown (what : String)
deriving DecidableEq, Repr

/-- `YAML::Node`. -/
inductive Node
  | null
  | scalar (s : String)
  | sequence (ns : List Node)
  | map (ps : List (Node × Node))

/-- What is used of yaml-cpp itself: the parser, the emitter, `as<std::string>()`
and the reading of a map key as a number. -/
structure YamlCpp where
  load : String → Except Exception Node
  emit : Node → String
  asString : Node → Except Exception String
  asSize : String → Option Nat

namespace Node

variable {n n' m : Node} {ns : List Node} {k : String} {v : Node} {f : String → Option Node}

/-- `node.size()`. -/
def size : Node → Nat
  | sequence ns => ns.length
  | map ps => ps.length
  | _ => 0

/-- `node.Scalar()`, which is empty for other nodes. -/
def Scalar : Node → String
  | scalar s => s
  | _ => ""

/-- A key is compared with a string by its scalar text. -/
def equals : Node → String → Bool
  | scalar s, k => s = k
  | _, _ => false

/-- The pairs of a node that is subscripted with a string: a null node becomes an
empty map, and a sequence the map from its indices. -/
def pairs : Node → Except Exception (List (Node × Node))
  | null => .ok []
  | scalar _ => .error .BadSubscript
  | sequence ns => .ok (ns.zipIdx.map fun p ↦ (scalar (toString p.2), p.1))
  | map ps => .ok ps

/-- The value of the first pair with a key. -/
def lookup (ps : List (Node × Node)) (k : String) : Option Node :=
  (ps.find? fun p ↦ p.1.equals k).map Prod.snd

/-- Give the first pair with a key another value, or append a pair. -/
def assign (k : String) (v : Node) : List (Node × Node) → List (Node × Node)
  | [] => [(scalar k, v)]
  | p :: ps => if p.1.equals k then (p.1, v) :: ps else p :: assign k v ps

/-- `node[key]`. -/
def get (n : Node) (k : String) : Except Exception (Option Node) := do
  let ps ← n.pairs
  .ok (lookup ps k)

/-- `node[key] = value`. -/
def set (n : Node) (k : String) (v : Node) : Except Exception Node := do
  let ps ← n.pairs
  .ok (map (assign k v ps))

/-- `node[index]`. -/
def index (asSize : String → Option Nat) : Node → Nat → Except Exception (Option Node)
  | null, _ => .ok none
  | scalar _, _ => .error .BadSubscript
  | sequence ns, i => .ok ns[i]?
  | map ps, i => .ok ((ps.find? fun p ↦
      match p.1 with
      | scalar s => asSize s = some i
      | _ => false).map Prod.snd)

/-- `node.push_back(value)`. -/
def push_back : Node → Node → Except Exception Node
  | null, m => .ok (sequence [m])
  | sequence ns, m => .ok (sequence (ns ++ [m]))
  | _, _ => .error .BadPushback

/-- `node[key].push_back(value)`. -/
def pushAt (n : Node) (k : String) (m : Node) : Except Exception Node := do
  let v ← n.get k
  let v ← (v.getD null).push_back m
  n.set k v

/-! ## Nodes built by assignments -/

/-- Subscripts of the node are values of the function. -/
def Reads (n : Node) (f : String → Option Node) : Prop :=
  ∃ ps, n.pairs = .ok ps ∧ ∀ k, lookup ps k = f k

theorem equals_iff : n.equals k = true ↔ n = scalar k := by
  cases n <;> simp [equals]

theorem lookup_assign (ps : List (Node × Node)) (k j : String) :
    lookup (assign k v ps) j = Function.update (lookup ps) k (some v) j := by
  induction ps with
  | nil =>
      by_cases hj : j = k
      · simp [assign, lookup, equals, hj]
      · simp [assign, lookup, equals, hj, Ne.symm hj]
  | cons p ps ih =>
      have hcons : ∀ (q : Node × Node) qs i,
          lookup (q :: qs) i = if q.1.equals i then some q.2 else lookup qs i := by
        intro q qs i
        by_cases hq : q.1.equals i = true <;> simp [lookup, hq]
      simp only [assign]
      by_cases hp : p.1.equals k = true
      · have hkey := equals_iff.mp hp
        by_cases hj : j = k
        · simp [hp, hj, hcons]
        · simp [hcons, hkey, equals, hj, Ne.symm hj]
      · by_cases hj : j = k
        · subst hj
          simp [hp, hcons, ih]
        · simp [hp, hcons, ih, hj]

theorem reads_null : null.Reads fun _ ↦ none := ⟨[], rfl, fun _ ↦ rfl⟩

theorem Reads.get (h : n.Reads f) (k : String) : n.get k = .ok (f k) := by
  obtain ⟨ps, hps, hf⟩ := h
  simp [Node.get, hps, hf]

theorem Reads.set (h : n.Reads f) (k : String) (v : Node) :
    ∃ n', n.set k v = .ok n' ∧ n'.Reads (Function.update f k (some v)) := by
  obtain ⟨ps, hps, hf⟩ := h
  refine ⟨map (assign k v ps), by simp [Node.set, hps], _, rfl, fun j ↦ ?_⟩
  rw [lookup_assign, funext hf]

/-- An assignment under a condition. -/
theorem Reads.setIf (h : n.Reads f) (c : Prop) [Decidable c] (hk : f k = none) :
    ∃ n', (if c then n.set k v else .ok n) = .ok n' ∧
      n'.Reads (Function.update f k (if c then some v else none)) := by
  by_cases hc : c
  · simpa [hc] using h.set k v
  · exact ⟨n, by simp [hc], by simpa [hc, ← hk] using h⟩

/-! ## Nodes built by `push_back` -/

/-- The node after the nodes of a list have been pushed back. -/
def rows : List Node → Node
  | [] => null
  | n :: ns => sequence (n :: ns)

/-- The same under a subscript, where there is no node before the first one. -/
def listed : List Node → Option Node
  | [] => none
  | n :: ns => some (sequence (n :: ns))

@[simp] theorem listed_getD : (listed ns).getD null = rows ns := by
  cases ns <;> rfl

@[simp] theorem rows_size : (rows ns).size = ns.length := by
  cases ns <;> rfl

@[simp] theorem rows_index (asSize : String → Option Nat) (i : Nat) :
    (rows ns).index asSize i = .ok ns[i]? := by
  cases ns <;> simp [rows, index]

@[simp] theorem rows_push_back : (rows ns).push_back m = .ok (rows (ns ++ [m])) := by
  cases ns <;> rfl

theorem Reads.pushAt (h : n.Reads f) (hk : f k = listed ns) (m : Node) :
    ∃ n', n.pushAt k m = .ok n' ∧ n'.Reads (Function.update f k (listed (ns ++ [m]))) := by
  have hlisted : some (rows (ns ++ [m])) = listed (ns ++ [m]) := by
    cases ns <;> rfl
  obtain ⟨n', hn', hr⟩ := h.set k (rows (ns ++ [m]))
  rw [hlisted] at hr
  exact ⟨n', by simp [Node.pushAt, h.get, hk, hn'], hr⟩

/-- A loop over the indices of a node that lists others is a loop over these. -/
theorem foldlM_rows {σ : Type} (asSize : String → Option Nat)
    (g : σ → Option Node → Except Exception σ) (s : σ) :
    ((List.range (rows ns).size).foldlM (fun s i ↦ do
        let m ← (rows ns).index asSize i
        g s m) s) = ns.foldlM (fun s m ↦ g s (some m)) s := by
  suffices h : ∀ (pre : List Node) (s : σ), (List.range' pre.length ns.length).foldlM
      (fun s i ↦ g s (pre ++ ns)[i]?) s = ns.foldlM (fun s m ↦ g s (some m)) s by
    simpa [List.range_eq_range'] using h [] s
  induction ns with
  | nil => exact fun _ _ ↦ rfl
  | cons m ns ih =>
      intro pre s
      have hm : (pre ++ m :: ns)[pre.length]? = some m := by simp
      rw [List.length_cons, List.range'_succ, List.foldlM_cons, List.foldlM_cons, hm]
      refine bind_congr fun t ↦ ?_
      simpa using ih (pre ++ [m]) t

/-! ## Maps with distinct keys -/

/-- The node after values have been assigned to keys that are all different. -/
def fields : List (String × Node) → Node
  | [] => null
  | p :: ps => map ((p :: ps).map fun p ↦ (scalar p.1, p.2))

theorem assign_new {ps : List (String × Node)} (h : ∀ p ∈ ps, p.1 ≠ k) :
    assign k v (ps.map fun p ↦ (scalar p.1, p.2)) =
      (ps ++ [(k, v)]).map fun p ↦ (scalar p.1, p.2) := by
  induction ps with
  | nil => rfl
  | cons p ps ih =>
      have hp : p.1 ≠ k := h p (by simp)
      simp only [List.map_cons, List.cons_append, assign, equals, hp, decide_false,
        Bool.false_eq_true, if_false]
      rw [ih fun q hq ↦ h q (by simp [hq])]

theorem fields_set {ps : List (String × Node)} (h : ∀ p ∈ ps, p.1 ≠ k) :
    (fields ps).set k v = .ok (fields (ps ++ [(k, v)])) := by
  cases ps with
  | nil => rfl
  | cons p ps =>
      change Except.ok (map (assign k v ((p :: ps).map fun p ↦ (scalar p.1, p.2)))) = _
      rw [assign_new h]
      rfl

end Node

end Sylar.Yaml
