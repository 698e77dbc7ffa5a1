import Mathlib.Logic.Relation
import Mathlib.Order.Fin.Basic
import Mathlib.Order.Bounds.Defs
import Mathlib.Data.Fin.VecNotation
import Mathlib.Order.Monotone.Basic
import Mathlib.Algebra.Group.Nat.Defs
import Mathlib.Algebra.GroupWithZero.Nat
import Gapbs.Lib.RawArray

/-!
# Graphs in compressed sparse row format

The container `CSRGraph` of `graph.h`.  Vertices are `Fin n`, so an id of a graph on `n` vertices is
in range by construction; index pointers are offsets into the neighbour array.
-/

namespace Gapbs

/-! ## Vertices

What numerals, membership and the order of vertices need, by name: a definition that uses them carries
no proof of its own. -/

namespace VertexFacts

scoped instance (priority := 1200) two : NeZero 2 := ⟨by decide⟩

scoped instance (priority := 1200) three : NeZero 3 := ⟨by decide⟩

scoped instance (priority := 1100) succ (n : Nat) : NeZero (n + 1) := inferInstance

scoped instance mem (n : Nat) : LawfulBEq (Fin n) := inferInstance

scoped instance lt (n : Nat) : WellFoundedLT (Fin n) := inferInstance

end VertexFacts

/-- One direction of a graph: the neighbourhood of `u` occupies the slots from `index u` up to
`index (u + 1)` of the neighbour array. -/
structure Csr (n : Nat) (DestID : Type) where
  index : Fin (n + 1) → Nat
  neighbors : List DestID
  index_zero : index 0 = 0
  index_mono : Monotone index
  index_last : index (Fin.last n) = neighbors.length

namespace Csr

variable {n : Nat} {DestID : Type}

/-- `Neighborhood(n, g_index, start_offset)`: the offset is capped at the degree. -/
def neigh (c : Csr n DestID) (u : Fin n) (startOffset : Nat := 0) : List DestID :=
  let maxOffset := c.index u.succ - c.index u.castSucc
  let start := c.index u.castSucc + min startOffset maxOffset
  (c.neighbors.drop start).take (c.index u.succ - start)

def degree (c : Csr n DestID) (u : Fin n) : Nat := c.index u.succ - c.index u.castSucc

/-- The pointers and the array as they stand, when they form a valid structure. -/
def ofArrays (index : Fin (n + 1) → Nat) (neighbors : List DestID) : Option (Csr n DestID) :=
  if h : index 0 = 0 ∧ Monotone index ∧ index (Fin.last n) = neighbors.length then
    some ⟨index, neighbors, h.1, h.2.1, h.2.2⟩
  else none

theorem index_le (c : Csr n DestID) (u : Fin n) : c.index u.castSucc ≤ c.index u.succ :=
  c.index_mono (Fin.castSucc_lt_succ).le

theorem index_le_length (c : Csr n DestID) (i : Fin (n + 1)) : c.index i ≤ c.neighbors.length :=
  c.index_last ▸ c.index_mono (Fin.le_last i)

/-- The ranges of different vertices are apart. -/
theorem index_apart (c : Csr n DestID) {u v : Fin n} (huv : u ≠ v) :
    c.index u.succ ≤ c.index v.castSucc ∨ c.index v.succ ≤ c.index u.castSucc := by
  rcases lt_or_gt_of_ne huv with hlt | hlt
  · exact .inl (c.index_mono (Fin.succ_le_castSucc_iff.mpr hlt))
  · exact .inr (c.index_mono (Fin.succ_le_castSucc_iff.mpr hlt))

@[simp] theorem length_neigh (c : Csr n DestID) (u : Fin n) : (c.neigh u).length = c.degree u := by
  have hle := c.index_le u
  have hlen := c.index_le_length u.succ
  simp only [neigh, degree, List.length_take, List.length_drop]
  omega

theorem neigh_eq_slice (c : Csr n DestID) (u : Fin n) :
    c.neigh u = RawArray.slice c.neighbors (c.index u.castSucc) (c.index u.succ) := by
  simp [neigh, RawArray.slice]

/-- A start offset skips that many neighbours. -/
theorem neigh_offset (c : Csr n DestID) (u : Fin n) (r : Nat) :
    c.neigh u r = (c.neigh u).drop r := by
  have hle := c.index_le u
  rcases le_or_gt r (c.index u.succ - c.index u.castSucc) with hr | hr
  · simp only [neigh, Nat.min_eq_left hr, Nat.zero_min, Nat.add_zero, List.drop_take,
      List.drop_drop]
    congr 1
    omega
  · have hlen := c.length_neigh u
    rw [List.drop_eq_nil_of_le (by rw [hlen, degree]; omega)]
    simp only [neigh, Nat.min_eq_right hr.le]
    rw [show c.index u.succ - (c.index u.castSucc + (c.index u.succ - c.index u.castSucc)) = 0
      by omega, List.take_zero]

end Csr

/-- Conversion to `NodeID_`, a signed type of 32 bits. -/
def toNodeID (k : Int) : Int := k.bmod (2 ^ 32)

/-- A number in the range of `NodeID_` is converted to itself. -/
theorem toNodeID_eq {k : Nat} (hk : k < 2 ^ 31) : toNodeID k = k := by
  rw [toNodeID, Int.bmod_eq_of_le] <;> omega

/-- `CSRGraph<NodeID_, DestID_>`: an undirected graph stores one direction only.  `GenIndex` counts
the `n + 1` entries of an index in a `NodeID_`, so that no graph has more. -/
structure CSRGraph (n : Nat) (DestID : Type) where
  directed : Bool
  out : Csr n DestID
  inn : Csr n DestID
  shared : directed = false → inn = out
  nodes_lt : n + 1 < 2 ^ 31

/-- A destination with its weight. -/
structure NodeWeight (n : Nat) where
  v : Fin n
  w : Int
deriving DecidableEq

abbrev Graph (n : Nat) := CSRGraph n (Fin n)

abbrev WGraph (n : Nat) := CSRGraph n (NodeWeight n)

namespace CSRGraph

variable {n : Nat} {DestID : Type}

/-- The constructor for undirected graphs. -/
def ofUndirected (out : Csr n DestID) (hn : n + 1 < 2 ^ 31) : CSRGraph n DestID :=
  ⟨false, out, out, fun _ => rfl, hn⟩

/-- The constructor for directed graphs. -/
def ofDirected (out inn : Csr n DestID) (hn : n + 1 < 2 ^ 31) : CSRGraph n DestID :=
  ⟨true, out, inn, nofun, hn⟩

/-- `num_edges_` as the two constructors compute it. -/
def numEdges (g : CSRGraph n DestID) : Nat :=
  if g.directed then g.out.index (Fin.last n) - g.out.index 0
  else (g.out.index (Fin.last n) - g.out.index 0) / 2

def numEdgesDirected (g : CSRGraph n DestID) : Nat :=
  if g.directed then g.numEdges else 2 * g.numEdges

def outDegree (g : CSRGraph n DestID) (v : Fin n) : Nat := g.out.degree v

def inDegree (g : CSRGraph n DestID) (v : Fin n) : Nat := g.inn.degree v

def outNeigh (g : CSRGraph n DestID) (v : Fin n) (startOffset : Nat := 0) : List DestID :=
  g.out.neigh v startOffset

def inNeigh (g : CSRGraph n DestID) (v : Fin n) (startOffset : Nat := 0) : List DestID :=
  g.inn.neigh v startOffset

@[simp] theorem outNeigh_ofUndirected (c : Csr n DestID) (hn : n + 1 < 2 ^ 31) (v : Fin n) :
    (ofUndirected c hn).outNeigh v = c.neigh v := rfl

@[simp] theorem outNeigh_ofDirected (c d : Csr n DestID) (hn : n + 1 < 2 ^ 31) (v : Fin n) :
    (ofDirected c d hn).outNeigh v = c.neigh v := rfl

@[simp] theorem inNeigh_ofDirected (c d : Csr n DestID) (hn : n + 1 < 2 ^ 31) (v : Fin n) :
    (ofDirected c d hn).inNeigh v = d.neigh v := rfl

@[simp] theorem length_outNeigh (g : CSRGraph n DestID) (v : Fin n) :
    (g.outNeigh v).length = g.outDegree v :=
  g.out.length_neigh v

theorem outNeigh_offset (g : CSRGraph n DestID) (v : Fin n) (r : Nat) :
    g.outNeigh v r = (g.outNeigh v).drop r :=
  g.out.neigh_offset v r

theorem inNeigh_eq_outNeigh (g : CSRGraph n DestID) (h : g.directed = false) (v : Fin n)
    (r : Nat) : g.inNeigh v r = g.outNeigh v r := by
  rw [inNeigh, outNeigh, g.shared h]

end CSRGraph

namespace Graph

variable {n : Nat}

/-- There is an edge from `u` to `v`. -/
def Edge (g : Graph n) (u v : Fin n) : Prop := v ∈ g.outNeigh u

instance (g : Graph n) : DecidableRel g.Edge :=
  fun u v => inferInstanceAs (Decidable (v ∈ g.outNeigh u))

/-- `in_neigh` is the transpose of `out_neigh`; for an undirected graph, which stores one
direction, `out_neigh` is symmetric. -/
def Transposed (g : Graph n) : Prop := ∀ u v, u ∈ g.inNeigh v ↔ g.Edge u v

instance (g : Graph n) : Decidable g.Transposed :=
  inferInstanceAs (Decidable (∀ u v, u ∈ g.inNeigh v ↔ v ∈ g.outNeigh u))

theorem Transposed.symm {g : Graph n} (hg : g.Transposed) (h : g.directed = false) {u v : Fin n}
    (huv : g.Edge u v) : g.Edge v u := by
  have hin := (hg u v).mpr huv
  rwa [g.inNeigh_eq_outNeigh h] at hin

/-- `u` and `v` are joined by a path when the directions of the edges are ignored. -/
def Weak (g : Graph n) : Fin n → Fin n → Prop := Relation.EqvGen g.Edge

theorem weak_equivalence (g : Graph n) : Equivalence g.Weak := Relation.EqvGen.is_equivalence _

/-- A property that no edge separates holds throughout a weak component. -/
theorem Weak.lift {g : Graph n} {r : Fin n → Fin n → Prop} (hr : Equivalence r)
    (hedge : ∀ u v, g.Edge u v → r u v) {u v : Fin n} (h : g.Weak u v) : r u v := by
  induction h with
  | rel u v h => exact hedge u v h
  | refl u => exact hr.refl u
  | symm u v _ ih => exact hr.symm ih
  | trans u v w _ _ ih₁ ih₂ => exact hr.trans ih₁ ih₂

end Graph

theorem pairIndex_zero : ![0, 1, 2] (0 : Fin (2 + 1)) = 0 := rfl

theorem pairIndex_lt : 2 + 1 < 2 ^ 31 := by decide

theorem tripleIndex_lt : 3 + 1 < 2 ^ 31 := by decide

open VertexFacts in
/-- Two vertices joined by one undirected edge. -/
def pairGraph : Graph 2 :=
  .ofUndirected
    { index := ![0, 1, 2]
      neighbors := [1, 0]
      index_zero := pairIndex_zero
      index_mono := by decide
      index_last := rfl } pairIndex_lt

end Gapbs
