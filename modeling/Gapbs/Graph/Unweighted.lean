import Gapbs.Bc.Slots
import Gapbs.Builder.Determined

/-!
# Weighted graphs without their weights

The weighted graph and the unweighted one of a list have the same edges.
-/

namespace Gapbs

variable {n : Nat}

/-! ## Other destinations -/

namespace Csr

variable {α β : Type}

/-- The same structure over other destinations. -/
def map (f : α → β) (c : Csr n α) : Csr n β where
  index := c.index
  neighbors := c.neighbors.map f
  index_zero := c.index_zero
  index_mono := c.index_mono
  index_last := by rw [c.index_last, List.length_map]

@[simp] theorem neigh_map (f : α → β) (c : Csr n α) (u : Fin n) : (c.map f).neigh u = (c.neigh u).map f := by
  simp [neigh, map, List.map_take, List.map_drop]

@[simp] theorem degree_map (f : α → β) (c : Csr n α) (u : Fin n) : (c.map f).degree u = c.degree u := rfl

end Csr

namespace WGraph

variable {g : WGraph n}

/-- The graph without its weights. -/
def unweighted (g : WGraph n) : Graph n where
  directed := g.directed
  out := g.out.map NodeWeight.v
  inn := g.inn.map NodeWeight.v
  shared h := by rw [g.shared h]
  nodes_lt := g.nodes_lt

@[simp] theorem outNeigh_unweighted (u : Fin n) :
    g.unweighted.outNeigh u = (g.outNeigh u).map NodeWeight.v :=
  Csr.neigh_map NodeWeight.v g.out u

@[simp] theorem inNeigh_unweighted (u : Fin n) :
    g.unweighted.inNeigh u = (g.inNeigh u).map NodeWeight.v :=
  Csr.neigh_map NodeWeight.v g.inn u

@[simp] theorem outDegree_unweighted (u : Fin n) : g.unweighted.outDegree u = g.outDegree u := rfl

@[simp] theorem numEdgesDirected_unweighted : g.unweighted.numEdgesDirected = g.numEdgesDirected := rfl

theorem length_neighbors_unweighted : g.unweighted.out.neighbors.length = g.out.neighbors.length :=
  List.length_map ..

theorem edge_unweighted_iff {u v : Fin n} : g.unweighted.Edge u v ↔ ∃ w, ⟨v, w⟩ ∈ g.outNeigh u := by
  rw [Graph.Edge, outNeigh_unweighted, List.mem_map]
  constructor
  · rintro ⟨⟨_, w⟩, hwn, rfl⟩
    exact ⟨w, hwn⟩
  · rintro ⟨w, hwn⟩
    exact ⟨⟨v, w⟩, hwn, rfl⟩

theorem mem_inNeigh_unweighted {u v : Fin n} : u ∈ g.unweighted.inNeigh v ↔ ∃ w, ⟨u, w⟩ ∈ g.inNeigh v := by
  rw [inNeigh_unweighted, List.mem_map]
  constructor
  · rintro ⟨⟨_, w⟩, hwn, rfl⟩
    exact ⟨w, hwn⟩
  · rintro ⟨w, hwn⟩
    exact ⟨⟨u, w⟩, hwn, rfl⟩

end WGraph

/-! ## Graphs of edge lists -/

/-- A list that is short can be counted. -/
theorem countable_of_length {symmetrize : Bool} {el : List (EdgePair Nat Nat)} (h : el.length < 2 ^ 30) :
    Countable symmetrize el := by
  intro x
  have hsources := List.count_le_length (l := el.map EdgePair.u) (a := x)
  have htargets := List.count_le_length (l := el.map EdgePair.v) (a := x)
  rw [List.length_map] at hsources htargets
  cases symmetrize
  · exact ⟨by omega, by omega⟩
  · show _ + _ < _
    omega

namespace GraphOf

variable {symmetrize : Bool} {el : List (EdgePair Nat Nat)} {g : Graph n}

theorem nodup (h : GraphOf symmetrize el g) (v : Fin n) : (g.outNeigh v).Nodup :=
  (h.outSorted v).imp fun hlt => hlt.ne

theorem inNodup (h : GraphOf symmetrize el g) (v : Fin n) : (g.inNeigh v).Nodup :=
  (h.inSorted v).imp fun hlt => hlt.ne

theorem loopless (h : GraphOf symmetrize el g) (v : Fin n) : ¬ g.Edge v v :=
  fun hedge => ((h.edge v v).mp hedge).1 rfl

theorem simpleCsr (h : GraphOf symmetrize el g) : g.SimpleCsr :=
  ⟨h.nodup, h.loopless, fun hd _ _ hedge => h.transposed.symm hd hedge⟩

theorem outDegree_lt (h : GraphOf symmetrize el g) (v : Fin n) : g.outDegree v < 2 ^ 31 := by
  have hlength := (h.nodup v).length_le_card
  rw [Fintype.card_fin, g.length_outNeigh] at hlength
  have hn := g.nodes_lt
  omega

end GraphOf

section

variable {symmetrize : Bool} {l : List (EdgePair Nat (Nat × Int))} {g : WGraph n}

/-- Of finitely many weights one is the least. -/
theorem exists_isLeast_weightsOf {u v : Nat} : (∃ w, IsLeast (weightsOf symmetrize l u v) w) ↔
    ∃ w, w ∈ weightsOf symmetrize l u v := by
  constructor
  · rintro ⟨w, hw, -⟩
    exact ⟨w, hw⟩
  · rintro ⟨w, hw⟩
    have hfinite : (weightsOf symmetrize l u v).Finite := by
      refine (l.map fun e => e.v.2).toFinset.finite_toSet.subset fun x hx => ?_
      rw [Finset.mem_coe, List.mem_toFinset, List.mem_map]
      rcases hx with hx | ⟨-, hx⟩
      · exact ⟨_, hx, rfl⟩
      · exact ⟨_, hx, rfl⟩
    obtain ⟨x, hx, hmin⟩ := hfinite.exists_minimal ⟨w, hw⟩
    refine ⟨x, hx, fun y hy => ?_⟩
    rcases le_total x y with hle | hle
    · exact hle
    · exact hmin hy hle

theorem mem_weightsOf_iff {u v : Nat} : (∃ w, w ∈ weightsOf symmetrize l u v) ↔
    ⟨u, v⟩ ∈ l.map EdgePair.unweighted ∨
      symmetrize = true ∧ (⟨v, u⟩ : EdgePair Nat Nat) ∈ l.map EdgePair.unweighted := by
  have hmem (a b : Nat) : (⟨a, b⟩ : EdgePair Nat Nat) ∈ l.map EdgePair.unweighted ↔ ∃ w, ⟨a, (b, w)⟩ ∈ l := by
    rw [List.mem_map]
    constructor
    · rintro ⟨⟨_, _, w⟩, he, heq⟩
      obtain ⟨rfl, rfl⟩ := EdgePair.mk.inj heq
      exact ⟨w, he⟩
    · rintro ⟨w, he⟩
      exact ⟨_, he, rfl⟩
  rw [hmem, hmem, weightsOf]
  constructor
  · rintro ⟨w, hw | ⟨hsymm, hw⟩⟩
    · exact .inl ⟨w, hw⟩
    · exact .inr ⟨hsymm, w, hw⟩
  · rintro (⟨w, hw⟩ | ⟨hsymm, w, hw⟩)
    · exact ⟨w, .inl hw⟩
    · exact ⟨w, .inr ⟨hsymm, hw⟩⟩

/-- Without the weights it is the graph of the list without weights. -/
theorem WBuiltFrom.graphOf_unweighted (h : WBuiltFrom symmetrize l g) :
    GraphOf symmetrize (l.map EdgePair.unweighted) g.unweighted where
  nodes := h.nodes
  directed := h.directed
  outSorted v := by
    rw [WGraph.outNeigh_unweighted, List.pairwise_map]
    exact h.outSorted v
  inSorted v := by
    rw [WGraph.inNeigh_unweighted, List.pairwise_map]
    exact h.inSorted v
  edge u v := by
    rw [WGraph.edge_unweighted_iff, ← mem_weightsOf_iff, ← exists_isLeast_weightsOf, ← exists_and_left]
    exact exists_congr fun w => h.least u v w
  transposed u v := by
    rw [WGraph.mem_inNeigh_unweighted, WGraph.edge_unweighted_iff]
    exact exists_congr fun w => (h.transposed u v w).symm

/-- `num_edges_directed` counts all entries. -/
theorem WBuiltFrom.length_neighbors (h : WBuiltFrom symmetrize l g) :
    g.out.neighbors.length = g.numEdgesDirected := by
  have hsimple := h.graphOf_unweighted.simpleCsr
  rw [← WGraph.length_neighbors_unweighted, ← WGraph.numEdgesDirected_unweighted, numEdgesDirected_eq hsimple]

end

end Gapbs
