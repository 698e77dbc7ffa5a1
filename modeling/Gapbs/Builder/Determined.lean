import Gapbs.Builder.Weighted

/-!
# The graph of an edge list

Which edges stand in a list, and with which least weights, determines the graph that is built from it:
a graph with these edges and sorted rows is the one that all interleavings return.
-/

namespace Gapbs

open Conc

variable {n : Nat} {symmetrize : Bool}

/-! ## Without weights -/

section

variable {el : List (EdgePair Nat Nat)} {g : Graph n}

/-- All interleavings, on any team of threads, return the graph. -/
def Builds (symmetrize : Bool) (el : List (EdgePair Nat Nat)) (r : (n : Nat) × Graph n) : Prop :=
  ∀ (T : Nat) [NeZero T] (m : ∀ n, BuilderMem n (Fin n)),
    (makeGraph T symmetrize el).Correct m fun r' _ => r' = r

/-- The graph has the vertices and the edges of the list. -/
structure GraphOf (symmetrize : Bool) (el : List (EdgePair Nat Nat)) (g : Graph n) : Prop where
  nodes : n = maxNodeID el + 1
  directed : g.directed = !symmetrize
  outSorted : ∀ v, (g.outNeigh v).Pairwise (· < ·)
  inSorted : ∀ v, (g.inNeigh v).Pairwise (· < ·)
  edge : ∀ u v, g.Edge u v ↔
    u ≠ v ∧ (⟨u, v⟩ ∈ el ∨ symmetrize = true ∧ (⟨v, u⟩ : EdgePair Nat Nat) ∈ el)
  transposed : g.Transposed

/-! ### The order of the edges -/

theorem maxNodeID_perm {l : List (EdgePair Nat Nat)} (h : el.Perm l) : maxNodeID el = maxNodeID l := by
  have hle {a b : List (EdgePair Nat Nat)} (h : a.Perm b) : maxNodeID a ≤ maxNodeID b := by
    rw [maxNodeID, foldl_maxOfEdge_le]
    exact ⟨Nat.zero_le _, fun e he => le_maxNodeID (h.subset he)⟩
  exact le_antisymm (hle h) (hle h.symm)

theorem Countable.perm {l : List (EdgePair Nat Nat)} (h : el.Perm l) (hcount : Countable symmetrize el) :
    Countable symmetrize l := by
  intro x
  rw [← (h.map EdgePair.u).count_eq, ← (h.map EdgePair.v).count_eq]
  exact hcount x

/-- A list in another order has the same graph. -/
theorem GraphOf.perm {l : List (EdgePair Nat Nat)} (h : el.Perm l) (hg : GraphOf symmetrize el g) :
    GraphOf symmetrize l g where
  nodes := by rw [hg.nodes, maxNodeID_perm h]
  directed := hg.directed
  outSorted := hg.outSorted
  inSorted := hg.inSorted
  edge u v := by rw [hg.edge, h.mem_iff, h.mem_iff]
  transposed := hg.transposed

/-! ### The graph that is built -/

theorem BuiltFrom.graphOf (h : BuiltFrom symmetrize el g) : GraphOf symmetrize el g :=
  ⟨h.nodes, h.directed, h.outSorted, h.inSorted, h.edge, h.transposed⟩

/-- Two graphs with the edges of the same list are equal. -/
theorem GraphOf.unique {g h : Graph n} (hg : GraphOf symmetrize el g)
    (hh : GraphOf symmetrize el h) : g = h := by
  apply CSRGraph.ext_rows (hg.directed.trans hh.directed.symm)
  · intro u
    apply List.Pairwise.eq_of_mem_iff (hg.outSorted u) (hh.outSorted u)
    exact fun v => (hg.edge u v).trans (hh.edge u v).symm
  · intro v
    apply List.Pairwise.eq_of_mem_iff (hg.inSorted v) (hh.inSorted v)
    intro u
    calc u ∈ g.inNeigh v ↔ g.Edge u v := hg.transposed u v
      _ ↔ h.Edge u v := (hg.edge u v).trans (hh.edge u v).symm
      _ ↔ u ∈ h.inNeigh v := (hh.transposed u v).symm

theorem GraphOf.builds (h : GraphOf symmetrize el g) (hcount : Countable symmetrize el) :
    Builds symmetrize el ⟨n, g⟩ := by
  obtain rfl := h.nodes
  intro T _ m
  obtain ⟨edges, hedges, hel⟩ := edges_of_max el
  have hbuilt : GraphOf symmetrize el (builtGraph symmetrize edges g.nodes_lt) :=
    (builtGraph_builtFrom g.nodes_lt hel rfl).graphOf
  apply Solo.correct
  apply (makeGraph_solo g.nodes_lt hcount hedges hel m).mono
  rintro _ _ ⟨rfl, -⟩
  rw [h.unique hbuilt]

end

/-! ## With weights -/

section

variable {el : List (EdgePair Nat (Nat × Int))} {g : WGraph n}

/-- All interleavings, on any team of threads, return the weighted graph. -/
def WBuilds (symmetrize : Bool) (el : List (EdgePair Nat (Nat × Int))) (r : (n : Nat) × WGraph n) : Prop :=
  ∀ (T : Nat) [NeZero T] (m : ∀ n, BuilderMem n (NodeWeight n)),
    (makeWGraph T symmetrize el).Correct m fun r' _ => r' = r

/-- The weights of an edge do not depend on the order of the list. -/
theorem WBuiltFrom.perm {l : List (EdgePair Nat (Nat × Int))} (h : el.Perm l)
    (hg : WBuiltFrom symmetrize el g) : WBuiltFrom symmetrize l g where
  nodes := by rw [hg.nodes, maxNodeID_perm (h.map _)]
  directed := hg.directed
  outSorted := hg.outSorted
  inSorted := hg.inSorted
  least u v w := by
    have hweights : weightsOf symmetrize el u v = weightsOf symmetrize l u v := by
      ext x
      simp only [weightsOf, Set.mem_ofPred_eq, h.mem_iff]
    rw [hg.least, hweights]
  transposed := hg.transposed
  symm := hg.symm

theorem WBuiltFrom.unique {g h : WGraph n} (hg : WBuiltFrom symmetrize el g)
    (hh : WBuiltFrom symmetrize el h) : g = h := by
  have hirrefl : Std.Irrefl fun a b : NodeWeight n => a.v < b.v := ⟨fun a => lt_irrefl a.v⟩
  have hedge (u v : Fin n) (w : Int) : ⟨v, w⟩ ∈ g.outNeigh u ↔ ⟨v, w⟩ ∈ h.outNeigh u :=
    (hg.least u v w).trans (hh.least u v w).symm
  apply CSRGraph.ext_rows (hg.directed.trans hh.directed.symm)
  · intro u
    apply List.Pairwise.eq_of_mem_iff (hg.outSorted u) (hh.outSorted u)
    exact fun d => hedge u d.v d.w
  · intro v
    apply List.Pairwise.eq_of_mem_iff (hg.inSorted v) (hh.inSorted v)
    intro d
    calc d ∈ g.inNeigh v ↔ ⟨v, d.w⟩ ∈ g.outNeigh d.v := (hg.transposed d.v v d.w).symm
      _ ↔ ⟨v, d.w⟩ ∈ h.outNeigh d.v := hedge d.v v d.w
      _ ↔ d ∈ h.inNeigh v := hh.transposed d.v v d.w

theorem WBuiltFrom.builds (h : WBuiltFrom symmetrize el g)
    (hcount : Countable symmetrize (el.map EdgePair.unweighted)) : WBuilds symmetrize el ⟨n, g⟩ := by
  obtain rfl := h.nodes
  intro T _ m
  obtain ⟨edges, hedges, hraw⟩ := wEdges_of_max el
  have hbuilt : WBuiltFrom symmetrize el (builtWGraph symmetrize edges g.nodes_lt) :=
    builtWGraph_builtFrom g.nodes_lt hraw rfl
  apply Solo.correct
  apply (makeWGraph_eq g.nodes_lt hcount hedges hraw m).mono
  rintro _ _ rfl
  rw [h.unique hbuilt]

end

end Gapbs
