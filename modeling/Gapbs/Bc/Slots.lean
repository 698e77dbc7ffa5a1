import Mathlib.Combinatorics.SimpleGraph.DegreeSum
import Gapbs.Bc.Memory

/-!
# The positions of the edges

`succ` has one bit for each edge: its number is the position of the edge in the array of all neighbours.
No two edges share a position, and in a simple graph `num_edges_directed` leaves room for all of them.
-/

namespace Gapbs

variable {n : Nat} {g : Graph n}

/-- No vertex lists a neighbour twice or itself, and an undirected graph is symmetric. -/
structure Graph.SimpleCsr (g : Graph n) : Prop where
  nodup : ∀ u, (g.outNeigh u).Nodup
  loopless : ∀ u, ¬ g.Edge u u
  symm : g.directed = false → ∀ u v, g.Edge u v → g.Edge v u

theorem map_fst_outSlots (u : Fin n) : (g.outSlots u).map Prod.fst = g.outNeigh u :=
  List.zipIdx_map_fst ..

theorem edge_of_mem_outSlots {u v : Fin n} {pos : Nat} (h : (v, pos) ∈ g.outSlots u) : g.Edge u v := by
  show v ∈ g.outNeigh u
  rw [← map_fst_outSlots u]
  exact List.mem_map_of_mem h

/-- The position of an edge from `u` lies in the range of `u`. -/
theorem outSlots_range {u v : Fin n} {pos : Nat} (h : (v, pos) ∈ g.outSlots u) :
    g.out.index u.castSucc ≤ pos ∧ pos < g.out.index u.succ := by
  have hlt := List.snd_lt_of_mem_zipIdx h
  have hlength : (g.outNeigh u).length = g.out.index u.succ - g.out.index u.castSucc :=
    g.length_outNeigh u
  have hle := List.le_snd_of_mem_zipIdx h
  have hindex := g.out.index_le u
  change pos < (g.outNeigh u).length + g.out.index u.castSucc at hlt
  change g.out.index u.castSucc ≤ pos at hle
  omega

/-- A position belongs to one edge only. -/
theorem outSlots_inj {u u' v v' : Fin n} {pos : Nat} (h : (v, pos) ∈ g.outSlots u)
    (h' : (v', pos) ∈ g.outSlots u') : u = u' ∧ v = v' := by
  have hu : u = u' := by
    by_contra hne
    have hrange := outSlots_range h
    have hrange' := outSlots_range h'
    have hapart := g.out.index_apart hne
    omega
  subst hu
  have hget := List.mk_mem_zipIdx_iff_le_and_getElem?_sub.mp h
  have hget' := List.mk_mem_zipIdx_iff_le_and_getElem?_sub.mp h'
  exact ⟨rfl, Option.some.inj (hget.2.symm.trans hget'.2)⟩

theorem sum_outDegree (g : Graph n) : ∑ u, g.outDegree u = g.out.neighbors.length := by
  let f (k : Nat) : Nat := g.out.index ⟨min k n, Nat.lt_succ_of_le (min_le_right k n)⟩
  have hmono : Monotone f := fun j k hjk => g.out.index_mono (Fin.mk_le_mk.mpr (min_le_min_right n hjk))
  have hterm (u : Fin n) : g.outDegree u = f (u.val + 1) - f u.val := by
    have hsucc : min (u.val + 1) n = u.val + 1 := min_eq_left u.isLt
    have hself : min u.val n = u.val := min_eq_left u.isLt.le
    simp only [f, hsucc, hself]
    rfl
  have hlast : f n = g.out.neighbors.length := by
    simp only [f, min_self]
    exact g.out.index_last
  have hfirst : f 0 = 0 := by
    simp only [f, Nat.zero_min]
    exact g.out.index_zero
  rw [Finset.sum_congr rfl fun u _ => hterm u, Fin.sum_univ_eq_sum_range (fun k => f (k + 1) - f k) n,
    Finset.sum_range_tsub hmono, hlast, hfirst, Nat.sub_zero]

/-- A symmetric graph lists every edge twice. -/
theorem even_length_neighbors (hg : g.SimpleCsr) (hsymm : ∀ u v, g.Edge u v → g.Edge v u) :
    2 ∣ g.out.neighbors.length := by
  let G : SimpleGraph (Fin n) :=
    { Adj := g.Edge
      symm := ⟨hsymm⟩
      loopless := ⟨hg.loopless⟩ }
  have hdec : DecidableRel G.Adj := fun u v => inferInstanceAs (Decidable (g.Edge u v))
  have hdegree (u : Fin n) : g.outDegree u = G.degree u := by
    rw [← g.length_outNeigh u, ← List.toFinset_card_of_nodup (hg.nodup u),
      ← G.card_neighborFinset_eq_degree]
    congr 1
    ext v
    rw [List.mem_toFinset, G.mem_neighborFinset]
    exact Iff.rfl
  rw [← sum_outDegree, Finset.sum_congr rfl fun u _ => hdegree u, G.sum_degrees_eq_twice_card_edges]
  exact Nat.dvd_mul_right 2 _

theorem numEdgesDirected_eq (hg : g.SimpleCsr) : g.numEdgesDirected = g.out.neighbors.length := by
  rw [CSRGraph.numEdgesDirected, CSRGraph.numEdges, g.out.index_last, g.out.index_zero]
  by_cases hdir : g.directed = true
  · rw [if_pos hdir, if_pos hdir, Nat.sub_zero]
  · rw [if_neg hdir, if_neg hdir, Nat.sub_zero]
    exact Nat.mul_div_cancel' (even_length_neighbors hg (hg.symm (Bool.eq_false_iff.mpr hdir)))

theorem outSlots_lt (hg : g.SimpleCsr) {u v : Fin n} {pos : Nat} (h : (v, pos) ∈ g.outSlots u) :
    pos < g.numEdgesDirected := by
  rw [numEdgesDirected_eq hg]
  exact (outSlots_range h).2.trans_le (g.out.index_le_length u.succ)

theorem pairGraph_simpleCsr : pairGraph.SimpleCsr := ⟨by decide, by decide, by decide⟩

end Gapbs
