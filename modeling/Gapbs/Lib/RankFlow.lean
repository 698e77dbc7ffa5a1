import Mathlib.Algebra.BigOperators.Field
import Mathlib.Algebra.Order.BigOperators.Group.Finset
import Mathlib.Algebra.Order.Field.Basic
import Mathlib.Tactic.Linarith

/-!
# Flow over the edges of a directed multigraph

The graph is given by its adjacency lists in both directions.  Every vertex divides an amount among
its outgoing edges, and what arrives at a vertex is collected over its incoming edges: a vertex
without outgoing edges keeps its amount to itself, the others pass on exactly what they have.
-/

namespace RankFlow

variable {V M K : Type}

/-- What arrives at `v` when every edge from `u` carries `share u`. -/
def inflow [AddCommMonoid M] (inn : V → List V) (share : V → M) (v : V) : M := ((inn v).map share).sum

section Exchange

variable [Fintype V] [DecidableEq V] [AddCommMonoid M]

/-- The two lists describe the same edges, parallel ones included. -/
def Transposed (out inn : V → List V) : Prop := ∀ u v, (inn v).count u = (out u).count v

theorem sum_map_eq_sum_count (l : List V) (f : V → M) :
    (l.map f).sum = ∑ v, l.count v • f v := by
  rw [Finset.sum_list_map_count]
  refine Finset.sum_subset (Finset.subset_univ _) fun v _ hv => ?_
  rw [List.count_eq_zero_of_not_mem fun hmem => hv (List.mem_toFinset.mpr hmem), zero_nsmul]

/-- A total over all edges, collected at their targets or at their sources. -/
theorem sum_exchange {out inn : V → List V} (h : Transposed out inn)
    (f : V → V → M) :
    ∑ v, ((inn v).map fun u => f u v).sum = ∑ u, ((out u).map fun v => f u v).sum := by
  simp only [sum_map_eq_sum_count]
  rw [Finset.sum_comm]
  exact Finset.sum_congr rfl fun u _ => Finset.sum_congr rfl fun v _ => by rw [h u v]

theorem sum_inflow {out inn : V → List V} (h : Transposed out inn) (share : V → M) :
    ∑ v, inflow inn share v = ∑ u, (out u).length • share u := by
  refine (sum_exchange h fun u _ => share u).trans (Finset.sum_congr rfl fun u _ => ?_)
  rw [List.map_const', List.sum_replicate]

end Exchange

section Shares

variable [Field K]

/-- An equal part of `amount u` for each outgoing edge. -/
def share (out : V → List V) (amount : V → K) (u : V) : K := amount u / (out u).length

variable [LinearOrder K] [IsStrictOrderedRing K]

theorem length_smul_share {out : V → List V} (amount : V → K) {u : V} (h : out u ≠ []) :
    (out u).length • share out amount u = amount u := by
  have hne : ((out u).length : K) ≠ 0 := Nat.cast_ne_zero.mpr (List.length_pos_of_ne_nil h).ne'
  rw [nsmul_eq_mul, share, mul_div_cancel₀ _ hne]

theorem length_smul_share_le (out : V → List V) {amount : V → K} {u : V} (h : 0 ≤ amount u) :
    (out u).length • share out amount u ≤ amount u := by
  by_cases hout : out u = []
  · rw [hout, List.length_nil, zero_nsmul]
    exact h
  · exact (length_smul_share amount hout).le

theorem share_nonneg (out : V → List V) {amount : V → K} {u : V} (h : 0 ≤ amount u) :
    0 ≤ share out amount u :=
  div_nonneg h (Nat.cast_nonneg _)

theorem inflow_share_nonneg (out inn : V → List V) {amount : V → K} (h : ∀ u, 0 ≤ amount u) (v : V) :
    0 ≤ inflow inn (share out amount) v := by
  apply List.sum_nonneg
  intro x hx
  obtain ⟨u, -, rfl⟩ := List.mem_map.mp hx
  exact share_nonneg out (h u)

theorem abs_share (out : V → List V) (amount : V → K) (u : V) :
    |share out amount u| = share out (fun u => |amount u|) u := by
  rw [share, abs_div, Nat.abs_cast, share]

/-- The changes that the reads of a vertex have missed and those that they have seen. -/
theorem exists_split {out : V → List V} {a b : V → K} {ws : List V} {reads : List K}
    (h : List.Forall₂ (fun w c => c = share out a w ∨ c = share out b w) ws reads) :
    ∃ missed seen : K, 0 ≤ missed ∧ 0 ≤ seen ∧
      |(ws.map (share out b)).sum - reads.sum| ≤ missed ∧ |reads.sum - (ws.map (share out a)).sum| ≤ seen ∧
      missed + seen = (ws.map (share out fun w => |b w - a w|)).sum := by
  induction h with
  | nil => exact ⟨0, 0, by simp⟩
  | @cons w c ws reads hc _ ih =>
    obtain ⟨missed, seen, hmissed, hseen, hnew, hold, hsum⟩ := ih
    have hchange : |share out b w - share out a w| = share out (fun w => |b w - a w|) w := by
      rw [← abs_share out fun w => b w - a w, share, share, share, sub_div]
    have hnonneg : 0 ≤ share out (fun w => |b w - a w|) w := share_nonneg out (abs_nonneg _)
    simp only [List.map_cons, List.sum_cons]
    rw [add_sub_add_comm, add_sub_add_comm]
    rcases hc with rfl | rfl
    · refine ⟨share out (fun w => |b w - a w|) w + missed, seen, by linarith, hseen, ?_, ?_, by linarith⟩
      · exact (abs_add_le _ _).trans (add_le_add hchange.le hnew)
      · rwa [sub_self, zero_add]
    · refine ⟨missed, share out (fun w => |b w - a w|) w + seen, hmissed, by linarith, ?_, ?_, by linarith⟩
      · rwa [sub_self, zero_add]
      · exact (abs_add_le _ _).trans (add_le_add hchange.le hold)

/-- A sum over old and new shares differs from the sum over the new ones by no more than the shares
have changed. -/
theorem abs_sum_sub_le {out : V → List V} {a b : V → K} {ws : List V} {reads : List K}
    (h : List.Forall₂ (fun w c => c = share out a w ∨ c = share out b w) ws reads) :
    |(ws.map (share out b)).sum - reads.sum| ≤ (ws.map (share out fun w => |b w - a w|)).sum := by
  obtain ⟨missed, seen, -, hseen, hnew, -, hsum⟩ := exists_split h
  rw [← hsum]
  exact hnew.trans (le_add_of_nonneg_right hseen)

variable [Fintype V] [DecidableEq V] {out inn : V → List V}

/-- No more arrives than there was. -/
theorem sum_inflow_share_le (h : Transposed out inn) {amount : V → K} (hnonneg : ∀ u, 0 ≤ amount u) :
    ∑ v, inflow inn (share out amount) v ≤ ∑ u, amount u := by
  rw [sum_inflow h]
  exact Finset.sum_le_sum fun u _ => length_smul_share_le out (hnonneg u)

/-- Everything arrives if every vertex has an outgoing edge. -/
theorem sum_inflow_share (h : Transposed out inn) (amount : V → K) (hout : ∀ u, out u ≠ []) :
    ∑ v, inflow inn (share out amount) v = ∑ u, amount u := by
  rw [sum_inflow h]
  exact Finset.sum_congr rfl fun u _ => length_smul_share amount (hout u)

/-- Where every read saw the old or the new share, the new inflow differs from what was read by no
more than the amounts have changed. -/
theorem sum_abs_inflow_sub_le (h : Transposed out inn) {a b : V → K} {reads : V → List K}
    (hreads : ∀ v, List.Forall₂ (fun w c => c = share out a w ∨ c = share out b w) (inn v) (reads v)) :
    ∑ v, |inflow inn (share out b) v - (reads v).sum| ≤ ∑ u, |b u - a u| := by
  refine (Finset.sum_le_sum fun v _ => abs_sum_sub_le (hreads v)).trans ?_
  exact sum_inflow_share_le h fun u => abs_nonneg _

end Shares

end RankFlow
