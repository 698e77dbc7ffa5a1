import Gapbs.Builder.PrefixSum
import Gapbs.Graph.Csr

/-!
# From rows to a graph

What the construction of a graph ends with: the index pointers are set by `GenIndex`, and the
neighbour array, whose rows stand one behind the other, becomes a `Csr`.
-/

namespace Gapbs

open Conc Function RawArray

variable {n : Nat} {D M : Type}

/-- `block_size` of `ParallelPrefixSum`. -/
def prefixBlockSize : Nat := 2 ^ 20

/-- `GenIndex(offsets, neighs)`, with the pointers as offsets into `neighs`. -/
def genIndex (T : Nat) [NeZero T] (offsets : Fin (n + 1) → M) : Prog (Fin (n + 1) → M) Unit :=
  -- the length is kept in a `NodeID_`; one that does not fit is negative and `new` throws
  let length := toNodeID (n + 1)
  if length = n + 1 then
    .parallelFor T (n + 1) fun i => .store fun index => update index i (offsets i)
  else .fail

theorem genIndex_solo {T : Nat} [NeZero T] (hn : n + 1 < 2 ^ 31) (offsets index : Fin (n + 1) → M) :
    Solo (genIndex T offsets) index fun _ index' => index' = offsets := by
  rw [genIndex, if_pos (by exact_mod_cast toNodeID_eq hn)]
  apply (Solo.parallelFor_store _ (fun index => index) offsets _ _).mono
  · exact fun _ index' h => funext h
  · exact fun i index => update_self ..
  · exact fun i j index hj => update_of_ne hj ..

namespace Csr

/-- The index of an array whose rows stand one behind the other. -/
def rowOffset (rows : Fin n → List D) (k : Nat) : Nat := offset (fun u => (rows u).length) k

theorem rowOffset_succ (rows : Fin n → List D) (u : Fin n) :
    rowOffset rows (u.val + 1) = rowOffset rows u.val + (rows u).length :=
  offset_succ _ u

theorem rowOffset_mono (rows : Fin n → List D) : Monotone (rowOffset rows) := offset_mono _

theorem length_flatten_take (rows : Fin n → List D) (k : Nat) :
    (((List.ofFn rows).take k).flatten).length = rowOffset rows k := by
  rw [List.length_flatten, List.map_take, List.map_ofFn, List.sum_take_ofFn]
  rfl

theorem length_flatten_rows (rows : Fin n → List D) :
    (List.ofFn rows).flatten.length = rowOffset rows n := by
  rw [← length_flatten_take rows n, List.take_of_length_le (by simp)]

/-- The structure with given neighbourhoods. -/
def ofRows (rows : Fin n → List D) : Csr n D where
  index i := rowOffset rows i
  neighbors := (List.ofFn rows).flatten
  index_zero := offset_zero _
  index_mono _ _ hij := rowOffset_mono rows hij
  index_last := (length_flatten_rows rows).symm

theorem slice_flatten (rows : Fin n → List D) (u : Fin n) :
    slice (List.ofFn rows).flatten (rowOffset rows u) (rowOffset rows (u.val + 1)) = rows u := by
  have hu : u.val < (List.ofFn rows).length := by simp
  have hsplit : (List.ofFn rows).flatten =
      ((List.ofFn rows).take u).flatten ++ (rows u ++ ((List.ofFn rows).drop (u.val + 1)).flatten) := by
    conv_lhs => rw [← List.take_append_drop u.val (List.ofFn rows), List.drop_eq_getElem_cons hu]
    rw [List.flatten_append, List.flatten_cons, List.getElem_ofFn]
  rw [slice, hsplit, ← length_flatten_take rows u, List.drop_left, length_flatten_take,
    rowOffset_succ, Nat.add_sub_cancel_left, List.take_left]

theorem getElem?_flatten (rows : Fin n → List D) (u : Fin n) {j : Nat} (hj : j < (rows u).length) :
    (List.ofFn rows).flatten[rowOffset rows u + j]? = (rows u)[j]? := by
  have hget := congrArg (fun l => l[j]?) (slice_flatten rows u)
  simp only [getElem?_slice] at hget
  rwa [rowOffset_succ, Nat.add_sub_cancel_left, if_pos hj] at hget

/-- Every slot belongs to some row. -/
theorem exists_row (rows : Fin n → List D) {k : Nat} (hk : k < rowOffset rows n) :
    ∃ (u : Fin n) (j : Nat), j < (rows u).length ∧ k = rowOffset rows u + j := by
  obtain ⟨u, hlo, hhi⟩ := exists_offset_le_lt (fun u => (rows u).length) hk
  change rowOffset rows u ≤ k at hlo
  change k < rowOffset rows (u.val + 1) at hhi
  rw [rowOffset_succ] at hhi
  exact ⟨u, k - rowOffset rows u, by omega, by omega⟩

/-- The rows of different vertices are apart. -/
theorem rowOffset_apart (rows : Fin n → List D) {u v : Fin n} (huv : u ≠ v) :
    rowOffset rows (u.val + 1) ≤ rowOffset rows v ∨ rowOffset rows (v.val + 1) ≤ rowOffset rows u := by
  rcases lt_or_gt_of_ne huv with hlt | hlt
  · exact .inl (rowOffset_mono rows (Nat.succ_le_of_lt hlt))
  · exact .inr (rowOffset_mono rows (Nat.succ_le_of_lt hlt))

@[simp] theorem neigh_ofRows (rows : Fin n → List D) (u : Fin n) : (ofRows rows).neigh u = rows u := by
  rw [neigh_eq_slice]
  exact slice_flatten rows u

/-- An array whose ranges hold the rows is completely initialised, and its contents are the rows. -/
theorem eq_flatten_of_slices {rows : Fin n → List D} {neighs : List (Option D)}
    (hlength : neighs.length = rowOffset rows n)
    (hrows : ∀ u : Fin n, slice neighs (rowOffset rows u) (rowOffset rows (u.val + 1)) =
      (rows u).map some) : neighs = (List.ofFn rows).flatten.map some := by
  apply List.ext_getElem?
  intro k
  by_cases hk : k < rowOffset rows n
  · obtain ⟨u, hlo, hhi⟩ := exists_offset_le_lt (fun u => (rows u).length) hk
    change rowOffset rows u ≤ k at hlo
    change k < rowOffset rows (u.val + 1) at hhi
    have hslice := (hrows u).trans (congrArg (List.map some) (slice_flatten rows u)).symm
    rw [← slice_map] at hslice
    have hget := congrArg (fun l => l[k - rowOffset rows u]?) hslice
    simp only [getElem?_slice] at hget
    rwa [if_pos (by omega), if_pos (by omega), Nat.add_sub_cancel' hlo] at hget
  · rw [List.getElem?_eq_none (by omega), List.getElem?_eq_none]
    rw [List.length_map, length_flatten_rows]
    omega

theorem values_bind_ofArrays {rows : Fin n → List D} {neighs : List (Option D)}
    {index : Fin (n + 1) → Nat} (hindex : ∀ i, index i = rowOffset rows i)
    (hlength : neighs.length = rowOffset rows n)
    (hrows : ∀ u : Fin n, slice neighs (rowOffset rows u) (rowOffset rows (u.val + 1)) =
      (rows u).map some) : (values neighs).bind (ofArrays index) = some (ofRows rows) := by
  obtain rfl : index = (ofRows rows).index := funext hindex
  rw [eq_flatten_of_slices hlength hrows, values_map_some]
  exact dif_pos ⟨(ofRows rows).index_zero, (ofRows rows).index_mono, (ofRows rows).index_last⟩

theorem index_eq_rowOffset (c : Csr n D) (i : Fin (n + 1)) : c.index i = rowOffset c.neigh i := by
  induction i using Fin.induction with
  | zero => exact c.index_zero.trans (offset_zero _).symm
  | succ u ih =>
    have hle := c.index_le u
    rw [Fin.val_succ, rowOffset_succ, c.length_neigh, degree, ← Fin.val_castSucc u, ← ih]
    omega

/-- The neighbour array is its rows one behind the other. -/
theorem neighbors_eq_flatten (c : Csr n D) : c.neighbors = (List.ofFn c.neigh).flatten := by
  have hmap : c.neighbors.map some = (List.ofFn c.neigh).flatten.map some := by
    apply eq_flatten_of_slices
    · rw [List.length_map, ← c.index_last, c.index_eq_rowOffset]
      rfl
    · intro u
      have hlo := c.index_eq_rowOffset u.castSucc
      have hhi := c.index_eq_rowOffset u.succ
      rw [Fin.val_castSucc] at hlo
      rw [Fin.val_succ] at hhi
      rw [RawArray.slice_map, ← hlo, ← hhi, ← c.neigh_eq_slice]
  exact List.map_injective_iff.mpr (Option.some_injective D) hmap

theorem length_neighbors (c : Csr n D) : c.neighbors.length = rowOffset c.neigh n := by
  rw [← length_flatten_rows, ← c.neighbors_eq_flatten]

/-- A structure is determined by its rows. -/
theorem ext_neigh {c d : Csr n D} (h : ∀ u, c.neigh u = d.neigh u) : c = d := by
  have hrows : (fun u => c.neigh u) = fun u => d.neigh u := funext h
  have hindex : c.index = d.index := funext fun i => by
    rw [c.index_eq_rowOffset, d.index_eq_rowOffset, hrows]
  have hneighbors : c.neighbors = d.neighbors := by
    rw [c.neighbors_eq_flatten, d.neighbors_eq_flatten, hrows]
  cases c
  cases d
  cases hindex
  cases hneighbors
  rfl

end Csr

/-- A graph is determined by its rows and its kind. -/
theorem CSRGraph.ext_rows {g h : CSRGraph n D} (hdirected : g.directed = h.directed)
    (hout : ∀ u, g.outNeigh u = h.outNeigh u) (hinn : ∀ u, g.inNeigh u = h.inNeigh u) : g = h := by
  have hout' : g.out = h.out := Csr.ext_neigh hout
  have hinn' : g.inn = h.inn := Csr.ext_neigh hinn
  cases g
  cases h
  cases hdirected
  cases hout'
  cases hinn'
  rfl

end Gapbs
