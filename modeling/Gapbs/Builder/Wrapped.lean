import Gapbs.Builder.MakeGraph

/-!
# Counters that wrap around

A vertex with `2 ^ 32` out-edges has a degree of 0 for `CountDegrees`.  `MakeCSR` then writes the edges
of the vertex over the rows behind its own, and returns a graph as if nothing had happened when there
is room for all of them.
-/

namespace Gapbs

open Conc Function RawArray

variable {n : Nat} {edges : List (EdgePair (Fin n) (Fin n))} {counted : Fin n → Nat}

/-- The number of out-edges of a vertex. -/
def outEdges (edges : List (EdgePair (Fin n) (Fin n))) (v : Fin n) : Nat := (edges.map EdgePair.u).count v

/-- The counters are too low, but there is room for all edges. -/
structure Wrapped (edges : List (EdgePair (Fin n) (Fin n))) (counted : Fin n → Nat) : Prop where
  wraps : ∀ v, toNodeID (outEdges edges v) = counted v
  le : ∀ v, counted v ≤ outEdges edges v
  room : ∀ v : Fin n, offset counted v + outEdges edges v ≤ offset counted n

/-- The edges among `l` that leave `v`. -/
def leaving (edges : List (EdgePair (Fin n) (Fin n))) (l : List (Fin edges.length)) (v : Fin n) : Nat :=
  (l.map fun i => (edges.get i).u).count v

theorem leaving_append (l : List (Fin edges.length)) (i : Fin edges.length) (v : Fin n) :
    leaving edges (l ++ [i]) v = leaving edges l v + if (edges.get i).u = v then 1 else 0 := by
  simp [leaving, List.count_cons, beq_iff_eq]

theorem leaving_perm {l : List (Fin edges.length)} (h : l.Perm (List.finRange edges.length)) (v : Fin n) :
    leaving edges l v = outEdges edges v := by
  have hmap : (List.finRange edges.length).map (fun i => (edges.get i).u) = edges.map EdgePair.u := by
    show (List.finRange edges.length).map (EdgePair.u ∘ edges.get) = _
    rw [← List.map_map, List.map_get_finRange]
  rw [leaving, outEdges, ← hmap]
  exact (h.map _).count_eq v

/-- The scatter loop after the edges `l`: the slots that the counters have passed hold targets. -/
structure Spilled (edges : List (EdgePair (Fin n) (Fin n))) (counted : Fin n → Nat)
    (l : List (Fin edges.length)) (m : CsrMem n (Fin n)) : Prop where
  offsets : ∀ v : Fin n, m.sums.offsets v.castSucc = (offset counted v + leaving edges l v : Nat)
  index : ∀ i, m.index i = (offset counted i : Nat)
  length : m.neighs.length = offset counted n
  passed : ∀ (v : Fin n) (j : Nat), j < leaving edges l v →
    ∃ e ∈ edges, m.neighs[offset counted v + j]? = some (some e.v)

theorem Spilled.scatter {pre post : List (Fin edges.length)} {i : Fin edges.length}
    {m : CsrMem n (Fin n)} (hw : Wrapped edges counted) (h : Spilled edges counted pre m)
    (hperm : (pre ++ i :: post).Perm (List.finRange edges.length)) :
    Solo (scatterEdge false false (edges.get i)) m fun _ m' => Spilled edges counted (pre ++ [i]) m' := by
  generalize he : edges.get i = e
  have hmem : e ∈ edges := he ▸ List.get_mem edges i
  have hlt : leaving edges pre e.u < outEdges edges e.u := by
    rw [← leaving_perm hperm]
    have hsplit : leaving edges (pre ++ i :: post) e.u =
        leaving edges (pre ++ [i]) e.u + leaving edges post e.u := by
      rw [← List.singleton_append, ← List.append_assoc, leaving, List.map_append, List.count_append]
      rfl
    rw [hsplit, leaving_append, if_pos (by rw [he])]
    omega
  have hroom := hw.room e.u
  have hrun : scatterEdge false false e = (claimSlot e.u).bind fun slot => writeSlot slot e.v := rfl
  rw [hrun]
  apply Solo.op_bind (b := ((offset counted e.u + leaving edges pre e.u : Nat) : Int)) (t := m.bump e.u)
  · show some (m.sums.offsets e.u.castSucc, m.bump e.u) = _
    rw [h.offsets]
  have hslot : offset counted e.u + leaving edges pre e.u < m.neighs.length := by
    rw [h.length]
    omega
  apply Solo.storeAt (t := (m.bump e.u).write (offset counted e.u + leaving edges pre e.u) e.v)
  · exact if_pos ⟨Int.natCast_nonneg _, hslot⟩
  refine ⟨fun v => ?_, h.index, ?_, fun v j hj => ?_⟩
  · show update m.sums.offsets e.u.castSucc (m.sums.offsets e.u.castSucc + 1) v.castSucc = _
    rw [leaving_append, he]
    by_cases hv : e.u = v
    · subst hv
      rw [update_self, h.offsets, if_pos rfl]
      omega
    · have hne : v.castSucc ≠ e.u.castSucc := fun heq => hv (Fin.castSucc_injective n heq).symm
      rw [update_of_ne hne, h.offsets, if_neg hv]
      rfl
  · show (m.neighs.set _ _).length = _
    rw [List.length_set, h.length]
  · show ∃ e' ∈ edges, (m.neighs.set (offset counted e.u + leaving edges pre e.u) (some e.v))[_]? = _
    by_cases hsame : offset counted e.u + leaving edges pre e.u = offset counted v + j
    · exact ⟨e, hmem, by rw [hsame, List.getElem?_set_self (hsame ▸ hslot)]⟩
    · rw [List.getElem?_set_ne hsame]
      apply h.passed
      rw [leaving_append, he] at hj
      by_cases hv : e.u = v
      · subst hv
        rw [if_pos rfl] at hj
        omega
      · rwa [if_neg hv, Nat.add_zero] at hj

/-- The rows have the lengths that were counted, and some targets in them. -/
theorem makeCSR_wrapped (hn : n + 1 < 2 ^ 31) (hw : Wrapped edges counted) (m : CsrMem n (Fin n)) :
    Solo (makeCSR 1 false edges false) m fun c _ => (∀ v, (c.neigh v).length = counted v) ∧
      ∀ v, ∀ d ∈ c.neigh v, ∃ e ∈ edges, e.v = d := by
  have hdegree (v : Fin n) : toNodeID (degreeOf false false false edges v) = counted v := by
    have heq : degreeOf false false false edges v = outEdges edges v := by
      rw [degreeOf_eq]
      rfl
    rw [heq, hw.wraps]
  apply Solo.bind
  apply (allocateRows_solo hdegree m).mono
  rintro _ m ⟨hoffsets, hneighs, -⟩
  apply Solo.load_bind
  apply Solo.bind
  apply (Solo.zoom (genIndex_solo hn _ _)).mono
  rintro _ m' ⟨hindex, hm'⟩
  have hstart : Spilled edges counted [] m' := by
    refine ⟨fun v => ?_, fun i => ?_, ?_, fun v j hj => absurd hj (Nat.not_lt_zero j)⟩
    · rw [hm']
      exact hoffsets v.castSucc
    · exact (congrFun hindex i).trans (hoffsets i)
    · rw [hm']
      exact (congrArg List.length hneighs).trans List.length_replicate
  apply Solo.bind
  apply (Solo.parallelFor_one (Spilled edges counted) hstart
    fun pre i post t hperm ht => ht.scatter hw hperm).mono
  rintro _ t ⟨l, hl, ht⟩
  -- every slot lies in the counted part of some row, and the writes of that row have passed over it
  have hall : ∀ k < t.neighs.length, ∃ d, t.neighs[k]? = some (some d) ∧ ∃ e ∈ edges, e.v = d := by
    intro k hk
    rw [ht.length] at hk
    obtain ⟨v, hlo, hhi⟩ := exists_offset_le_lt counted hk
    rw [offset_succ] at hhi
    have hle := hw.le v
    obtain ⟨e, he, hget⟩ := ht.passed v (k - offset counted v) (by rw [leaving_perm hl]; omega)
    rw [Nat.add_sub_cancel' hlo] at hget
    exact ⟨e.v, hget, e, he, rfl⟩
  obtain ⟨xs, hxs⟩ := exists_eq_map_some fun k hk => (hall k hk).imp fun _ h => h.1
  have hlength : xs.length = offset counted n := by
    rw [← ht.length, hxs, List.length_map]
  let c : Csr n (Fin n) := ⟨fun i => offset counted i, xs, offset_zero _,
    fun _ _ hij => offset_mono counted hij, hlength.symm⟩
  have hpointers : (values t.neighs).bind (Csr.ofPointers t.index) = some c := by
    have hidx : t.index = fun i : Fin (n + 1) => ((offset counted i : Nat) : Int) := funext ht.index
    rw [hxs, values_map_some, hidx]
    show Csr.ofPointers (fun i : Fin (n + 1) => ((offset counted i : Nat) : Int)) xs = some c
    rw [Csr.ofPointers, if_pos fun i => Int.natCast_nonneg _]
    exact dif_pos ⟨c.index_zero, c.index_mono, c.index_last⟩
  apply Solo.loadAt (a := c)
  · exact hpointers
  refine ⟨fun v => ?_, fun v d hd => ?_⟩
  · rw [c.length_neigh]
    show offset counted (v.val + 1) - offset counted v = counted v
    rw [offset_succ]
    omega
  · have hdx : d ∈ xs := List.mem_of_mem_drop (List.mem_of_mem_take hd)
    obtain ⟨k, hk, rfl⟩ := List.getElem_of_mem hdx
    obtain ⟨d, hget, he⟩ := hall k (by rw [hxs, List.length_map]; exact hk)
    rw [hxs, List.getElem?_map, List.getElem?_eq_getElem hk] at hget
    rw [Option.some.inj (Option.some.inj hget)]
    exact he

end Gapbs
