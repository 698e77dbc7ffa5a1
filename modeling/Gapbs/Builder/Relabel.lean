import Mathlib.Logic.Equiv.Fin.Basic
import Gapbs.Builder.Rows
import Gapbs.Conc.Lens

/-!
# Relabelling by degree

`RelabelByDegree` of `builder.h` on its arrays: the vertices are sorted by decreasing degree, the
place of a vertex in this order is its new id, and the neighbourhoods are copied, translated and
sorted into a fresh neighbour array.
-/

namespace Gapbs

open Conc Function RawArray

variable {n : Nat}

/-- The arrays of `RelabelByDegree`.  All but `neighs` are completely written before they are read,
so their first contents are arbitrary. -/
structure RelabelMem (n : Nat) where
  degreeIdPairs : Fin n → Nat × Fin n
  degrees : Fin n → Nat
  newIds : Fin n → Fin n
  sums : PrefixMem Nat n (blockCount n prefixBlockSize)
  index : Fin (n + 1) → Nat
  neighs : List (Option (Fin n))

namespace RelabelMem

def sumsLens : Lens (RelabelMem n) (PrefixMem Nat n (blockCount n prefixBlockSize)) where
  get m := m.sums
  set sums m := { m with sums }
  get_set _ _ := rfl
  set_get _ := rfl
  set_set _ _ _ := rfl

def indexLens : Lens (RelabelMem n) (Fin (n + 1) → Nat) where
  get m := m.index
  set index m := { m with index }
  get_set _ _ := rfl
  set_get _ := rfl
  set_set _ _ _ := rfl

end RelabelMem

/-- The order of `std::greater` on pairs of a degree and a vertex. -/
def greaterPair (p q : Nat × Fin n) : Bool := p.1 > q.1 ∨ p.1 = q.1 ∧ p.2 ≥ q.2

/-- `std::sort(degree_id_pairs.begin(), degree_id_pairs.end(), std::greater<>())` -/
def sortPairs (pairs : Fin n → Nat × Fin n) (i : Fin n) : Nat × Fin n :=
  ((List.ofFn pairs).mergeSort greaterPair).get (i.cast (by simp))

/-- `neighs[offsets[new_ids[u]]++] = new_ids[v]`, and the slot that it writes -/
def copyNeighbor (u v : Fin n) : Prog (RelabelMem n) Nat := do
  let newU ← .load fun m => m.newIds u
  let slot ← .load fun m => m.sums.offsets newU.castSucc
  .store fun m => RelabelMem.sumsLens.set
    { m.sums with offsets := update m.sums.offsets newU.castSucc (slot + 1) } m
  let newV ← .load fun m => m.newIds v
  .storeAt fun m =>
    if slot < m.neighs.length then some { m with neighs := m.neighs.set slot (some newV) } else none
  return slot

/-- `std::sort(index[new_ids[u]], index[new_ids[u]+1])`, and the range that it may write -/
def sortNeighborhood (u : Fin n) : Prog (RelabelMem n) (Nat × Nat) := do
  let newU ← .load fun m => m.newIds u
  let first ← .load fun m => m.index newU.castSucc
  let newU ← .load fun m => m.newIds u
  let last ← .load fun m => m.index newU.succ
  .storeAt fun m => (sortRange (fun a b => decide (a ≤ b)) first last m.neighs).map
    fun neighs => { m with neighs }
  return (first, last)

/-- One iteration of the loop that copies and sorts the neighbourhoods. -/
def copyNeighborhood (g : Graph n) (u : Fin n) : Prog (RelabelMem n) Unit := do
  .forEach (g.outNeigh u) () fun v _ => do
    let _ ← copyNeighbor u v
    return ()
  let _ ← sortNeighborhood u
  return ()

/-- `RelabelByDegree(g)` with the loop that copies; on a directed graph the program exits. -/
def relabelWith {α : Type} (g : Graph n) (T : Nat) [NeZero T] (copy : Prog (RelabelMem n) α) :
    Prog (RelabelMem n) (Option (Graph n × α)) := do
  if g.directed then return none
  .parallelFor T n fun v => .store fun m =>
    { m with degreeIdPairs := update m.degreeIdPairs v (g.outDegree v, v) }
  .store fun m => { m with degreeIdPairs := sortPairs m.degreeIdPairs }
  .parallelFor T n fun v => do
    let pair ← .load fun m => m.degreeIdPairs v
    .store fun m => { m with degrees := update m.degrees v pair.1 }
    let pair ← .load fun m => m.degreeIdPairs v
    .store fun m => { m with newIds := update m.newIds pair.2 v }
  let degrees ← .load fun m => m.degrees
  (parallelPrefixSum T prefixBlockSize degrees).zoom RelabelMem.sumsLens
  .store fun m => { m with neighs := List.replicate (m.sums.offsets (Fin.last n)) none }
  let offsets ← .load fun m => m.sums.offsets
  (genIndex T offsets).zoom RelabelMem.indexLens
  let copied ← copy
  let csr ← .loadAt fun m => (values m.neighs).bind (Csr.ofArrays m.index)
  return some (.ofUndirected csr g.nodes_lt, copied)

/-- `RelabelByDegree(g)` -/
def relabelByDegree (g : Graph n) (T : Nat) [NeZero T] : Prog (RelabelMem n) (Option (Graph n)) := do
  let relabelled ← relabelWith g T (.parallelFor T n (copyNeighborhood g))
  return relabelled.map Prod.fst

/-! ## The order of the vertices -/

section Order

variable (degree : Fin n → Nat)

/-- The sorted pairs of all vertices with their degrees. -/
def sortedPairs : Fin n → Nat × Fin n := sortPairs fun v => (degree v, v)

theorem sortedPairs_list : List.ofFn (sortedPairs degree) =
    (List.ofFn fun v => (degree v, v)).mergeSort greaterPair := by
  apply List.ext_getElem
  · simp
  · intro i h₁ h₂
    simp [sortedPairs, sortPairs]

theorem sortedPairs_perm : (List.ofFn (sortedPairs degree)).Perm (List.ofFn fun v => (degree v, v)) := by
  rw [sortedPairs_list]
  exact List.mergeSort_perm _ _

theorem sortedPairs_fst (i : Fin n) : (sortedPairs degree i).1 = degree (sortedPairs degree i).2 := by
  have hmem : sortedPairs degree i ∈ List.ofFn (sortedPairs degree) :=
    (List.mem_ofFn' _ _).mpr ⟨i, rfl⟩
  rw [(sortedPairs_perm degree).mem_iff, List.mem_ofFn'] at hmem
  obtain ⟨v, hv⟩ := hmem
  rw [← hv]

theorem sortedPairs_injective : Injective fun i => (sortedPairs degree i).2 := by
  have hperm := (sortedPairs_perm degree).map Prod.snd
  rw [List.map_ofFn, List.map_ofFn] at hperm
  have hnodup : (List.ofFn (Prod.snd ∘ sortedPairs degree)).Nodup := by
    rw [hperm.nodup_iff, List.nodup_ofFn]
    exact fun _ _ h => h
  exact List.nodup_ofFn.mp hnodup

/-- The new ids: the inverse of the sorted order. -/
noncomputable def newId : Fin n ≃ Fin n :=
  (Equiv.ofBijective _ (Finite.injective_iff_bijective.mp (sortedPairs_injective degree))).symm

theorem newId_sortedPairs (i : Fin n) : newId degree (sortedPairs degree i).2 = i :=
  (Equiv.ofBijective _ (Finite.injective_iff_bijective.mp
    (sortedPairs_injective degree))).symm_apply_apply i

theorem sortedPairs_newId (u : Fin n) : (sortedPairs degree (newId degree u)).2 = u :=
  (Equiv.ofBijective _ (Finite.injective_iff_bijective.mp
    (sortedPairs_injective degree))).apply_symm_apply u

end Order

/-! ## Copying the neighbourhoods -/

section Copy

variable (g : Graph n)

/-- The degree of the vertex that gets id `i`. -/
def newDegrees (i : Fin n) : Nat := (sortedPairs g.outDegree i).1

/-- Where the neighbourhood of new id `i` starts. -/
def newOffset (i : Nat) : Nat := offset (newDegrees g) i

/-- The neighbourhood of `u` in the new graph. -/
noncomputable def newNeigh (u : Fin n) : List (Fin n) :=
  ((g.outNeigh u).map (newId g.outDegree)).mergeSort fun a b => decide (a ≤ b)

variable {g}

@[simp] theorem length_newNeigh (u : Fin n) : (newNeigh g u).length = (g.outNeigh u).length := by
  rw [newNeigh, List.length_mergeSort, List.length_map]

theorem newOffset_succ (u : Fin n) :
    newOffset g ((newId g.outDegree u).val + 1) =
      newOffset g (newId g.outDegree u).val + (g.outNeigh u).length := by
  rw [newOffset, offset_succ, newDegrees, sortedPairs_fst, sortedPairs_newId, g.length_outNeigh]
  rfl

theorem newOffset_le (u : Fin n) :
    newOffset g (newId g.outDegree u).val + (g.outNeigh u).length ≤ newOffset g n := by
  rw [← newOffset_succ]
  exact offset_mono _ (newId g.outDegree u).isLt

/-- The ranges of different vertices are apart. -/
theorem newOffset_apart {u v : Fin n} (huv : u ≠ v) :
    newOffset g (newId g.outDegree u).val + (g.outNeigh u).length ≤
        newOffset g (newId g.outDegree v).val ∨
      newOffset g (newId g.outDegree v).val + (g.outNeigh v).length ≤
        newOffset g (newId g.outDegree u).val := by
  rw [← newOffset_succ, ← newOffset_succ]
  have hne : newId g.outDegree u ≠ newId g.outDegree v := fun h => huv ((newId _).injective h)
  rcases lt_or_gt_of_ne hne with hlt | hlt
  · exact .inl (offset_mono _ (Nat.succ_le_of_lt hlt))
  · exact .inr (offset_mono _ (Nat.succ_le_of_lt hlt))

variable (g) in
/-- What all iterations of the copy loop rely on. -/
structure Layout (m : RelabelMem n) : Prop where
  newIds : ∀ u, m.newIds u = newId g.outDegree u
  index : ∀ i, m.index i = newOffset g i.val
  length : m.neighs.length = newOffset g n

variable (g) in
/-- What the iteration of vertex `u` may do: it works in the range of `u`. -/
structure CopyStep (u : Fin n) (m m' : RelabelMem n) : Prop where
  newIds : m'.newIds = m.newIds
  index : m'.index = m.index
  length : m'.neighs.length = m.neighs.length
  offsets : ∀ k, k ≠ (newId g.outDegree u).castSucc → m'.sums.offsets k = m.sums.offsets k
  neighs : ∀ k, k < newOffset g (newId g.outDegree u).val ∨
    newOffset g (newId g.outDegree u).val + (g.outNeigh u).length ≤ k → m'.neighs[k]? = m.neighs[k]?

variable (g) in
/-- The neighbours `pre` of `u` have been copied and `c` slots of its range are taken. -/
structure Copied (u : Fin n) (c : Nat) (pre : List (Fin n)) (m : RelabelMem n) : Prop where
  layout : Layout g m
  next : m.sums.offsets (newId g.outDegree u).castSucc = newOffset g (newId g.outDegree u).val + c
  le : pre.length ≤ (g.outNeigh u).length
  copied : ∀ i < pre.length, m.neighs[newOffset g (newId g.outDegree u).val + i]? =
    (pre.map fun v => some (newId g.outDegree v))[i]?

variable (g) in
/-- The range of `u` holds its translated neighbourhood in order. -/
def Sorted (u : Fin n) (m : RelabelMem n) : Prop :=
  slice m.neighs (newOffset g (newId g.outDegree u).val) (newOffset g ((newId g.outDegree u).val + 1)) =
    (newNeigh g u).map some

theorem Layout.step {u : Fin n} {m m' : RelabelMem n} (h : Layout g m) (hstep : CopyStep g u m m') :
    Layout g m' :=
  ⟨fun v => hstep.newIds ▸ h.newIds v, fun i => hstep.index ▸ h.index i, hstep.length ▸ h.length⟩

/-- Another iteration leaves the range of `u` alone. -/
theorem CopyStep.outside {u v : Fin n} {m m' : RelabelMem n} (hstep : CopyStep g v m m') (huv : u ≠ v)
    {k : Nat} (hlo : newOffset g (newId g.outDegree u).val ≤ k)
    (hhi : k < newOffset g (newId g.outDegree u).val + (g.outNeigh u).length) :
    m'.neighs[k]? = m.neighs[k]? := by
  apply hstep.neighs
  rcases newOffset_apart (g := g) huv with h | h <;> omega

theorem Copied.stable {u v : Fin n} {c : Nat} {pre : List (Fin n)} {m m' : RelabelMem n}
    (h : Copied g u c pre m) (huv : u ≠ v) (hstep : CopyStep g v m m') : Copied g u c pre m' := by
  have hle := h.le
  have hne : (newId g.outDegree u).castSucc ≠ (newId g.outDegree v).castSucc :=
    fun heq => huv ((newId _).injective (Fin.castSucc_injective _ heq))
  refine ⟨h.layout.step hstep, ?_, hle, fun i hi => ?_⟩
  · rw [hstep.offsets _ hne, h.next]
  · rw [hstep.outside huv (Nat.le_add_right _ _) (by omega), h.copied i hi]

theorem Sorted.stable {u v : Fin n} {m m' : RelabelMem n} (h : Sorted g u m) (huv : u ≠ v)
    (hstep : CopyStep g v m m') : Sorted g u m' := by
  rw [Sorted, ← h]
  apply List.ext_getElem?
  intro i
  rw [getElem?_slice, getElem?_slice, newOffset_succ]
  by_cases hi : i < newOffset g (newId g.outDegree u).val + (g.outNeigh u).length -
      newOffset g (newId g.outDegree u).val
  · rw [if_pos hi, if_pos hi]
    exact hstep.outside huv (Nat.le_add_right _ _) (by omega)
  · rw [if_neg hi, if_neg hi]

variable (g) in
/-- The steps of the other iterations. -/
def CopyOthers (u : Fin n) (σ τ : RelabelMem n × Unit) : Prop := ∃ v, v ≠ u ∧ CopyStep g v σ.1 τ.1

variable (g) in
def CopyOwn (u : Fin n) (σ τ : RelabelMem n × Unit) : Prop := CopyStep g u σ.1 τ.1

theorem Copied.stable_others (u : Fin n) (c : Nat) (pre : List (Fin n)) :
    Stable (CopyOthers g u) fun σ => Copied g u c pre σ.1 :=
  fun _ _ hσ ⟨_, hne, hstep⟩ => hσ.stable hne.symm hstep

/-- The slots of the neighbourhood of `u`. -/
def InRange (g : Graph n) (u : Fin n) (k : Nat) : Prop :=
  newOffset g (newId g.outDegree u).val ≤ k ∧
    k < newOffset g (newId g.outDegree u).val + (g.outNeigh u).length

/-- A slot belongs to one neighbourhood. -/
theorem InRange.unique {u v : Fin n} {k : Nat} (hu : InRange g u k) (hv : InRange g v k) : u = v := by
  by_contra huv
  obtain ⟨hulo, huhi⟩ := hu
  obtain ⟨hvlo, hvhi⟩ := hv
  rcases newOffset_apart (g := g) huv with h | h <;> omega

theorem copyNeighbor_wp {u v : Fin n} {pre : List (Fin n)} {σ : RelabelMem n × Unit}
    (hpre : pre.length < (g.outNeigh u).length) (hσ : Copied g u pre.length pre σ.1) :
    WP (CopyOthers g u) (CopyOwn g u)
      (fun slot σ => InRange g u slot ∧ Copied g u (pre ++ [v]).length (pre ++ [v]) σ.1)
      (copyNeighbor u v) σ := by
  have stable (c : Nat) := Copied.stable_others (g := g) u c pre
  have stable' := Copied.stable_others (g := g) u (pre ++ [v]).length (pre ++ [v])
  have hrange := newOffset_le (g := g) u
  apply WP.load_bind hσ (stable _)
  intro m _ hm
  rw [hm.layout.newIds u]
  apply WP.load_bind (P := fun σ => Copied g u pre.length pre σ.1) hm (stable _)
  intro m _ hm
  rw [show m.sums.offsets (newId g.outDegree u).castSucc = _ from hm.next]
  apply WP.store_bind (P := fun σ => Copied g u pre.length pre σ.1) hm (stable _)
  intro m _ hm
  refine ⟨(), .inr ⟨rfl, rfl, rfl, fun k hk => ?_, fun _ _ => rfl⟩, ?_⟩
  · exact update_of_ne hk ..
  apply WP.load_bind (P := fun σ => Copied g u (pre.length + 1) pre σ.1) ?_ (stable _)
  · intro m _ hm
    rw [hm.layout.newIds v]
    apply WP.storeAt_bind (P := fun σ => Copied g u (pre.length + 1) pre σ.1) hm (stable _)
    intro m _ (hm : Copied g u _ pre m)
    have hlt : newOffset g (newId g.outDegree u).val + pre.length < m.neighs.length := by
      rw [hm.layout.length]
      omega
    refine ⟨_, (), if_pos hlt, .inr ?_, WP.ret ⟨?_, ?_⟩ fun σ τ hσ hR => ⟨hσ.1, stable' σ τ hσ.2 hR⟩⟩
    · refine ⟨rfl, rfl, by simp, fun _ _ => rfl, fun k hk => ?_⟩
      exact List.getElem?_set_ne (by omega)
    · exact ⟨Nat.le_add_right _ _, Nat.add_lt_add_left hpre _⟩
    · refine ⟨⟨hm.layout.newIds, hm.layout.index, by simpa using hm.layout.length⟩, ?_, ?_, ?_⟩
      · simpa using hm.next
      · simpa using hpre
      · intro i hi
        rw [List.length_append, List.length_singleton] at hi
        by_cases hlast : i = pre.length
        · subst hlast
          rw [List.getElem?_set_self hlt]
          simp
        · have hlt' : i < pre.length := by omega
          have hne : newOffset g (newId g.outDegree u).val + pre.length ≠
              newOffset g (newId g.outDegree u).val + i := by omega
          rw [List.getElem?_set_ne hne, hm.copied i hlt', List.map_append,
            List.getElem?_append_left (by simpa using hlt')]
  · refine ⟨⟨hm.layout.newIds, hm.layout.index, hm.layout.length⟩, ?_, hm.le, hm.copied⟩
    show update m.sums.offsets _ _ _ = _
    rw [update_self, Nat.add_assoc]

theorem sortNeighborhood_wp {u : Fin n} {σ : RelabelMem n × Unit}
    (hσ : Copied g u (g.outNeigh u).length (g.outNeigh u) σ.1) :
    WP (CopyOthers g u) (CopyOwn g u)
      (fun r σ => (∀ k, r.1 ≤ k → k < r.2 → InRange g u k) ∧ Sorted g u σ.1) (sortNeighborhood u) σ := by
  have stable := Copied.stable_others (g := g) u (g.outNeigh u).length (g.outNeigh u)
  apply WP.load_bind hσ stable
  intro m _ hm
  rw [hm.layout.newIds u]
  apply WP.load_bind (P := fun σ => Copied g u (g.outNeigh u).length (g.outNeigh u) σ.1) hm stable
  intro m _ hm
  rw [show m.index (newId g.outDegree u).castSucc = _ from hm.layout.index _]
  apply WP.load_bind (P := fun σ => Copied g u (g.outNeigh u).length (g.outNeigh u) σ.1) hm stable
  intro m _ hm
  rw [hm.layout.newIds u]
  apply WP.load_bind (P := fun σ => Copied g u (g.outNeigh u).length (g.outNeigh u) σ.1) hm stable
  intro m _ hm
  rw [show m.index (newId g.outDegree u).succ = _ from hm.layout.index _]
  apply WP.storeAt_bind (P := fun σ => Copied g u (g.outNeigh u).length (g.outNeigh u) σ.1) hm stable
  intro m _ (hm : Copied g u _ _ m)
  have hrange := newOffset_le (g := g) u
  have hlength := hm.layout.length
  have hsucc := newOffset_succ (g := g) u
  -- the slots of the range hold the translated neighbours in the order of `g`
  have hslice : slice m.neighs (newOffset g (newId g.outDegree u).val)
      (newOffset g ((newId g.outDegree u).val + 1)) =
      ((g.outNeigh u).map (newId g.outDegree)).map some := by
    apply slice_eq_of_getElem?
    · rw [List.length_map, List.length_map, hsucc]
      omega
    · intro i hi
      rw [List.length_map, List.length_map] at hi
      rw [hm.copied i hi, List.map_map]
      rfl
  let order (a b : Fin n) : Bool := decide (a ≤ b)
  have hsort := @sortRange_eq _ order _ _ _ _ (by omega) (by omega) hslice
  have hfits : newOffset g (newId g.outDegree u).val + ((newNeigh g u).map some).length ≤
      m.neighs.length := by
    rw [List.length_map, length_newNeigh]
    omega
  let sorted := (newNeigh g u).map some
  refine ⟨{ m with neighs := write m.neighs (newOffset g (newId g.outDegree u).val) sorted }, (),
    ?_, .inr ?_, WP.ret ⟨?_, ?_⟩ fun _ _ hσ ⟨_, hne, hstep⟩ => ⟨hσ.1, hσ.2.stable hne.symm hstep⟩⟩
  · rw [Fin.val_succ, Fin.val_castSucc, hsort]
    rfl
  · refine ⟨rfl, rfl, length_write hfits, fun _ _ => rfl, fun k hk => ?_⟩
    apply getElem?_write_of_outside hfits
    rw [List.length_map, length_newNeigh]
    exact hk
  · intro k hlo hhi
    rw [Fin.val_succ, hsucc] at hhi
    exact ⟨hlo, hhi⟩
  · apply slice_eq_of_getElem?
    · rw [List.length_map, length_newNeigh, hsucc]
      omega
    · exact fun i hi => getElem?_write hfits hi

theorem copyNeighborhood_wp {u : Fin n} {m : RelabelMem n} (hlayout : Layout g m)
    (hnext : m.sums.offsets (newId g.outDegree u).castSucc = newOffset g (newId g.outDegree u).val) :
    WP (CopyOthers g u) (CopyOwn g u) (fun _ σ => Sorted g u σ.1) (copyNeighborhood g u) (m, ()) := by
  apply WP.bind
  apply (WP.forEach (l := g.outNeigh u) (fun pre _ σ => Copied g u pre.length pre σ.1)
    ⟨hlayout, hnext, by simp, by simp⟩ (fun pre _ => Copied.stable_others u _ pre) ?_).mono
  · intro _ σ hσ
    apply WP.bind
    apply (sortNeighborhood_wp hσ).mono
    intro _ τ hτ
    exact WP.ret hτ.2 fun _ _ hσ ⟨_, hne, hstep⟩ => Sorted.stable hσ hne.symm hstep
  · intro pre v post _ σ hsplit hσ
    have hpre : pre.length < (g.outNeigh u).length := by
      rw [hsplit, List.length_append, List.length_cons]
      omega
    apply WP.bind
    apply (copyNeighbor_wp hpre hσ).mono
    exact fun _ τ hτ => WP.ret hτ.2 (Copied.stable_others u _ _)

variable (g) in
/-- The neighbourhoods of the new graph by new id. -/
noncomputable def newRows (i : Fin n) : List (Fin n) := newNeigh g (sortedPairs g.outDegree i).2

theorem newOffset_eq (k : Nat) : newOffset g k = Csr.rowOffset (newRows g) k := by
  unfold newOffset Csr.rowOffset
  congr 1
  funext i
  rw [newDegrees, sortedPairs_fst, newRows, length_newNeigh, g.length_outNeigh]

theorem Sorted.row {m : RelabelMem n} (hsorted : ∀ u, Sorted g u m) (i : Fin n) :
    slice m.neighs (Csr.rowOffset (newRows g) i) (Csr.rowOffset (newRows g) (i.val + 1)) =
      (newRows g i).map some := by
  have hi := hsorted (sortedPairs g.outDegree i).2
  rw [Sorted, newId_sortedPairs] at hi
  rw [← newOffset_eq, ← newOffset_eq, hi, newRows]

end Copy

/-! ## The whole construction -/

/-- `h` is `g` with vertex `u` renamed to `newId u` and every neighbourhood sorted. -/
structure Relabelled (g h : Graph n) : Prop where
  undirected : h.directed = false
  neigh : ∀ u, h.outNeigh (newId g.outDegree u) = newNeigh g u

theorem Relabelled.edge_iff {g h : Graph n} (hr : Relabelled g h) (u v : Fin n) :
    h.Edge (newId g.outDegree u) (newId g.outDegree v) ↔ g.Edge u v := by
  rw [Graph.Edge, hr.neigh, newNeigh, (List.mergeSort_perm _ _).mem_iff]
  exact List.mem_map_of_injective (newId g.outDegree).injective

/-- The neighbourhoods of the new graph are sorted, if those of the old one have no duplicates. -/
theorem Relabelled.sorted {g h : Graph n} (hr : Relabelled g h) (hnodup : ∀ u, (g.outNeigh u).Nodup)
    (x : Fin n) : (h.outNeigh x).Pairwise (· < ·) := by
  obtain ⟨u, rfl⟩ := (newId g.outDegree).surjective x
  rw [hr.neigh, newNeigh]
  exact RawArray.sorted_mergeSort ((hnodup u).map (newId g.outDegree).injective)

theorem newIds_loop {T : Nat} [NeZero T] {g : Graph n} {m : RelabelMem n}
    (hm : m.degreeIdPairs = sortedPairs g.outDegree) :
    Solo (.parallelFor T n fun v => do
      let pair ← .load fun m => m.degreeIdPairs v
      .store fun m => { m with degrees := update m.degrees v pair.1 }
      let pair ← .load fun m => m.degreeIdPairs v
      .store fun m => { m with newIds := update m.newIds pair.2 v }) m fun _ m' =>
      m'.degrees = newDegrees g ∧ ∀ u, m'.newIds u = newId g.outDegree u := by
  -- an iteration writes `new_ids` at the id of its pair, and no other pair has that id
  let Own (v : Fin n) (m m' : RelabelMem n) : Prop := m'.degreeIdPairs = m.degreeIdPairs ∧
    ∀ w, w ≠ v → m'.degrees w = m.degrees w ∧
      m'.newIds (sortedPairs g.outDegree w).2 = m.newIds (sortedPairs g.outDegree w).2
  let Post (v : Fin n) (m : RelabelMem n) : Prop :=
    m.degrees v = newDegrees g v ∧ m.newIds (sortedPairs g.outDegree v).2 = v
  apply (Solo.parallelFor_of_own Own (fun m => m.degreeIdPairs = sortedPairs g.outDegree)
    (fun _ _ => True) Post hm (fun _ => trivial) (fun _ _ _ hI hown => hown.1.trans hI)
    (fun _ _ _ _ _ _ _ _ => trivial) ?_ ?_).mono
  · rintro _ m' ⟨-, hpost⟩
    refine ⟨funext fun v => (hpost v).1, fun u => ?_⟩
    have hu := (hpost (newId g.outDegree u)).2
    rwa [sortedPairs_newId] at hu
  · rintro v w m m' hvw - ⟨hdeg, hid⟩ ⟨-, hown⟩
    exact ⟨(hown v hvw).1.trans hdeg, (hown v hvw).2.trans hid⟩
  · intro v m hm _
    have stable : Stable (fun σ τ : RelabelMem n × Unit => ∃ w, w ≠ v ∧ Own w σ.1 τ.1)
        fun σ => σ.1.degreeIdPairs = sortedPairs g.outDegree := by
      rintro σ τ hσ ⟨w, -, hown⟩
      exact hown.1.trans hσ
    have stableDeg : Stable (fun σ τ : RelabelMem n × Unit => ∃ w, w ≠ v ∧ Own w σ.1 τ.1)
        fun σ => σ.1.degreeIdPairs = sortedPairs g.outDegree ∧ σ.1.degrees v = newDegrees g v := by
      rintro σ τ ⟨hσ, hdeg⟩ ⟨w, hw, hown⟩
      exact ⟨hown.1.trans hσ, (hown.2 v hw.symm).1.trans hdeg⟩
    apply WP.load_bind (P := fun σ => σ.1.degreeIdPairs = sortedPairs g.outDegree) hm stable
    intro m _ (hm : m.degreeIdPairs = _)
    rw [hm]
    apply WP.store_bind (P := fun σ => σ.1.degreeIdPairs = sortedPairs g.outDegree) hm stable
    intro m _ (hm : m.degreeIdPairs = _)
    refine ⟨(), .inr ⟨rfl, fun w hw => ⟨update_of_ne hw .., rfl⟩⟩, ?_⟩
    apply WP.load_bind (P := fun σ => σ.1.degreeIdPairs = sortedPairs g.outDegree ∧
      σ.1.degrees v = newDegrees g v) ⟨hm, update_self ..⟩ stableDeg
    rintro m _ ⟨hm, hdeg⟩
    rw [show m.degreeIdPairs = _ from hm]
    apply WP.store (P := fun σ => σ.1.degreeIdPairs = sortedPairs g.outDegree ∧
      σ.1.degrees v = newDegrees g v) ⟨hm, hdeg⟩ stableDeg
    · rintro _ σ τ ⟨hdeg, hid⟩ ⟨w, hw, hown⟩
      exact ⟨(hown.2 v hw.symm).1.trans hdeg, (hown.2 v hw.symm).2.trans hid⟩
    · rintro m _ ⟨-, hdeg⟩
      refine ⟨(), .inr ⟨rfl, fun w hw => ⟨rfl, update_of_ne ?_ ..⟩⟩, hdeg, update_self ..⟩
      exact fun heq => hw (sortedPairs_injective _ heq)

/-- What the iterations of the copy loop have to do with each other. -/
theorem copies_separate (g : Graph n) : Separate (CopyStep g) (Layout g)
    (fun u m => m.sums.offsets (newId g.outDegree u).castSucc = newOffset g (newId g.outDegree u).val)
    (Sorted g) := by
  refine ⟨fun _ _ _ h hstep => h.step hstep, ?_, fun _ _ _ _ huv _ h hstep => h.stable huv hstep⟩
  intro u v m m' huv _ hnext hstep
  rw [hstep.offsets _ fun heq => huv ((newId _).injective (Fin.castSucc_injective _ heq)), hnext]

/-- The arrays are read as a graph when the copy loop has ended. -/
theorem relabel_finished {g : Graph n} {m : RelabelMem n} (hlayout : Layout g m)
    (hsorted : ∀ u, Sorted g u m) : ∃ csr, (values m.neighs).bind (Csr.ofArrays m.index) = some csr ∧
      Relabelled g (.ofUndirected csr g.nodes_lt) := by
  refine ⟨Csr.ofRows (newRows g), ?_, rfl, fun u => ?_⟩
  · exact Csr.values_bind_ofArrays (fun i => (hlayout.index i).trans (newOffset_eq i.val))
      (hlayout.length.trans (newOffset_eq n)) (Sorted.row hsorted)
  · rw [CSRGraph.outNeigh_ofUndirected, Csr.neigh_ofRows, newRows, sortedPairs_newId]

/-- The arrays are ready when the loop that copies starts, and are read as a graph when it has sorted every
neighbourhood. -/
theorem relabelWith_solo {T : Nat} [NeZero T] {g : Graph n} (hg : g.directed = false) {α : Type}
    {copy : Prog (RelabelMem n) α} {P : α → Prop} (m : RelabelMem n)
    (hcopy : ∀ m', Layout g m' → (∀ i, m'.sums.offsets i = newOffset g i.val) →
      Solo copy m' fun a m'' => Layout g m'' ∧ (∀ u, Sorted g u m'') ∧ P a) :
    Solo (relabelWith g T copy) m fun r m' => ∃ h a, r = some (h, a) ∧ Relabelled g h ∧
      (∀ u, m'.newIds u = newId g.outDegree u) ∧ P a := by
  simp only [relabelWith, hg, Bool.false_eq_true, if_false]
  apply Solo.bind
  apply (Solo.parallelFor_store _ RelabelMem.degreeIdPairs (fun v => (g.outDegree v, v)) _ _).mono
  · intro _ m hpairs
    apply Solo.store_bind
    apply Solo.bind
    apply (newIds_loop (g := g) _).mono
    · rintro _ m ⟨hdegrees, hids⟩
      apply Solo.load_bind
      apply Solo.bind
      apply (Solo.zoom (parallelPrefixSum_solo (by decide) _)).mono
      rintro _ m' ⟨hoffsets, hm'⟩
      rw [hdegrees] at hoffsets
      have hoff (i : Fin (n + 1)) : m'.sums.offsets i = newOffset g i.val := hoffsets i
      apply Solo.store_bind
      apply Solo.load_bind
      apply Solo.bind
      apply (Solo.zoom (genIndex_solo g.nodes_lt _ _)).mono
      rintro _ m'' ⟨hindex, hm''⟩
      have hlayout : Layout g m'' := by
        refine ⟨fun u => ?_, fun i => (congrFun hindex i).trans (hoff i), ?_⟩
        · rw [hm'', hm']
          exact hids u
        · rw [hm'']
          show (List.replicate (m'.sums.offsets (Fin.last n)) none).length = _
          rw [List.length_replicate, hoff]
          rfl
      apply Solo.bind
      apply (hcopy m'' hlayout fun i => by rw [hm'']; exact hoff i).mono
      rintro a m₃ ⟨hlayout', hsorted, ha⟩
      obtain ⟨csr, hcsr, hrel⟩ := relabel_finished hlayout' hsorted
      apply Solo.loadAt_bind (b := csr)
      · exact hcsr
      · exact Solo.ret ⟨_, a, rfl, hrel, hlayout'.newIds, ha⟩
    · exact congrArg sortPairs (funext hpairs)
  · exact fun v m => update_self ..
  · exact fun v w m hw => update_of_ne hw ..

/-- The result, and the ids in `new_ids`. -/
theorem relabelByDegree_newIds {T : Nat} [NeZero T] {g : Graph n} (hg : g.directed = false)
    (m : RelabelMem n) :
    Solo (relabelByDegree g T) m fun r m' =>
      (∃ h, r = some h ∧ Relabelled g h) ∧ ∀ u, m'.newIds u = newId g.outDegree u := by
  have hsep := copies_separate g
  apply Solo.bind
  apply (relabelWith_solo (P := fun _ => True) hg m fun m' hlayout hnext =>
    (Solo.parallelFor_of_own (CopyStep g) (Layout g) _ (Sorted g) hlayout (fun u => hnext _) hsep.inv hsep.pre
      hsep.post fun u m hlayout hnext => copyNeighborhood_wp hlayout hnext).mono
        fun _ _ h => ⟨h.1, h.2, trivial⟩).mono
  rintro _ m' ⟨h, _, rfl, hrel, hids, -⟩
  exact Solo.ret ⟨⟨h, rfl, hrel⟩, hids⟩

theorem relabelByDegree_solo {T : Nat} [NeZero T] {g : Graph n} (hg : g.directed = false)
    (m : RelabelMem n) :
    Solo (relabelByDegree g T) m fun r _ => ∃ h, r = some h ∧ Relabelled g h :=
  (relabelByDegree_newIds hg m).mono fun _ _ h => h.1

end Gapbs
