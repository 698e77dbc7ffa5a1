import Gapbs.Builder.EdgeList

/-!
# Scattering an edge list into rows

`MakeCSR` of `builder.h`.  Every edge claims a slot of the neighbour array by `fetch_and_add` on the
offset of its row and writes it afterwards, so that the order within a row depends on the
interleaving, but not what the row holds.
-/

namespace Gapbs

open Conc Function RawArray

variable {n : Nat} {D : Type}

/-- The arrays of one call of `MakeCSR`.  `writes` is no part of the program: it records how often
the scatter loop has written each slot of `neighs`. -/
structure CsrMem (n : Nat) (D : Type) where
  degrees : Fin n → Int
  sums : PrefixMem Int n (blockCount n prefixBlockSize)
  index : Fin (n + 1) → Int
  neighs : List (Option D)
  writes : Nat → Nat

namespace CsrMem

def degreesLens : Lens (CsrMem n D) (Fin n → Int) where
  get m := m.degrees
  set degrees m := { m with degrees }
  get_set _ _ := rfl
  set_get _ := rfl
  set_set _ _ _ := rfl

def sumsLens : Lens (CsrMem n D) (PrefixMem Int n (blockCount n prefixBlockSize)) where
  get m := m.sums
  set sums m := { m with sums }
  get_set _ _ := rfl
  set_get _ := rfl
  set_set _ _ _ := rfl

def indexLens : Lens (CsrMem n D) (Fin (n + 1) → Int) where
  get m := m.index
  set index m := { m with index }
  get_set _ _ := rfl
  set_get _ := rfl
  set_set _ _ _ := rfl

/-- `offsets[v] += 1` -/
def bump (m : CsrMem n D) (v : Fin n) : CsrMem n D :=
  sumsLens.set { m.sums with
    offsets := update m.sums.offsets v.castSucc (m.sums.offsets v.castSucc + 1) } m

/-- `neighs[slot] = d` -/
def write (m : CsrMem n D) (slot : Nat) (d : D) : CsrMem n D :=
  { m with neighs := m.neighs.set slot (some d), writes := update m.writes slot (m.writes slot + 1) }

end CsrMem

/-- `fetch_and_add(offsets[v], 1)`; the offsets have 64 bits and do not overflow. -/
def claimSlot (v : Fin n) : Prog (CsrMem n D) Int :=
  .op fun m => some (m.sums.offsets v.castSucc, m.bump v)

/-- `(*neighs)[slot] = d` -/
def writeSlot (slot : Int) (d : D) : Prog (CsrMem n D) Unit :=
  .storeAt fun m =>
    if 0 ≤ slot ∧ slot.toNat < m.neighs.length then some (m.write slot.toNat d) else none

/-- One iteration of the loop of `MakeCSR`. -/
def scatterEdge [Dest n D] (symmetrize transpose : Bool) (e : EdgePair (Fin n) D) :
    Prog (CsrMem n D) Unit := do
  if symmetrize || (!symmetrize && !transpose) then
    let slot ← claimSlot e.u
    writeSlot slot e.v
  if symmetrize || (!symmetrize && transpose) then
    let slot ← claimSlot (Dest.id e.v)
    writeSlot slot (Dest.getSource e.u e.v)

/-- The pointers, which count from the start of the array, when they form a valid structure. -/
def Csr.ofPointers (index : Fin (n + 1) → Int) (neighbors : List D) : Option (Csr n D) :=
  if ∀ i, 0 ≤ index i then Csr.ofArrays (fun i => (index i).toNat) neighbors else none

/-- `new DestID_[size]`: an allocation of negative size throws. -/
def newArray (size : Int) : Option (List (Option D)) :=
  if 0 ≤ size then some (List.replicate size.toNat none) else none

/-- The first half of `MakeCSR`: the degrees, the offsets and the storage. -/
def allocateRows [Dest n D] (T : Nat) [NeZero T] (symmetrize : Bool) (el : List (EdgePair (Fin n) D))
    (transpose : Bool) : Prog (CsrMem n D) Unit := do
  (countDegrees T symmetrize false el transpose).zoom CsrMem.degreesLens
  let degrees ← .load fun m => m.degrees
  (parallelPrefixSum T prefixBlockSize degrees).zoom CsrMem.sumsLens
  .storeAt fun m => (newArray (m.sums.offsets (Fin.last n))).map fun neighs =>
    { m with neighs, writes := fun _ => 0 }

/-- `MakeCSR(el, transpose, index, neighs)` outside in-place building.  The two arrays are handed
over to the graph that is built from them. -/
def makeCSR [Dest n D] (T : Nat) [NeZero T] (symmetrize : Bool) (el : List (EdgePair (Fin n) D))
    (transpose : Bool) : Prog (CsrMem n D) (Csr n D) := do
  allocateRows T symmetrize el transpose
  let offsets ← .load fun m => m.sums.offsets
  (genIndex T offsets).zoom CsrMem.indexLens
  -- the pointers are those of before this loop, which moves the offsets
  .parallelFor T el.length fun i => scatterEdge symmetrize transpose (el.get i)
  .loadAt fun m => (values m.neighs).bind (Csr.ofPointers m.index)

theorem Csr.values_bind_ofPointers {rows : Fin n → List D} {neighs : List (Option D)}
    (hlength : neighs.length = Csr.rowOffset rows n)
    (hrows : ∀ u : Fin n, slice neighs (Csr.rowOffset rows u) (Csr.rowOffset rows (u.val + 1)) =
      (rows u).map some) :
    (values neighs).bind (Csr.ofPointers fun i => (Csr.rowOffset rows i : Nat)) =
      some (Csr.ofRows rows) := by
  rw [← Csr.values_bind_ofArrays (fun _ => rfl) hlength hrows]
  congr 1
  funext xs
  rw [Csr.ofPointers, if_pos fun i => Int.natCast_nonneg _]
  rfl

/-- What an edge puts into which rows. -/
def entries [Dest n D] (symmetrize transpose : Bool) (e : EdgePair (Fin n) D) : List (Fin n × D) :=
  (if symmetrize || (!symmetrize && !transpose) then [(e.u, e.v)] else []) ++
    if symmetrize || (!symmetrize && transpose) then [(Dest.id e.v, Dest.getSource e.u e.v)] else []

/-- The values for row `v` in a list of entries. -/
def rowOf (v : Fin n) (l : List (Fin n × D)) : List D := (l.filter fun p => p.1 = v).map Prod.snd

/-- What the edges of a list put into row `v`. -/
def incident [Dest n D] (symmetrize transpose : Bool) (el : List (EdgePair (Fin n) D)) (v : Fin n) :
    List D :=
  rowOf v (el.flatMap (entries symmetrize transpose))

theorem scatterEdge_eq [Dest n D] (symmetrize transpose : Bool) (e : EdgePair (Fin n) D) :
    scatterEdge symmetrize transpose e =
      .forEach (entries symmetrize transpose e) () fun p _ =>
        (claimSlot p.1).bind fun slot => writeSlot slot p.2 := by
  cases symmetrize <;> cases transpose <;> rfl

theorem rowOf_append (v : Fin n) (l l' : List (Fin n × D)) :
    rowOf v (l ++ l') = rowOf v l ++ rowOf v l' := by
  simp [rowOf]

theorem rowOf_self (v : Fin n) (x : D) : rowOf v [(v, x)] = [x] := by
  simp [rowOf]

theorem rowOf_of_ne {v w : Fin n} (h : v ≠ w) (x : D) : rowOf w [(v, x)] = [] := by
  simp [rowOf, h]

theorem length_rowOf (v : Fin n) (l : List (Fin n × D)) :
    (rowOf v l).length = (l.map Prod.fst).count v := by
  rw [rowOf, List.length_map, List.count, List.countP_map, List.countP_eq_length_filter]
  rfl

theorem length_rowOf_take (v : Fin n) (l : List (Fin n × D)) (k : Nat) :
    (rowOf v (l.take k)).length ≤ (rowOf v l).length := by
  rw [rowOf, rowOf, List.length_map, List.length_map]
  exact ((List.take_sublist k l).filter _).length_le

/-! ## The scatter loop -/

section Scatter

variable {m : Nat} (lists : Fin m → List (Fin n × D))

/-- How many values row `v` gets. -/
def rowDegree (v : Fin n) : Nat := ∑ i, (rowOf v (lists i)).length

/-- The slot of the `k`-th value of row `v`. -/
def rowSlot (v : Fin n) (k : Nat) : Nat := offset (rowDegree lists) v + k

variable {lists}

theorem rowSlot_lt {v : Fin n} {k : Nat} (hk : k < rowDegree lists v) :
    rowSlot lists v k < offset (rowDegree lists) n := by
  have hmono := offset_mono (rowDegree lists) (Nat.succ_le_of_lt v.isLt)
  rw [Nat.succ_eq_add_one, offset_succ] at hmono
  unfold rowSlot
  omega

/-- Slots of different values are different. -/
theorem rowSlot_inj {v w : Fin n} {k l : Nat} (hk : k < rowDegree lists v)
    (hl : l < rowDegree lists w) (h : rowSlot lists v k = rowSlot lists w l) : v = w ∧ k = l := by
  unfold rowSlot at h
  have hne : v = w := by
    rcases lt_trichotomy v w with hlt | heq | hlt
    · have hmono := offset_mono (rowDegree lists) (Nat.succ_le_of_lt hlt)
      rw [Nat.succ_eq_add_one, offset_succ] at hmono
      omega
    · exact heq
    · have hmono := offset_mono (rowDegree lists) (Nat.succ_le_of_lt hlt)
      rw [Nat.succ_eq_add_one, offset_succ] at hmono
      omega
  subst hne
  exact ⟨rfl, by omega⟩

variable (lists) in
/-- The state of the loop.  `logs v` are the values of row `v` in the order in which their slots were
claimed; `γ i` tells how many entries iteration `i` has claimed a slot for, and which place in which
row it has claimed but not yet written. -/
structure Scattered (logs : Fin n → List D) (mem : CsrMem n D)
    (γ : Fin m → Nat × Option (Fin n × Nat)) : Prop where
  index : ∀ i, mem.index i = (offset (rowDegree lists) i : Nat)
  length : mem.neighs.length = offset (rowDegree lists) n
  offsets : ∀ v, mem.sums.offsets v.castSucc = (rowSlot lists v (logs v).length : Nat)
  claimed : ∀ v, (logs v : Multiset D) = ∑ i, (rowOf v ((lists i).take (γ i).1) : Multiset D)
  pending : ∀ i v k, (γ i).2 = some (v, k) →
    ∃ c x, (γ i).1 = c + 1 ∧ (lists i)[c]? = some (v, x) ∧ (logs v)[k]? = some x
  once : ∀ i j p, (γ i).2 = some p → (γ j).2 = some p → i = j
  written : ∀ v k x, (logs v)[k]? = some x → (∀ i, (γ i).2 ≠ some (v, k)) →
    mem.writes (rowSlot lists v k) = 1 ∧ mem.neighs[rowSlot lists v k]? = some (some x)
  blank : ∀ v k, k < rowDegree lists v → ((logs v).length ≤ k ∨ ∃ i, (γ i).2 = some (v, k)) →
    mem.writes (rowSlot lists v k) = 0

namespace Scattered

variable {logs : Fin n → List D} {mem : CsrMem n D} {γ : Fin m → Nat × Option (Fin n × Nat)}

theorem length_le (h : Scattered lists logs mem γ) (v : Fin n) :
    (logs v).length ≤ rowDegree lists v := by
  have hcard := congrArg Multiset.card (h.claimed v)
  rw [Multiset.coe_card, Multiset.card_sum] at hcard
  rw [hcard]
  exact Finset.sum_le_sum fun i _ => length_rowOf_take v (lists i) _

theorem pending_lt (h : Scattered lists logs mem γ) {i : Fin m} {v : Fin n} {k : Nat}
    (hi : (γ i).2 = some (v, k)) : k < (logs v).length := by
  obtain ⟨_, _, _, _, hk⟩ := h.pending i v k hi
  exact (List.getElem?_eq_some_iff.mp hk).1

/-- Iteration `i` claims a slot for its next entry. -/
theorem claim (h : Scattered lists logs mem γ) {i : Fin m} {c : Nat} {v : Fin n} {x : D}
    (hi : γ i = (c, none)) (hc : (lists i)[c]? = some (v, x)) :
    Scattered lists (update logs v (logs v ++ [x])) (mem.bump v)
      (update γ i (c + 1, some (v, (logs v).length))) := by
  obtain ⟨hlt, hget⟩ := List.getElem?_eq_some_iff.mp hc
  have htake : (lists i).take (c + 1) = (lists i).take c ++ [(v, x)] := by
    rw [List.take_succ_eq_append_getElem hlt, hget]
  have hother (w : Fin n) (j : Fin m) (hj : j ≠ i) :
      (rowOf w ((lists j).take (update γ i (c + 1, some (v, (logs v).length)) j).1) : Multiset D) =
        rowOf w ((lists j).take (γ j).1) := by
    rw [update_of_ne hj]
  -- another iteration's pending place is an old one
  have hold (j : Fin m) (p : Fin n × Nat) (hj : j ≠ i)
      (hp : (update γ i (c + 1, some (v, (logs v).length)) j).2 = some p) : (γ j).2 = some p := by
    rwa [update_of_ne hj] at hp
  have hfresh (j : Fin m) : (γ j).2 ≠ some (v, (logs v).length) := fun hj =>
    absurd (h.pending_lt hj) (lt_irrefl _)
  refine ⟨h.index, h.length, fun w => ?_, fun w => ?_, fun j w k hj => ?_, fun j l p hj hl => ?_,
    fun w k y hk hnone => ?_, fun w k hk hcase => ?_⟩
  · by_cases hw : w = v
    · subst hw
      show update mem.sums.offsets w.castSucc _ w.castSucc = _
      rw [update_self, update_self, h.offsets, List.length_append, List.length_singleton]
      simp [rowSlot, Int.add_assoc]
    · have hne : w.castSucc ≠ v.castSucc := fun heq => hw (Fin.castSucc_injective _ heq)
      show update mem.sums.offsets v.castSucc _ w.castSucc = _
      rw [update_of_ne hne, update_of_ne hw, h.offsets]
  · by_cases hw : w = v
    · subst hw
      rw [update_self, ← Multiset.coe_add, h.claimed]
      symm
      apply sum_eq_add_of_cell i _ _ (hother w)
      rw [update_self, htake, rowOf_append, rowOf_self, hi, Multiset.coe_add]
    · rw [update_of_ne hw, h.claimed, ← add_zero (∑ i, _)]
      symm
      apply sum_eq_add_of_cell i _ _ (hother w)
      rw [update_self, htake, rowOf_append, rowOf_of_ne (Ne.symm hw), hi, List.append_nil, add_zero]
  · by_cases hji : j = i
    · subst hji
      rw [update_self] at hj
      obtain ⟨rfl, rfl⟩ := Prod.mk.inj (Option.some.inj hj)
      exact ⟨c, x, by rw [update_self], hc, by simp⟩
    · obtain ⟨d, y, hd, hy, hk⟩ := h.pending j w k (hold j _ hji hj)
      refine ⟨d, y, by rwa [update_of_ne hji], hy, ?_⟩
      by_cases hw : w = v
      · subst hw
        rwa [update_self, List.getElem?_append_left (List.getElem?_eq_some_iff.mp hk).1]
      · rwa [update_of_ne hw]
  · by_cases hji : j = i <;> by_cases hli : l = i
    · rw [hji, hli]
    · rw [hji, update_self] at hj
      exact absurd (hold l p hli hl) (Option.some.inj hj ▸ hfresh l)
    · rw [hli, update_self] at hl
      exact absurd (hold j p hji hj) (Option.some.inj hl ▸ hfresh j)
    · exact h.once j l p (hold j p hji hj) (hold l p hli hl)
  · have hkw : (logs w)[k]? = some y := by
      by_cases hw : w = v
      · subst hw
        rw [update_self] at hk
        have hne : k ≠ (logs w).length := fun heq => hnone i (by rw [update_self, heq])
        have hlen := (List.getElem?_eq_some_iff.mp hk).1
        rw [List.length_append, List.length_singleton] at hlen
        rwa [List.getElem?_append_left (by omega)] at hk
      · rwa [update_of_ne hw] at hk
    apply h.written w k y hkw
    intro j hj
    by_cases hji : j = i
    · rw [hji, hi] at hj
      exact absurd hj (by simp)
    · exact hnone j (by rwa [update_of_ne hji])
  · apply h.blank w k hk
    rcases hcase with hle | ⟨j, hj⟩
    · left
      by_cases hw : w = v
      · subst hw
        rw [update_self, List.length_append] at hle
        omega
      · rwa [update_of_ne hw] at hle
    · by_cases hji : j = i
      · left
        rw [hji, update_self] at hj
        obtain ⟨rfl, rfl⟩ := Prod.mk.inj (Option.some.inj hj)
        exact le_rfl
      · exact .inr ⟨j, hold j _ hji hj⟩

/-- Iteration `i` writes the slot it has claimed. -/
theorem write (h : Scattered lists logs mem γ) {i : Fin m} {c k : Nat} {v : Fin n} {x : D}
    (hi : γ i = (c + 1, some (v, k))) (hc : (lists i)[c]? = some (v, x)) :
    Scattered lists logs (mem.write (rowSlot lists v k) x) (update γ i (c + 1, none)) := by
  have hpend : (γ i).2 = some (v, k) := by rw [hi]
  -- the slot that the iteration has claimed for this entry
  have hx : (logs v)[k]? = some x := by
    obtain ⟨d, y, hd, hy, hk⟩ := h.pending i v k hpend
    rw [hi, Nat.add_right_cancel_iff] at hd
    rw [← hd, hc, Option.some_inj, Prod.mk.injEq] at hy
    rw [hk, hy.2]
  have hk : k < rowDegree lists v := (h.pending_lt hpend).trans_le (h.length_le v)
  have hslot : rowSlot lists v k < mem.neighs.length := h.length ▸ rowSlot_lt hk
  -- the other claims are still pending
  have hold (j : Fin m) (p : Fin n × Nat) (hp : (update γ i (c + 1, none) j).2 = some p) :
      (γ j).2 = some p ∧ j ≠ i := by
    by_cases hji : j = i
    · rw [hji, update_self] at hp
      exact absurd hp (by simp)
    · rw [update_of_ne hji] at hp
      exact ⟨hp, hji⟩
  refine ⟨h.index, ?_, h.offsets, fun w => ?_, fun j w l hj => ?_,
    fun j l p hj hl => h.once j l p (hold j p hj).1 (hold l p hl).1, fun w l y hl hnone => ?_,
    fun w l hl hcase => ?_⟩
  · exact (List.length_set ..).trans h.length
  · rw [h.claimed]
    apply Finset.sum_congr rfl
    intro j _
    by_cases hji : j = i
    · rw [hji, update_self, hi]
    · rw [update_of_ne hji]
  · rw [update_of_ne (hold j _ hj).2]
    exact h.pending j w l (hold j _ hj).1
  · have hlw : l < rowDegree lists w :=
      (List.getElem?_eq_some_iff.mp hl).1.trans_le (h.length_le w)
    by_cases heq : w = v ∧ l = k
    · obtain ⟨rfl, rfl⟩ := heq
      have hblank := h.blank w l hk (.inr ⟨i, hpend⟩)
      obtain rfl : x = y := Option.some.inj (hx.symm.trans hl)
      refine ⟨?_, List.getElem?_set_self hslot⟩
      show update mem.writes _ _ _ = _
      rw [update_self, hblank]
    · have hne : rowSlot lists w l ≠ rowSlot lists v k := fun hs => heq (rowSlot_inj hlw hk hs)
      have hw := h.written w l y hl fun j hj => by
        by_cases hji : j = i
        · rw [hji, hpend] at hj
          obtain ⟨rfl, rfl⟩ := Prod.mk.inj (Option.some.inj hj)
          exact heq ⟨rfl, rfl⟩
        · exact hnone j (by rwa [update_of_ne hji])
      refine ⟨?_, ?_⟩
      · exact (update_of_ne hne ..).trans hw.1
      · exact (List.getElem?_set_ne hne.symm).trans hw.2
  · have hcase' : (logs w).length ≤ l ∨ ∃ j, (γ j).2 = some (w, l) ∧ j ≠ i := by
      rcases hcase with hle | ⟨j, hj⟩
      · exact .inl hle
      · exact .inr ⟨j, hold j _ hj⟩
    have hne : rowSlot lists w l ≠ rowSlot lists v k := by
      intro hs
      obtain ⟨rfl, rfl⟩ := rowSlot_inj hl hk hs
      rcases hcase' with hle | ⟨j, hj, hji⟩
      · exact absurd (h.pending_lt hpend) (not_lt.mpr hle)
      · exact hji (h.once j i _ hj hpend)
    refine (update_of_ne hne ..).trans (h.blank w l hl ?_)
    exact hcase'.imp_right fun ⟨j, hj, _⟩ => ⟨j, hj⟩

end Scattered

variable (lists) in
/-- What the loop leaves behind: the rows `logs` stand one behind the other, every slot has been
written once, and each row holds what the iterations have for it. -/
structure RowsFilled (logs : Fin n → List D) (mem : CsrMem n D) : Prop where
  index : ∀ i, mem.index i = (Csr.rowOffset logs i : Nat)
  length : mem.neighs.length = Csr.rowOffset logs n
  rows : ∀ u : Fin n, slice mem.neighs (Csr.rowOffset logs u) (Csr.rowOffset logs (u.val + 1)) =
    (logs u).map some
  writes : ∀ k < Csr.rowOffset logs n, mem.writes k = 1
  contents : ∀ v, (logs v : Multiset D) = ∑ i, (rowOf v (lists i) : Multiset D)

theorem Scattered.filled {logs : Fin n → List D} {mem : CsrMem n D}
    (h : Scattered lists logs mem fun i => ((lists i).length, none)) : RowsFilled lists logs mem := by
  have hcontents (v : Fin n) : (logs v : Multiset D) = ∑ i, (rowOf v (lists i) : Multiset D) := by
    simpa using h.claimed v
  have hdegree (v : Fin n) : (logs v).length = rowDegree lists v := by
    have hcard := congrArg Multiset.card (hcontents v)
    rwa [Multiset.coe_card, Multiset.card_sum] at hcard
  have hoffset (k : Nat) : Csr.rowOffset logs k = offset (rowDegree lists) k :=
    congrArg (offset · k) (funext hdegree)
  have hslots (v : Fin n) (k : Nat) (hk : k < (logs v).length) :
      mem.writes (rowSlot lists v k) = 1 ∧
        mem.neighs[rowSlot lists v k]? = some (some (logs v)[k]) :=
    h.written v k _ (List.getElem?_eq_getElem hk) fun i => nofun
  refine ⟨fun i => ?_, ?_, fun u => ?_, fun k hk => ?_, hcontents⟩
  · rw [h.index, hoffset]
  · rw [h.length, hoffset]
  · apply slice_eq_of_getElem?
    · rw [List.length_map, Csr.rowOffset_succ, Nat.add_sub_cancel_left]
    · intro i hi
      rw [List.length_map] at hi
      rw [hoffset, List.getElem?_map, List.getElem?_eq_getElem hi]
      exact (hslots u i hi).2
  · rw [hoffset] at hk
    obtain ⟨v, hlo, hhi⟩ := exists_offset_le_lt (rowDegree lists) hk
    have hlt : k - offset (rowDegree lists) v < (logs v).length := by
      rw [offset_succ] at hhi
      rw [hdegree]
      omega
    have hwrite := (hslots v _ hlt).1
    rwa [rowSlot, Nat.add_sub_cancel' hlo] at hwrite

theorem scatterLoop_solo {T : Nat} [NeZero T] {mem : CsrMem n D}
    (hindex : ∀ i, mem.index i = (offset (rowDegree lists) i : Nat))
    (hlength : mem.neighs.length = offset (rowDegree lists) n)
    (hoffsets : ∀ v : Fin n, mem.sums.offsets v.castSucc = (offset (rowDegree lists) v : Nat))
    (hwrites : ∀ k, mem.writes k = 0) :
    Solo (.parallelFor T m fun i => .forEach (lists i) () fun p _ =>
      (claimSlot p.1).bind fun slot => writeSlot slot p.2) mem fun _ mem' =>
      ∃ logs, RowsFilled lists logs mem' := by
  let I (σ : CsrMem n D × (Fin m → Nat × Option (Fin n × Nat))) : Prop :=
    ∃ logs, Scattered lists logs σ.1 σ.2
  apply (Solo.parallelFor_ghost I (fun _ => (0, none)) (fun i => ((lists i).length, none)) ?_ ?_).mono
  · rintro _ mem' ⟨logs, h⟩
    exact ⟨logs, h.filled⟩
  · refine ⟨fun _ => [], hindex, hlength, hoffsets, ?_, ?_, ?_, ?_, ?_⟩
    · simp [rowOf]
    · exact fun i v k => nofun
    · exact fun i j p => nofun
    · exact fun v k x hk => by simp at hk
    · exact fun v k _ _ => hwrites _
  · intro i σ hσ hfirst
    apply (WP.forEach (l := lists i) (fun pre _ σ => I σ ∧ σ.2 i = (pre.length, none))
      ⟨hσ, hfirst⟩ (fun pre _ => stable_otherCells _ _ _) ?_).mono fun _ _ h => h
    rintro pre ⟨v, x⟩ post _ σ hsplit hσ
    have hget : (lists i)[pre.length]? = some (v, x) := by simp [hsplit]
    -- claiming the slot
    apply WP.op_bind (P := fun σ => I σ ∧ σ.2 i = (pre.length, none)) hσ (stable_otherCells _ _ _)
    rintro mem γ ⟨⟨logs, h⟩, hγ⟩
    have hclaim := h.claim hγ hget
    refine ⟨_, _, update γ i (pre.length + 1, some (v, (logs v).length)), rfl,
      .inr ⟨fun _ => ⟨_, hclaim⟩, fun j hj => update_of_ne hj ..⟩, ?_⟩
    -- writing it
    have hslot : mem.sums.offsets v.castSucc = (rowSlot lists v (logs v).length : Nat) := h.offsets v
    rw [hslot]
    generalize (logs v).length = k at hclaim
    apply WP.storeAt (P := fun σ => I σ ∧ σ.2 i = (pre.length + 1, some (v, k)))
      ⟨⟨_, hclaim⟩, update_self ..⟩ (stable_otherCells _ _ _) fun _ => stable_otherCells _ _ _
    rintro mem γ ⟨⟨logs, h⟩, hγ⟩
    have hwrite := h.write hγ hget
    have hlt : rowSlot lists v k < mem.neighs.length := by
      have hk := (h.pending_lt (i := i) (by rw [hγ])).trans_le (h.length_le v)
      exact h.length ▸ rowSlot_lt hk
    refine ⟨_, update γ i (pre.length + 1, none), if_pos ⟨Int.natCast_nonneg _, hlt⟩,
      .inr ⟨fun _ => ⟨_, hwrite⟩, fun j hj => update_of_ne hj ..⟩, ⟨_, hwrite⟩, ?_⟩
    show update γ i _ i = _
    rw [update_self, List.length_append, List.length_singleton]

end Scatter

/-! ## The whole construction -/

theorem offset_natCast (degrees : Fin n → Nat) (k : Nat) :
    offset (fun v => (degrees v : Int)) k = (offset degrees k : Nat) := by
  simp [offset]

section

variable [Dest n D] {symmetrize transpose : Bool} {el : List (EdgePair (Fin n) D)}

theorem entries_fst (e : EdgePair (Fin n) D) : (entries symmetrize transpose e).map Prod.fst =
    countedVertices symmetrize false transpose e := by
  cases symmetrize <;> cases transpose <;> rfl

/-- The loop fills the rows that the degrees were counted for. -/
theorem rowDegree_entries (v : Fin n) :
    rowDegree (fun i : Fin el.length => entries symmetrize transpose (el.get i)) v =
      degreeOf symmetrize false transpose el v := by
  rw [degreeOf, List.count_flatMap, ← Fin.sum_univ_fun_getElem]
  apply Finset.sum_congr rfl
  intro i _
  rw [length_rowOf, entries_fst]
  rfl

theorem rowOf_entries (v : Fin n) :
    (∑ i : Fin el.length, (rowOf v (entries symmetrize transpose (el.get i)) : Multiset D)) =
      incident symmetrize transpose el v := by
  have hsum := Fin.sum_univ_fun_getElem el
    fun e => (rowOf v (entries symmetrize transpose e) : Multiset D)
  refine hsum.trans ?_
  rw [incident]
  clear hsum
  induction el with
  | nil => rfl
  | cons e el ih =>
    rw [List.map_cons, List.sum_cons, ih, List.flatMap_cons, rowOf_append, Multiset.coe_add]

/-- The storage has the size that the counters add up to. -/
theorem allocateRows_solo {T : Nat} [NeZero T] {degrees : Fin n → Nat}
    (hdegree : ∀ v, toNodeID (degreeOf symmetrize false transpose el v) = degrees v) (mem : CsrMem n D) :
    Solo (allocateRows T symmetrize el transpose) mem fun _ mem' =>
      (∀ i, mem'.sums.offsets i = (offset degrees i : Nat)) ∧
        mem'.neighs = List.replicate (offset degrees n) none ∧ ∀ k, mem'.writes k = 0 := by
  apply Solo.bind
  apply (Solo.zoom (countDegrees_solo _)).mono
  rintro _ mem ⟨hdegrees, -⟩
  apply Solo.load_bind
  have hcount : mem.degrees = fun v => ((degrees v : Nat) : Int) :=
    funext fun v => (hdegrees v).trans (hdegree v)
  rw [hcount]
  apply Solo.bind
  apply (Solo.zoom (parallelPrefixSum_solo (by decide) _)).mono
  rintro _ mem ⟨hsums, -⟩
  have hoffsets (i : Fin (n + 1)) : mem.sums.offsets i = (offset degrees i : Nat) := by
    rw [← offset_natCast]
    exact hsums i
  have hlast : mem.sums.offsets (Fin.last n) = (offset degrees n : Nat) := hoffsets _
  apply Solo.storeAt (t := { mem with
    neighs := List.replicate (offset degrees n) none, writes := fun _ => 0 })
  · rw [hlast, newArray, if_pos (Int.natCast_nonneg _)]
    rfl
  · exact ⟨hoffsets, rfl, fun _ => rfl⟩

/-- As long as no counter wraps around, they are the lengths of the rows. -/
theorem toNodeID_degreeOf (hdegree : ∀ v, degreeOf symmetrize false transpose el v < 2 ^ 31) (v : Fin n) :
    toNodeID (degreeOf symmetrize false transpose el v) =
      (rowDegree (fun i : Fin el.length => entries symmetrize transpose (el.get i)) v : Nat) := by
  rw [rowDegree_entries, toNodeID_eq (hdegree v)]

/-- Every row ends up with the values the edge list has for it, in some order, and every slot of the
neighbour array is written exactly once. -/
theorem makeCSR_solo {T : Nat} [NeZero T] (hn : n + 1 < 2 ^ 31)
    (hdegree : ∀ v, degreeOf symmetrize false transpose el v < 2 ^ 31) (mem : CsrMem n D) :
    Solo (makeCSR T symmetrize el transpose) mem fun c mem' =>
      (∀ v, (c.neigh v).Perm (incident symmetrize transpose el v)) ∧
        ∀ k < mem'.neighs.length, mem'.writes k = 1 := by
  apply Solo.bind
  apply (allocateRows_solo (toNodeID_degreeOf hdegree) mem).mono
  rintro _ mem ⟨hoffsets, hneighs, hwrites⟩
  apply Solo.load_bind
  apply Solo.bind
  apply (Solo.zoom (genIndex_solo hn _ _)).mono
  rintro _ mem' ⟨hindex, hmem'⟩
  apply Solo.bind
  simp only [scatterEdge_eq]
  apply (scatterLoop_solo (fun i => (congrFun hindex i).trans (hoffsets i)) ?_ ?_ ?_).mono
  · rintro _ mem ⟨logs, h⟩
    apply Solo.loadAt (a := Csr.ofRows logs)
    · have hindex : mem.index = fun i : Fin (n + 1) => ((Csr.rowOffset logs i : Nat) : Int) :=
        funext h.index
      rw [hindex]
      exact Csr.values_bind_ofPointers h.length h.rows
    refine ⟨fun v => ?_, fun k hk => h.writes k (h.length ▸ hk)⟩
    rw [Csr.neigh_ofRows, ← Multiset.coe_eq_coe, h.contents]
    exact rowOf_entries v
  · rw [hmem']
    exact (congrArg List.length hneighs).trans List.length_replicate
  · intro v
    rw [hmem']
    exact hoffsets _
  · rw [hmem']
    exact hwrites

/-- Counters that wrap around may add up to a negative size, and then the allocation throws. -/
theorem makeCSR_canFail_of_neg {T : Nat} [NeZero T]
    (hneg : ∑ v, toNodeID (degreeOf symmetrize false transpose el v) < 0) (mem : CsrMem n D) :
    (makeCSR T symmetrize el transpose).CanFail mem := by
  apply Prog.CanFail.bind
  apply (Solo.zoom (countDegrees_solo _)).correct.canFail_bind
  rintro _ mem ⟨hdegrees, -⟩
  have hload : Solo (.load fun m : CsrMem n D => m.degrees) mem
      fun degrees _ => degrees = mem.degrees := Solo.op rfl rfl
  apply hload.correct.canFail_bind
  rintro _ _ rfl
  apply (Solo.zoom (parallelPrefixSum_solo (by decide) _)).correct.canFail_bind
  rintro _ mem' ⟨hsums, -⟩
  have htotal : mem'.sums.offsets (Fin.last n) < 0 := by
    have hlast : mem'.sums.offsets (Fin.last n) = offset mem.degrees n := hsums (Fin.last n)
    have hsum : offset mem.degrees n = ∑ v, mem.degrees v := by simp [offset]
    calc mem'.sums.offsets (Fin.last n) = ∑ v, mem.degrees v := hlast.trans hsum
      _ = ∑ v, toNodeID (degreeOf symmetrize false transpose el v) :=
        Finset.sum_congr rfl fun v _ => hdegrees v
      _ < 0 := hneg
  refine ⟨_, mem', .refl, ?_⟩
  show Option.map _ (Option.map _ (newArray _)) = none
  rw [newArray, if_neg (not_le.mpr htotal)]
  rfl

/-- With `2 ^ 31 - 1` vertices the length of the index does not fit a `NodeID_`. -/
theorem makeCSR_canFail {T : Nat} [NeZero T] (hn : n + 1 = 2 ^ 31)
    (hdegree : ∀ v, degreeOf symmetrize false transpose el v < 2 ^ 31) (mem : CsrMem n D) :
    (makeCSR T symmetrize el transpose).CanFail mem := by
  apply (allocateRows_solo (toNodeID_degreeOf hdegree) mem).correct.canFail_bind
  intro _ mem _
  apply (Solo.op (Q := fun _ _ => True) rfl trivial).correct.canFail_bind
  intro offsets mem _
  apply Prog.CanFail.bind
  apply Prog.CanFail.zoom
  rw [genIndex, if_neg]
  · exact Prog.canFail_fail _
  · rw [show (n : Int) + 1 = 2 ^ 31 by exact_mod_cast hn, toNodeID]
    decide

end

end Gapbs
