import Gapbs.Lib.BinarySearch
import Gapbs.Builder.InPlace

/-!
# Adding missing inverse edges in place

The second half of `MakeCSRInPlace` of `builder.h`, which makes a graph symmetric inside the buffer
of its rows: it counts the inverses that are missing, spreads the rows out to make room for them and
inserts them in front of the rows.
-/

namespace Gapbs

open Function RawArray Csr

variable {n : Nat}

/-- Read a range of words. -/
def readRange (buf : List (Option (Fin n))) (lo hi : Int) : Option (List (Fin n)) :=
  if 0 ≤ lo ∧ lo ≤ hi ∧ hi.toNat ≤ buf.length then values (slice buf lo.toNat hi.toNat) else none

open VertexFacts in
/-- `std::binary_search`, which is undefined on a range that is not partitioned by the key. -/
def binarySearch (key : Fin n) (xs : List (Fin n)) : Option Bool :=
  if xs.Pairwise fun a b => (b < key → a < key) ∧ (b ≤ key → a ≤ key) then some (decide (key ∈ xs))
  else none

/-! ## The program -/

/-- Step 1 for neighbour number `j` of `u`. -/
def countInverse (s : RowArrays n) (u : Fin n) (j : Nat) (invsNeeded : Fin n → Int) :
    Option (Fin n → Int) := do
  let v ← readWord s.neighs (s.offsets u.castSucc + j)
  let found ← (readRange s.neighs (s.offsets v.castSucc) (s.offsets v.succ)).bind (binarySearch u)
  return if found then invsNeeded else update invsNeeded v (invsNeeded v + 1)

/-- Step 1 - count number of needed inverses -/
def countInverses (s : RowArrays n) : Option (Fin n → Int) :=
  Loop.overFin (fun u =>
    Loop.upTo (countInverse s u) (s.offsets u.succ - s.offsets u.castSucc).toNat) fun _ => 0

/-- Increase one offset to account for the missing inverses of the vertices before. -/
def raiseOffset (invsNeeded : Fin n → Int) (u : Fin n) (s : (Fin (n + 1) → Int) × Int) :
    Option ((Fin (n + 1) → Int) × Int) :=
  some (update s.1 u.castSucc (s.1 u.castSucc + s.2), s.2 + invsNeeded u)

/-- Increase offsets to account for missing inverses, realloc `neighs`. -/
def makeRoom (s : RowArrays n) (invsNeeded : Fin n → Int) : Option (RowArrays n × Int) := do
  let (offsets, totalMissingInv) ← Loop.overFin (raiseOffset invsNeeded) (s.offsets, 0)
  let offsets := update offsets (Fin.last n) (offsets (Fin.last n) + totalMissingInv)
  let neighs ← realloc s.neighs (offsets (Fin.last n))
  return (⟨offsets, neighs⟩, totalMissingInv)

/-- The variables of Step 2. -/
structure SpreadState (n : Nat) where
  neighs : List (Option (Fin n))
  tailIndex : Int
  totalMissingInv : Int

/-- `(*neighs)[tail_index] = (*neighs)[i - total_missing_inv]` for `i = new_start + j` -/
def moveNeighbor (newStart : Int) (j : Nat) (s : SpreadState n) : Option (SpreadState n) := do
  let v ← readWord s.neighs (newStart + j - s.totalMissingInv)
  let neighs ← writeWord s.neighs s.tailIndex v
  return { s with neighs, tailIndex := s.tailIndex - 1 }

/-- Step 2 for one vertex. -/
def spreadRow (offsets : Fin (n + 1) → Int) (invsNeeded : Fin n → Int) (u : Fin n)
    (s : SpreadState n) : Option (SpreadState n) := do
  let newStart := offsets u.castSucc + invsNeeded u
  let s ← Loop.downFrom (moveNeighbor newStart) (offsets u.succ - newStart).toNat s
  return { s with
    totalMissingInv := s.totalMissingInv - invsNeeded u, tailIndex := s.tailIndex - invsNeeded u }

/-- Step 2 - spread out existing neighs to make room for inverses -/
def spreadRows (s : RowArrays n) (invsNeeded : Fin n → Int) (totalMissingInv : Int) :
    Option (List (Option (Fin n))) := do
  let s ← Loop.overFinDown (spreadRow s.offsets invsNeeded)
    ⟨s.neighs, s.offsets (Fin.last n) - 1, totalMissingInv⟩
  return s.neighs

/-- The variables of Step 3. -/
structure InsertState (n : Nat) where
  neighs : List (Option (Fin n))
  invsNeeded : Fin n → Int

/-- Steps 1 and 2, with what Step 3 starts from. -/
def spreadOut (s : RowArrays n) : Option ((Fin (n + 1) → Int) × InsertState n) := do
  let invsNeeded ← countInverses s
  let (s, totalMissingInv) ← makeRoom s invsNeeded
  let neighs ← spreadRows s invsNeeded totalMissingInv
  return (s.offsets, ⟨neighs, invsNeeded⟩)

/-- Step 3 for `i = start + j`. -/
def addInverse (offsets : Fin (n + 1) → Int) (u : Fin n) (start : Int) (j : Nat)
    (s : InsertState n) : Option (InsertState n) := do
  let v ← readWord s.neighs (start + j)
  let found ← (readRange s.neighs (offsets v.castSucc + s.invsNeeded v) (offsets v.succ)).bind
    (binarySearch u)
  if found then return s
  else
    let neighs ← writeWord s.neighs (offsets v.castSucc + s.invsNeeded v - 1) u
    return ⟨neighs, update s.invsNeeded v (s.invsNeeded v - 1)⟩

/-- Step 3 for one vertex. -/
def addInversesOf (offsets : Fin (n + 1) → Int) (u : Fin n) (s : InsertState n) :
    Option (InsertState n) :=
  let start := offsets u.castSucc + s.invsNeeded u
  Loop.upTo (addInverse offsets u start) (offsets u.succ - start).toNat s

/-- Step 3 - add missing inverse edges into free spaces from Step 2 -/
def addInverses (offsets : Fin (n + 1) → Int) (s : InsertState n) : Option (InsertState n) :=
  Loop.overFin (addInversesOf offsets) s

/-- `std::sort(*neighs + offsets[n], *neighs + offsets[n+1])` -/
def sortRow (offsets : Fin (n + 1) → Int) (u : Fin n) (neighs : List (Option (Fin n))) :
    Option (List (Option (Fin n))) :=
  if 0 ≤ offsets u.castSucc ∧ 0 ≤ offsets u.succ then
    sortRange (fun a b => decide (a ≤ b)) (offsets u.castSucc).toNat (offsets u.succ).toNat neighs
  else none

/-- Make the rows symmetric. -/
def addMissingInverses (s : RowArrays n) : Option (RowArrays n) := do
  let (offsets, s) ← spreadOut s
  let t ← addInverses offsets s
  let neighs ← Loop.overFin (sortRow offsets) t.neighs
  return ⟨offsets, neighs⟩

/-! ## Reading and searching ranges -/

theorem readRange_eq {buf : List (Option (Fin n))} {lo hi : Nat} {xs : List (Fin n)} (hlo : lo ≤ hi)
    (hhi : hi ≤ buf.length) (h : slice buf lo hi = xs.map some) :
    readRange buf lo hi = some xs := by
  rw [readRange, if_pos ⟨Int.natCast_nonneg _, by omega, by simpa using hhi⟩, Int.toNat_natCast,
    Int.toNat_natCast, h, values_map_some]

/-- Within its precondition the search is the halving search. -/
theorem binarySearch_eq_search {key : Fin n} {xs : List (Fin n)} (h : BinarySearch.Partitioned key xs) :
    binarySearch key xs = some (BinarySearch.search key xs) := by
  rw [binarySearch, BinarySearch.search_eq h]
  exact if_pos h

/-- Elements below the key may stand in front of a sorted list. -/
theorem binarySearch_eq {key : Fin n} {front xs : List (Fin n)} (hfront : ∀ a ∈ front, a < key)
    (hxs : xs.Pairwise (· < ·)) : binarySearch key (front ++ xs) = some (decide (key ∈ xs)) := by
  have hpartition := BinarySearch.partitioned_append hfront hxs
  rw [binarySearch_eq_search hpartition, BinarySearch.search_eq hpartition, Option.some_inj,
    decide_eq_decide, List.mem_append]
  exact or_iff_right fun hmem => lt_irrefl key (hfront key hmem)

/-! ## The missing inverses -/

section

variable (out : Fin n → List (Fin n))

/-- The edge from `w` to `v` has no inverse. -/
abbrev Missing (w v : Fin n) : Prop := v ∈ out w ∧ w ∉ out v

open VertexFacts in
/-- The vertices whose edges to `v` have no inverse. -/
def missing (v : Fin n) : List (Fin n) := sourcesBelow (Missing out) n v

variable {out}

/-- No inverse is missing twice, nor stands in the row already. -/
theorem missing_append_nodup (hsorted : ∀ u, (out u).Pairwise (· < ·)) (k : Nat) (v : Fin n) :
    ((sourcesBelow (Missing out) k v).reverse ++ out v).Nodup := by
  apply List.Nodup.append
  · exact List.nodup_reverse.mpr ((sourcesBelow_sorted k v).imp fun hab => hab.ne)
  · exact (hsorted v).imp fun hab => hab.ne
  · intro w hw hout
    exact (mem_sourcesBelow.mp (List.mem_reverse.mp hw)).2.2 hout

end

/-! ## Step 1 -/

section Count

variable {out : Fin n → List (Fin n)} {s : RowArrays n}

/-- The search looks the source of the edge up in the row of its target. -/
theorem countInverse_eq (hs : RowsInOrder out s) (hsorted : ∀ u, (out u).Pairwise (· < ·)) {u : Fin n}
    {j : Nat} (hj : j < (out u).length) (invs : Fin n → Int) :
    countInverse s u j invs = some (if u ∈ out (out u)[j] then invs
      else update invs (out u)[j] (invs (out u)[j] + 1)) := by
  have hrow (v : Fin n) :
      readRange s.neighs (s.offsets v.castSucc) (s.offsets v.succ) = some (out v) := by
    rw [hs.offsets, hs.offsets]
    apply readRange_eq (rowOffset_mono out (Nat.le_succ _)) _ (hs.slice_eq v)
    exact (rowOffset_mono out (show v.val + 1 ≤ n from v.isLt)).trans hs.bound
  have hsearch (v : Fin n) : binarySearch u (out v) = some (decide (u ∈ out v)) :=
    @binarySearch_eq n u [] (out v) (by simp) (hsorted v)
  rw [countInverse, hs.readWord_eq hj]
  simp only [Option.bind_eq_bind, Option.bind_some]
  rw [hrow]
  simp only [Option.bind_some]
  rw [hsearch]
  simp

theorem countInverses_eq (hs : RowsInOrder out s) (hsorted : ∀ u, (out u).Pairwise (· < ·)) :
    countInverses s = some fun v => ((missing out v).length : Int) := by
  -- the neighbours of the vertices below `k` have been looked up
  let Counted (k : Nat) (invs : Fin n → Int) : Prop := ∀ v, invs v = (sourcesBelow (Missing out) k v).length
  have hstart : Counted 0 fun _ => 0 := fun v => by rw [sourcesBelow_zero]; rfl
  have hstep (u : Fin n) (invs : Fin n → Int) (hinvs : Counted u invs) : ∃ next,
      Loop.upTo (countInverse s u) (s.offsets u.succ - s.offsets u.castSucc).toNat invs = some next ∧
        Counted (u + 1) next := by
    let Inner (j : Nat) (cur : Fin n → Int) : Prop :=
      ∀ v, cur v = (sourcesSeen (Missing out) u ((out u).take j) v).length
    have hinner : Inner 0 invs := fun v => by simp [hinvs v]
    have hnext (j : Nat) (cur : Fin n → Int) (hj : j < (out u).length) (hcur : Inner j cur) :
        ∃ t, countInverse s u j cur = some t ∧ Inner (j + 1) t := by
      refine ⟨_, countInverse_eq hs hsorted hj cur, fun v => ?_⟩
      have hfresh := getElem_not_mem_take ((hsorted u).imp fun hab => hab.ne) hj
      rw [List.take_succ_eq_append_getElem hj, sourcesSeen_snoc hfresh]
      by_cases hfound : u ∈ out (out u)[j]
      · rw [if_pos hfound, if_neg fun h => h.2 hfound, hcur v]
      · rw [if_neg hfound, if_pos ⟨List.getElem_mem hj, hfound⟩]
        by_cases hv : v = (out u)[j]
        · subst hv
          rw [update_self, update_self, hcur, List.length_append]
          rfl
        · rw [update_of_ne hv, update_of_ne hv, hcur v]
    rw [hs.length_eq]
    obtain ⟨next, hloop, hall⟩ := Loop.upTo_invariant Inner hinner hnext
    refine ⟨next, hloop, fun v => ?_⟩
    rw [hall v, List.take_length, sourcesSeen_all fun _ h => h.1]
  obtain ⟨invs, hloop, hinvs⟩ := Loop.overFin_invariant Counted hstart hstep
  rw [countInverses, hloop, Option.some_inj]
  exact funext hinvs

end Count

/-! ## Making room -/

section Room

variable (out : Fin n → List (Fin n))

/-- A row of the symmetric graph, before it is sorted. -/
def fullRow (v : Fin n) : List (Fin n) := (missing out v).reverse ++ out v

variable {out}

theorem rowOffset_fullRow (out : Fin n → List (Fin n)) (k : Nat) :
    rowOffset (fullRow out) k = rowOffset (missing out) k + rowOffset out k := by
  simp only [rowOffset, offset, fullRow, List.length_append, List.length_reverse,
    Finset.sum_add_distrib]

/-- The first offsets have been raised. -/
theorem raiseOffsets_eq {offsets : Fin (n + 1) → Int}
    (hoffsets : ∀ i, offsets i = (rowOffset out i : Nat)) :
    ∃ raised : Fin (n + 1) → Int,
      Loop.overFin (raiseOffset fun v => ((missing out v).length : Int)) (offsets, 0) =
        some (raised, ((rowOffset (missing out) n : Nat) : Int)) ∧
      (∀ v : Fin n, raised v.castSucc = (rowOffset (fullRow out) v : Nat)) ∧
      raised (Fin.last n) = (rowOffset out n : Nat) := by
  -- the offsets below `k` are raised, by the inverses of the rows in front, and the others are the old ones
  let Raised (k : Nat) (s : (Fin (n + 1) → Int) × Int) : Prop :=
    s.2 = (rowOffset (missing out) k : Nat) ∧
      (∀ v : Fin n, v.val < k → s.1 v.castSucc = (rowOffset (fullRow out) v : Nat)) ∧
      ∀ i : Fin (n + 1), k ≤ i.val → s.1 i = (rowOffset out i : Nat)
  have hstart : Raised 0 (offsets, 0) :=
    ⟨by simp [rowOffset], fun _ h => absurd h (Nat.not_lt_zero _), fun i _ => hoffsets i⟩
  have hstep (u : Fin n) (s : (Fin (n + 1) → Int) × Int) (hs : Raised u s) :
      ∃ t, raiseOffset (fun v => ((missing out v).length : Int)) u s = some t ∧ Raised (u + 1) t := by
    obtain ⟨htotal, hbelow, habove⟩ := hs
    refine ⟨_, rfl, ?_, fun v hv => ?_, fun i hi => ?_⟩
    · rw [htotal, rowOffset_succ]
      push_cast
      rfl
    · by_cases hvu : v = u
      · subst hvu
        show update s.1 v.castSucc _ v.castSucc = _
        rw [update_self, htotal, habove _ (by simp), rowOffset_fullRow, Fin.val_castSucc]
        omega
      · have hne : v.castSucc ≠ u.castSucc := fun heq => hvu (Fin.castSucc_injective _ heq)
        show update s.1 u.castSucc _ v.castSucc = _
        rw [update_of_ne hne, hbelow v]
        have hne' : v.val ≠ u.val := fun heq => hvu (Fin.ext heq)
        omega
    · have hne : i ≠ u.castSucc := fun heq => by simp [heq] at hi
      show update s.1 u.castSucc _ i = _
      rw [update_of_ne hne, habove i (by omega)]
  obtain ⟨⟨raised, total⟩, hloop, htotal, hbelow, habove⟩ :=
    Loop.overFin_invariant Raised hstart hstep
  refine ⟨raised, ?_, fun v => hbelow v v.isLt, habove _ (by simp)⟩
  rw [hloop, ← htotal]

theorem makeRoom_eq {s : RowArrays n} (hs : RowsInOrder out s) (hpos : 0 < rowOffset out n) :
    ∃ t : RowArrays n, makeRoom s (fun v => ((missing out v).length : Int)) =
        some (t, ((rowOffset (missing out) n : Nat) : Int)) ∧
      (∀ i, t.offsets i = (rowOffset (fullRow out) i : Nat)) ∧
      t.neighs.length = rowOffset (fullRow out) n ∧
      ∀ k, k < rowOffset out n → t.neighs[k]? = s.neighs[k]? := by
  obtain ⟨raised, hraise, hbelow, hlast⟩ := raiseOffsets_eq hs.offsets
  have htotal := rowOffset_fullRow out n
  have hsize : raised (Fin.last n) + (rowOffset (missing out) n : Nat) =
      (rowOffset (fullRow out) n : Nat) := by
    rw [hlast, htotal]
    omega
  have hbound := hs.bound
  refine ⟨⟨update raised (Fin.last n) (rowOffset (fullRow out) n : Nat),
    s.neighs.take (rowOffset (fullRow out) n) ++
      List.replicate (rowOffset (fullRow out) n - s.neighs.length) none⟩, ?_, fun i => ?_, ?_,
    fun k hk => ?_⟩
  · rw [makeRoom, hraise]
    simp only [Option.bind_eq_bind, Option.bind_some]
    rw [hsize, update_self, realloc, if_pos (by omega), Int.toNat_natCast]
    rfl
  · induction i using Fin.lastCases with
    | last => exact update_self ..
    | cast v =>
      show update raised (Fin.last n) _ v.castSucc = _
      rw [update_of_ne (Fin.castSucc_lt_last v).ne, hbelow v]
      rfl
  · rw [List.length_append, List.length_take, List.length_replicate]
    omega
  · rw [List.getElem?_append_left, List.getElem?_take, if_pos (by omega)]
    rw [List.length_take]
    omega

end Room

/-! ## Step 2 -/

section Spread

variable (out : Fin n → List (Fin n))

/-- The first `p` words are still in their old places, the others in the new ones. -/
structure Spread (p : Nat) (neighs : List (Option (Fin n))) : Prop where
  length : neighs.length = rowOffset (fullRow out) n
  old : ∀ (v : Fin n) (j : Nat) (hj : j < (out v).length), rowOffset out v + j < p →
    neighs[rowOffset out v + j]? = some (some (out v)[j])
  new : ∀ (v : Fin n) (j : Nat) (hj : j < (out v).length), p ≤ rowOffset out v + j →
    neighs[rowOffset (missing out) (v.val + 1) + rowOffset out v + j]? = some (some (out v)[j])

variable {out}

/-- In the larger buffer all rows are still in their old places. -/
theorem spread_of_makeRoom {s : RowArrays n} (hs : RowsInOrder out s) {neighs : List (Option (Fin n))}
    (hlength : neighs.length = rowOffset (fullRow out) n)
    (hkept : ∀ k, k < rowOffset out n → neighs[k]? = s.neighs[k]?) :
    Spread out (rowOffset out n) neighs := by
  refine ⟨hlength, fun v j hj hlt => ?_, fun v j hj hle => ?_⟩
  · rw [hkept _ hlt, hs.rows v j hj]
  · have hsucc := rowOffset_succ out v
    have hlast := rowOffset_mono out (show v.val + 1 ≤ n from v.isLt)
    omega

/-- A word is moved up, over words that have been moved before. -/
theorem Spread.move {u : Fin n} {j : Nat} (hj : j < (out u).length) {neighs : List (Option (Fin n))}
    (h : Spread out (rowOffset out u + j + 1) neighs) :
    Spread out (rowOffset out u + j) (neighs.set
      (rowOffset (missing out) (u.val + 1) + rowOffset out u + j) (some (out u)[j])) := by
  have hsucc := rowOffset_succ out u
  have hlast := rowOffset_mono out (show u.val + 1 ≤ n from u.isLt)
  have hroom := rowOffset_mono (missing out) (show u.val + 1 ≤ n from u.isLt)
  have hfits : rowOffset (missing out) (u.val + 1) + rowOffset out u + j < neighs.length := by
    rw [h.length, rowOffset_fullRow]
    omega
  refine ⟨(List.length_set ..).trans h.length, fun v i hi hlt => ?_, fun v i hi hle => ?_⟩
  · rw [List.getElem?_set_ne (by omega), h.old v i hi (by omega)]
  · by_cases heq : rowOffset out v + i = rowOffset out u + j
    · have hvu : v = u := by
        by_contra hne
        have hsuccv := rowOffset_succ out v
        rcases rowOffset_apart out hne with hapart | hapart <;> omega
      subst hvu
      obtain rfl : i = j := by omega
      exact List.getElem?_set_self hfits
    · -- a later word, hence one that moves at least as far
      have huv : u ≤ v := by
        by_contra hlt
        have hmono := rowOffset_mono out (show v.val + 1 ≤ u.val by omega)
        have hsuccv := rowOffset_succ out v
        omega
      have hmono := rowOffset_mono (missing out) (show u.val + 1 ≤ v.val + 1 by omega)
      rw [List.getElem?_set_ne (by omega), h.new v i hi (by omega)]

theorem moveNeighbor_eq {u : Fin n} {j : Nat} (hj : j < (out u).length) {newStart : Int}
    (hstart : newStart = (rowOffset (missing out) (u.val + 1) + rowOffset out u : Nat))
    {s : SpreadState n} (htail : s.tailIndex = newStart + j)
    (htotal : s.totalMissingInv = (rowOffset (missing out) (u.val + 1) : Nat))
    (hspread : Spread out (rowOffset out u + j + 1) s.neighs) :
    ∃ t, moveNeighbor newStart j s = some t ∧ t.tailIndex = newStart + j - 1 ∧
      t.totalMissingInv = s.totalMissingInv ∧ Spread out (rowOffset out u + j) t.neighs := by
  have hread : readWord s.neighs (newStart + j - s.totalMissingInv) = some (out u)[j] := by
    have hindex : newStart + j - s.totalMissingInv = (rowOffset out u + j : Nat) := by
      rw [hstart, htotal]
      omega
    rw [hindex]
    exact readWord_eq (hspread.old u j hj (Nat.lt_succ_self _))
  have hmoved := hspread.move hj
  have hfits : rowOffset (missing out) (u.val + 1) + rowOffset out u + j < s.neighs.length := by
    obtain ⟨hlt, -⟩ := List.getElem?_eq_some_iff.mp (hmoved.new u j hj (le_refl _))
    simpa using hlt
  have htail' : s.tailIndex = (rowOffset (missing out) (u.val + 1) + rowOffset out u + j : Nat) := by
    rw [htail, hstart]
    push_cast
    rfl
  refine ⟨⟨_, s.tailIndex - 1, s.totalMissingInv⟩, ?_, by rw [htail], rfl, hmoved⟩
  rw [moveNeighbor, hread]
  simp only [Option.bind_eq_bind, Option.bind_some]
  rw [htail', writeWord_eq hfits]
  rfl

theorem spreadRow_eq {offsets : Fin (n + 1) → Int}
    (hoffsets : ∀ i, offsets i = (rowOffset (fullRow out) i : Nat)) (u : Fin n) {s : SpreadState n}
    (htail : s.tailIndex = (rowOffset (fullRow out) (u.val + 1) : Nat) - 1)
    (htotal : s.totalMissingInv = (rowOffset (missing out) (u.val + 1) : Nat))
    (hspread : Spread out (rowOffset out (u.val + 1)) s.neighs) :
    ∃ t, spreadRow offsets (fun v => ((missing out v).length : Int)) u s = some t ∧
      t.tailIndex = (rowOffset (fullRow out) u : Nat) - 1 ∧
      t.totalMissingInv = (rowOffset (missing out) u : Nat) ∧
      Spread out (rowOffset out u) t.neighs := by
  have hout := rowOffset_succ out u
  have hmissing := rowOffset_succ (missing out) u
  have hfull := rowOffset_fullRow out u
  have hfullSucc := rowOffset_fullRow out (u.val + 1)
  have hstart : offsets u.castSucc + ((missing out u).length : Int) =
      (rowOffset (missing out) (u.val + 1) + rowOffset out u : Nat) := by
    rw [hoffsets, Fin.val_castSucc]
    push_cast
    omega
  generalize hnew : offsets u.castSucc + ((missing out u).length : Int) = newStart at hstart
  have hcount : (offsets u.succ - newStart).toNat = (out u).length := by
    rw [hoffsets, Fin.val_succ, hstart]
    omega
  -- the row is moved from its end, so that no neighbour is overwritten before it is moved
  let Moved (j : Nat) (s : SpreadState n) : Prop := s.tailIndex = newStart + j - 1 ∧
    s.totalMissingInv = (rowOffset (missing out) (u.val + 1) : Nat) ∧
    Spread out (rowOffset out u + j) s.neighs
  have hmoved : Moved (out u).length s := by
    refine ⟨?_, htotal, by rwa [← hout]⟩
    rw [htail, hstart]
    omega
  have hstep (j : Nat) (s : SpreadState n) (hj : j < (out u).length) (hs : Moved (j + 1) s) :
      ∃ t, moveNeighbor newStart j s = some t ∧ Moved j t := by
    obtain ⟨htail, htotal, hspread⟩ := hs
    obtain ⟨t, ht, htail', htotal', hspread'⟩ :=
      moveNeighbor_eq hj hstart (by rw [htail]; omega) htotal hspread
    exact ⟨t, ht, htail', htotal'.trans htotal, hspread'⟩
  obtain ⟨t, hloop, htail', htotal', hspread'⟩ := Loop.downFrom_invariant Moved hmoved hstep
  refine ⟨⟨t.neighs, t.tailIndex - (missing out u).length,
    t.totalMissingInv - (missing out u).length⟩, ?_, ?_, ?_, hspread'⟩
  · rw [spreadRow, hnew, hcount, hloop]
    rfl
  · show t.tailIndex - ((missing out u).length : Int) = _
    rw [htail', hstart]
    push_cast
    omega
  · show t.totalMissingInv - ((missing out u).length : Int) = _
    rw [htotal']
    omega

theorem spreadRows_eq {s : RowArrays n}
    (hoffsets : ∀ i, s.offsets i = (rowOffset (fullRow out) i : Nat))
    (hspread : Spread out (rowOffset out n) s.neighs) :
    ∃ neighs, spreadRows s (fun v => ((missing out v).length : Int)) (rowOffset (missing out) n : Nat) =
      some neighs ∧ Spread out 0 neighs := by
  let Moved (k : Nat) (s : SpreadState n) : Prop :=
    s.tailIndex = (rowOffset (fullRow out) k : Nat) - 1 ∧
      s.totalMissingInv = (rowOffset (missing out) k : Nat) ∧ Spread out (rowOffset out k) s.neighs
  have hmoved : Moved n ⟨s.neighs, s.offsets (Fin.last n) - 1, (rowOffset (missing out) n : Nat)⟩ :=
    ⟨by rw [hoffsets, Fin.val_last], rfl, hspread⟩
  obtain ⟨t, hloop, -, -, hspread'⟩ := Loop.overFinDown_invariant Moved hmoved
    fun u s ⟨htail, htotal, hspread⟩ => spreadRow_eq hoffsets u htail htotal hspread
  refine ⟨t.neighs, ?_, ?_⟩
  · rw [spreadRows, hloop]
    rfl
  · simpa [rowOffset] using hspread'

end Spread

/-! ## Step 3 -/

section Insert

variable (out : Fin n → List (Fin n))

/-- Behind the free words of every row stand the inverses found so far, the latest first, and then
the row itself. -/
structure Filled (found : Fin n → List (Fin n)) (s : InsertState n) : Prop where
  length : s.neighs.length = rowOffset (fullRow out) n
  free : ∀ v, s.invsNeeded v = (missing out v).length - (found v).length
  found_le : ∀ v, (found v).length ≤ (missing out v).length
  rows : ∀ v : Fin n, slice s.neighs
    (rowOffset (fullRow out) v + ((missing out v).length - (found v).length))
    (rowOffset (fullRow out) (v.val + 1)) = ((found v).reverse ++ out v).map some

variable {out}

theorem rowOffset_fullRow_succ (out : Fin n → List (Fin n)) (v : Fin n) : rowOffset (fullRow out) (v.val + 1) =
    rowOffset (fullRow out) v + (missing out v).length + (out v).length := by
  rw [rowOffset_succ, fullRow, List.length_append, List.length_reverse, Nat.add_assoc]

theorem Filled.start {found : Fin n → List (Fin n)} {s : InsertState n} (h : Filled out found s)
    {offsets : Fin (n + 1) → Int} (hoffsets : ∀ i, offsets i = (rowOffset (fullRow out) i : Nat))
    (v : Fin n) : offsets v.castSucc + s.invsNeeded v =
      (rowOffset (fullRow out) v + ((missing out v).length - (found v).length) : Nat) := by
  have hle := h.found_le v
  rw [hoffsets, h.free, Fin.val_castSucc]
  omega

/-- A missing inverse is put in front of the row of its source. -/
theorem Filled.insert {found : Fin n → List (Fin n)} {s : InsertState n} (h : Filled out found s)
    {u v : Fin n} (hroom : (found v).length < (missing out v).length) :
    Filled out (update found v (found v ++ [u])) ⟨s.neighs.set
      (rowOffset (fullRow out) v + ((missing out v).length - (found v).length) - 1) (some u),
      update s.invsNeeded v (s.invsNeeded v - 1)⟩ := by
  have hsucc := rowOffset_fullRow_succ out v
  have hlast := rowOffset_mono (fullRow out) (show v.val + 1 ≤ n from v.isLt)
  refine ⟨(List.length_set ..).trans h.length, fun w => ?_, fun w => ?_, fun w => ?_⟩
  · by_cases hw : w = v
    · subst hw
      show update s.invsNeeded w _ w = _
      rw [update_self, update_self, h.free, List.length_append, List.length_singleton]
      omega
    · show update s.invsNeeded v _ w = _
      rw [update_of_ne hw, update_of_ne hw, h.free]
  · by_cases hw : w = v
    · subst hw
      rw [update_self, List.length_append]
      exact hroom
    · rw [update_of_ne hw]
      exact h.found_le w
  · by_cases hw : w = v
    · subst hw
      -- the new inverse stands in front of those before it
      rw [update_self, List.length_append, List.length_singleton, List.reverse_append,
        List.reverse_singleton, List.singleton_append, List.cons_append, List.map_cons, ← h.rows w]
      have hlo : rowOffset (fullRow out) w + ((missing out w).length - (found w).length) =
          rowOffset (fullRow out) w + ((missing out w).length - ((found w).length + 1)) + 1 := by omega
      rw [hlo, Nat.add_sub_cancel]
      apply slice_set_pred
      · omega
      · rw [h.length]
        omega
    · rw [update_of_ne hw, ← h.rows w]
      apply slice_congr
      intro k hlo hhi
      apply List.getElem?_set_ne
      have hsuccw := rowOffset_fullRow_succ out w
      rcases rowOffset_apart (fullRow out) hw with hapart | hapart <;> omega

theorem Filled.readRange_eq {found : Fin n → List (Fin n)} {s : InsertState n} (h : Filled out found s)
    {offsets : Fin (n + 1) → Int} (hoffsets : ∀ i, offsets i = (rowOffset (fullRow out) i : Nat))
    (v : Fin n) : readRange s.neighs (offsets v.castSucc + s.invsNeeded v) (offsets v.succ) =
      some ((found v).reverse ++ out v) := by
  have hsucc := rowOffset_fullRow_succ out v
  have hlast := rowOffset_mono (fullRow out) (show v.val + 1 ≤ n from v.isLt)
  rw [h.start hoffsets v, hoffsets, Fin.val_succ]
  apply Gapbs.readRange_eq (by omega) _ (h.rows v)
  rw [h.length]
  exact hlast

/-- The search looks `u` up among the inverses found so far, all of them below `u`, and the row. -/
theorem addInverse_eq {found : Fin n → List (Fin n)} {s : InsertState n} (h : Filled out found s)
    {offsets : Fin (n + 1) → Int} (hoffsets : ∀ i, offsets i = (rowOffset (fullRow out) i : Nat))
    (hsorted : ∀ u, (out u).Pairwise (· < ·)) {u v : Fin n} {start : Int} {j : Nat}
    (hread : readWord s.neighs (start + j) = some v) (hbelow : ∀ w ∈ found v, w < u)
    (hroom : u ∉ out v → (found v).length < (missing out v).length) :
    ∃ t, addInverse offsets u start j s = some t ∧
      Filled out (if u ∉ out v then update found v (found v ++ [u]) else found) t := by
  have hsucc := rowOffset_fullRow_succ out v
  have hlast := rowOffset_mono (fullRow out) (show v.val + 1 ≤ n from v.isLt)
  -- the inverses in front of the row are below `u`, so that the search is defined
  have hsearch : binarySearch u ((found v).reverse ++ out v) = some (decide (u ∈ out v)) :=
    binarySearch_eq (by simpa using hbelow) (hsorted v)
  have hstep : addInverse offsets u start j s = if u ∈ out v then some s else
      (writeWord s.neighs (offsets v.castSucc + s.invsNeeded v - 1) u).bind fun neighs =>
        some ⟨neighs, update s.invsNeeded v (s.invsNeeded v - 1)⟩ := by
    rw [addInverse, hread]
    simp only [Option.bind_eq_bind, Option.bind_some]
    rw [h.readRange_eq hoffsets v]
    simp only [Option.bind_some]
    rw [hsearch]
    simp
  rw [hstep]
  by_cases hfound : u ∈ out v
  · rw [if_pos hfound, if_neg (not_not_intro hfound)]
    exact ⟨s, rfl, h⟩
  · rw [if_neg hfound, if_pos hfound]
    have hfree := hroom hfound
    -- the last slot that is still free, which exists as `u` itself is missing
    have hindex : offsets v.castSucc + s.invsNeeded v - 1 =
        (rowOffset (fullRow out) v + ((missing out v).length - (found v).length) - 1 : Nat) := by
      rw [h.start hoffsets v]
      omega
    have hfits : rowOffset (fullRow out) v + ((missing out v).length - (found v).length) - 1 <
        s.neighs.length := by
      rw [h.length]
      omega
    rw [hindex, writeWord_eq hfits]
    exact ⟨_, rfl, h.insert hfree⟩

open VertexFacts in
/-- What stands in the row of `u` when its turn comes: the inverses found before, which are followed
as well, and the row. -/
def turnRow (out : Fin n → List (Fin n)) (u : Fin n) : List (Fin n) :=
  (sourcesBelow (Missing out) u u).reverse ++ out u

theorem Filled.length_turnRow {u : Fin n} {s : InsertState n}
    (h : Filled out (sourcesBelow (Missing out) u) s) {offsets : Fin (n + 1) → Int}
    (hoffsets : ∀ i, offsets i = (rowOffset (fullRow out) i : Nat)) :
    (offsets u.succ - (offsets u.castSucc + s.invsNeeded u)).toNat = (turnRow out u).length := by
  have hsucc := rowOffset_fullRow_succ out u
  have hle := h.found_le u
  rw [h.start hoffsets u, hoffsets, Fin.val_succ, turnRow, List.length_append, List.length_reverse]
  omega

/-- The row of `u` does not change during its turn. -/
theorem Filled.readWord_turnRow {u : Fin n} (hloop : u ∉ out u) {offsets : Fin (n + 1) → Int}
    (hoffsets : ∀ i, offsets i = (rowOffset (fullRow out) i : Nat)) {s t : InsertState n}
    (hs : Filled out (sourcesBelow (Missing out) u) s) {seen : List (Fin n)}
    (ht : Filled out (sourcesSeen (Missing out) u seen) t) {j : Nat} (hj : j < (turnRow out u).length) :
    readWord t.neighs (offsets u.castSucc + s.invsNeeded u + j) = some (turnRow out u)[j] := by
  have hsucc := rowOffset_fullRow_succ out u
  have hle := hs.found_le u
  have hsame : sourcesSeen (Missing out) u seen u = sourcesBelow (Missing out) u u := by
    rw [sourcesSeen, if_neg fun hu => hloop hu.2.1, List.append_nil]
  have hget := congrArg (fun l => l[j]?) (ht.rows u)
  rw [hsame, ← turnRow] at hget
  simp only [getElem?_slice] at hget
  rw [if_pos (by rw [turnRow, List.length_append, List.length_reverse] at hj; omega),
    List.getElem?_map, List.getElem?_eq_getElem hj] at hget
  rw [hs.start hoffsets u]
  exact_mod_cast readWord_eq hget

/-- Only edges of the row itself lack their inverses. -/
theorem mem_of_turnRow {u v : Fin n} (hv : v ∈ turnRow out u) (hu : u ∉ out v) : v ∈ out u := by
  rcases List.mem_append.mp hv with hrow | hrow
  · exact absurd (mem_sourcesBelow.mp (List.mem_reverse.mp hrow)).2.1 hu
  · exact hrow

theorem sourcesSeen_turnRow (u : Fin n) :
    sourcesSeen (Missing out) u (turnRow out u) = sourcesBelow (Missing out) (u.val + 1) :=
  sourcesSeen_all fun _ hv => List.mem_append_right _ hv.1

theorem turnRow_nodup (hsorted : ∀ u, (out u).Pairwise (· < ·)) (u : Fin n) : (turnRow out u).Nodup :=
  missing_append_nodup hsorted u u

/-- The turn of one neighbour. -/
theorem Filled.addInverse_turn {offsets : Fin (n + 1) → Int}
    (hoffsets : ∀ i, offsets i = (rowOffset (fullRow out) i : Nat))
    (hsorted : ∀ u, (out u).Pairwise (· < ·)) {u : Fin n} (hloop : u ∉ out u) {s t : InsertState n}
    (hs : Filled out (sourcesBelow (Missing out) u) s) {j : Nat} (hj : j < (turnRow out u).length)
    (ht : Filled out (sourcesSeen (Missing out) u ((turnRow out u).take j)) t) : ∃ t',
      addInverse offsets u (offsets u.castSucc + s.invsNeeded u) j t = some t' ∧
        Filled out (sourcesSeen (Missing out) u ((turnRow out u).take (j + 1))) t' := by
  have hfresh := getElem_not_mem_take (turnRow_nodup hsorted u) hj
  have hold : sourcesSeen (Missing out) u ((turnRow out u).take j) (turnRow out u)[j] =
      sourcesBelow (Missing out) u (turnRow out u)[j] := sourcesSeen_of_not_mem hfresh
  have htarget := mem_of_turnRow (List.getElem_mem hj)
  rw [List.take_succ_eq_append_getElem hj, sourcesSeen_snoc hfresh]
  simp only [and_iff_right_of_imp htarget]
  apply addInverse_eq ht hoffsets hsorted (hs.readWord_turnRow hloop hoffsets ht hj)
  · rw [hold]
    exact fun w hw => (mem_sourcesBelow.mp hw).1
  · rw [hold]
    exact fun hu => length_sourcesBelow_lt ⟨htarget hu, hu⟩

theorem addInversesOf_eq {offsets : Fin (n + 1) → Int}
    (hoffsets : ∀ i, offsets i = (rowOffset (fullRow out) i : Nat))
    (hsorted : ∀ u, (out u).Pairwise (· < ·)) (hloop : ∀ u, u ∉ out u) (u : Fin n)
    {s : InsertState n} (h : Filled out (sourcesBelow (Missing out) u) s) :
    ∃ t, addInversesOf offsets u s = some t ∧ Filled out (sourcesBelow (Missing out) (u.val + 1)) t := by
  obtain ⟨t, hrun, ht⟩ := Loop.upTo_invariant
    (fun j => Filled out (sourcesSeen (Missing out) u ((turnRow out u).take j)))
    (by rwa [List.take_zero, sourcesSeen_nil])
    fun j t hj ht => h.addInverse_turn hoffsets hsorted (hloop u) hj ht
  refine ⟨t, ?_, ?_⟩
  · rw [addInversesOf]
    simp only [h.length_turnRow hoffsets]
    exact hrun
  · rw [List.take_length] at ht
    rwa [sourcesSeen_turnRow] at ht

/-- The rows have been spread out, and no inverse has been added yet. -/
theorem Spread.filled {neighs : List (Option (Fin n))} (h : Spread out 0 neighs) :
    Filled out (sourcesBelow (Missing out) 0) ⟨neighs, fun v => ((missing out v).length : Int)⟩ := by
  refine ⟨h.length, fun v => ?_, fun v => ?_, fun v => ?_⟩
  · simp [sourcesBelow_zero]
  · simp [sourcesBelow_zero]
  · have hsucc := rowOffset_fullRow_succ out v
    have hfull := rowOffset_fullRow out v
    have hmissing := rowOffset_succ (missing out) v
    rw [sourcesBelow_zero]
    apply slice_eq_of_getElem?
    · simp only [List.reverse_nil, List.nil_append, List.length_map, List.length_nil]
      omega
    · intro j hj
      have hj' : j < (out v).length := by simpa using hj
      have hnew := h.new v j hj' (Nat.zero_le _)
      have hindex : rowOffset (fullRow out) v + (missing out v).length + j =
          rowOffset (missing out) (v.val + 1) + rowOffset out v + j := by omega
      simp only [List.length_nil, Nat.sub_zero, List.reverse_nil, List.nil_append, hindex, hnew]
      rw [List.getElem?_map, List.getElem?_eq_getElem hj']
      rfl

theorem addInverses_eq {offsets : Fin (n + 1) → Int}
    (hoffsets : ∀ i, offsets i = (rowOffset (fullRow out) i : Nat))
    (hsorted : ∀ u, (out u).Pairwise (· < ·)) (hloop : ∀ u, u ∉ out u)
    {neighs : List (Option (Fin n))} (h : Spread out 0 neighs) :
    ∃ t, addInverses offsets ⟨neighs, fun v => ((missing out v).length : Int)⟩ = some t ∧
      Filled out (missing out) t :=
  Loop.overFin_invariant (fun k => Filled out (sourcesBelow (Missing out) k)) h.filled
    fun u _ hs => addInversesOf_eq hoffsets hsorted hloop u hs

end Insert

/-! ## The symmetric rows -/

section Symmetric

variable (out : Fin n → List (Fin n))

/-- A row of the symmetric graph. -/
def symRow (v : Fin n) : List (Fin n) := (fullRow out v).mergeSort fun a b => decide (a ≤ b)

variable {out}

theorem mem_symRow {v w : Fin n} : w ∈ symRow out v ↔ w ∈ out v ∨ v ∈ out w := by
  have hlt := w.isLt
  rw [symRow, List.mem_mergeSort, fullRow, List.mem_append, List.mem_reverse, missing,
    mem_sourcesBelow]
  tauto

theorem symRow_sorted (hsorted : ∀ u, (out u).Pairwise (· < ·)) (v : Fin n) :
    (symRow out v).Pairwise (· < ·) := by
  exact sorted_mergeSort (missing_append_nodup hsorted n v)

theorem rowOffset_symRow (k : Nat) : rowOffset (symRow out) k = rowOffset (fullRow out) k := by
  simp only [rowOffset, symRow, List.length_mergeSort]

theorem sortRows_eq {offsets : Fin (n + 1) → Int}
    (hoffsets : ∀ i, offsets i = (rowOffset (fullRow out) i : Nat)) {neighs : List (Option (Fin n))}
    (hlength : neighs.length = rowOffset (fullRow out) n)
    (hrows : ∀ u : Fin n, slice neighs (rowOffset (fullRow out) u)
      (rowOffset (fullRow out) (u.val + 1)) = (fullRow out u).map some) :
    ∃ sorted, Loop.overFin (sortRow offsets) neighs = some sorted ∧
      HoldsRows (symRow out) ⟨offsets, sorted⟩ := by
  -- the rows below `k` have been sorted
  let Sorted (k : Nat) (cur : List (Option (Fin n))) : Prop :=
    cur.length = rowOffset (fullRow out) n ∧ ∀ u : Fin n,
      slice cur (rowOffset (fullRow out) u) (rowOffset (fullRow out) (u.val + 1)) =
        ((if u.val < k then symRow out u else fullRow out u).map some)
  have hstep (u : Fin n) (cur : List (Option (Fin n))) (hcur : Sorted u cur) :
      ∃ next, sortRow offsets u cur = some next ∧ Sorted (u + 1) next := by
    obtain ⟨hlen, hslices⟩ := hcur
    have hsucc := rowOffset_succ (fullRow out) u
    have hlast := rowOffset_mono (fullRow out) (show u.val + 1 ≤ n from u.isLt)
    have hlengthRow : ((symRow out u).map some).length = (fullRow out u).length := by
      rw [List.length_map, symRow, List.length_mergeSort]
    have hrow := hslices u
    rw [if_neg (lt_irrefl _)] at hrow
    refine ⟨write cur (rowOffset (fullRow out) u) ((symRow out u).map some), ?_, ?_, fun v => ?_⟩
    · rw [sortRow, hoffsets, hoffsets, if_pos ⟨Int.natCast_nonneg _, Int.natCast_nonneg _⟩,
        Int.toNat_natCast, Int.toNat_natCast]
      exact sortRange_eq (rowOffset_mono (fullRow out) (by simp)) (hlen ▸ hlast) hrow
    · rw [length_write (by omega), hlen]
    · by_cases hv : v = u
      · subst hv
        rw [if_pos (Nat.lt_succ_self _), hsucc, ← hlengthRow]
        exact slice_write (by omega)
      · have hne : v.val ≠ u.val := fun heq => hv (Fin.ext heq)
        have hiff : v.val < u.val + 1 ↔ v.val < u.val := by omega
        rw [if_congr hiff rfl rfl, ← hslices v]
        apply slice_congr
        intro k hlo hhi
        apply getElem?_write_of_outside (by omega)
        rcases rowOffset_apart (fullRow out) hv with hapart | hapart <;> omega
  obtain ⟨sorted, hloop, hlen, hslices⟩ := Loop.overFin_invariant Sorted
    ⟨hlength, fun u => by rw [if_neg (Nat.not_lt_zero _), hrows u]⟩ hstep
  refine ⟨sorted, hloop, fun i => ?_, ?_, fun u => ?_⟩
  · rw [rowOffset_symRow]
    exact hoffsets i
  · rw [rowOffset_symRow]
    exact hlen
  · rw [rowOffset_symRow, rowOffset_symRow]
    exact (hslices u).trans (by rw [if_pos u.isLt])

/-- Steps 1 and 2, when there is an edge. -/
theorem spreadOut_eq (hs : RowsInOrder out s) (hsorted : ∀ u, (out u).Pairwise (· < ·))
    (hpos : 0 < rowOffset out n) :
    ∃ offsets neighs, spreadOut s = some (offsets, ⟨neighs, fun v => (missing out v).length⟩) ∧
      (∀ i, offsets i = (rowOffset (fullRow out) i : Nat)) ∧ Spread out 0 neighs := by
  obtain ⟨room, hroom, hoffsets, hlength, hkept⟩ := makeRoom_eq hs hpos
  obtain ⟨neighs, hspread, hmoved⟩ :=
    spreadRows_eq hoffsets (spread_of_makeRoom hs hlength hkept)
  refine ⟨room.offsets, neighs, ?_, hoffsets, hmoved⟩
  rw [spreadOut, countInverses_eq hs hsorted]
  simp only [Option.bind_eq_bind, Option.bind_some]
  rw [hroom]
  simp only [Option.bind_some]
  rw [hspread]
  rfl

/-- Every neighbourhood ends as the vertices that have an edge to or from its vertex. -/
theorem addMissingInverses_eq {s : RowArrays n} (hs : RowsInOrder out s)
    (hsorted : ∀ u, (out u).Pairwise (· < ·)) (hloop : ∀ u, u ∉ out u)
    (hpos : 0 < rowOffset out n) :
    ∃ t, addMissingInverses s = some t ∧ HoldsRows (symRow out) t := by
  obtain ⟨offsets, neighs, hrun, hoffsets, hspread⟩ := spreadOut_eq hs hsorted hpos
  obtain ⟨t, hinsert, hfilled⟩ := addInverses_eq hoffsets hsorted hloop hspread
  have hrows (u : Fin n) : slice t.neighs (rowOffset (fullRow out) u)
      (rowOffset (fullRow out) (u.val + 1)) = (fullRow out u).map some := by
    have hrow := hfilled.rows u
    rwa [Nat.sub_self] at hrow
  obtain ⟨sorted, hsort, hholds⟩ := sortRows_eq hoffsets hfilled.length hrows
  refine ⟨⟨offsets, sorted⟩, ?_, hholds⟩
  rw [addMissingInverses, hrun]
  simp only [Option.bind_eq_bind, Option.bind_some]
  rw [hinsert]
  simp only [Option.bind_some]
  rw [hsort]
  rfl

end Symmetric

end Gapbs
