import Gapbs.Lib.Loop
import Gapbs.Builder.MakeGraph

/-!
# Turning an edge list into rows in place

The serial loops of `MakeCSRInPlace` of `builder.h`.  The memory of the edge list is one buffer of
words: an edge takes two of them, and the neighbours that overwrite the edges take one each.  A word
that nothing may rely on is `none`.
-/

namespace Gapbs

open Function RawArray Csr

variable {n : Nat}

/-! ## The edge list -/

/-- `operator<` on edges -/
def EdgePair.lt (a b : EdgePair (Fin n) (Fin n)) : Bool := if a.u = b.u then a.v < b.v else a.u < b.u

/-- `std::sort`, `std::unique` and `std::remove_if(self_loop)` on the edge list. -/
def squishEdges (el : List (EdgePair (Fin n) (Fin n))) : List (EdgePair (Fin n) (Fin n)) :=
  ((el.mergeSort fun a b => !b.lt a).destutter fun a b => a ≠ b).filter fun e => ¬ e.u = e.v

/-- The words that the edges of a list take up. -/
def edgeWords (el : List (EdgePair (Fin n) (Fin n))) : List (Option (Fin n)) :=
  el.flatMap fun e => [some e.u, some e.v]

/-! ## Access to the buffer -/

/-- Read a word, which must lie in the buffer and be initialised. -/
def readWord (buf : List (Option (Fin n))) (i : Int) : Option (Fin n) :=
  if 0 ≤ i then (buf[i.toNat]?).join else none

def writeWord (buf : List (Option (Fin n))) (i : Int) (v : Fin n) : Option (List (Option (Fin n))) :=
  if 0 ≤ i ∧ i.toNat < buf.length then some (buf.set i.toNat (some v)) else none

theorem readWord_eq {buf : List (Option (Fin n))} {i : Nat} {v : Fin n}
    (h : buf[i]? = some (some v)) : readWord buf i = some v := by
  rw [readWord, if_pos (Int.natCast_nonneg i), Int.toNat_natCast, h]
  rfl

theorem writeWord_eq {buf : List (Option (Fin n))} {i : Nat} {v : Fin n} (h : i < buf.length) :
    writeWord buf i v = some (buf.set i (some v)) :=
  if_pos ⟨Int.natCast_nonneg i, h⟩

/-- `realloc` to a size that is not 0; it keeps what fits. -/
def realloc (buf : List (Option (Fin n))) (size : Int) : Option (List (Option (Fin n))) :=
  if 0 < size then
    some (buf.take size.toNat ++ List.replicate (size.toNat - buf.length) none)
  else none

/-! ## Overwriting the edges -/

/-- The offsets and the buffer that holds the neighbours. -/
structure RowArrays (n : Nat) where
  offsets : Fin (n + 1) → Int
  neighs : List (Option (Fin n))

/-- `(*neighs)[offsets[e.u]++] = e.v` for edge number `i`. -/
def overwriteEdge (i : Nat) (s : RowArrays n) : Option (RowArrays n) := do
  let u ← readWord s.neighs (2 * i : Nat)
  let v ← readWord s.neighs (2 * i + 1 : Nat)
  let neighs ← writeWord s.neighs (s.offsets u.castSucc) v
  return ⟨update s.offsets u.castSucc (s.offsets u.castSucc + 1), neighs⟩

/-- `offsets[n] = n != 0 ? offsets[n-1] : 0` -/
def shiftOffset (k : Fin (n + 1)) (offsets : Fin (n + 1) → Int) : Option (Fin (n + 1) → Int) :=
  some (update offsets k (if k.val ≠ 0 then offsets ⟨k.val - 1, by omega⟩ else 0))

/-- The edges are replaced by their targets, and the offsets are reverted. -/
def overwriteEdges (numEdges : Nat) (s : RowArrays n) : Option (RowArrays n) := do
  let s ← Loop.upTo overwriteEdge numEdges s
  let offsets ← Loop.overFinDown shiftOffset s.offsets
  return ⟨offsets, s.neighs⟩

/-! ## The incoming edges -/

/-- `(*inv_neighs)[inoffsets[v]++] = u` for neighbour number `j` of `u`. -/
def fillInverse (s : RowArrays n) (u : Fin n) (j : Nat) (t : RowArrays n) : Option (RowArrays n) := do
  let v ← readWord s.neighs (s.offsets u.castSucc + j)
  let neighs ← writeWord t.neighs (t.offsets v.castSucc) u
  return ⟨update t.offsets v.castSucc (t.offsets v.castSucc + 1), neighs⟩

/-- The rows of `s` are turned around into the arrays `t`. -/
def fillInverses (s t : RowArrays n) : Option (RowArrays n) :=
  Loop.overFin (fun u =>
    Loop.upTo (fillInverse s u) (s.offsets u.succ - s.offsets u.castSucc).toNat) t

/-! ## The sorted edge list by rows -/

section Rows

variable (out : Fin n → List (Fin n))

/-- The edges from every vertex to the elements of its row. -/
def rowEdges : List (EdgePair (Fin n) (Fin n)) :=
  (List.ofFn fun u => (out u).map fun v => (⟨u, v⟩ : EdgePair (Fin n) (Fin n))).flatten

variable {out}

theorem mem_rowEdges {e : EdgePair (Fin n) (Fin n)} : e ∈ rowEdges out ↔ e.v ∈ out e.u := by
  obtain ⟨u, v⟩ := e
  simp [rowEdges, List.mem_flatten, List.mem_ofFn']

theorem EdgePair.lt_iff {a b : EdgePair (Fin n) (Fin n)} :
    a.lt b = true ↔ a.u < b.u ∨ a.u = b.u ∧ a.v < b.v := by
  rw [EdgePair.lt]
  split
  · next h => simp [h]
  · next h => simp [h]

instance : Std.Irrefl fun a b : EdgePair (Fin n) (Fin n) => a.lt b = true where
  irrefl a h := by simp [EdgePair.lt] at h

instance : Std.Antisymm fun a b : EdgePair (Fin n) (Fin n) => a.lt b = true where
  antisymm a b hab hba := by
    rw [EdgePair.lt_iff] at hab hba
    simp only [Fin.lt_def, Fin.ext_iff] at hab hba
    omega

theorem rowEdges_sorted (hsorted : ∀ u, (out u).Pairwise (· < ·)) :
    (rowEdges out).Pairwise fun a b => a.lt b = true := by
  rw [rowEdges, List.pairwise_flatten, List.pairwise_ofFn]
  constructor
  · intro l hl
    obtain ⟨u, rfl⟩ := (List.mem_ofFn' _ _).mp hl
    rw [List.pairwise_map]
    refine (hsorted u).imp fun {v w} hlt => ?_
    exact EdgePair.lt_iff.mpr (.inr ⟨rfl, hlt⟩)
  · intro u w huw a ha b hb
    obtain ⟨_, _, rfl⟩ := List.mem_map.mp ha
    obtain ⟨_, _, rfl⟩ := List.mem_map.mp hb
    exact EdgePair.lt_iff.mpr (.inl huw)

theorem dedup_mergeSort (el : List (EdgePair (Fin n) (Fin n))) :
    ((el.mergeSort fun a b => !b.lt a).destutter fun a b => a ≠ b) =
      (el.mergeSort fun a b => !b.lt a).dedup ∧
    (el.mergeSort fun a b => !b.lt a).dedup.Pairwise fun a b => a.lt b = true := by
  let le (a b : EdgePair (Fin n) (Fin n)) : Prop := a.u < b.u ∨ a.u = b.u ∧ a.v ≤ b.v
  have hle (a b : EdgePair (Fin n) (Fin n)) : (!b.lt a) = true ↔ le a b := by
    rw [Bool.not_eq_true', ← Bool.not_eq_true, EdgePair.lt_iff]
    simp only [le, Fin.lt_def, Fin.le_def, Fin.ext_iff]
    omega
  have hanti : Std.Antisymm le := ⟨fun a b hab hba => by
    obtain ⟨au, av⟩ := a
    obtain ⟨bu, bv⟩ := b
    simp only [le, Fin.lt_def, Fin.le_def, Fin.ext_iff] at hab hba
    rw [EdgePair.mk.injEq, Fin.ext_iff, Fin.ext_iff]
    omega⟩
  have hsorted : (el.mergeSort fun a b => !b.lt a).Pairwise le := by
    apply List.Pairwise.imp (fun {a b} hab => (hle a b).mp hab)
    apply List.pairwise_mergeSort
    · intro a b c hab hbc
      rw [hle] at *
      simp only [le, Fin.lt_def, Fin.le_def, Fin.ext_iff] at *
      omega
    · intro a b
      rw [Bool.or_eq_true, hle, hle]
      simp only [le, Fin.lt_def, Fin.le_def, Fin.ext_iff]
      omega
  refine ⟨hsorted.destutter_eq_dedup, ?_⟩
  have hdedup := (hsorted.sublist (List.dedup_sublist _)).and (List.nodup_dedup _)
  refine hdedup.imp fun {a b} hab => EdgePair.lt_iff.mpr ?_
  rcases hab.1 with hlt | ⟨heq, hle⟩
  · exact .inl hlt
  · refine .inr ⟨heq, lt_of_le_of_ne hle fun hv => hab.2 ?_⟩
    obtain ⟨au, av⟩ := a
    obtain ⟨bu, bv⟩ := b
    rw [EdgePair.mk.injEq]
    exact ⟨heq, hv⟩

/-- Sorting, making unique and dropping the loops leaves the edges of the rows, row by row. -/
theorem squishEdges_eq (el : List (EdgePair (Fin n) (Fin n))) :
    squishEdges el = rowEdges (builtRow false false el) := by
  obtain ⟨hunique, hsorted⟩ := dedup_mergeSort el
  rw [squishEdges, hunique]
  apply (hsorted.filter _).eq_of_mem_iff (rowEdges_sorted builtRow_sorted)
  intro e
  rw [mem_rowEdges, mem_builtRow, List.mem_filter, List.mem_dedup, List.mem_mergeSort]
  simp [and_comm]

theorem rowOffset_map {D : Type} (f : Fin n → Fin n → D) (k : Nat) :
    rowOffset (fun u => (out u).map (f u)) k = rowOffset out k := by
  simp only [rowOffset, List.length_map]

theorem length_rowEdges : (rowEdges out).length = rowOffset out n :=
  (length_flatten_rows _).trans (rowOffset_map _ n)

theorem getElem?_rowEdges {u : Fin n} {j : Nat} (hj : j < (out u).length) :
    (rowEdges out)[rowOffset out u + j]? = some ⟨u, (out u)[j]⟩ := by
  have hget := getElem?_flatten (fun u => (out u).map fun v => (⟨u, v⟩ : EdgePair (Fin n) (Fin n))) u
    (j := j) (by simpa using hj)
  rw [rowOffset_map] at hget
  rw [rowEdges, hget, List.getElem?_map, List.getElem?_eq_getElem hj]
  rfl

end Rows

theorem length_edgeWords (el : List (EdgePair (Fin n) (Fin n))) :
    (edgeWords el).length = 2 * el.length := by
  induction el with
  | nil => rfl
  | cons e el ih =>
    rw [edgeWords, List.flatMap_cons, List.length_append, ← edgeWords, ih]
    simp only [List.length_cons, List.length_nil]
    omega

/-- The words of edge number `i`. -/
theorem getElem?_edgeWords {el : List (EdgePair (Fin n) (Fin n))} {i : Nat}
    {e : EdgePair (Fin n) (Fin n)} (h : el[i]? = some e) :
    (edgeWords el)[2 * i]? = some (some e.u) ∧ (edgeWords el)[2 * i + 1]? = some (some e.v) := by
  induction el generalizing i with
  | nil => simp at h
  | cons a el ih =>
    cases i with
    | zero =>
      obtain rfl : a = e := by simpa using h
      exact ⟨rfl, rfl⟩
    | succ i => exact ih (by simpa using h)

/-! ## The sources of edges in order -/

section Sources

variable (R : Fin n → Fin n → Prop) [DecidableRel R]

/-- The vertices below `k` that are related to `v`. -/
def sourcesBelow (k : Nat) (v : Fin n) : List (Fin n) :=
  (List.finRange n).filter fun w => w.val < k ∧ R w v

/-- The same when `u` has been related to the vertices of a list so far. -/
def sourcesSeen (u : Fin n) (seen : List (Fin n)) (v : Fin n) : List (Fin n) :=
  sourcesBelow R u v ++ if v ∈ seen ∧ R u v then [u] else []

theorem length_sourcesBelow_le (k : Nat) (v : Fin n) :
    (sourcesBelow R k v).length ≤ (sourcesBelow R n v).length := by
  apply List.Sublist.length_le
  apply List.monotone_filter_right
  intro w hw
  simp only [decide_eq_true_eq] at hw ⊢
  exact ⟨w.isLt, hw.2⟩

variable {R}

theorem mem_sourcesBelow {k : Nat} {v w : Fin n} : w ∈ sourcesBelow R k v ↔ w.val < k ∧ R w v := by
  simp [sourcesBelow]

theorem sourcesBelow_sorted (k : Nat) (v : Fin n) : (sourcesBelow R k v).Pairwise (· < ·) :=
  (List.pairwise_lt_finRange n).filter _

@[simp] theorem sourcesBelow_zero (v : Fin n) : sourcesBelow R 0 v = [] := by
  simp [sourcesBelow]

theorem sourcesBelow_succ (u v : Fin n) : sourcesBelow R (u.val + 1) v =
    sourcesBelow R u v ++ if R u v then [u] else [] := by
  have hsorted : (sourcesBelow R u v ++ if R u v then [u] else []).Pairwise (· < ·) := by
    rw [List.pairwise_append]
    refine ⟨sourcesBelow_sorted _ v, by split <;> simp, fun a ha b hb => ?_⟩
    have hbu : b = u := by
      split at hb
      · exact List.mem_singleton.mp hb
      · exact absurd hb List.not_mem_nil
    exact hbu ▸ (mem_sourcesBelow.mp ha).1
  apply (sourcesBelow_sorted _ v).eq_of_mem_iff hsorted
  intro w
  rw [mem_sourcesBelow, List.mem_append, mem_sourcesBelow]
  by_cases hw : w = u
  · subst hw
    by_cases hR : R w v <;> simp [hR]
  · have hne : w.val ≠ u.val := fun h => hw (Fin.ext h)
    have hmem : w ∉ (if R u v then [u] else []) := by
      split <;> simp [hw]
    simp only [hmem, or_false]
    constructor
    · exact fun ⟨hlt, h⟩ => ⟨by omega, h⟩
    · exact fun ⟨hlt, h⟩ => ⟨by omega, h⟩

@[simp] theorem sourcesSeen_nil (u : Fin n) : sourcesSeen R u [] = sourcesBelow R u := by
  funext v
  simp [sourcesSeen]

theorem sourcesSeen_all {u : Fin n} {seen : List (Fin n)} (h : ∀ v, R u v → v ∈ seen) :
    sourcesSeen R u seen = sourcesBelow R (u.val + 1) := by
  funext v
  rw [sourcesSeen, sourcesBelow_succ]
  congr 2
  exact propext ⟨fun hv => hv.2, fun hv => ⟨h v hv, hv⟩⟩

/-- A vertex that has not been seen has the sources below `u`. -/
theorem sourcesSeen_of_not_mem {u v : Fin n} {seen : List (Fin n)} (hv : v ∉ seen) :
    sourcesSeen R u seen v = sourcesBelow R u v := by
  rw [sourcesSeen, if_neg fun h => hv h.1, List.append_nil]

theorem sourcesSeen_snoc {u w : Fin n} {seen : List (Fin n)} (hw : w ∉ seen) :
    sourcesSeen R u (seen ++ [w]) = if R u w then
      update (sourcesSeen R u seen) w (sourcesSeen R u seen w ++ [u])
    else sourcesSeen R u seen := by
  funext v
  by_cases hv : v = w
  · subst hv
    by_cases hR : R u v <;> simp [sourcesSeen, hR, hw]
  · split <;> simp [sourcesSeen, hv]

/-- There is still room for a source. -/
theorem length_sourcesBelow_lt {u v : Fin n} (h : R u v) :
    (sourcesBelow R u v).length < (sourcesBelow R n v).length := by
  have hle := length_sourcesBelow_le R (u.val + 1) v
  rwa [sourcesBelow_succ, if_pos h, List.length_append, List.length_singleton] at hle

theorem getElem_not_mem_take {xs : List (Fin n)} (h : xs.Nodup) {j : Nat} (hj : j < xs.length) :
    xs[j] ∉ xs.take j := by
  intro hmem
  obtain ⟨i, hi, hget⟩ := List.mem_take_iff_getElem.mp hmem
  have heq := (List.Nodup.getElem_inj_iff h).mp hget
  omega

end Sources

/-! ## Overwriting the edges is safe -/

section Overwrite

variable (out : Fin n → List (Fin n))

/-- The rows stand one behind the other at the start of the buffer. -/
structure RowsInOrder (s : RowArrays n) : Prop where
  offsets : ∀ i, s.offsets i = (rowOffset out i : Nat)
  bound : rowOffset out n ≤ s.neighs.length
  rows : ∀ (u : Fin n) (j : Nat) (hj : j < (out u).length),
    s.neighs[rowOffset out u + j]? = some (some (out u)[j])

/-- `i` edges have been overwritten.  Words from `i` on are still the old ones, so that the edges
ahead are intact. -/
structure Overwritten (buf : List (Option (Fin n))) (i : Nat) (s : RowArrays n) : Prop where
  offsets : ∀ w : Fin n, s.offsets w.castSucc =
    (max (rowOffset out w) (min i (rowOffset out (w.val + 1))) : Nat)
  total : s.offsets (Fin.last n) = (rowOffset out n : Nat)
  length : s.neighs.length = buf.length
  rows : ∀ (u : Fin n) (j : Nat) (hj : j < (out u).length), rowOffset out u + j < i →
    s.neighs[rowOffset out u + j]? = some (some (out u)[j])
  ahead : ∀ k, i ≤ k → s.neighs[k]? = buf[k]?

variable {out}

theorem overwriteEdge_eq {rest : List (Option (Fin n))} {i : Nat} {s : RowArrays n}
    (hi : i < rowOffset out n) (hs : Overwritten out (edgeWords (rowEdges out) ++ rest) i s) :
    ∃ s', overwriteEdge i s = some s' ∧
      Overwritten out (edgeWords (rowEdges out) ++ rest) (i + 1) s' := by
  obtain ⟨u, j, hj, hpos⟩ := exists_row out hi
  have hedge : (rowEdges out)[i]? = some ⟨u, (out u)[j]⟩ := by
    rw [hpos]
    exact getElem?_rowEdges hj
  have hlen : (edgeWords (rowEdges out)).length = 2 * rowOffset out n := by
    rw [length_edgeWords, length_rowEdges]
  -- the two words of the edge have not been overwritten yet
  obtain ⟨hfst, hsnd⟩ := getElem?_edgeWords hedge
  have hu : s.neighs[2 * i]? = some (some u) := by
    rw [hs.ahead _ (by omega), List.getElem?_append_left (by omega), hfst]
  have hv : s.neighs[2 * i + 1]? = some (some (out u)[j]) := by
    rw [hs.ahead _ (by omega), List.getElem?_append_left (by omega), hsnd]
  have hsucc := rowOffset_succ out u
  have hslot : s.offsets u.castSucc = (i : Nat) := by
    rw [hs.offsets]
    congr 1
    omega
  have hfits : i < s.neighs.length := by
    rw [hs.length, List.length_append]
    omega
  refine ⟨⟨update s.offsets u.castSucc (s.offsets u.castSucc + 1),
    s.neighs.set i (some (out u)[j])⟩, ?_, ?_⟩
  · rw [overwriteEdge, readWord_eq hu]
    simp only [Option.bind_eq_bind, Option.bind_some]
    rw [readWord_eq hv]
    simp only [Option.bind_some]
    rw [hslot, writeWord_eq hfits]
    rfl
  · refine ⟨fun w => ?_, ?_, ?_, fun w l hl hlt => ?_, fun k hk => ?_⟩
    · by_cases hw : w = u
      · subst hw
        show update s.offsets w.castSucc _ w.castSucc = _
        rw [update_self, hslot]
        omega
      · have hne : w.castSucc ≠ u.castSucc := fun heq => hw (Fin.castSucc_injective _ heq)
        show update s.offsets u.castSucc _ w.castSucc = _
        rw [update_of_ne hne, hs.offsets]
        have hmono := rowOffset_mono out (Nat.le_add_right w.val 1)
        rcases rowOffset_apart out hw with hle | hle <;> omega
    · show update s.offsets u.castSucc _ (Fin.last n) = _
      rw [update_of_ne (Fin.castSucc_lt_last u).ne', hs.total]
    · exact (List.length_set ..).trans hs.length
    · by_cases heq : rowOffset out w + l = i
      · have hwu : w = u := by
          by_contra hne
          have hsuccw := rowOffset_succ out w
          rcases rowOffset_apart out hne with hle | hle <;> omega
        subst hwu
        obtain rfl : l = j := by omega
        rw [heq]
        exact List.getElem?_set_self hfits
      · rw [← hs.rows w l hl (by omega)]
        exact List.getElem?_set_ne (Ne.symm heq)
    · rw [← hs.ahead k (by omega)]
      exact List.getElem?_set_ne (by omega)

theorem shiftOffsets_eq (offsets : Fin (n + 1) → Int) :
    ∃ offsets', Loop.overFinDown shiftOffset offsets = some offsets' ∧ offsets' 0 = 0 ∧
      ∀ w : Fin n, offsets' w.succ = offsets w.castSucc := by
  -- the entries from `k` on are shifted, those below are still to be read
  let Shifted (k : Nat) (cur : Fin (n + 1) → Int) : Prop :=
    (∀ i : Fin (n + 1), i.val < k → cur i = offsets i) ∧ (k = 0 → cur 0 = 0) ∧
      ∀ w : Fin n, k ≤ w.val + 1 → cur w.succ = offsets w.castSucc
  have hstart : Shifted (n + 1) offsets :=
    ⟨fun _ _ => rfl, fun h => absurd h (by omega), fun w hw => absurd w.isLt (by omega)⟩
  have hstep (k : Fin (n + 1)) (cur : Fin (n + 1) → Int) (hk : Shifted (k.val + 1) cur) :
      ∃ next, shiftOffset k cur = some next ∧ Shifted k next := by
    obtain ⟨hbelow, -, habove⟩ := hk
    refine ⟨_, rfl, fun i hi => ?_, fun hk => ?_, fun w hw => ?_⟩
    · rw [update_of_ne (by omega), hbelow i (by omega)]
    · obtain rfl : k = 0 := Fin.ext hk
      rw [update_self, if_neg (by simp)]
    · by_cases hwk : w.succ = k
      · subst hwk
        rw [update_self, if_pos (by simp)]
        exact hbelow _ (by simp)
      · have hne : w.val + 1 ≠ k.val := fun heq => hwk (Fin.ext heq)
        rw [update_of_ne hwk, habove w (by omega)]
  obtain ⟨offsets', h, -, hzero, hsucc⟩ := Loop.overFinDown_invariant Shifted hstart hstep
  exact ⟨offsets', h, hzero rfl, fun w => hsucc w (Nat.zero_le _)⟩

/-- The edges are overwritten by the rows without any edge being lost before it is read. -/
theorem overwriteEdges_eq {rest : List (Option (Fin n))} {s : RowArrays n}
    (hoffsets : ∀ i, s.offsets i = (rowOffset out i : Nat))
    (hneighs : s.neighs = edgeWords (rowEdges out) ++ rest) :
    ∃ s', overwriteEdges (rowOffset out n) s = some s' ∧ RowsInOrder out s' := by
  have hstart : Overwritten out (edgeWords (rowEdges out) ++ rest) 0 s := by
    refine ⟨fun w => ?_, hoffsets _, by rw [hneighs], fun _ _ _ h => absurd h (Nat.not_lt_zero _),
      fun k _ => by rw [hneighs]⟩
    rw [hoffsets, Nat.zero_min, Nat.max_zero]
    rfl
  obtain ⟨t, ht, hover⟩ := Loop.upTo_invariant _ hstart fun i s hi hs => overwriteEdge_eq hi hs
  obtain ⟨offsets, hshift, hzero, hsucc⟩ := shiftOffsets_eq t.offsets
  refine ⟨⟨offsets, t.neighs⟩, ?_, fun i => ?_, ?_, fun u j hj => hover.rows u j hj ?_⟩
  · rw [overwriteEdges, ht]
    simp only [Option.bind_eq_bind, Option.bind_some]
    rw [hshift]
    rfl
  · rcases Fin.eq_zero_or_eq_succ i with rfl | ⟨w, rfl⟩
    · show offsets 0 = _
      rw [hzero]
      exact_mod_cast (offset_zero _).symm
    · have hmono := rowOffset_mono out (Nat.le_add_right w.val 1)
      have hlast := rowOffset_mono out (show w.val + 1 ≤ n from w.isLt)
      show offsets w.succ = _
      rw [hsucc, hover.offsets, Fin.val_succ]
      congr 1
      omega
  · rw [hover.length, List.length_append, length_edgeWords, length_rowEdges]
    omega
  · have hsucc := rowOffset_succ out u
    have hlast := rowOffset_mono out (show u.val + 1 ≤ n from u.isLt)
    omega

end Overwrite

/-! ## Turning the rows around -/

section Fill

variable (out : Fin n → List (Fin n))

/-- There is an edge from `w` to `v`. -/
abbrev Source (w v : Fin n) : Prop := v ∈ out w

/-- The vertices with an edge to `v`. -/
def inRow (v : Fin n) : List (Fin n) := sourcesBelow (Source out) n v

/-- The arrays hold the rows and nothing else. -/
structure HoldsRows (rows : Fin n → List (Fin n)) (s : RowArrays n) : Prop where
  offsets : ∀ i, s.offsets i = (rowOffset rows i : Nat)
  length : s.neighs.length = rowOffset rows n
  rows : ∀ u : Fin n, slice s.neighs (rowOffset rows u) (rowOffset rows (u.val + 1)) =
    (rows u).map some

/-- Every row of incoming edges starts with the sources found so far. -/
structure InFilled (found : Fin n → List (Fin n)) (t : RowArrays n) : Prop where
  offsets : ∀ v : Fin n, t.offsets v.castSucc = (rowOffset (inRow out) v + (found v).length : Nat)
  length : t.neighs.length = rowOffset (inRow out) n
  found_le : ∀ v, (found v).length ≤ (inRow out v).length
  rows : ∀ v : Fin n, slice t.neighs (rowOffset (inRow out) v)
    (rowOffset (inRow out) v + (found v).length) = (found v).map some

variable {out}

theorem RowsInOrder.slice_eq {s : RowArrays n} (hs : RowsInOrder out s) (u : Fin n) :
    slice s.neighs (rowOffset out u) (rowOffset out (u.val + 1)) = (out u).map some := by
  have hsucc := rowOffset_succ out u
  apply slice_eq_of_getElem?
  · rw [List.length_map]
    omega
  · intro j hj
    rw [List.length_map] at hj
    rw [hs.rows u j hj, List.getElem?_map, List.getElem?_eq_getElem hj]
    rfl

theorem RowsInOrder.readWord_eq {s : RowArrays n} (hs : RowsInOrder out s) {u : Fin n} {j : Nat}
    (hj : j < (out u).length) : readWord s.neighs (s.offsets u.castSucc + j) = some (out u)[j] := by
  rw [hs.offsets]
  exact_mod_cast Gapbs.readWord_eq (hs.rows u j hj)

theorem RowsInOrder.length_eq {s : RowArrays n} (hs : RowsInOrder out s) (u : Fin n) :
    (s.offsets u.succ - s.offsets u.castSucc).toNat = (out u).length := by
  have hsucc := rowOffset_succ out u
  rw [hs.offsets, hs.offsets, Fin.val_succ, Fin.val_castSucc]
  omega

/-- A source is put behind those found before. -/
theorem fillInverse_eq {s t : RowArrays n} (hs : RowsInOrder out s) {u : Fin n} {j : Nat}
    (hj : j < (out u).length) {found : Fin n → List (Fin n)} (ht : InFilled out found t)
    (hroom : (found (out u)[j]).length < (inRow out (out u)[j]).length) :
    ∃ t', fillInverse s u j t = some t' ∧
      InFilled out (update found (out u)[j] (found (out u)[j] ++ [u])) t' := by
  generalize hv : (out u)[j] = v at hroom
  have hsucc := rowOffset_succ (inRow out) v
  have hlast := rowOffset_mono (inRow out) (show v.val + 1 ≤ n from v.isLt)
  have hfits : rowOffset (inRow out) v + (found v).length < t.neighs.length := by
    rw [ht.length]
    omega
  refine ⟨⟨update t.offsets v.castSucc (t.offsets v.castSucc + 1),
    t.neighs.set (rowOffset (inRow out) v + (found v).length) (some u)⟩, ?_, fun w => ?_, ?_,
    fun w => ?_, fun w => ?_⟩
  · rw [fillInverse, hs.readWord_eq hj, hv]
    simp only [Option.bind_eq_bind, Option.bind_some]
    rw [ht.offsets, writeWord_eq hfits]
    rfl
  · by_cases hw : w = v
    · subst hw
      show update t.offsets w.castSucc _ w.castSucc = _
      rw [update_self, update_self, ht.offsets, List.length_append, List.length_singleton]
      omega
    · have hne : w.castSucc ≠ v.castSucc := fun heq => hw (Fin.castSucc_injective _ heq)
      show update t.offsets v.castSucc _ w.castSucc = _
      rw [update_of_ne hne, update_of_ne hw, ht.offsets]
  · exact (List.length_set ..).trans ht.length
  · by_cases hw : w = v
    · subst hw
      rw [update_self, List.length_append]
      exact hroom
    · rw [update_of_ne hw]
      exact ht.found_le w
  · by_cases hw : w = v
    · subst hw
      rw [update_self, List.length_append, List.length_singleton, List.map_append, ← ht.rows w,
        ← Nat.add_assoc]
      exact slice_set_succ (Nat.le_add_right _ _) hfits
    · rw [update_of_ne hw, ← ht.rows w]
      apply slice_congr
      intro k hlo hhi
      apply List.getElem?_set_ne
      have hsuccw := rowOffset_succ (inRow out) w
      have hle := ht.found_le w
      rcases rowOffset_apart (inRow out) hw with hapart | hapart <;> omega

/-- Every row of incoming edges ends as the sources of its vertex. -/
theorem fillInverses_eq {s t : RowArrays n} (hs : RowsInOrder out s) (hnodup : ∀ u, (out u).Nodup)
    (hoffsets : ∀ i, t.offsets i = (rowOffset (inRow out) i : Nat))
    (hlength : t.neighs.length = rowOffset (inRow out) n) :
    ∃ t', fillInverses s t = some t' ∧ t'.neighs.length = rowOffset (inRow out) n ∧
      ∀ v : Fin n, slice t'.neighs (rowOffset (inRow out) v) (rowOffset (inRow out) (v.val + 1)) =
        (inRow out v).map some := by
  have hstart : InFilled out (sourcesBelow (Source out) 0) t := by
    refine ⟨fun v => ?_, hlength, fun v => ?_, fun v => ?_⟩
    · rw [hoffsets, sourcesBelow_zero]
      rfl
    · simp
    · simp [slice]
  have hstep (u : Fin n) (t : RowArrays n) (ht : InFilled out (sourcesBelow (Source out) u) t) :
      ∃ t', Loop.upTo (fillInverse s u) (s.offsets u.succ - s.offsets u.castSucc).toNat t = some t' ∧
        InFilled out (sourcesBelow (Source out) (u.val + 1)) t' := by
    have hnext (j : Nat) (t : RowArrays n) (hj : j < (out u).length)
        (ht : InFilled out (sourcesSeen (Source out) u ((out u).take j)) t) :
        ∃ t', fillInverse s u j t = some t' ∧
          InFilled out (sourcesSeen (Source out) u ((out u).take (j + 1))) t' := by
      have hfresh := getElem_not_mem_take (hnodup u) hj
      have hmem : (out u)[j] ∈ out u := List.getElem_mem hj
      rw [List.take_succ_eq_append_getElem hj, sourcesSeen_snoc hfresh, if_pos hmem]
      apply fillInverse_eq hs hj ht
      rw [sourcesSeen_of_not_mem hfresh]
      exact length_sourcesBelow_lt hmem
    rw [hs.length_eq]
    obtain ⟨t', hloop, ht'⟩ := Loop.upTo_invariant
      (fun j => InFilled out (sourcesSeen (Source out) u ((out u).take j)))
      (by rwa [List.take_zero, sourcesSeen_nil]) hnext
    rw [List.take_length, sourcesSeen_all fun _ h => h] at ht'
    exact ⟨t', hloop, ht'⟩
  obtain ⟨t', hloop, ht'⟩ := Loop.overFin_invariant
    (fun k => InFilled out (sourcesBelow (Source out) k)) hstart hstep
  refine ⟨t', hloop, ht'.length, fun v => ?_⟩
  rw [rowOffset_succ]
  exact ht'.rows v

end Fill

end Gapbs
