import Gapbs.Bc.Forward

/-!
# What `PBFS` returns

The counts, the marks and the slices of the queue that `depth_index` delimits.
-/

namespace Gapbs

open Conc HopDistance

variable {n m : Nat}

/-- The vertices between two consecutive entries of `depth_index`. -/
def BcMem.depthSlice (s : BcMem n m) (d : Nat) : Option (List (Fin n)) := do
  let first ← s.depthIndex[d]?
  let last ← s.depthIndex[d + 1]?
  (List.range' first (last - first)).mapM s.queue.slot

/-- `Brandes` has cleared the counts, the index, the queue and the marks. -/
structure BcMem.Prepared (s : BcMem n m) : Prop where
  counts : s.pathCounts = fun _ => 0
  index : s.depthIndex = []
  sharedIn : s.queue.sharedIn = 0
  start : s.queue.sharedOutStart = 0
  stop : s.queue.sharedOutEnd = 0
  succ : ∀ pos, s.succ.getBit pos = false

theorem mapM_range'_slot {q : SlidingQueue (Fin n) n} {first : Nat} {l : List (Fin n)}
    (h : ∀ i x, l[i]? = some x → q.slot (first + i) = some x) :
    (List.range' first l.length).mapM q.slot = some l := by
  induction l generalizing first with
  | nil => rfl
  | cons x l ih =>
    have hhead : q.slot first = some x := h 0 x rfl
    have htail : (List.range' (first + 1) l.length).mapM q.slot = some l := by
      apply ih
      intro i y hi
      rw [Nat.add_assoc, Nat.add_comm 1 i]
      exact h (i + 1) y hi
    rw [List.length_cons, List.range'_succ, List.mapM_cons, hhead, htail]
    rfl

section Slices

variable {g : Graph n} {source : Fin n} {ls : List (List (Fin n))} {s : BcMem n m}

theorem depthSlice_zero (hindex : s.depthIndex = boundaries ls (ls.length + 1)) :
    s.depthSlice 0 = some [] := by
  have hlast : s.depthIndex[1]? = some 0 := by
    rw [hindex, boundaries_get ls (Nat.succ_pos _)]
    rfl
  unfold BcMem.depthSlice
  rw [hlast, hindex, boundaries_zero]
  rfl

theorem depthSlice_succ (hslots : ∀ i x, ls.flatten[i]? = some x → s.queue.slot i = some x)
    (hindex : s.depthIndex = boundaries ls (ls.length + 1)) {k : Nat} {l : List (Fin n)}
    (hl : ls[k]? = some l) : s.depthSlice (k + 1) = some l := by
  obtain ⟨hk, rfl⟩ := List.getElem?_eq_some_iff.mp hl
  have hlength : (ls.take (k + 1)).flatten.length - (ls.take k).flatten.length = ls[k].length := by
    rw [List.take_succ_eq_append_getElem hk, List.flatten_append, List.flatten_singleton,
      List.length_append, Nat.add_sub_cancel_left]
  unfold BcMem.depthSlice
  rw [hindex, boundaries_get ls (by omega), boundaries_get ls (by omega)]
  show (List.range' _ _).mapM s.queue.slot = some ls[k]
  rw [hlength]
  apply mapM_range'_slot
  intro i x hi
  exact hslots _ x (getElem?_flatten_levels hl hi)

/-- There are no other slices. -/
theorem lt_of_depthSlice (hindex : s.depthIndex = boundaries ls (ls.length + 1)) {d : Nat}
    {l : List (Fin n)} (h : s.depthSlice d = some l) : d < ls.length + 1 := by
  by_contra hge
  have hnone : s.depthIndex[d + 1]? = none := by
    apply List.getElem?_eq_none
    rw [hindex, boundaries, List.length_cons, List.length_map, List.length_range]
    omega
  unfold BcMem.depthSlice at h
  rw [hnone] at h
  cases hfirst : s.depthIndex[d]? <;> simp [hfirst] at h

end Slices

/-- For every team and every interleaving, `PBFS` counts the shortest paths, marks the edges on them
and lists the levels. -/
theorem pbfs_correct {n : Nat} (g : Graph n) (hg : g.SimpleCsr) (source : Fin n) (T : Nat) [NeZero T]
    (s₀ : BcMem n g.numEdgesDirected) (h₀ : s₀.Prepared) :
    (pbfs T g source).Correct s₀ fun _ s =>
      (∀ v, s.pathCounts v = numPaths g.Edge source v) ∧
      (∀ pos, s.succ.getBit pos = true ↔ ∃ u v k, (v, pos.val) ∈ g.outSlots u ∧
        IsDistance g.Edge k source u ∧ IsDistance g.Edge (k + 1) source v) ∧
      (∀ u v pos, (v, pos) ∈ g.outSlots u → pos < g.numEdgesDirected) ∧
      ∃ depths, s.depthIndex.length = depths + 2 ∧ s.depthSlice 0 = some [] ∧
        (∀ k < depths, ∃ l, s.depthSlice (k + 1) = some l ∧ l.Nodup ∧
          ∀ v, v ∈ l ↔ IsDistance g.Edge k source v) ∧
        ∀ v, Relation.ReflTransGen g.Edge source v → ∃! d, ∃ l, s.depthSlice d = some l ∧ v ∈ l := by
  apply ((pbfs_solo hg rfl h₀.counts h₀.index h₀.sharedIn h₀.start h₀.stop h₀.succ).mono ?_).correct
  rintro _ s ⟨hs, hcounts, -⟩
  obtain ⟨ls, hlast, hlevels, hslots, hindex⟩ := hs.queue
  refine ⟨hcounts, fun pos => ?_, fun u v pos h => outSlots_lt hg h, ls.length, ?_, depthSlice_zero hindex,
    fun k hk => ?_, fun v hv => ?_⟩
  · rw [hs.bits pos]
    constructor
    · rintro ⟨k, u, hu, v, hv, hslot⟩
      exact ⟨u, v, k, hslot, mem_level_iff.mp hu, mem_level_iff.mp hv⟩
    · rintro ⟨u, v, k, hslot, hu, hv⟩
      exact ⟨k, u, mem_level_iff.mpr hu, v, mem_level_iff.mpr hv, hslot⟩
  · rw [hindex, boundaries, List.length_cons, List.length_map, List.length_range]
  · have hget : ls[k]? = some ls[k] := List.getElem?_eq_getElem hk
    have hl := hlevels k _ hget
    refine ⟨ls[k], depthSlice_succ hslots hindex hget, hl.nodup, fun v => ?_⟩
    rw [hl.mem, mem_level_iff]
  · obtain ⟨k, hk⟩ := exists_isDistance hv
    have hlevel := mem_level_iff.mpr hk
    have hlt : k < ls.length := by
      by_contra hge
      exact level_ne_empty (not_lt.mp hge) (Finset.ne_empty_of_mem hlevel) hlast
    have hget : ls[k]? = some ls[k] := List.getElem?_eq_getElem hlt
    have hmem : v ∈ ls[k] := ((hlevels k _ hget).mem v).mpr hlevel
    refine ⟨k + 1, ⟨ls[k], depthSlice_succ hslots hindex hget, hmem⟩, ?_⟩
    rintro d ⟨l, hl, hvl⟩
    -- the leading slice is empty, and the levels are apart
    cases d with
    | zero =>
      obtain rfl := Option.some.inj ((depthSlice_zero hindex).symm.trans hl)
      simp at hvl
    | succ j =>
      have hj : j < ls.length := by
        have := lt_of_depthSlice hindex hl
        omega
      have hgetj : ls[j]? = some ls[j] := List.getElem?_eq_getElem hj
      obtain rfl := Option.some.inj ((depthSlice_succ hslots hindex hgetj).symm.trans hl)
      have hdist := mem_level_iff.mp (((hlevels j _ hgetj).mem v).mp hvl)
      rw [hdist.unique hk]

theorem pbfs_correct_pair :
    (pbfs 2 pairGraph 0).Correct (blankBcMem 2 pairGraph.numEdgesDirected) fun _ s =>
      (∀ v, s.pathCounts v = numPaths pairGraph.Edge 0 v) ∧
      (∀ pos, s.succ.getBit pos = true ↔ ∃ u v k, (v, pos.val) ∈ pairGraph.outSlots u ∧
        IsDistance pairGraph.Edge k 0 u ∧ IsDistance pairGraph.Edge (k + 1) 0 v) ∧
      (∀ u v pos, (v, pos) ∈ pairGraph.outSlots u → pos < pairGraph.numEdgesDirected) ∧
      ∃ depths, s.depthIndex.length = depths + 2 ∧ s.depthSlice 0 = some [] ∧
        (∀ k < depths, ∃ l, s.depthSlice (k + 1) = some l ∧ l.Nodup ∧
          ∀ v, v ∈ l ↔ IsDistance pairGraph.Edge k 0 v) ∧
        ∀ v, Relation.ReflTransGen pairGraph.Edge 0 v → ∃! d, ∃ l, s.depthSlice d = some l ∧ v ∈ l :=
  pbfs_correct pairGraph pairGraph_simpleCsr 0 2 (blankBcMem 2 _)
    ⟨rfl, rfl, rfl, rfl, rfl, Bitmap.getBit_reset ⟨fun _ => 0⟩⟩

end Gapbs
