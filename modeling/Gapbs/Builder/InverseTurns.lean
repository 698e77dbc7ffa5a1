import Gapbs.Builder.MakeGraphInPlace

/-!
# Every turn of the missing inverses

Step 3 of `MakeCSRInPlace` of `builder.h` searches rows that it extends at their fronts while it goes.
The rows are not sorted then, but what stands in front of a row is below the vertex that is looked up.
-/

namespace Gapbs

open Conc Function RawArray Csr

variable {n : Nat}

/-! ## The turns of Step 3 -/

/-- The state in which neighbour `i` of `u` gets its turn. -/
def AtTurn (offsets : Fin (n + 1) → Int) (s₀ : InsertState n) (u : Fin n) (i : Int)
    (t : InsertState n) : Prop :=
  ∃ (s : InsertState n) (j : Nat), Loop.upTo (Loop.atFin (addInversesOf offsets)) u s₀ = some s ∧
    i = offsets u.castSucc + s.invsNeeded u + j ∧ i < offsets u.succ ∧
    Loop.upTo (addInverse offsets u (offsets u.castSucc + s.invsNeeded u)) j s = some t

/-- The part of a row behind its free slots. -/
def Occupied (offsets : Fin (n + 1) → Int) (t : InsertState n) (k : Int) : Prop :=
  ∃ w : Fin n, offsets w.castSucc + t.invsNeeded w ≤ k ∧ k < offsets w.succ

/-- A slot of the region of `v` that is still free. -/
structure FreeSlot (offsets : Fin (n + 1) → Int) (t : InsertState n) (v : Fin n) (k : Int) : Prop where
  start : offsets v.castSucc ≤ k
  finish : k < offsets v.succ
  free : ¬ Occupied offsets t k

/-- What one turn relies on: a precise search, counts between zero and those of Step 1, and a slot for
an inverse that is missing. -/
structure TurnExact (el : List (EdgePair (Fin n) (Fin n))) (offsets : Fin (n + 1) → Int)
    (counts : Fin n → Int) (u v : Fin n) (range : List (Fin n)) (t : InsertState n) : Prop where
  partitioned : BinarySearch.Partitioned u range
  search : BinarySearch.search u range = decide (u ∈ range)
  found : u ∈ range ↔ ⟨v, u⟩ ∈ el
  counts : ∀ w, 0 ≤ t.invsNeeded w ∧ t.invsNeeded w ≤ counts w
  slot : BinarySearch.search u range = false →
    FreeSlot offsets t v (offsets v.castSucc + t.invsNeeded v - 1)

/-- Step 3 is reached unless there is no edge, every turn of it is exact, and the counts of Step 1, which
fit into a `NodeID_`, all end at 0. -/
structure InsertsExactly (el : List (EdgePair (Fin n) (Fin n))) (s : RowArrays n) : Prop where
  reached : el ≠ [] → ∃ r, spreadOut s = some r
  turns : ∀ offsets s₀, spreadOut s = some (offsets, s₀) → ∀ u i t, AtTurn offsets s₀ u i t →
    ∃ v range, readWord t.neighs i = some v ∧
      readRange t.neighs (offsets v.castSucc + t.invsNeeded v) (offsets v.succ) = some range ∧
      TurnExact el offsets s₀.invsNeeded u v range t
  finish : ∀ offsets s₀, spreadOut s = some (offsets, s₀) →
    countInverses s = some s₀.invsNeeded ∧ (∀ v, s₀.invsNeeded v < 2 ^ 31) ∧
      ∃ t, addInverses offsets s₀ = some t ∧ ∀ v, t.invsNeeded v = 0

/-! ## One turn -/

section Turn

variable {out : Fin n → List (Fin n)} {offsets : Fin (n + 1) → Int}

theorem Filled.counts {found : Fin n → List (Fin n)} {t : InsertState n} (h : Filled out found t)
    (w : Fin n) : 0 ≤ t.invsNeeded w ∧ t.invsNeeded w ≤ (missing out w).length := by
  have hle := h.found_le w
  rw [h.free]
  omega

/-- The last free slot of `v`: the rows of the other vertices are apart. -/
theorem Filled.freeSlot {found : Fin n → List (Fin n)} {t : InsertState n} (h : Filled out found t)
    (hoffsets : ∀ i, offsets i = (rowOffset (fullRow out) i : Nat)) {v : Fin n}
    (hroom : (found v).length < (missing out v).length) :
    FreeSlot offsets t v (offsets v.castSucc + t.invsNeeded v - 1) := by
  have hfree := h.free v
  have hsucc := rowOffset_fullRow_succ out v
  have hv : offsets v.castSucc = (rowOffset (fullRow out) v : Nat) := hoffsets _
  have hend : offsets v.succ = (rowOffset (fullRow out) (v.val + 1) : Nat) := hoffsets _
  refine ⟨by omega, by omega, ?_⟩
  rintro ⟨w, hlo, hhi⟩
  by_cases hw : w = v
  · subst hw
    omega
  · have hcount := (h.counts w).1
    have hw' : offsets w.castSucc = (rowOffset (fullRow out) w : Nat) := hoffsets _
    have hend' : offsets w.succ = (rowOffset (fullRow out) (w.val + 1) : Nat) := hoffsets _
    rcases rowOffset_apart (fullRow out) hw with hapart | hapart <;> omega

/-- The inverses that stand in front of a row do not get in the way of the search. -/
theorem Filled.turnExact {found : Fin n → List (Fin n)} {t : InsertState n} (h : Filled out found t)
    (hoffsets : ∀ i, offsets i = (rowOffset (fullRow out) i : Nat))
    (hsorted : ∀ u, (out u).Pairwise (· < ·)) {u v : Fin n} (hbelow : ∀ w ∈ found v, w < u)
    (hroom : u ∉ out v → (found v).length < (missing out v).length) :
    TurnExact (rowEdges out) offsets (fun w => (missing out w).length) u v
      ((found v).reverse ++ out v) t := by
  have hpartition : BinarySearch.Partitioned u ((found v).reverse ++ out v) :=
    BinarySearch.partitioned_append (by simpa using hbelow) (hsorted v)
  have hsearch := BinarySearch.search_eq hpartition
  have hmem : u ∈ (found v).reverse ++ out v ↔ u ∈ out v := by
    rw [List.mem_append, List.mem_reverse]
    exact or_iff_right fun hu => lt_irrefl u (hbelow u hu)
  refine ⟨hpartition, hsearch, hmem.trans (mem_rowEdges (e := ⟨v, u⟩)).symm, h.counts, fun hmiss => ?_⟩
  rw [hsearch, decide_eq_false_iff_not, hmem] at hmiss
  exact h.freeSlot hoffsets (hroom hmiss)

/-- What stands in the arrays when a neighbour gets its turn. -/
theorem Filled.atTurn (hoffsets : ∀ i, offsets i = (rowOffset (fullRow out) i : Nat))
    (hsorted : ∀ u, (out u).Pairwise (· < ·)) (hloop : ∀ u, u ∉ out u) {s₀ : InsertState n}
    (h : Filled out (sourcesBelow (Missing out) 0) s₀) {u : Fin n} {i : Int} {t : InsertState n}
    (hturn : AtTurn offsets s₀ u i t) :
    ∃ (j : Nat) (hj : j < (turnRow out u).length),
      readWord t.neighs i = some (turnRow out u)[j] ∧
      Filled out (sourcesSeen (Missing out) u ((turnRow out u).take j)) t := by
  obtain ⟨s, j, hbefore, rfl, hlt, hrun⟩ := hturn
  -- the vertices below `u` have had their turns, and the neighbours of `u` in front of `j`
  have hs : Filled out (sourcesBelow (Missing out) u) s :=
    Loop.overFin_invariant_of_eq (fun k => Filled out (sourcesBelow (Missing out) k)) h
      (fun u _ hs => addInversesOf_eq hoffsets hsorted hloop u hs) u.isLt.le hbefore
  have hj : j < (turnRow out u).length := by
    have hlength := hs.length_turnRow hoffsets
    omega
  have ht : Filled out (sourcesSeen (Missing out) u ((turnRow out u).take j)) t := by
    apply Loop.upTo_invariant_of_eq
      (fun j => Filled out (sourcesSeen (Missing out) u ((turnRow out u).take j)))
      _ (fun j _ hj ht => hs.addInverse_turn hoffsets hsorted (hloop u) hj ht) hj.le hrun
    rwa [List.take_zero, sourcesSeen_nil]
  exact ⟨j, hj, hs.readWord_turnRow (hloop u) hoffsets ht hj, ht⟩

end Turn

/-! ## All turns -/

section

variable {out : Fin n → List (Fin n)} {s : RowArrays n}

/-- Without an edge there is nothing to reallocate, and Step 3 is not reached. -/
theorem spreadOut_eq_none (hs : RowsInOrder (fun _ : Fin n => []) s) : spreadOut s = none := by
  obtain ⟨raised, hraise, -, hlast⟩ := raiseOffsets_eq hs.offsets
  have hmissing (k : Nat) : rowOffset (missing fun _ : Fin n => []) k = 0 := by
    simp [rowOffset, offset, missing, sourcesBelow]
  have hout : rowOffset (fun _ : Fin n => ([] : List (Fin n))) n = 0 := by
    simp [rowOffset, offset]
  rw [spreadOut, countInverses_eq hs fun _ => List.Pairwise.nil]
  simp only [Option.bind_eq_bind, Option.bind_some]
  rw [makeRoom, hraise]
  simp only [Option.bind_eq_bind, Option.bind_some]
  rw [hmissing, hlast, hout, update_self, realloc, if_neg (by simp)]
  rfl

theorem insertsExactly_of_nil (hs : RowsInOrder out s) (hnil : rowEdges out = []) :
    InsertsExactly (rowEdges out) s := by
  have hout : out = fun _ => [] := by
    funext u
    apply List.eq_nil_iff_forall_not_mem.mpr
    intro v hv
    have hedge : (⟨u, v⟩ : EdgePair (Fin n) (Fin n)) ∈ rowEdges out := mem_rowEdges.mpr hv
    rw [hnil] at hedge
    exact List.not_mem_nil hedge
  subst hout
  have hnone := spreadOut_eq_none hs
  exact ⟨fun h => absurd hnil h, fun _ _ h => absurd (hnone ▸ h) nofun,
    fun _ _ h => absurd (hnone ▸ h) nofun⟩

theorem length_missing_le (v : Fin n) : (missing out v).length ≤ n := by
  have hnodup : (missing out v).Nodup := (sourcesBelow_sorted n v).imp fun hab => hab.ne
  simpa using hnodup.length_le_card

theorem insertsExactly (hs : RowsInOrder out s) (hsorted : ∀ u, (out u).Pairwise (· < ·))
    (hloop : ∀ u, u ∉ out u) (hpos : 0 < rowOffset out n) (hn : n < 2 ^ 31) :
    InsertsExactly (rowEdges out) s := by
  obtain ⟨offsets, neighs, hrun, hoffsets, hspread⟩ := spreadOut_eq hs hsorted hpos
  refine ⟨fun _ => ⟨_, hrun⟩, fun offsets' s₀ hrun' u i t hturn => ?_, fun offsets' s₀ hrun' => ?_⟩
  · rw [hrun, Option.some_inj, Prod.mk.injEq] at hrun'
    obtain ⟨rfl, rfl⟩ := hrun'
    -- a neighbour has its turn once, so that `u` is not among its inverses yet
    obtain ⟨j, hj, hread, ht⟩ := Filled.atTurn hoffsets hsorted hloop hspread.filled hturn
    have hfresh := getElem_not_mem_take (turnRow_nodup hsorted u) hj
    have hold := sourcesSeen_of_not_mem (R := Missing out) (u := u) hfresh
    refine ⟨_, _, hread, ht.readRange_eq hoffsets _, ht.turnExact hoffsets hsorted ?_ ?_⟩
    · rw [hold]
      exact fun w hw => (mem_sourcesBelow.mp hw).1
    · rw [hold]
      exact fun hu => length_sourcesBelow_lt ⟨mem_of_turnRow (List.getElem_mem hj) hu, hu⟩
  · rw [hrun, Option.some_inj, Prod.mk.injEq] at hrun'
    obtain ⟨rfl, rfl⟩ := hrun'
    obtain ⟨t, hadd, hfilled⟩ := addInverses_eq hoffsets hsorted hloop hspread
    refine ⟨countInverses_eq hs hsorted, fun v => ?_, t, hadd, fun v => ?_⟩
    · have hle := @length_missing_le n out v
      show ((missing out v).length : Int) < 2 ^ 31
      omega
    · rw [hfilled.free, sub_self]

end

/-! ## The lists that are built in place -/

/-- A sorted, de-duplicated and loop-free edge list. -/
structure Squished (el : List (EdgePair (Fin n) (Fin n))) : Prop where
  sorted : el.Pairwise fun a b => b.lt a = false
  nodup : el.Nodup
  loopFree : ∀ e ∈ el, e.u ≠ e.v

/-- Edges that are not below each other are the same. -/
theorem EdgePair.eq_of_not_lt {a b : EdgePair (Fin n) (Fin n)} (hab : a.lt b = false)
    (hba : b.lt a = false) : a = b := by
  rw [← Bool.not_eq_true, EdgePair.lt_iff] at hab hba
  obtain ⟨au, av⟩ := a
  obtain ⟨bu, bv⟩ := b
  simp only [Fin.lt_def, Fin.ext_iff] at hab hba
  rw [EdgePair.mk.injEq, Fin.ext_iff, Fin.ext_iff]
  omega

theorem Squished.rowEdges_eq {el : List (EdgePair (Fin n) (Fin n))} (h : Squished el) :
    el = rowEdges (builtRow false false el) := by
  have hsorted : el.Pairwise fun a b => a.lt b = true := by
    refine (h.sorted.and h.nodup).imp fun {a b} hab => ?_
    by_contra hlt
    exact hab.2 (EdgePair.eq_of_not_lt (Bool.not_eq_true _ ▸ hlt) hab.1)
  apply hsorted.eq_of_mem_iff (rowEdges_sorted builtRow_sorted)
  intro e
  rw [mem_rowEdges, mem_builtRow]
  simpa using h.loopFree e

/-- On every list of this kind Step 3 is exact. -/
theorem addInverses_exact (T : Nat) [NeZero T] (hn : n < 2 ^ 31) (capacity : Nat)
    {el : List (EdgePair (Fin n) (Fin n))} (h : Squished el) (m : InPlaceMem n) :
    (repurposeEdges T true capacity el).Correct m fun _ m' => InsertsExactly el m'.rows := by
  apply Solo.correct
  rw [h.rowEdges_eq]
  apply (repurposeEdges_solo builtRow_sorted hn capacity m).mono
  rintro _ m' ⟨hrows, -⟩
  rcases Nat.eq_zero_or_pos (rowOffset (builtRow false false el) n) with hzero | hpos
  · apply insertsExactly_of_nil hrows
    exact List.eq_nil_of_length_eq_zero (length_rowEdges.trans hzero)
  · exact insertsExactly hrows builtRow_sorted (fun u hu => (mem_builtRow.mp hu).1 rfl) hpos hn

/-- Two inverses go in front of the row of one vertex. -/
theorem addInverses_exact_fork :
    (repurposeEdges 2 true 2 [⟨0, 1⟩, ⟨2, 1⟩]).Correct (default : InPlaceMem 3) fun _ m' =>
      InsertsExactly [⟨0, 1⟩, ⟨2, 1⟩] m'.rows :=
  addInverses_exact 2 (by decide) 2 ⟨by decide, by decide, by decide⟩ default

end Gapbs
