import Mathlib.Data.List.Destutter
import Gapbs.Builder.MakeCsr

/-!
# Removing self-loops and redundant edges

`SquishCSR` and `SquishGraph` of `builder.h`: every neighbourhood is sorted, freed of duplicates and
of its own vertex in place, and what is left is copied into a fresh, compact array.
-/

namespace Gapbs

open Conc Function RawArray

variable {n : Nat} {D : Type}

/-- The arrays of `SquishCSR`.  `neighs` is the neighbour array of the graph, on which the algorithms
work in place; the others are allocated here. -/
structure SquishMem (n : Nat) (D : Type) where
  neighs : List D
  diffs : Fin n → Int
  sums : PrefixMem Int n (blockCount n prefixBlockSize)
  sqNeighs : List (Option D)
  sqIndex : Fin (n + 1) → Int

namespace SquishMem

def sumsLens : Lens (SquishMem n D) (PrefixMem Int n (blockCount n prefixBlockSize)) where
  get m := m.sums
  set sums m := { m with sums }
  get_set _ _ := rfl
  set_get _ := rfl
  set_set _ _ _ := rfl

def sqIndexLens : Lens (SquishMem n D) (Fin (n + 1) → Int) where
  get m := m.sqIndex
  set sqIndex m := { m with sqIndex }
  get_set _ _ := rfl
  set_get _ := rfl
  set_set _ _ _ := rfl

end SquishMem

/-- `std::sort` on a list, by `operator<`. -/
def sortList [Dest n D] (xs : List D) : List D := xs.mergeSort fun a b => !Dest.lt b a

/-- `std::unique` on a list, by `operator==`: an element equal to the last one kept is dropped. -/
def uniqueList [Dest n D] (xs : List D) : List D := xs.destutter fun a b => Dest.eq a b = false

/-- `std::remove` of a vertex from a list. -/
def removeVertex [Dest n D] (v : Fin n) (xs : List D) : List D :=
  xs.filter fun d => Dest.id d ≠ v

/-- An algorithm of the standard library that shortens the range from `first` to `last`; its result
is the new end of the range. -/
def shorten (f : List D → List D) (first last : Nat) : Prog (SquishMem n D) Nat :=
  .op fun m => (modifyRange f first last m.neighs).map fun neighs =>
    (first + (f (slice m.neighs first last)).length, { m with neighs })

/-- One iteration of the first loop. -/
def squishNeighborhood [Dest n D] (c : Csr n D) (v : Fin n) : Prog (SquishMem n D) Unit := do
  let nStart := c.index v.castSucc
  let nEnd := c.index v.succ
  let _ ← shorten sortList nStart nEnd
  let newEnd ← shorten uniqueList nStart nEnd
  let newEnd ← shorten (removeVertex v) nStart newEnd
  .store fun m => { m with diffs := update m.diffs v (toNodeID (newEnd - nStart : Int)) }

/-- One iteration of the second loop: `std::copy(n_start, n_start + diffs[n], (*sq_index)[n])`. -/
def copySquished (c : Csr n D) (v : Fin n) : Prog (SquishMem n D) Unit := do
  let nStart := c.index v.castSucc
  let diff ← .load fun m => m.diffs v
  let start ← .load fun m => m.sqIndex v.castSucc
  .storeAt fun m =>
    if 0 ≤ diff ∧ nStart + diff.toNat ≤ m.neighs.length ∧ 0 ≤ start ∧
        start.toNat + diff.toNat ≤ m.sqNeighs.length then
      let kept := slice m.neighs nStart (nStart + diff.toNat)
      some { m with sqNeighs := write m.sqNeighs start.toNat (kept.map some) }
    else none

/-- The direction of a graph that `SquishCSR` works on. -/
def CSRGraph.side (g : CSRGraph n D) (transpose : Bool) : Csr n D := if transpose then g.inn else g.out

/-- `SquishCSR(g, transpose, sq_index, sq_neighs)` -/
def squishCSR [Dest n D] (T : Nat) [NeZero T] (g : CSRGraph n D) (transpose : Bool) :
    Prog (SquishMem n D) (Csr n D) := do
  let c := g.side transpose
  .store fun m => { m with neighs := c.neighbors }
  .parallelFor T n (squishNeighborhood c)
  let diffs ← .load fun m => m.diffs
  (parallelPrefixSum T prefixBlockSize diffs).zoom SquishMem.sumsLens
  .storeAt fun m => (newArray (m.sums.offsets (Fin.last n))).map fun sqNeighs => { m with sqNeighs }
  let sqOffsets ← .load fun m => m.sums.offsets
  (genIndex T sqOffsets).zoom SquishMem.sqIndexLens
  .parallelFor T n (copySquished c)
  .loadAt fun m => (values m.sqNeighs).bind (Csr.ofPointers m.sqIndex)

/-- `SquishGraph(g)` -/
def squishGraph [Dest n D] (T : Nat) [NeZero T] (g : CSRGraph n D) :
    Prog (SquishMem n D) (CSRGraph n D) := do
  let out ← squishCSR T g false
  if g.directed then
    let inn ← squishCSR T g true
    return .ofDirected out inn g.nodes_lt
  else return .ofUndirected out g.nodes_lt

/-- What is left of a neighbourhood. -/
def squishRow [Dest n D] (v : Fin n) (xs : List D) : List D :=
  removeVertex v (uniqueList (sortList xs))

@[simp] theorem length_sortList [Dest n D] (xs : List D) : (sortList xs).length = xs.length :=
  List.length_mergeSort _

theorem length_uniqueList_le [Dest n D] (xs : List D) : (uniqueList xs).length ≤ xs.length :=
  (List.destutter_sublist _ xs).length_le

theorem length_removeVertex_le [Dest n D] (v : Fin n) (xs : List D) :
    (removeVertex v xs).length ≤ xs.length :=
  List.length_filter_le ..

/-! ## The first loop -/

section Squish

variable (c : Csr n D)

/-- What the iteration of vertex `v` may do. -/
structure SquishStep (v : Fin n) (m m' : SquishMem n D) : Prop where
  length : m'.neighs.length = m.neighs.length
  neighs : ∀ k, k < c.index v.castSucc ∨ c.index v.succ ≤ k → m'.neighs[k]? = m.neighs[k]?
  diffs : ∀ w, w ≠ v → m'.diffs w = m.diffs w

/-- The range of `v` begins with `xs`. -/
structure Begins (v : Fin n) (xs : List D) (m : SquishMem n D) : Prop where
  length : m.neighs.length = c.neighbors.length
  fits : c.index v.castSucc + xs.length ≤ c.index v.succ
  slice : slice m.neighs (c.index v.castSucc) (c.index v.castSucc + xs.length) = xs

variable {c}

theorem Begins.stable {v w : Fin n} {xs : List D} {m m' : SquishMem n D} (h : Begins c v xs m)
    (hvw : v ≠ w) (hstep : SquishStep c w m m') : Begins c v xs m' := by
  have hfits := h.fits
  refine ⟨hstep.length.trans h.length, hfits, ?_⟩
  rw [slice_congr, h.slice]
  intro k hlo hhi
  apply hstep.neighs
  rcases c.index_apart hvw with hle | hle <;> omega

theorem Begins.stable_others (v : Fin n) (xs : List D) :
    Stable (fun σ τ : SquishMem n D × Unit => ∃ w, w ≠ v ∧ SquishStep c w σ.1 τ.1)
      fun σ => Begins c v xs σ.1 :=
  fun _ _ hσ ⟨_, hne, hstep⟩ => hσ.stable hne.symm hstep

/-- An algorithm that shortens the range does so with its contents. -/
theorem shorten_bind_wp {v : Fin n} {xs : List D} {f : List D → List D} {k : Nat → Prog _ Unit}
    {Q : Unit → SquishMem n D × Unit → Prop} (hf : (f xs).length ≤ xs.length)
    (hk : ∀ m, Begins c v (f xs) m → WP
      (fun σ τ : SquishMem n D × Unit => ∃ w, w ≠ v ∧ SquishStep c w σ.1 τ.1)
      (fun σ τ => SquishStep c v σ.1 τ.1) Q (k (c.index v.castSucc + (f xs).length)) (m, ()))
    {m : SquishMem n D} (hm : Begins c v xs m) :
    WP (fun σ τ : SquishMem n D × Unit => ∃ w, w ≠ v ∧ SquishStep c w σ.1 τ.1)
      (fun σ τ => SquishStep c v σ.1 τ.1) Q
      ((shorten f (c.index v.castSucc) (c.index v.castSucc + xs.length)).bind k) (m, ()) := by
  apply WP.op_bind (P := fun σ => Begins c v xs σ.1) hm (Begins.stable_others v xs)
  intro m _ (hm : Begins c v xs m)
  have hfits := hm.fits
  have hindex := c.index_le_length v.succ
  have hmod := modifyRange_eq (f := f) (Nat.le_add_right ..) (by rw [hm.length]; omega) hm.slice
  have hlen : c.index v.castSucc + (f xs).length ≤ m.neighs.length := by
    rw [hm.length]
    omega
  let m' : SquishMem n D := { m with neighs := write m.neighs (c.index v.castSucc) (f xs) }
  have hm' : Begins c v (f xs) m' :=
    ⟨(length_write hlen).trans hm.length, by omega, slice_write hlen⟩
  refine ⟨_, m', (), ?_, .inr ⟨length_write hlen, fun k hk => ?_, fun _ _ => rfl⟩, hk m' hm'⟩
  · rw [hmod, hm.slice]
    rfl
  · apply getElem?_write_of_outside hlen
    omega

theorem squishNeighborhood_wp [Dest n D] {v : Fin n}
    (hsmall : (squishRow v (c.neigh v)).length < 2 ^ 31) {m : SquishMem n D}
    (hm : Begins c v (c.neigh v) m) :
    WP (Γ := Unit) (fun σ τ => ∃ w, w ≠ v ∧ SquishStep c w σ.1 τ.1)
      (fun σ τ => SquishStep c v σ.1 τ.1)
      (fun _ σ => Begins c v (squishRow v (c.neigh v)) σ.1 ∧
        σ.1.diffs v = (squishRow v (c.neigh v)).length)
      (squishNeighborhood c v) (m, ()) := by
  have hend : c.index v.succ = c.index v.castSucc + (c.neigh v).length := by
    have hle := c.index_le v
    rw [c.length_neigh, Csr.degree]
    omega
  have hstable := Begins.stable_others (c := c) v
  rw [squishNeighborhood, hend]
  apply shorten_bind_wp (length_sortList _).le _ hm
  intro m hm
  rw [← length_sortList (c.neigh v)]
  apply shorten_bind_wp (length_uniqueList_le _) _ hm
  intro m hm
  apply shorten_bind_wp (length_removeVertex_le ..) _ hm
  intro m hm
  apply WP.store (P := fun σ => Begins c v (squishRow v (c.neigh v)) σ.1) _ (hstable _)
  · rintro _ σ τ ⟨hσ, hdiff⟩ ⟨w, hw, hstep⟩
    exact ⟨hσ.stable hw.symm hstep, (hstep.diffs v hw.symm).trans hdiff⟩
  · intro m _ hm
    refine ⟨(), .inr ⟨rfl, fun _ _ => rfl, fun w hw => update_of_ne hw ..⟩, ⟨hm.length, hm.fits,
      hm.slice⟩, ?_⟩
    show update m.diffs v _ v = _
    rw [update_self, Nat.cast_add, add_sub_cancel_left]
    exact toNodeID_eq hsmall
  · exact hm

/-! ## The second loop -/

variable (c) in
/-- What the second loop works on. -/
structure CompactLayout (rows : Fin n → List D) (m : SquishMem n D) : Prop where
  begins : ∀ v, Begins c v (rows v) m
  diffs : ∀ v, m.diffs v = ((rows v).length : Nat)
  sqIndex : ∀ i, m.sqIndex i = (Csr.rowOffset rows i : Nat)
  length : m.sqNeighs.length = Csr.rowOffset rows n

/-- What the iteration of vertex `v` may do. -/
structure CompactStep (rows : Fin n → List D) (v : Fin n) (m m' : SquishMem n D) : Prop where
  neighs : m'.neighs = m.neighs
  diffs : m'.diffs = m.diffs
  sqIndex : m'.sqIndex = m.sqIndex
  length : m'.sqNeighs.length = m.sqNeighs.length
  sqNeighs : ∀ k, k < Csr.rowOffset rows v ∨ Csr.rowOffset rows (v.val + 1) ≤ k →
    m'.sqNeighs[k]? = m.sqNeighs[k]?

/-- The neighbourhood of `v` has been copied. -/
def Compacted (rows : Fin n → List D) (v : Fin n) (m : SquishMem n D) : Prop :=
  slice m.sqNeighs (Csr.rowOffset rows v) (Csr.rowOffset rows (v.val + 1)) = (rows v).map some

theorem CompactLayout.step {rows : Fin n → List D} {v : Fin n} {m m' : SquishMem n D}
    (h : CompactLayout c rows m) (hstep : CompactStep rows v m m') : CompactLayout c rows m' := by
  refine ⟨fun w => ?_, fun w => ?_, fun i => ?_, hstep.length.trans h.length⟩
  · have hw := h.begins w
    exact ⟨by rw [hstep.neighs, hw.length], hw.fits, by rw [hstep.neighs, hw.slice]⟩
  · rw [hstep.diffs, h.diffs]
  · rw [hstep.sqIndex, h.sqIndex]

theorem Compacted.stable {rows : Fin n → List D} {v w : Fin n} {m m' : SquishMem n D}
    (h : Compacted rows v m) (hvw : v ≠ w) (hstep : CompactStep rows w m m') :
    Compacted rows v m' := by
  rw [Compacted, slice_congr, h]
  intro k hlo hhi
  apply hstep.sqNeighs
  rcases lt_or_gt_of_ne hvw with hlt | hlt
  · have hle := Csr.rowOffset_mono rows (Nat.succ_le_of_lt hlt)
    exact .inl (hhi.trans_le hle)
  · have hle := Csr.rowOffset_mono rows (Nat.succ_le_of_lt hlt)
    exact .inr (hle.trans hlo)

theorem copySquished_wp {rows : Fin n → List D} {v : Fin n} {m : SquishMem n D}
    (hm : CompactLayout c rows m) :
    WP (Γ := Unit) (fun σ τ => ∃ w, w ≠ v ∧ CompactStep rows w σ.1 τ.1)
      (fun σ τ => CompactStep rows v σ.1 τ.1) (fun _ σ => Compacted rows v σ.1)
      (copySquished c v) (m, ()) := by
  have hstable : Stable (fun σ τ : SquishMem n D × Unit => ∃ w, w ≠ v ∧ CompactStep rows w σ.1 τ.1)
      fun σ => CompactLayout c rows σ.1 :=
    fun _ _ hσ ⟨_, _, hstep⟩ => hσ.step hstep
  apply WP.load_bind (P := fun σ => CompactLayout c rows σ.1) hm hstable
  intro m _ (hm : CompactLayout c rows m)
  rw [hm.diffs v]
  apply WP.load_bind (P := fun σ => CompactLayout c rows σ.1) hm hstable
  intro m _ (hm : CompactLayout c rows m)
  rw [hm.sqIndex v.castSucc]
  apply WP.storeAt (P := fun σ => CompactLayout c rows σ.1) hm hstable
  · rintro _ σ τ hσ ⟨w, hw, hstep⟩
    exact hσ.stable hw.symm hstep
  intro m _ (hm : CompactLayout c rows m)
  have hbegins := hm.begins v
  have hfits := hbegins.fits
  have hindex := c.index_le_length v.succ
  have hsucc := Csr.rowOffset_succ rows v
  have hmono := Csr.rowOffset_mono rows (Nat.succ_le_of_lt v.isLt)
  have hread : c.index v.castSucc + (rows v).length ≤ m.neighs.length := by
    rw [hbegins.length]
    omega
  have hspace : Csr.rowOffset rows v + ((rows v).map some).length ≤ m.sqNeighs.length := by
    rw [List.length_map, hm.length, ← hsucc]
    exact hmono
  let copied := write m.sqNeighs (Csr.rowOffset rows v) ((rows v).map some)
  refine ⟨{ m with sqNeighs := copied }, (), ?_, .inr ⟨rfl, rfl, rfl, length_write hspace,
    fun k hk => ?_⟩, ?_⟩
  · simp only [Int.toNat_natCast, Int.natCast_nonneg, true_and, Fin.val_castSucc]
    rw [List.length_map] at hspace
    rw [if_pos ⟨hread, hspace⟩, hbegins.slice]
  · apply getElem?_write_of_outside hspace
    rw [List.length_map, ← hsucc]
    exact hk
  · have hslice := slice_write hspace
    rwa [List.length_map, ← hsucc] at hslice

end Squish

/-! ## The whole construction -/

section

variable [Dest n D] {T : Nat} [NeZero T] {g : CSRGraph n D}

/-- Whatever the schedule, `SquishCSR` shrinks each neighbourhood to what `squishRow` leaves of it. -/
theorem squishCSR_solo {transpose : Bool}
    (hsmall : ∀ v, (squishRow v ((g.side transpose).neigh v)).length < 2 ^ 31) (m : SquishMem n D) :
    Solo (squishCSR T g transpose) m fun c _ =>
      c = .ofRows fun v => squishRow v ((g.side transpose).neigh v) := by
  rw [squishCSR]
  generalize g.side transpose = c at *
  let rows (v : Fin n) : List D := squishRow v (c.neigh v)
  apply Solo.store_bind
  apply Solo.bind
  apply (Solo.parallelFor_of_own (SquishStep c) (fun _ => True)
    (fun v m => Begins c v (c.neigh v) m) (fun v m => Begins c v (rows v) m ∧
      m.diffs v = ((rows v).length : Nat)) trivial ?_ (fun _ _ _ _ _ => trivial)
    (fun _ _ _ _ hvw _ h hstep => h.stable hvw hstep) ?_ ?_).mono
  · rintro _ m ⟨-, hrows⟩
    apply Solo.load_bind
    have hdiffs : m.diffs = fun v => (((rows v).length : Nat) : Int) := funext fun v => (hrows v).2
    rw [hdiffs]
    apply Solo.bind
    apply (Solo.zoom (parallelPrefixSum_solo (by decide) _)).mono
    rintro _ m' ⟨hsums, hm'⟩
    have hoffsets (i : Fin (n + 1)) : m'.sums.offsets i = (Csr.rowOffset rows i : Nat) := by
      rw [Csr.rowOffset, ← offset_natCast]
      exact hsums i
    apply Solo.storeAt_bind (t := { m' with
      sqNeighs := List.replicate (Csr.rowOffset rows n) none })
    · rw [show m'.sums.offsets (Fin.last n) = _ from hoffsets _, newArray,
        if_pos (Int.natCast_nonneg _)]
      rfl
    apply Solo.load_bind
    apply Solo.bind
    apply (Solo.zoom (genIndex_solo g.nodes_lt _ _)).mono
    rintro _ m'' ⟨hindex, hm''⟩
    -- what the second loop starts from: the rows, shortened in place, and an offset for each
    have hlayout : CompactLayout c rows m'' := by
      refine ⟨fun v => ?_, fun v => ?_, fun i => ?_, ?_⟩
      · have hv := (hrows v).1
        rw [hm'', hm']
        exact ⟨hv.length, hv.fits, hv.slice⟩
      · rw [hm'', hm']
        exact (hrows v).2
      · exact (congrFun hindex i).trans (hoffsets i)
      · rw [hm'']
        exact List.length_replicate ..
    apply Solo.bind
    apply (Solo.parallelFor_of_own (CompactStep rows) (CompactLayout c rows) (fun _ _ => True)
      (Compacted rows) hlayout (fun _ => trivial) (fun _ _ _ h hstep => h.step hstep)
      (fun _ _ _ _ _ _ _ _ => trivial) (fun _ _ _ _ hvw _ h hstep => h.stable hvw hstep)
      fun v m hm _ => copySquished_wp hm).mono
    rintro _ m ⟨hlayout, hcopied⟩
    apply Solo.loadAt (a := Csr.ofRows rows)
    · have hindex : m.sqIndex = fun i : Fin (n + 1) => ((Csr.rowOffset rows i : Nat) : Int) :=
        funext hlayout.sqIndex
      rw [hindex]
      exact Csr.values_bind_ofPointers hlayout.length hcopied
    · rfl
  · intro v
    have hle := c.index_le v
    have hend : c.index v.castSucc + (c.neigh v).length = c.index v.succ := by
      rw [c.length_neigh, Csr.degree]
      omega
    refine ⟨rfl, hend.le, ?_⟩
    rw [hend, c.neigh_eq_slice]
  · rintro v w m m' hvw - ⟨hbegins, hdiff⟩ hstep
    exact ⟨hbegins.stable hvw hstep, (hstep.diffs v hvw).trans hdiff⟩
  · exact fun v m _ hm => squishNeighborhood_wp (hsmall v) hm

/-- The graph that `SquishGraph` makes of `g`. -/
def CSRGraph.squished (g : CSRGraph n D) : CSRGraph n D :=
  let out := Csr.ofRows fun v => squishRow v (g.outNeigh v)
  let inn := Csr.ofRows fun v => squishRow v (g.inNeigh v)
  if g.directed then .ofDirected out inn g.nodes_lt else .ofUndirected out g.nodes_lt

theorem squishGraph_solo
    (hsmall : ∀ transpose v, (squishRow v ((g.side transpose).neigh v)).length < 2 ^ 31)
    (m : SquishMem n D) : Solo (squishGraph T g) m fun h _ => h = g.squished := by
  apply Solo.bind
  apply (squishCSR_solo (hsmall false) m).mono
  rintro _ m rfl
  by_cases hg : g.directed
  · rw [if_pos hg]
    apply Solo.bind
    apply (squishCSR_solo (hsmall true) m).mono
    rintro _ m rfl
    exact Solo.ret (if_pos hg).symm
  · rw [if_neg hg]
    exact Solo.ret (if_neg hg).symm

end

end Gapbs
