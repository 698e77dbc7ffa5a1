import Gapbs.Builder.Inverses

/-!
# Building a graph in place

`MakeGraph` of `builder.h` when the graph is built in the memory of its edge list.  It makes the
same graph as the regular path, which collects the neighbours first and squishes them afterwards.
-/

namespace Gapbs

open Conc Function RawArray Csr

variable {n : Nat}

/-! ## The program -/

/-- The arrays of `MakeCSRInPlace`; `neighs` starts as the memory of the edge list. -/
structure InPlaceMem (n : Nat) where
  degrees : Fin n → Int
  sums : PrefixMem Int n (blockCount n prefixBlockSize)
  indegrees : Fin n → Int
  insums : PrefixMem Int n (blockCount n prefixBlockSize)
  neighs : List (Option (Fin n))
  index : Fin (n + 1) → Int
  invNeighs : List (Option (Fin n))
  invIndex : Fin (n + 1) → Int

namespace InPlaceMem

instance : Inhabited (InPlaceMem n) :=
  let sums : PrefixMem Int n (blockCount n prefixBlockSize) := ⟨fun _ => 0, fun _ => 0, fun _ => 0⟩
  ⟨⟨fun _ => 0, sums, fun _ => 0, sums, [], fun _ => 0, [], fun _ => 0⟩⟩

def degreesLens : Lens (InPlaceMem n) (Fin n → Int) where
  get m := m.degrees
  set degrees m := { m with degrees }
  get_set _ _ := rfl
  set_get _ := rfl
  set_set _ _ _ := rfl

def sumsLens : Lens (InPlaceMem n) (PrefixMem Int n (blockCount n prefixBlockSize)) where
  get m := m.sums
  set sums m := { m with sums }
  get_set _ _ := rfl
  set_get _ := rfl
  set_set _ _ _ := rfl

def indegreesLens : Lens (InPlaceMem n) (Fin n → Int) where
  get m := m.indegrees
  set indegrees m := { m with indegrees }
  get_set _ _ := rfl
  set_get _ := rfl
  set_set _ _ _ := rfl

def insumsLens : Lens (InPlaceMem n) (PrefixMem Int n (blockCount n prefixBlockSize)) where
  get m := m.insums
  set insums m := { m with insums }
  get_set _ _ := rfl
  set_get _ := rfl
  set_set _ _ _ := rfl

def indexLens : Lens (InPlaceMem n) (Fin (n + 1) → Int) where
  get m := m.index
  set index m := { m with index }
  get_set _ _ := rfl
  set_get _ := rfl
  set_set _ _ _ := rfl

def invIndexLens : Lens (InPlaceMem n) (Fin (n + 1) → Int) where
  get m := m.invIndex
  set invIndex m := { m with invIndex }
  get_set _ _ := rfl
  set_get _ := rfl
  set_set _ _ _ := rfl

/-- The heap has room for the arrays of any number of vertices. -/
def sizeLens (n : Nat) : Lens (∀ n, InPlaceMem n) (InPlaceMem n) where
  get m := m n
  set a m := update m n a
  get_set _ _ := update_self ..
  set_get _ := update_eq_self ..
  set_set _ _ _ := update_idem ..

/-- `offsets` and `*neighs` -/
def rows (m : InPlaceMem n) : RowArrays n := ⟨m.sums.offsets, m.neighs⟩

def setRows (m : InPlaceMem n) (s : RowArrays n) : InPlaceMem n :=
  { m with sums := { m.sums with offsets := s.offsets }, neighs := s.neighs }

/-- `inoffsets` and `*inv_neighs` -/
def inRows (m : InPlaceMem n) : RowArrays n := ⟨m.insums.offsets, m.invNeighs⟩

def setInRows (m : InPlaceMem n) (s : RowArrays n) : InPlaceMem n :=
  { m with insums := { m.insums with offsets := s.offsets }, invNeighs := s.neighs }

end InPlaceMem

/-- The first half of `MakeCSRInPlace`: analyze the squished edge list and repurpose its memory for
outgoing edges.  `capacity` edges have fitted there. -/
def repurposeEdges (T : Nat) [NeZero T] (symmetrize : Bool) (capacity : Nat)
    (el : List (EdgePair (Fin n) (Fin n))) : Prog (InPlaceMem n) Unit := do
  (countDegrees T symmetrize true el false).zoom InPlaceMem.degreesLens
  let degrees ← .load fun m => m.degrees
  (parallelPrefixSum T prefixBlockSize degrees).zoom InPlaceMem.sumsLens
  (countDegrees T symmetrize true el true).zoom InPlaceMem.indegreesLens
  let free := List.replicate (2 * (capacity - el.length)) none
  .store fun m => { m with neighs := edgeWords el ++ free }
  .storeAt fun m => (overwriteEdges el.length m.rows).map m.setRows

/-- The end of `MakeCSRInPlace` for a directed graph: finalize structures and make incoming
structures. -/
def finishDirected (T : Nat) [NeZero T] (numEdges : Nat) : Prog (InPlaceMem n) Unit := do
  .storeAt fun m => (realloc m.neighs numEdges).map fun neighs => { m with neighs }
  let offsets ← .load fun m => m.sums.offsets
  (genIndex T offsets).zoom InPlaceMem.indexLens
  let indegrees ← .load fun m => m.indegrees
  (parallelPrefixSum T prefixBlockSize indegrees).zoom InPlaceMem.insumsLens
  .storeAt fun m => (newArray (m.insums.offsets (Fin.last n))).map fun invNeighs =>
    { m with invNeighs }
  let inoffsets ← .load fun m => m.insums.offsets
  (genIndex T inoffsets).zoom InPlaceMem.invIndexLens
  .storeAt fun m => (fillInverses ⟨m.index, m.neighs⟩ m.inRows).map m.setInRows

/-- The end of `MakeCSRInPlace` for a graph that is symmetrized. -/
def finishSymmetric (T : Nat) [NeZero T] : Prog (InPlaceMem n) Unit := do
  .storeAt fun m => (addMissingInverses m.rows).map m.setRows
  let offsets ← .load fun m => m.sums.offsets
  (genIndex T offsets).zoom InPlaceMem.indexLens

/-- `MakeCSRInPlace(el, index, neighs, inv_index, inv_neighs)` -/
def makeCSRInPlace (T : Nat) [NeZero T] (symmetrize : Bool) (el : List (EdgePair (Fin n) (Fin n))) :
    Prog (InPlaceMem n) Unit := do
  -- preprocess EdgeList - sort & squish in place
  let squished := squishEdges el
  repurposeEdges T symmetrize el.length squished
  if !symmetrize then finishDirected T squished.length else finishSymmetric T

/-- `MakeGraphFromEL(el)` for in-place building, once `num_nodes_` is set. -/
def makeGraphFromELInPlace (T : Nat) [NeZero T] (symmetrize : Bool)
    (el : List (EdgePair (Fin n) (Fin n))) : Prog (InPlaceMem n) (Graph n) := do
  makeCSRInPlace T symmetrize el
  if h : n + 1 < 2 ^ 31 then
    let out ← .loadAt fun m => (values m.neighs).bind (Csr.ofPointers m.index)
    if symmetrize then return .ofUndirected out h
    else
      let inn ← .loadAt fun m => (values m.invNeighs).bind (Csr.ofPointers m.invIndex)
      return .ofDirected out inn h
  else .fail

/-- The graph of an edge list, as `MakeGraph` builds it in place. -/
def makeGraphInPlace (T : Nat) [NeZero T] (symmetrize : Bool) (el : List (EdgePair Nat Nat)) :
    Prog (∀ n, InPlaceMem n) ((n : Nat) × Graph n) := do
  let maxSeen ← findMaxNodeID T el
  if maxSeen + 1 < 2 ^ 31 then
    let n := maxSeen + 1
    match el.mapM (toEdge n) with
    | none => .fail
    | some edges =>
      let g ← (makeGraphFromELInPlace T symmetrize edges).zoom (InPlaceMem.sizeLens n)
      return ⟨n, g⟩
  else .fail

/-! ## Degrees of the squished list -/

section

variable {out : Fin n → List (Fin n)}

/-- A vertex is the source of as many edges as its row has entries. -/
theorem count_u_rowEdges (v : Fin n) : ((rowEdges out).map EdgePair.u).count v = (out v).length := by
  have hrow (w : Fin n) : List.count v (List.replicate (out w).length w) =
      if w = v then (out w).length else 0 := by
    rw [List.count_replicate]
    simp
  rw [rowEdges, List.map_flatten, List.count_flatten, List.map_map, List.map_ofFn, List.sum_ofFn]
  simp [Function.comp_def, hrow]

/-- A vertex is the target of as many edges as there are rows with it. -/
theorem count_v_rowEdges (hnodup : ∀ u, (out u).Nodup) (v : Fin n) :
    ((rowEdges out).map EdgePair.v).count v = (inRow out v).length := by
  have hrow (w : Fin n) : List.count v (out w) = if v ∈ out w then 1 else 0 := by
    split
    · next h => exact List.count_eq_one_of_mem (hnodup w) h
    · next h => exact List.count_eq_zero_of_not_mem h
  have hin : (inRow out v).length = ∑ w, if v ∈ out w then 1 else 0 := by
    rw [inRow, ← List.toFinset_card_of_nodup ((sourcesBelow_sorted n v).imp fun hab => hab.ne),
      ← Finset.card_filter]
    congr 1
    ext w
    simp [mem_sourcesBelow]
  rw [hin, rowEdges, List.map_flatten, List.count_flatten, List.map_map, List.map_ofFn, List.sum_ofFn]
  simp [Function.comp_def, hrow]

/-- Sources are counted in both kinds of graphs. -/
theorem degreeOf_rowEdges (symmetrize : Bool) (v : Fin n) :
    degreeOf symmetrize true false (rowEdges out) v = (out v).length := by
  rw [← count_u_rowEdges, degreeOf, List.map_eq_flatMap]
  cases symmetrize <;> rfl

/-- Targets are counted in directed graphs. -/
theorem degreeOf_rowEdges_transpose (hnodup : ∀ u, (out u).Nodup) (v : Fin n) :
    degreeOf false true true (rowEdges out) v = (inRow out v).length := by
  rw [← count_v_rowEdges hnodup, degreeOf, List.map_eq_flatMap]
  rfl

end

/-! ## The construction -/

section

variable {T : Nat} [NeZero T] {out : Fin n → List (Fin n)}

/-- The offsets of rows whose lengths have been counted. -/
theorem offset_eq_rowOffset {rows : Fin n → List (Fin n)} {degrees : Fin n → Int}
    (h : ∀ v, degrees v = (rows v).length) (k : Nat) :
    offset degrees k = (rowOffset rows k : Nat) := by
  obtain rfl : degrees = fun v => ((rows v).length : Int) := funext h
  exact offset_natCast _ k

theorem repurposeEdges_solo {symmetrize : Bool} (hsorted : ∀ u, (out u).Pairwise (· < ·))
    (hn : n < 2 ^ 31) (capacity : Nat) (m : InPlaceMem n) :
    Solo (repurposeEdges T symmetrize capacity (rowEdges out)) m fun _ m' =>
      RowsInOrder out m'.rows ∧
        (symmetrize = false → ∀ v, m'.indegrees v = (inRow out v).length) := by
  have hnodup (u : Fin n) : (out u).Nodup := (hsorted u).imp fun hab => hab.ne
  have hsmall {xs : List (Fin n)} (hxs : xs.Nodup) : xs.length < 2 ^ 31 :=
    (by simpa using hxs.length_le_card : xs.length ≤ n).trans_lt hn
  apply Solo.bind
  apply (Solo.zoom (countDegrees_solo _)).mono
  rintro _ m ⟨hdegrees, -⟩
  apply Solo.load_bind
  have hcounted (v : Fin n) : m.degrees v = (out v).length := by
    rw [← toNodeID_eq (hsmall (hnodup v)), ← degreeOf_rowEdges symmetrize v]
    exact hdegrees v
  apply Solo.bind
  apply (Solo.zoom (parallelPrefixSum_solo (by decide) _)).mono
  rintro _ m ⟨hsums, -⟩
  have hoffsets (i : Fin (n + 1)) : m.sums.offsets i = (rowOffset out i : Nat) :=
    (hsums i).trans (offset_eq_rowOffset hcounted i)
  apply Solo.bind
  apply (Solo.zoom (countDegrees_solo _)).mono
  rintro _ m' ⟨hindegrees, hm'⟩
  have hoffsets' : ∀ i, m'.sums.offsets i = (rowOffset out i : Nat) := by
    rw [hm']
    exact hoffsets
  apply Solo.store_bind
  let rest : List (Option (Fin n)) := List.replicate (2 * (capacity - (rowEdges out).length)) none
  obtain ⟨rows, hrows, horder⟩ := @overwriteEdges_eq n out rest
    ⟨m'.sums.offsets, edgeWords (rowEdges out) ++ rest⟩ hoffsets' rfl
  have hrun : overwriteEdges (rowEdges out).length
      ⟨m'.sums.offsets, edgeWords (rowEdges out) ++ rest⟩ = some rows := by
    rwa [length_rowEdges]
  apply Solo.storeAt (t := { m' with
    sums := { m'.sums with offsets := rows.offsets }, neighs := rows.neighs })
  · exact congrArg (Option.map _) hrun
  · refine ⟨horder, fun hsymm v => ?_⟩
    have hin : (inRow out v).Nodup := (sourcesBelow_sorted n v).imp fun hab => hab.ne
    show m'.indegrees v = ((inRow out v).length : Int)
    rw [← toNodeID_eq (hsmall hin), ← degreeOf_rowEdges_transpose hnodup v]
    rw [hsymm] at hindegrees
    exact hindegrees v

theorem HoldsRows.ofPointers {rows : Fin n → List (Fin n)} {s : RowArrays n}
    (h : HoldsRows rows s) :
    (values s.neighs).bind (Csr.ofPointers s.offsets) = some (Csr.ofRows rows) := by
  obtain ⟨offsets, neighs⟩ := s
  obtain rfl : offsets = fun i : Fin (n + 1) => ((rowOffset rows i : Nat) : Int) := funext h.offsets
  exact Csr.values_bind_ofPointers h.length h.rows

theorem finishSymmetric_solo (hsorted : ∀ u, (out u).Pairwise (· < ·)) (hloop : ∀ u, u ∉ out u)
    (hpos : 0 < rowOffset out n) (hn : n + 1 < 2 ^ 31) {m : InPlaceMem n}
    (hm : RowsInOrder out m.rows) :
    Solo (finishSymmetric T) m fun _ m' =>
      (values m'.neighs).bind (Csr.ofPointers m'.index) = some (Csr.ofRows (symRow out)) := by
  obtain ⟨rows, hrows, hholds⟩ := addMissingInverses_eq hm hsorted hloop hpos
  apply Solo.storeAt_bind (t := m.setRows rows) (by rw [hrows]; rfl)
  apply Solo.load_bind
  apply (Solo.zoom (genIndex_solo hn _ _)).mono
  rintro _ m' ⟨hindex, hm'⟩
  have hindex' : m'.index = rows.offsets := hindex
  have hneighs : m'.neighs = rows.neighs := by
    rw [hm']
    rfl
  rw [hindex', hneighs]
  exact hholds.ofPointers

/-- Cutting off what lies behind the rows. -/
theorem realloc_rows {s : RowArrays n} (hs : RowsInOrder out s) (hpos : 0 < rowOffset out n) :
    realloc s.neighs (rowOffset out n : Nat) = some (s.neighs.take (rowOffset out n)) ∧
      RowsInOrder out ⟨s.offsets, s.neighs.take (rowOffset out n)⟩ := by
  have hbound := hs.bound
  refine ⟨?_, hs.offsets, ?_, fun u j hj => ?_⟩
  · rw [realloc, if_pos (by omega), Int.toNat_natCast, Nat.sub_eq_zero_of_le hbound,
      List.replicate_zero, List.append_nil]
  · show rowOffset out n ≤ (s.neighs.take (rowOffset out n)).length
    rw [List.length_take]
    omega
  · have hsucc := rowOffset_succ out u
    have hlast := rowOffset_mono out (show u.val + 1 ≤ n from u.isLt)
    show (s.neighs.take (rowOffset out n))[rowOffset out u + j]? = _
    rw [List.getElem?_take, if_pos (by omega), hs.rows u j hj]

theorem finishDirected_solo (hsorted : ∀ u, (out u).Pairwise (· < ·))
    (hpos : 0 < rowOffset out n) (hn : n + 1 < 2 ^ 31) {m : InPlaceMem n}
    (hm : RowsInOrder out m.rows) (hindegrees : ∀ v, m.indegrees v = (inRow out v).length) :
    Solo (finishDirected T (rowOffset out n)) m fun _ m' =>
      (values m'.neighs).bind (Csr.ofPointers m'.index) = some (Csr.ofRows out) ∧
        (values m'.invNeighs).bind (Csr.ofPointers m'.invIndex) = some (Csr.ofRows (inRow out)) := by
  obtain ⟨hrealloc, horder⟩ := realloc_rows hm hpos
  -- `realloc` to the number of edges cuts the buffer behind the last row
  have hout : HoldsRows out ⟨m.sums.offsets, m.neighs.take (rowOffset out n)⟩ := by
    refine ⟨horder.offsets, ?_, horder.slice_eq⟩
    have hbound := hm.bound
    exact List.length_take_of_le hbound
  change realloc m.neighs _ = _ at hrealloc
  apply Solo.storeAt_bind (t := { m with neighs := m.neighs.take (rowOffset out n) })
    (by rw [hrealloc]; rfl)
  apply Solo.load_bind
  apply Solo.bind
  apply (Solo.zoom (genIndex_solo hn _ _)).mono
  rintro _ m₁ ⟨hindex, hm₁⟩
  have hindegrees₁ : ∀ v, m₁.indegrees v = (inRow out v).length := by
    rw [hm₁]
    exact hindegrees
  have hneighs₁ : m₁.neighs = m.neighs.take (rowOffset out n) := by
    rw [hm₁]
    rfl
  apply Solo.load_bind
  apply Solo.bind
  apply (Solo.zoom (parallelPrefixSum_solo (by decide) _)).mono
  rintro _ m₂ ⟨hsums, hm₂⟩
  have hinoffsets (i : Fin (n + 1)) : m₂.insums.offsets i = (rowOffset (inRow out) i : Nat) :=
    (hsums i).trans (offset_eq_rowOffset hindegrees₁ i)
  let invNeighs : List (Option (Fin n)) := List.replicate (rowOffset (inRow out) n) none
  apply Solo.storeAt_bind (t := { m₂ with invNeighs })
  · have hlast : m₂.insums.offsets (Fin.last n) = (rowOffset (inRow out) n : Nat) := hinoffsets _
    rw [hlast, newArray, if_pos (Int.natCast_nonneg _)]
    rfl
  apply Solo.load_bind
  apply Solo.bind
  apply (Solo.zoom (genIndex_solo hn _ _)).mono
  rintro _ m₃ ⟨hinvIndex, hm₃⟩
  -- the arrays of the outgoing edges have not changed since
  have hindex₃ : m₃.index = m.sums.offsets := by
    rw [hm₃]
    exact (congrArg InPlaceMem.index hm₂).trans hindex
  have hneighs₃ : m₃.neighs = m.neighs.take (rowOffset out n) := by
    rw [hm₃]
    exact (congrArg InPlaceMem.neighs hm₂).trans hneighs₁
  have hinRows₃ : m₃.inRows = ⟨m₂.insums.offsets, invNeighs⟩ := by
    rw [hm₃]
    rfl
  obtain ⟨filled, hfill, hlength, hslices⟩ :=
    fillInverses_eq (t := ⟨m₂.insums.offsets, invNeighs⟩) horder
      (fun u => (hsorted u).imp fun hab => hab.ne) hinoffsets List.length_replicate
  apply Solo.storeAt (t := m₃.setInRows filled)
  · rw [hindex₃, hneighs₃, hinRows₃]
    exact congrArg (Option.map _) hfill
  · refine ⟨?_, ?_⟩
    · show (values m₃.neighs).bind (Csr.ofPointers m₃.index) = _
      rw [hindex₃, hneighs₃]
      exact hout.ofPointers
    · have hinvIndex₃ : m₃.invIndex = m₂.insums.offsets := hinvIndex
      show (values filled.neighs).bind (Csr.ofPointers m₃.invIndex) = _
      rw [hinvIndex₃]
      exact HoldsRows.ofPointers (s := ⟨m₂.insums.offsets, filled.neighs⟩)
        ⟨hinoffsets, hlength, hslices⟩

end

/-! ## The same graph -/

section

variable {symmetrize : Bool} {el : List (EdgePair (Fin n) (Fin n))}

theorem symRow_builtRow (el : List (EdgePair (Fin n) (Fin n))) :
    symRow (builtRow false false el) = builtRow true false el := by
  funext v
  apply (symRow_sorted builtRow_sorted v).eq_of_mem_iff (builtRow_sorted v)
  intro w
  rw [mem_symRow, mem_builtRow, mem_builtRow, mem_builtRow, ne_comm (a := w)]
  simp only [ne_eq, Bool.not_false, Bool.or_true, true_and, Bool.or_self, Bool.false_eq_true, false_and,
    or_false, Bool.or_false]
  tauto

theorem inRow_builtRow (el : List (EdgePair (Fin n) (Fin n))) :
    inRow (builtRow false false el) = builtRow false true el := by
  funext v
  apply (sourcesBelow_sorted n v).eq_of_mem_iff (builtRow_sorted v)
  intro w
  have hlt := w.isLt
  rw [mem_sourcesBelow, Source, mem_builtRow, mem_builtRow, ne_comm (a := w)]
  simp [hlt]

/-- An edge that is no loop stays. -/
theorem rowOffset_pos (h : ∃ e ∈ el, e.u ≠ e.v) : 0 < rowOffset (builtRow false false el) n := by
  obtain ⟨e, he, hne⟩ := h
  have hmem : e.v ∈ builtRow false false el e.u := mem_builtRow.mpr ⟨hne, .inl ⟨rfl, he⟩⟩
  have hpos := List.length_pos_of_mem hmem
  have hsucc := rowOffset_succ (builtRow false false el) e.u
  have hlast := rowOffset_mono (builtRow false false el) (show e.u.val + 1 ≤ n from e.u.isLt)
  omega

theorem makeGraphFromELInPlace_solo {T : Nat} [NeZero T] (hn : n + 1 < 2 ^ 31)
    (hedge : ∃ e ∈ el, e.u ≠ e.v) (m : InPlaceMem n) :
    Solo (makeGraphFromELInPlace T symmetrize el) m fun g _ => g = builtGraph symmetrize el hn := by
  have hpos := rowOffset_pos hedge
  have hloop (u : Fin n) : u ∉ builtRow false false el u := fun hu => (mem_builtRow.mp hu).1 rfl
  apply Solo.bind
  rw [makeCSRInPlace]
  simp only [squishEdges_eq]
  apply Solo.bind
  apply (repurposeEdges_solo builtRow_sorted (by omega) el.length m).mono
  rintro _ m ⟨hrows, hindegrees⟩
  cases symmetrize with
  | true =>
    apply (finishSymmetric_solo builtRow_sorted hloop hpos hn hrows).mono
    rintro _ m hout
    rw [dif_pos hn]
    apply Solo.loadAt_bind (b := Csr.ofRows (symRow (builtRow false false el)))
    · exact hout
    apply Solo.ret
    rw [symRow_builtRow]
    rfl
  | false =>
    rw [length_rowEdges]
    apply (finishDirected_solo builtRow_sorted hpos hn hrows (hindegrees rfl)).mono
    rintro _ m ⟨hout, hin⟩
    rw [dif_pos hn]
    apply Solo.loadAt_bind (b := Csr.ofRows (builtRow false false el))
    · exact hout
    apply Solo.loadAt_bind (b := Csr.ofRows (inRow (builtRow false false el)))
    · exact hin
    apply Solo.ret
    rw [inRow_builtRow]
    rfl

end

/-- Both ways to build a graph make the same one in all interleavings, and it is the one that the
edge list describes. -/
def MakesSameGraph (symmetrize : Bool) (el : List (EdgePair Nat Nat)) : Prop :=
  ∃ r : (n : Nat) × Graph n, BuiltFrom symmetrize el r.2 ∧
    (∀ (T : Nat) [NeZero T] (m : ∀ n, BuilderMem n (Fin n)),
      (makeGraph T symmetrize el).Correct m fun r' _ => r' = r) ∧
    ∀ (T : Nat) [NeZero T] (m : ∀ n, InPlaceMem n),
      (makeGraphInPlace T symmetrize el).Correct m fun r' _ => r' = r

theorem makeGraphInPlace_solo {T : Nat} [NeZero T] {symmetrize : Bool} {el : List (EdgePair Nat Nat)}
    (hn : maxNodeID el + 1 + 1 < 2 ^ 31) (hedge : ∃ e ∈ el, e.u ≠ e.v)
    {edges : List (EdgePair (Fin (maxNodeID el + 1)) _)}
    (hedges : el.mapM (toEdge (maxNodeID el + 1)) = some edges) (hel : edges.map EdgePair.raw = el)
    (m : ∀ n, InPlaceMem n) :
    Solo (makeGraphInPlace T symmetrize el) m fun r _ => r = ⟨_, builtGraph symmetrize edges hn⟩ := by
  have hlt : maxNodeID el + 1 < 2 ^ 31 := by omega
  have hedge' : ∃ e ∈ edges, e.u ≠ e.v := by
    obtain ⟨e, he, hne⟩ := hedge
    rw [← hel] at he
    obtain ⟨e', he', rfl⟩ := List.mem_map.mp he
    exact ⟨e', he', fun heq => hne (congrArg Fin.val heq)⟩
  apply Solo.bind
  apply (findMaxNodeID_solo _ m).mono
  rintro _ _ ⟨rfl, rfl⟩
  rw [if_pos hlt]
  simp only [hedges]
  apply Solo.bind
  apply (Solo.zoom (makeGraphFromELInPlace_solo hn hedge' _)).mono
  rintro g m ⟨rfl, -⟩
  exact Solo.ret rfl

/-- Building in place refines the regular path. -/
theorem makeGraphInPlace_correct (symmetrize : Bool) (el : List (EdgePair Nat Nat))
    (hids : ∀ e ∈ el, e.u < 2 ^ 31 - 2 ∧ e.v < 2 ^ 31 - 2) (hcount : Countable symmetrize el)
    (hedge : ∃ e ∈ el, e.u ≠ e.v) : MakesSameGraph symmetrize el := by
  have hmax := maxNodeID_lt (by decide) hids
  have hn : maxNodeID el + 1 + 1 < 2 ^ 31 := by omega
  obtain ⟨edges, hedges, hel⟩ := edges_of_max el
  refine ⟨⟨_, builtGraph symmetrize edges hn⟩, builtGraph_builtFrom hn hel rfl, fun T _ m => ?_,
    fun T _ m => (makeGraphInPlace_solo hn hedge hedges hel m).correct⟩
  apply Solo.correct
  exact (makeGraph_solo hn hcount hedges hel m).mono fun _ _ h => h.1

/-- Two edges without inverses at one vertex, a duplicate and a loop. -/
theorem makeGraphInPlace_correct_fork :
    MakesSameGraph true [⟨0, 1⟩, ⟨2, 1⟩, ⟨0, 1⟩, ⟨1, 1⟩] := by
  apply makeGraphInPlace_correct
  · decide
  · intro x
    have hsources := List.count_le_length (l := [0, 2, 0, 1]) (a := x)
    have htargets := List.count_le_length (l := [1, 1, 1, 1]) (a := x)
    simp only [List.length_cons, List.length_nil] at hsources htargets
    show [0, 2, 0, 1].count x + [1, 1, 1, 1].count x < 2 ^ 31
    omega
  · exact ⟨⟨0, 1⟩, by decide, by decide⟩

/-- Ids below `2 ^ 31 - 1` are not enough: the regular path throws with the largest of them, and also
when a counter overflows. -/
theorem makeGraphInPlace_not_total : ¬ MakesSameGraph false [⟨0, 2 ^ 31 - 2⟩] ∧
    ¬ MakesSameGraph false (List.replicate (2 ^ 31) ⟨0, 1⟩) := by
  constructor
  · rintro ⟨r, -, hregular, -⟩
    exact (makeGraph_canFail_largest 1 fun _ => default).not_correct (hregular 1 _)
  · rintro ⟨r, -, hregular, -⟩
    exact (makeGraph_canFail_copies 1 fun _ => default).not_correct (hregular 1 _)

end Gapbs
