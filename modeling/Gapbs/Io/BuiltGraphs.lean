import Mathlib.Combinatorics.Enumerative.DoubleCounting
import Gapbs.Builder.MakeGraphInPlace
import Gapbs.Builder.Weighted
import Gapbs.Builder.Wrapped
import Gapbs.Io.Serialized

/-!
# Built graphs and their files

A graph that the builder returns has as many entries in one direction as in the other, and an even
number of them if it is undirected; so nothing of it is lost in a file.
-/

namespace Gapbs

open Conc Bytes

variable {n : Nat}

/-! ## Counting entries -/

section

variable {symmetrize : Bool} {edges : List (EdgePair (Fin n) (Fin n))}

/-- Both directions of a directed graph have the same number of entries. -/
theorem length_rows_transposed :
    Csr.rowOffset (builtRow false true edges) n = Csr.rowOffset (builtRow false false edges) n := by
  let R (u v : Fin n) : Prop := u ≠ v ∧ ⟨u, v⟩ ∈ edges
  have hdec : DecidableRel R := fun u v => inferInstanceAs (Decidable (_ ∧ _))
  have hrow {s t : Bool} (v : Fin n) :
      (builtRow s t edges v).length = (builtRow s t edges v).toFinset.card :=
    (List.toFinset_card_of_nodup (builtRow_nodup v)).symm
  rw [Csr.rowOffset, Csr.rowOffset, offset_total, offset_total]
  simp only [hrow]
  have hcount := Finset.sum_card_bipartiteAbove_eq_sum_card_bipartiteBelow (s := Finset.univ)
    (t := Finset.univ) R
  convert hcount.symm using 3 with v _ u _
  · ext w
    rw [List.mem_toFinset, mem_builtRow, Finset.mem_bipartiteBelow]
    simp [R, ne_comm]
  · ext w
    rw [List.mem_toFinset, mem_builtRow, Finset.mem_bipartiteAbove]
    simp [R]

theorem length_rows_le (transpose : Bool) :
    Csr.rowOffset (builtRow symmetrize transpose edges) n ≤ n * n := by
  rw [Csr.rowOffset, offset_total]
  have hsum := Finset.sum_le_card_nsmul Finset.univ
    (fun v => (builtRow symmetrize transpose edges v).length) n fun v _ => length_squishRow_le v _
  simpa using hsum

theorem builtGraph_rowsAs (hn : n + 1 < 2 ^ 31) :
    RowsAs symmetrize edges (builtGraph symmetrize edges hn) :=
  ⟨builtGraph_directed hn, fun v => by rw [builtGraph_outNeigh], fun v => by rw [builtGraph_inNeigh]⟩

/-- A graph with the rows of a built one can be serialized, when its entries fit their types. -/
theorem RowsAs.serializable {D : Nat → Type} [SgDest D] {g : CSRGraph n (D n)} (hn : 0 < n)
    (h : RowsAs symmetrize edges g) (hout : ∀ v, ∀ d ∈ g.outNeigh v, Fits d)
    (hinn : ∀ v, ∀ d ∈ g.inNeigh v, Fits d) : Serializable g := by
  have hlt := g.nodes_lt
  have hlength {c : Csr n (D n)} {transpose : Bool}
      (hc : ∀ v, (c.neigh v).length = (builtRow symmetrize transpose edges v).length) :
      c.neighbors.length = Csr.rowOffset (builtRow symmetrize transpose edges) n := by
    rw [c.length_neighbors, Csr.rowOffset, Csr.rowOffset]
    simp only [hc]
  have hlengthOut := hlength h.out
  have hlengthInn := hlength h.inn
  have hfits {c : Csr n (D n)} (hc : ∀ v, ∀ d ∈ c.neigh v, Fits d) :
      ∀ d ∈ c.neighbors, Fits d := by
    intro d hd
    rw [c.neighbors_eq_flatten] at hd
    obtain ⟨row, hrow, hd⟩ := List.mem_flatten.mp hd
    obtain ⟨v, rfl⟩ := (List.mem_ofFn' _ _).mp hrow
    exact hc v d hd
  have hspan : g.out.index (Fin.last n) - g.out.index 0 = g.out.neighbors.length := by
    rw [g.out.index_last, g.out.index_zero, Nat.sub_zero]
  refine ⟨hn, ?_, ?_, ?_, hfits hout, hfits hinn⟩
  · rw [CSRGraph.numEdgesDirected, CSRGraph.numEdges, hspan, h.directed]
    cases symmetrize with
    | true =>
      rw [hlengthOut, length_rows_symmetrized]
      simp
    | false => rfl
  · rw [hlengthOut, hlengthInn]
    cases symmetrize with
    | true => rfl
    | false => exact length_rows_transposed
  · have hle := @length_rows_le n symmetrize edges false
    have hsquare : n * n < 2 ^ 31 * 2 ^ 31 := Nat.mul_lt_mul'' (by omega) (by omega)
    omega

end

/-! ## The result -/

/-- Whatever way a graph is built from an edge list, its file determines it. -/
theorem serialized_roundTrip (symmetrize : Bool) (el : List (EdgePair Nat (Nat × Int)))
    (hids : ∀ e ∈ el, e.u < 2 ^ 31 - 2 ∧ e.v.1 < 2 ^ 31 - 2)
    (hcount : Countable symmetrize (el.map EdgePair.unweighted))
    (hweights : ∀ e ∈ el, -2 ^ 31 ≤ e.v.2 ∧ e.v.2 < 2 ^ 31) (T : Nat) [NeZero T] :
    (∀ m, (makeGraph T symmetrize (el.map EdgePair.unweighted)).Correct m
      fun r _ => RoundTrips (D := Fin) r.2) ∧
    (∀ m, (makeWGraph T symmetrize el).Correct m fun r _ => RoundTrips (D := NodeWeight) r.2) ∧
    ((∃ e ∈ el, e.u ≠ e.v.1) → ∀ m,
      (makeGraphInPlace T symmetrize (el.map EdgePair.unweighted)).Correct m
        fun r _ => RoundTrips (D := Fin) r.2) := by
  have hids' : ∀ e ∈ el.map EdgePair.unweighted, e.u < 2 ^ 31 - 2 ∧ e.v < 2 ^ 31 - 2 := by
    intro e he
    obtain ⟨e', he', rfl⟩ := List.mem_map.mp he
    exact hids e' he'
  have hmax := maxNodeID_lt (by decide) hids'
  have hn : maxNodeID (el.map EdgePair.unweighted) + 1 + 1 < 2 ^ 31 := by omega
  obtain ⟨edges, hedges, hel⟩ := edges_of_max (el.map EdgePair.unweighted)
  have hsmall : maxNodeID (el.map EdgePair.unweighted) + 1 < 2 ^ 31 := by omega
  have hunweighted : RoundTrips (D := Fin) (builtGraph symmetrize edges hn) := by
    apply Serializable.roundTrips
    exact (builtGraph_rowsAs hn).serializable (Nat.succ_pos _) (fun _ d _ => fits_id hsmall d)
      fun _ d _ => fits_id hsmall d
  refine ⟨fun m => ?_, fun m => ?_, fun hedge m => ?_⟩
  · apply Solo.correct
    apply (makeGraph_solo hn hcount hedges hel m).mono
    rintro _ _ ⟨rfl, -⟩
    exact hunweighted
  · apply Solo.correct
    apply (makeWGraph_solo hids hcount m).mono
    rintro ⟨n, g⟩ _ ⟨hpos, ⟨edges', hrows⟩, hfrom⟩
    have hnodes := g.nodes_lt
    have hfits (d : NodeWeight n) (hd : d.w ∈ el.map fun e => e.v.2) : Fits d := by
      obtain ⟨e, he, hw⟩ := List.mem_map.mp hd
      obtain ⟨hlo, hhi⟩ := hweights e he
      exact fits_nodeWeight (by omega) (hw ▸ hlo) (hw ▸ hhi)
    exact (hrows.serializable hpos (fun v d hd => hfits d ((hfrom v).1 d hd))
      fun v d hd => hfits d ((hfrom v).2 d hd)).roundTrips
  · apply Solo.correct
    obtain ⟨e, he, hne⟩ := hedge
    apply (makeGraphInPlace_solo hn ⟨e.unweighted, List.mem_map_of_mem he, hne⟩ hedges hel m).mono
    rintro _ _ rfl
    exact hunweighted

/-- Both orientations of an edge with different weights, a duplicate and a loop. -/
theorem serialized_roundTrip_pair :
    let el : List (EdgePair Nat (Nat × Int)) := [⟨0, 1, 5⟩, ⟨1, 0, -3⟩, ⟨0, 1, 7⟩, ⟨1, 1, 1⟩]
    (∀ m, (makeGraph 2 true (el.map EdgePair.unweighted)).Correct m
      fun r _ => RoundTrips (D := Fin) r.2) ∧
    (∀ m, (makeWGraph 2 true el).Correct m fun r _ => RoundTrips (D := NodeWeight) r.2) ∧
    ((∃ e ∈ el, e.u ≠ e.v.1) → ∀ m,
      (makeGraphInPlace 2 true (el.map EdgePair.unweighted)).Correct m
        fun r _ => RoundTrips (D := Fin) r.2) := by
  apply serialized_roundTrip
  · decide
  · intro x
    have hsources := List.count_le_length (l := [0, 1, 0, 1]) (a := x)
    have htargets := List.count_le_length (l := [1, 0, 1, 1]) (a := x)
    simp only [List.length_cons, List.length_nil] at hsources htargets
    show [0, 1, 0, 1].count x + [1, 0, 1, 1].count x < 2 ^ 31
    omega
  · decide

/-! ## Counters that wrap around -/

section

variable {edges : List (EdgePair (Fin n) (Fin n))} {counted : Fin n → Nat}

/-- When the edges of a vertex are not counted and every source has an edge to every target, the
in-direction of the graph has more entries than the out-direction. -/
theorem wrapped_entries (hn : n + 1 < 2 ^ 31) (hw : Wrapped edges counted)
    (hindegree : ∀ v, degreeOf false false true edges v < 2 ^ 31)
    (hfull : ∀ e ∈ edges, ∀ e' ∈ edges, ⟨e.u, e'.v⟩ ∈ edges ∧ e.u ≠ e'.v)
    {e₀ : EdgePair (Fin n) (Fin n)} (he₀ : e₀ ∈ edges) (hu : counted e₀.u = 0)
    (m : BuilderMem n (Fin n)) :
    Solo (makeGraphFromEL 1 false edges) m fun g _ => g.directed = true ∧
      (∀ v, squishRow v (g.inNeigh v) = builtRow false true edges v) ∧
      g.squished.out.neighbors.length < g.squished.inn.neighbors.length := by
  apply Solo.bind
  apply (Solo.zoom (makeCSR_wrapped hn hw _)).mono
  rintro out m ⟨⟨hlength, htargets⟩, -⟩
  rw [dif_pos hn]
  apply Solo.bind
  apply (Solo.zoom (makeCSR_solo hn hindegree _)).mono
  rintro inn m ⟨⟨hin, -⟩, -⟩
  apply Solo.ret
  have hinRows : (fun v => squishRow v (inn.neigh v)) = builtRow false true edges :=
    funext fun v => squishRow_perm v (hin v)
  refine ⟨rfl, fun v => congrFun hinRows v, ?_⟩
  show (List.ofFn fun v => squishRow v (out.neigh v)).flatten.length <
    (List.ofFn fun v => squishRow v (inn.neigh v)).flatten.length
  rw [Csr.length_flatten_rows, Csr.length_flatten_rows, hinRows, length_rows_transposed, Csr.rowOffset,
    Csr.rowOffset, offset_total, offset_total]
  apply Finset.sum_lt_sum
  · intro v _
    -- what is left of a row are targets, and all targets belong there
    apply List.Subperm.length_le
    apply List.subperm_of_subset (squishRow_nodup v _)
    intro d hd
    obtain ⟨hmem, hne⟩ := mem_squishRow.mp hd
    obtain ⟨e', he', rfl⟩ := htargets v d hmem
    have hpos : 0 < counted v := hlength v ▸ List.length_pos_of_mem hmem
    have hsource : v ∈ edges.map EdgePair.u := List.count_pos_iff.mp (hpos.trans_le (hw.le v))
    obtain ⟨e, he, rfl⟩ := List.mem_map.mp hsource
    exact mem_builtRow.mpr ⟨(hfull e he e' he').2, .inl ⟨rfl, (hfull e he e' he').1⟩⟩
  · refine ⟨e₀.u, Finset.mem_univ _, ?_⟩
    have hempty : out.neigh e₀.u = [] := List.eq_nil_of_length_eq_zero ((hlength _).trans hu)
    have hself : e₀.v ∈ builtRow false false edges e₀.u :=
      mem_builtRow.mpr ⟨(hfull e₀ he₀ e₀ he₀).2, .inl ⟨rfl, he₀⟩⟩
    have hsquished : squishRow e₀.u ([] : List (Fin n)) = [] := by
      simp [squishRow, sortList, uniqueList, removeVertex]
    rw [hempty, hsquished]
    exact List.length_pos_of_mem hself

end

/-- `copies` edges from a vertex to each of the targets. -/
def fan (source : Nat) (targets : List Nat) (copies : Nat) : List (EdgePair Nat Nat) :=
  targets.flatMap fun target => List.replicate copies ⟨source, target⟩

theorem mem_fan {source copies u v : Nat} {targets : List Nat} :
    ⟨u, v⟩ ∈ fan source targets copies ↔ u = source ∧ v ∈ targets ∧ 0 < copies := by
  simp only [fan, List.mem_flatMap, List.mem_replicate, EdgePair.mk.injEq, Nat.pos_iff_ne_zero]
  constructor
  · rintro ⟨_, htarget, hcopies, rfl, rfl⟩
    exact ⟨rfl, htarget, hcopies⟩
  · rintro ⟨rfl, htarget, hcopies⟩
    exact ⟨v, htarget, hcopies, rfl, rfl⟩

theorem count_u_fan (source copies x : Nat) (targets : List Nat) :
    ((fan source targets copies).map EdgePair.u).count x =
      if source = x then targets.length * copies else 0 := by
  induction targets with
  | nil => simp [fan]
  | cons target targets ih =>
    rw [fan, List.flatMap_cons, List.map_append, List.count_append, ← fan, ih, List.map_replicate,
      List.count_replicate, List.length_cons, Nat.succ_mul]
    by_cases hx : source = x
    · simp only [hx, beq_self_eq_true, if_true]
      omega
    · simp [hx]

theorem count_v_fan (source copies x : Nat) (targets : List Nat) :
    ((fan source targets copies).map EdgePair.v).count x = targets.count x * copies := by
  induction targets with
  | nil => simp [fan]
  | cons target targets ih =>
    rw [fan, List.flatMap_cons, List.map_append, List.count_append, ← fan, ih, List.map_replicate,
      List.count_replicate, List.count_cons, Nat.add_mul]
    by_cases hx : target = x
    · simp only [hx, beq_self_eq_true, if_true]
      omega
    · simp [hx]

def targets : List Nat := [5, 6, 7, 8, 9, 10, 11, 12]

/-- Edges from the vertices 0 to 4 to each target: as many from vertex 0 as from the other four
together. -/
def fans (k : Nat) : List (EdgePair Nat Nat) :=
  fan 0 targets (4 * k) ++ (fan 1 targets k ++ (fan 2 targets k ++ (fan 3 targets k ++ fan 4 targets k)))

theorem mem_fans {k u v : Nat} : ⟨u, v⟩ ∈ fans k ↔ 0 < k ∧ u < 5 ∧ 5 ≤ v ∧ v < 13 := by
  have htargets : v ∈ targets ↔ 5 ≤ v ∧ v < 13 := by
    simp only [targets, List.mem_cons, List.not_mem_nil, or_false]
    omega
  simp only [fans, List.mem_append, mem_fan, htargets]
  omega

theorem count_u_fans (k x : Nat) : ((fans k).map EdgePair.u).count x =
    if x = 0 then 32 * k else if x < 5 then 8 * k else 0 := by
  have hlength : targets.length = 8 := rfl
  simp only [fans, List.map_append, List.count_append, count_u_fan, hlength]
  split_ifs <;> omega

theorem count_v_fans (k x : Nat) : ((fans k).map EdgePair.v).count x ≤ 8 * k := by
  have hcount : targets.count x ≤ 1 :=
    List.nodup_iff_count_le_one.mp (by decide) x
  have hmul := Nat.mul_le_mul_right k hcount
  have hmul' := Nat.mul_le_mul_right (4 * k) hcount
  simp only [fans, List.map_append, List.count_append, count_v_fan]
  omega

/-- The degrees that `CountDegrees` arrives at. -/
def fansCounted (k : Nat) (v : Fin 13) : Nat := if 0 < v.val ∧ v.val < 5 then 8 * k else 0

theorem fans_wrapped {k : Nat} (hk : 2 ^ 27 = k) {edges : List (EdgePair (Fin 13) (Fin 13))}
    (hraw : edges.map EdgePair.raw = fans k) : Wrapped edges (fansCounted k) := by
  have hout (v : Fin 13) :
      outEdges edges v = if v.val = 0 then 32 * k else if v.val < 5 then 8 * k else 0 := by
    have hdegree : degreeOf false false false edges v = _ := degreeOf_raw hraw false v
    rw [count_u_fans, degreeOf_eq] at hdegree
    exact hdegree
  have htotal : offset (fansCounted k) 13 = 32 * k := by
    rw [offset_total]
    simp [Fin.sum_univ_succ, fansCounted]
    omega
  refine ⟨fun v => ?_, fun v => ?_, fun v => ?_⟩
  · rw [hout, fansCounted]
    by_cases hv : v.val = 0
    · have hcast : ((32 * k : Nat) : Int) = 2 ^ 32 := by omega
      rw [if_pos hv, if_neg (by omega), toNodeID, hcast]
      decide
    · rw [if_neg hv, toNodeID_eq (by split_ifs <;> omega)]
      split_ifs <;> omega
  · rw [hout, fansCounted]
    split_ifs <;> omega
  · rw [hout, htotal]
    by_cases hv : v.val = 0
    · rw [if_pos hv, hv, offset_zero, Nat.zero_add]
    · have hle := offset_mono (fansCounted k) (show v.val + 1 ≤ 13 from v.isLt)
      rw [offset_succ, htotal] at hle
      rw [fansCounted] at hle
      rw [if_neg hv]
      split_ifs at hle ⊢ <;> omega

/-- A directed graph with more entries in the in-direction than in the out-direction. -/
structure Lopsided (g : Graph n) : Prop where
  directed : g.directed = true
  outSorted : ∀ v, (g.outNeigh v).Pairwise (· < ·)
  last : ∃ u : Fin n, u.val + 1 = n ∧ g.inNeigh u ≠ []
  lt : g.out.neighbors.length < g.inn.neighbors.length

/-- No file holds such a graph. -/
theorem Lopsided.not_roundTrips {g : Graph n} (h : Lopsided g) : ¬ RoundTrips (D := Fin) g := by
  rintro ⟨file, -, hread⟩
  exact h.lt.ne' (length_of_readSerializedGraph hread)

/-- Nothing goes wrong, but edges are lost in one direction. -/
theorem makeGraph_fans {k : Nat} (hk : 2 ^ 27 = k) (m : ∀ n, BuilderMem n (Fin n)) :
    Solo (makeGraph 1 false (fans k)) m fun r _ => Lopsided r.2 := by
  have hmem : (⟨0, 12⟩ : EdgePair Nat Nat) ∈ fans k := mem_fans.mpr (by omega)
  have hbound (e : EdgePair Nat Nat) (he : e ∈ fans k) : e.u < 5 ∧ 5 ≤ e.v ∧ e.v < 13 :=
    (mem_fans.mp he).2
  have hmax : maxNodeID (fans k) = 12 := by
    have hlt : maxNodeID (fans k) < 13 := by
      apply maxNodeID_lt (by decide)
      intro e he
      have hlarge := hbound e he
      omega
    exact le_antisymm (Nat.le_of_lt_succ hlt) (le_maxNodeID hmem).2
  obtain ⟨edges, hedges, hraw⟩ := exists_edges (n := 13) fun e he => by
    have hlarge := hbound e he
    omega
  have hraw' {e : EdgePair (Fin 13) (Fin 13)} : e ∈ edges ↔ e.raw ∈ fans k := by
    rw [← hraw, List.mem_map_of_injective EdgePair.raw_injective]
  have hindegree (v : Fin 13) : degreeOf false false true edges v < 2 ^ 31 := by
    have hle := count_v_fans k v
    rw [degreeOf_raw hraw]
    show 0 + ((fans k).map EdgePair.v).count v.val < 2 ^ 31
    omega
  have hfull : ∀ e ∈ edges, ∀ e' ∈ edges, ⟨e.u, e'.v⟩ ∈ edges ∧ e.u ≠ e'.v := by
    intro e he e' he'
    have hu : e.u.val < 5 := (hbound _ (hraw'.mp he)).1
    have hv : 5 ≤ e'.v.val ∧ e'.v.val < 13 := (hbound _ (hraw'.mp he')).2
    refine ⟨hraw'.mpr (mem_fans.mpr ⟨by omega, hu, hv⟩), fun heq => ?_⟩
    rw [heq] at hu
    omega
  have hfirst : (⟨0, 12⟩ : EdgePair (Fin 13) (Fin 13)) ∈ edges := hraw'.mpr hmem
  apply Solo.bind
  apply (findMaxNodeID_solo _ m).mono
  rintro _ m ⟨rfl, rfl⟩
  rw [hmax, if_pos (by decide)]
  simp only [hedges]
  apply Solo.bind
  have hentries := wrapped_entries (by decide) (fans_wrapped hk hraw) hindegree hfull hfirst rfl
  apply (Solo.zoom (hentries _)).mono
  rintro g m ⟨⟨hdirected, hinRows, hlt⟩, -⟩
  have hsmall (transpose : Bool) (v : Fin 13) :
      (squishRow v ((g.side transpose).neigh v)).length < 2 ^ 31 :=
    (length_squishRow_le v _).trans_lt (by decide)
  apply Solo.bind
  apply (Solo.zoom (Solo.zoom (squishGraph_solo hsmall _))).mono
  rintro _ m' ⟨⟨rfl, -⟩, -⟩
  apply Solo.ret
  have hsquished : g.squished = .ofDirected (Csr.ofRows fun v => squishRow v (g.outNeigh v))
      (Csr.ofRows fun v => squishRow v (g.inNeigh v)) g.nodes_lt := by
    rw [CSRGraph.squished, if_pos hdirected]
  refine ⟨by rw [hsquished]; rfl, fun v => ?_, ⟨12, rfl, ?_⟩, hlt⟩
  · rw [hsquished, CSRGraph.outNeigh_ofDirected, Csr.neigh_ofRows]
    exact squishRow_sorted v _
  · rw [hsquished, CSRGraph.inNeigh_ofDirected, Csr.neigh_ofRows, hinRows]
    have hmem : (0 : Fin 13) ∈ builtRow false true edges 12 :=
      mem_builtRow.mpr ⟨by decide, .inr ⟨rfl, hfirst⟩⟩
    exact List.ne_nil_of_mem hmem

/-- With `2 ^ 32` edges at a vertex the out-direction of the graph loses neighbours that the
in-direction keeps, and a file has one number of entries for both. -/
theorem serialized_not_total :
    ∃ m m' r, Prog.Reach (makeGraph 1 false (fans (2 ^ 27)), m) (.ret r, m') ∧
      ¬ RoundTrips (D := Fin) r.2 := by
  have hcorrect := (makeGraph_fans rfl fun _ => default).correct
  obtain ⟨r, m', hreach⟩ := hcorrect.returns .refl
  exact ⟨_, m', r, hreach, (hcorrect.result r m' hreach).not_roundTrips⟩

end Gapbs
