import Gapbs.Builder.Relabel
import Gapbs.Io.BuiltGraphs
import Gapbs.Io.Load

/-!
# Writing a graph as an edge list

`WriteEL` writes the neighbours of all vertices, so that an edge of an undirected graph is written in both
orientations.  Loading the text gives the graph back.
-/

namespace Gapbs

open Conc InStream Numeral

variable {n : Nat}

/-- `WriteEL(out)`, with what `<<` writes for a destination -/
def writeEL {D : Type} (destText : D → List UInt8) (g : CSRGraph n D) : List UInt8 :=
  (List.finRange n).flatMap fun u => (g.outNeigh u).flatMap fun v =>
    (ofInt u.val).bytes ++ 32 :: (destText v ++ [newline])

def idText (v : Fin n) : List UInt8 := (ofInt v.val).bytes

def weightedText (d : NodeWeight n) : List UInt8 := nodeWeightText (d.v.val, d.w)

/-- The highest-numbered vertex is incident to an edge. -/
def CSRGraph.LastIncident {D : Type} (g : CSRGraph n D) : Prop :=
  ∃ u : Fin n, u.val + 1 = n ∧ (g.outNeigh u ≠ [] ∨ g.inNeigh u ≠ [])

/-- Twice as many edges at a vertex as it has neighbours, which are counted when an undirected graph is
symmetrized again, fit into a counter. -/
def CSRGraph.Recountable {D : Type} (g : CSRGraph n D) : Prop :=
  g.directed = false → ∀ v, (g.outNeigh v).length < 2 ^ 30

/-! ## The edges that are written -/

section

variable {rows : Fin n → List (Fin n)}

theorem mem_raw_rowEdges {u v : Fin n} :
    (⟨u, v⟩ : EdgePair Nat Nat) ∈ (rowEdges rows).map EdgePair.raw ↔ v ∈ rows u := by
  rw [← mem_rowEdges (e := ⟨u, v⟩)]
  exact List.mem_map_of_injective (a := (⟨u, v⟩ : EdgePair (Fin n) (Fin n))) EdgePair.raw_injective

theorem rows_nodup (hsorted : ∀ u, (rows u).Pairwise (· < ·)) (u : Fin n) : (rows u).Nodup :=
  (hsorted u).imp fun hlt => hlt.ne

theorem inRow_sorted (rows : Fin n → List (Fin n)) (u : Fin n) : (inRow rows u).Pairwise (· < ·) :=
  sourcesBelow_sorted n u

/-- A vertex is the source of its own row and the target of those that it is in. -/
theorem count_raw_rowEdges (hsorted : ∀ u, (rows u).Pairwise (· < ·)) (x : Fin n) :
    (((rowEdges rows).map EdgePair.raw).map EdgePair.u).count x.val = (rows x).length ∧
      (((rowEdges rows).map EdgePair.raw).map EdgePair.v).count x.val = (inRow rows x).length := by
  rw [← count_u_rowEdges, ← count_v_rowEdges (rows_nodup hsorted), List.map_map, List.map_map]
  constructor
  · rw [← List.count_map_of_injective _ Fin.val Fin.val_injective x, List.map_map]
    rfl
  · rw [← List.count_map_of_injective _ Fin.val Fin.val_injective x, List.map_map]
    rfl

theorem count_raw_rowEdges_of_ge (rows : Fin n → List (Fin n)) {x : Nat} (hx : n ≤ x) :
    (((rowEdges rows).map EdgePair.raw).map EdgePair.u).count x = 0 ∧
      (((rowEdges rows).map EdgePair.raw).map EdgePair.v).count x = 0 := by
  have hlt (v : Fin n) : v.val ≠ x := by omega
  constructor <;>
    · rw [List.map_map, List.count_eq_zero]
      intro hmem
      obtain ⟨e, -, rfl⟩ := List.mem_map.mp hmem
      exact hlt _ rfl

/-- The counters do not overflow; if the edges are symmetrized again, every vertex is counted twice for each
neighbour. -/
theorem countable_rowEdges {symmetrize : Bool} (hn : n < 2 ^ 31) (hsorted : ∀ u, (rows u).Pairwise (· < ·))
    (hsymm : symmetrize = true → (∀ u v, v ∈ rows u → u ∈ rows v) ∧ ∀ u, (rows u).length < 2 ^ 30) :
    Countable symmetrize ((rowEdges rows).map EdgePair.raw) := by
  have hle {row : List (Fin n)} (h : row.Pairwise (· < ·)) : row.length ≤ n := by
    have hnodup : row.Nodup := h.imp fun hlt => hlt.ne
    simpa using hnodup.length_le_card
  intro x
  by_cases hx : x < n
  · obtain ⟨hsources, htargets⟩ := count_raw_rowEdges hsorted ⟨x, hx⟩
    simp only at hsources htargets
    simp only [hsources, htargets]
    have hrow := hle (hsorted ⟨x, hx⟩)
    have hinRow := hle (inRow_sorted rows ⟨x, hx⟩)
    cases symmetrize with
    | false =>
      show _ < 2 ^ 31 ∧ _ < 2 ^ 31
      omega
    | true =>
      obtain ⟨hmem, hlength⟩ := hsymm rfl
      have hin : (inRow rows ⟨x, hx⟩).length ≤ (rows ⟨x, hx⟩).length := by
        apply List.Subperm.length_le
        apply List.subperm_of_subset ((inRow_sorted rows _).imp fun hlt => hlt.ne)
        intro u hu
        exact hmem u _ (mem_sourcesBelow.mp hu).2
      have hlt := hlength ⟨x, hx⟩
      show _ + _ < 2 ^ 31
      omega
  · obtain ⟨hsources, htargets⟩ := count_raw_rowEdges_of_ge rows (Nat.le_of_not_lt hx)
    simp only [hsources, htargets]
    cases symmetrize <;> decide

/-- The number of vertices is found again if the last one has an edge. -/
theorem maxNodeID_rowEdges {u v : Fin n} (hv : v ∈ rows u) (hlast : u.val + 1 = n ∨ v.val + 1 = n) :
    n = maxNodeID ((rowEdges rows).map EdgePair.raw) + 1 := by
  have hpos : 0 < n := Nat.zero_lt_of_lt u.isLt
  have hlt : maxNodeID ((rowEdges rows).map EdgePair.raw) < n := by
    apply maxNodeID_lt hpos
    intro e he
    obtain ⟨e', -, rfl⟩ := List.mem_map.mp he
    exact ⟨e'.u.isLt, e'.v.isLt⟩
  have hle := le_maxNodeID (mem_raw_rowEdges.mpr hv)
  simp only at hle
  omega

end

/-! ## The texts as files -/

/-- A `.el` file is read as it stands. -/
theorem readFile_el {vars : ReaderVars} {filename : List UInt8} {needsWeights : Bool}
    (hsuffix : getSuffix filename = .ok (ascii ".el")) {edges : List (EdgePair Int Int)}
    (h : ∀ e ∈ edges, IsInt32 e.u ∧ IsInt32 e.v) :
    (readFile vars filename (some (edgeText (fun v => (ofInt v).bytes) edges)) needsWeights).Returns
      (.ok (edges, needsWeights)) := by
  have hread := readInEL_edgeText (D := Int) h vars.el.1 vars.el.2
  have hid : (edges.map fun e => (⟨e.u, DestID.ofNodeID e.v⟩ : EdgePair Int Int)) = edges := List.map_id _
  rw [hid] at hread
  unfold readFile
  rw [hsuffix]
  exact hread.bind_iff.mpr (Fueled.returns_pure.mpr rfl)

/-- A `.wel` file is read as it stands, and needs no weights. -/
theorem readFile_wel {vars : ReaderVars} {filename : List UInt8} {needsWeights : Bool}
    (hsuffix : getSuffix filename = .ok (ascii ".wel")) {edges : List (EdgePair Int (Int × Int))}
    (h : ∀ e ∈ edges, IsInt32 e.u ∧ IsInt32 e.v.1 ∧ IsInt32 e.v.2) :
    (readFile vars filename (some (edgeText nodeWeightText edges)) needsWeights).Returns
      (.ok (edges, false)) := by
  have hread := readInWEL_edgeText (D := Int × Int) h vars.wel.1 vars.wel.2
  have hid : (edges.map fun e => (⟨e.u, DestID.ofNodeWeight e.v.1 e.v.2⟩ : EdgePair Int (Int × Int))) = edges :=
    List.map_id _
  rw [hid] at hread
  unfold readFile
  rw [hsuffix]
  exact hread.bind_iff.mpr (Fueled.returns_pure.mpr rfl)

/-- What is loaded from a `.el` file is built from its edges. -/
theorem Loads.builds_ints {symmetrize : Bool} {filename : List UInt8} {el : List (EdgePair Nat Nat)}
    {r : (n : Nat) × Graph n}
    (h : Loads symmetrize filename (edgeText (fun v => (ofInt v).bytes) (el.map EdgePair.ints)) r)
    (hsuffix : getSuffix filename = .ok (ascii ".el"))
    (hints : ∀ e ∈ el.map EdgePair.ints, IsInt32 e.u ∧ IsInt32 e.v) : Builds symmetrize el r := by
  let vars : ReaderVars := ⟨(0, 0), (0, (0, 0)), (0, (0, 0)), ⟨0, 0, 0, fun _ => (0, 0)⟩,
    ⟨0, 0, 0, fun _ => 0, fun _ => (0, 0)⟩⟩
  obtain ⟨read, needsWeights, hreturns, hcorrect⟩ := h vars
  obtain ⟨rfl, -⟩ := Prod.mk.inj (Except.ok.inj (hreturns.unique (readFile_el hsuffix hints)))
  intro T _ m
  rw [← makeGraphOfRead_ints]
  exact hcorrect T m

/-! ## Graphs without weights -/

section

variable {g : Graph n}

/-- What all graphs of the builder have in common. -/
structure Graph.Canonical (g : Graph n) : Prop where
  outSorted : ∀ v, (g.outNeigh v).Pairwise (· < ·)
  inSorted : ∀ v, (g.inNeigh v).Pairwise (· < ·)
  irrefl : ∀ v, ¬ g.Edge v v
  transposed : g.Transposed

theorem BuiltFrom.canonical {symmetrize : Bool} {el : List (EdgePair Nat Nat)}
    (h : BuiltFrom symmetrize el g) : g.Canonical :=
  ⟨h.outSorted, h.inSorted, fun v hv => ((h.edge v v).mp hv).1 rfl, h.transposed⟩

/-- The neighbours of the last vertex, in either direction, are joined to it by a written edge. -/
theorem Graph.Canonical.exists_last (h : g.Canonical) (hlast : g.LastIncident) :
    ∃ u v, v ∈ g.outNeigh u ∧ (u.val + 1 = n ∨ v.val + 1 = n) := by
  obtain ⟨x, hx, hne | hne⟩ := hlast
  · obtain ⟨v, hv⟩ := List.exists_mem_of_ne_nil _ hne
    exact ⟨x, v, hv, .inl hx⟩
  · obtain ⟨u, hu⟩ := List.exists_mem_of_ne_nil _ hne
    exact ⟨u, x, (h.transposed u x).mp hu, .inr hx⟩

/-- The graph has the edges that are written. -/
theorem Graph.Canonical.graphOf (h : g.Canonical) (hlast : g.LastIncident) :
    GraphOf (!g.directed) ((rowEdges fun u => g.outNeigh u).map EdgePair.raw) g where
  nodes := by
    obtain ⟨u, v, hv, hend⟩ := h.exists_last hlast
    exact maxNodeID_rowEdges hv hend
  directed := (Bool.not_not _).symm
  outSorted := h.outSorted
  inSorted := h.inSorted
  transposed := h.transposed
  edge u v := by
    simp only [mem_raw_rowEdges]
    constructor
    · intro huv
      refine ⟨?_, .inl huv⟩
      rintro rfl
      exact h.irrefl u huv
    · rintro ⟨-, huv | ⟨hdirected, hvu⟩⟩
      · exact huv
      · -- the edge has been written from its other end
        exact h.transposed.symm ((Bool.not_eq_true' _).mp hdirected) hvu

theorem Graph.Canonical.countable (h : g.Canonical) (hcount : g.Recountable) :
    Countable (!g.directed) ((rowEdges fun u => g.outNeigh u).map EdgePair.raw) := by
  have hn := g.nodes_lt
  apply countable_rowEdges (by omega) h.outSorted
  intro hdirected
  have hundirected := (Bool.not_eq_true' _).mp hdirected
  exact ⟨fun u v hv => h.transposed.symm hundirected hv, hcount hundirected⟩

/-- `WriteEL` writes a line for every edge. -/
theorem writeEL_ids (g : Graph n) : writeEL idText g = edgeText (fun v => (ofInt v).bytes)
    (((rowEdges fun u => g.outNeigh u).map EdgePair.raw).map EdgePair.ints) := by
  simp only [writeEL, edgeText, rowEdges, List.ofFn_eq_map, List.map_map, List.flatMap_def, List.map_flatten,
    List.flatten_flatten, Function.comp_def]
  rfl

theorem isInt32_val (v : Fin n) (hn : n + 1 < 2 ^ 31) : IsInt32 v.val := by
  have hlt := v.isLt
  unfold IsInt32
  omega

theorem edges_isInt32 (g : Graph n) :
    ∀ e ∈ ((rowEdges fun u => g.outNeigh u).map EdgePair.raw).map EdgePair.ints, IsInt32 e.u ∧ IsInt32 e.v := by
  intro e he
  obtain ⟨e', he', rfl⟩ := List.mem_map.mp he
  obtain ⟨e, -, rfl⟩ := List.mem_map.mp he'
  exact ⟨isInt32_val e.u g.nodes_lt, isInt32_val e.v g.nodes_lt⟩

/-- The graph is loaded again from its text. -/
theorem Graph.Canonical.loads (h : g.Canonical) (hlast : g.LastIncident) (hcount : g.Recountable)
    {filename : List UInt8} (hsuffix : getSuffix filename = .ok (ascii ".el")) :
    Loads (!g.directed) filename (writeEL idText g) ⟨n, g⟩ := by
  apply ((h.graphOf hlast).builds (h.countable hcount)).loads
  intro vars
  rw [writeEL_ids]
  exact ⟨false, readFile_el hsuffix (edges_isInt32 g)⟩

end

/-! ## Graphs with weights -/

section

variable {g : WGraph n}

/-- What all weighted graphs of the builder have in common. -/
structure WGraph.Canonical (g : WGraph n) : Prop where
  outSorted : ∀ v, (g.outNeigh v).Pairwise fun a b => a.v < b.v
  inSorted : ∀ v, (g.inNeigh v).Pairwise fun a b => a.v < b.v
  irrefl : ∀ v w, ⟨v, w⟩ ∉ g.outNeigh v
  transposed : ∀ u v w, ⟨v, w⟩ ∈ g.outNeigh u ↔ ⟨u, w⟩ ∈ g.inNeigh v

theorem WBuiltFrom.canonical {symmetrize : Bool} {el : List (EdgePair Nat (Nat × Int))}
    (h : WBuiltFrom symmetrize el g) : WGraph.Canonical g :=
  ⟨h.outSorted, h.inSorted, fun v w hv => ((h.least v v w).mp hv).1 rfl, h.transposed⟩

/-- The edges that are written, row by row. -/
def weightedEdges (g : WGraph n) : List (EdgePair Nat (Nat × Int)) :=
  (List.ofFn fun u => (g.outNeigh u).map fun d => (⟨u, (d.v, d.w)⟩ : EdgePair Nat (Nat × Int))).flatten

theorem writeEL_weighted (g : WGraph n) : writeEL weightedText g = edgeText nodeWeightText
    ((weightedEdges g).map EdgePair.intsW) := by
  simp only [writeEL, edgeText, weightedEdges, List.ofFn_eq_map, List.map_map, List.flatMap_def,
    List.map_flatten, List.flatten_flatten, Function.comp_def]
  rfl

/-- The ids in a row. -/
def rowIds (g : WGraph n) (u : Fin n) : List (Fin n) := (g.outNeigh u).map NodeWeight.v

theorem weightedEdges_unweighted (g : WGraph n) :
    (weightedEdges g).map EdgePair.unweighted = (rowEdges (rowIds g)).map EdgePair.raw := by
  simp only [weightedEdges, rowEdges, rowIds, List.map_flatten, List.map_ofFn, Function.comp_def, List.map_map]
  rfl

theorem mem_weightedEdges {u v : Fin n} {w : Int} :
    (⟨u, (v, w)⟩ : EdgePair Nat (Nat × Int)) ∈ weightedEdges g ↔ ⟨v, w⟩ ∈ g.outNeigh u := by
  simp only [weightedEdges, List.mem_flatten, List.mem_ofFn', Set.mem_range, exists_exists_eq_and, List.mem_map,
    EdgePair.mk.injEq, Prod.mk.injEq]
  constructor
  · rintro ⟨u', d, hd, hu, hv, rfl⟩
    obtain rfl := Fin.ext hu
    obtain rfl := Fin.ext hv
    exact hd
  · exact fun hd => ⟨u, ⟨v, w⟩, hd, rfl, rfl, rfl⟩

namespace WGraph.Canonical

/-- A row has one weight for an id. -/
theorem unique (h : WGraph.Canonical g) {u v : Fin n} {w x : Int} (hw : ⟨v, w⟩ ∈ g.outNeigh u)
    (hx : ⟨v, x⟩ ∈ g.outNeigh u) : w = x := by
  by_contra hne
  have hsymm : Std.Symm fun a b : NodeWeight n => a.v ≠ b.v := ⟨fun _ _ hab => hab.symm⟩
  have hids : (g.outNeigh u).Pairwise fun a b => a.v ≠ b.v := (h.outSorted u).imp fun hlt => hlt.ne
  exact hids.forall hw hx (fun heq => hne (NodeWeight.mk.inj heq).2) rfl

theorem symm (h : WGraph.Canonical g) (hdirected : g.directed = false) {u v : Fin n} {w : Int} :
    ⟨v, w⟩ ∈ g.outNeigh u ↔ ⟨u, w⟩ ∈ g.outNeigh v := by
  rw [h.transposed, g.inNeigh_eq_outNeigh hdirected]

/-- Written in one orientation or in both, an edge has the one weight that it has in the graph. -/
theorem weightsOf_eq (h : WGraph.Canonical g) (u v : Fin n) :
    weightsOf (!g.directed) (weightedEdges g) u v = { w | ⟨v, w⟩ ∈ g.outNeigh u } := by
  ext w
  simp only [weightsOf, mem_weightedEdges, Set.mem_ofPred_eq]
  constructor
  · rintro (hw | ⟨hdirected, hw⟩)
    · exact hw
    · exact (h.symm ((Bool.not_eq_true' _).mp hdirected)).mpr hw
  · exact .inl

theorem builtFrom (h : WGraph.Canonical g) (hlast : g.LastIncident) :
    WBuiltFrom (!g.directed) (weightedEdges g) g where
  nodes := by
    rw [weightedEdges_unweighted]
    obtain ⟨x, hx, hne | hne⟩ := hlast
    · obtain ⟨d, hd⟩ := List.exists_mem_of_ne_nil _ hne
      exact maxNodeID_rowEdges (List.mem_map_of_mem hd) (.inl hx)
    · obtain ⟨d, hd⟩ := List.exists_mem_of_ne_nil _ hne
      have hout := (h.transposed d.v x d.w).mpr hd
      exact maxNodeID_rowEdges (List.mem_map_of_mem (f := NodeWeight.v) hout) (.inr hx)
  directed := (Bool.not_not _).symm
  outSorted := h.outSorted
  inSorted := h.inSorted
  transposed := h.transposed
  symm hdirected _ _ _ := h.symm ((Bool.not_eq_true' _).mp hdirected)
  least u v w := by
    rw [h.weightsOf_eq]
    constructor
    · intro hw
      refine ⟨?_, hw, fun x hx => (h.unique hw hx).le⟩
      rintro rfl
      exact h.irrefl u w hw
    · exact fun hleast => hleast.2.1

theorem countable (h : WGraph.Canonical g) (hcount : g.Recountable) :
    Countable (!g.directed) ((weightedEdges g).map EdgePair.unweighted) := by
  have hn := g.nodes_lt
  rw [weightedEdges_unweighted]
  apply countable_rowEdges (by omega)
  · intro u
    exact List.pairwise_map.mpr (h.outSorted u)
  · intro hdirected
    have hundirected := (Bool.not_eq_true' _).mp hdirected
    refine ⟨fun u v hv => ?_, fun u => ?_⟩
    · obtain ⟨d, hd, rfl⟩ := List.mem_map.mp hv
      exact List.mem_map.mpr ⟨⟨u, d.w⟩, (h.symm hundirected).mp hd, rfl⟩
    · rw [rowIds, List.length_map]
      exact hcount hundirected u

theorem loads (h : WGraph.Canonical g) (hlast : g.LastIncident) (hcount : g.Recountable)
    (hweights : ∀ u, ∀ d ∈ g.outNeigh u, IsInt32 d.w) {filename : List UInt8}
    (hsuffix : getSuffix filename = .ok (ascii ".wel")) :
    WLoads (!g.directed) filename (writeEL weightedText g) ⟨n, g⟩ := by
  apply ((h.builtFrom hlast).builds (h.countable hcount)).loads
  intro vars
  rw [writeEL_weighted]
  apply readFile_wel hsuffix
  intro e he
  obtain ⟨e', he', rfl⟩ := List.mem_map.mp he
  obtain ⟨row, hrow, he''⟩ := List.mem_flatten.mp he'
  obtain ⟨u, rfl⟩ := (List.mem_ofFn' _ _).mp hrow
  obtain ⟨d, hd, rfl⟩ := List.mem_map.mp he''
  exact ⟨isInt32_val u g.nodes_lt, isInt32_val d.v g.nodes_lt, hweights u d hd⟩

end WGraph.Canonical

end

/-! ## The result -/

/-- With its neighbours renamed, a graph is still one that the builder could have made. -/
theorem Relabelled.canonical {g h : Graph n} (hr : Relabelled g h) (hg : g.Canonical)
    (hundirected : g.directed = false) : h.Canonical := by
  have hsurj (x : Fin n) : ∃ u, newId g.outDegree u = x := (newId g.outDegree).surjective x
  have hsorted := hr.sorted fun u => (hg.outSorted u).imp fun hlt => hlt.ne
  refine ⟨hsorted, fun x => ?_, fun x => ?_, fun x y => ?_⟩
  · rw [h.inNeigh_eq_outNeigh hr.undirected]
    exact hsorted x
  · obtain ⟨u, rfl⟩ := hsurj x
    rw [hr.edge_iff]
    exact hg.irrefl u
  · rw [h.inNeigh_eq_outNeigh hr.undirected]
    obtain ⟨u, rfl⟩ := hsurj x
    obtain ⟨v, rfl⟩ := hsurj y
    show h.Edge _ _ ↔ h.Edge _ _
    rw [hr.edge_iff, hr.edge_iff]
    exact ⟨hg.transposed.symm hundirected, hg.transposed.symm hundirected⟩

/-- Written by `WriteEL` and loaded again, the graph is the same, if its last vertex has an edge and the
counters do not overflow this time. -/
def Reloads (g : Graph n) : Prop :=
  g.LastIncident → g.Recountable → ∀ filename, getSuffix filename = .ok (ascii ".el") →
    Loads (!g.directed) filename (writeEL idText g) ⟨n, g⟩

def WReloads (g : WGraph n) : Prop :=
  g.LastIncident → g.Recountable → ∀ filename, getSuffix filename = .ok (ascii ".wel") →
    WLoads (!g.directed) filename (writeEL weightedText g) ⟨n, g⟩

theorem Graph.Canonical.reloads {g : Graph n} (h : g.Canonical) : Reloads g :=
  fun hlast hcount _ hsuffix => h.loads hlast hcount hsuffix

/-- Whatever way a graph is built from an edge list or relabelled, its text is loaded as the same graph. -/
theorem writeEL_roundTrip (symmetrize : Bool) (el : List (EdgePair Nat (Nat × Int)))
    (hids : ∀ e ∈ el, e.u < 2 ^ 31 - 2 ∧ e.v.1 < 2 ^ 31 - 2)
    (hcount : Countable symmetrize (el.map EdgePair.unweighted))
    (hweights : ∀ e ∈ el, -2 ^ 31 ≤ e.v.2 ∧ e.v.2 < 2 ^ 31) (T : Nat) [NeZero T] :
    (∀ m, (makeGraph T symmetrize (el.map EdgePair.unweighted)).Correct m fun r _ => Reloads r.2 ∧
      (symmetrize = true → ∀ m, (relabelByDegree r.2 T).Correct m fun h _ => ∃ h', h = some h' ∧ Reloads h')) ∧
    (∀ m, (makeWGraph T symmetrize el).Correct m fun r _ => WReloads r.2) ∧
    ((∃ e ∈ el, e.u ≠ e.v.1) → ∀ m,
      (makeGraphInPlace T symmetrize (el.map EdgePair.unweighted)).Correct m fun r _ => Reloads r.2) := by
  have hn := maxNodeID_unweighted_lt hids
  obtain ⟨edges, hedges, hel⟩ := edges_of_max (el.map EdgePair.unweighted)
  obtain ⟨wedges, hwedges, hwel⟩ := wEdges_of_max el
  have hbuilt : BuiltFrom symmetrize _ (builtGraph symmetrize edges hn) := builtGraph_builtFrom hn hel rfl
  have hwbuilt : WBuiltFrom symmetrize el (builtWGraph symmetrize wedges hn) := builtWGraph_builtFrom hn hwel rfl
  refine ⟨fun m => ?_, fun m => ?_, fun hedge m => ?_⟩
  · apply Solo.correct
    apply (makeGraph_solo hn hcount hedges hel m).mono
    rintro _ _ ⟨rfl, -⟩
    refine ⟨hbuilt.canonical.reloads, fun hsymm m => ?_⟩
    have hundirected : (builtGraph symmetrize edges hn).directed = false := by
      rw [hbuilt.directed, hsymm]
      rfl
    apply Solo.correct
    apply (relabelByDegree_solo hundirected m).mono
    rintro _ _ ⟨h, rfl, hr⟩
    exact ⟨h, rfl, (hr.canonical hbuilt.canonical hundirected).reloads⟩
  · apply Solo.correct
    apply (makeWGraph_eq hn hcount hwedges hwel m).mono
    rintro _ _ rfl hlast hrecount filename hsuffix
    apply hwbuilt.canonical.loads hlast hrecount _ hsuffix
    -- the weights of the graph are weights of the edge list
    intro u d hd
    rcases ((hwbuilt.least u d.v d.w).mp hd).2.1 with hmem | ⟨-, hmem⟩
    · exact hweights _ hmem
    · exact hweights _ hmem
  · apply Solo.correct
    obtain ⟨e, he, hne⟩ := hedge
    apply (makeGraphInPlace_solo hn ⟨e.unweighted, List.mem_map_of_mem he, hne⟩ hedges hel m).mono
    rintro _ _ rfl
    exact hbuilt.canonical.reloads

/-- Both orientations of an edge with different weights, a duplicate and a loop. -/
theorem writeEL_roundTrip_pair :
    let el : List (EdgePair Nat (Nat × Int)) := [⟨0, 1, 5⟩, ⟨1, 0, -3⟩, ⟨0, 1, 7⟩, ⟨1, 1, 1⟩]
    (∀ m, (makeGraph 2 true (el.map EdgePair.unweighted)).Correct m fun r _ => Reloads r.2 ∧
      (true = true → ∀ m, (relabelByDegree r.2 2).Correct m fun h _ => ∃ h', h = some h' ∧ Reloads h')) ∧
    (∀ m, (makeWGraph 2 true el).Correct m fun r _ => WReloads r.2) ∧
    ((∃ e ∈ el, e.u ≠ e.v.1) → ∀ m,
      (makeGraphInPlace 2 true (el.map EdgePair.unweighted)).Correct m fun r _ => Reloads r.2) := by
  apply writeEL_roundTrip
  · decide
  · intro x
    have hsources := List.count_le_length (l := [0, 1, 0, 1]) (a := x)
    have htargets := List.count_le_length (l := [1, 0, 1, 1]) (a := x)
    simp only [List.length_cons, List.length_nil] at hsources htargets
    show [0, 1, 0, 1].count x + [1, 0, 1, 1].count x < 2 ^ 31
    omega
  · decide

/-! ## Counters that wrap around -/

section

variable {g : Graph n} {filename : List UInt8}

/-- What is loaded from the text of a graph is built from the edges that were written. -/
theorem Loads.builds (hsuffix : getSuffix filename = .ok (ascii ".el")) {r : (n : Nat) × Graph n}
    (h : Loads (!g.directed) filename (writeEL idText g) r) :
    Builds (!g.directed) ((rowEdges fun u => g.outNeigh u).map EdgePair.raw) r := by
  rw [writeEL_ids] at h
  exact h.builds_ints hsuffix (edges_isInt32 g)

/-- The directions of what is loaded have the same number of entries. -/
theorem Lopsided.not_loads (h : Lopsided g) (hsuffix : getSuffix filename = .ok (ascii ".el")) :
    ¬ Loads (!g.directed) filename (writeEL idText g) ⟨n, g⟩ := by
  intro hloads
  have hbuilds := hloads.builds hsuffix
  have hn := g.nodes_lt
  rw [h.directed] at hbuilds
  have hcount : Countable false ((rowEdges fun u => g.outNeigh u).map EdgePair.raw) :=
    countable_rowEdges (by omega) h.outSorted nofun
  have hmax : maxNodeID ((rowEdges fun u => g.outNeigh u).map EdgePair.raw) < n := by
    obtain ⟨u, -⟩ := h.last
    apply maxNodeID_lt (Nat.zero_lt_of_lt u.isLt)
    intro e he
    obtain ⟨e', -, rfl⟩ := List.mem_map.mp he
    exact ⟨e'.u.isLt, e'.v.isLt⟩
  generalize (rowEdges fun u => g.outNeigh u).map EdgePair.raw = el at hbuilds hcount hmax
  obtain ⟨edges, hedges, hel⟩ := edges_of_max el
  have hsmall : maxNodeID el + 1 + 1 < 2 ^ 31 := by omega
  have hsame : Solo (makeGraph 1 false el) (fun _ => default) fun r _ =>
      r.2.out.neighbors.length = r.2.inn.neighbors.length := by
    apply (makeGraph_solo hsmall hcount hedges hel _).mono
    rintro _ _ ⟨rfl, -⟩
    have hout : (fun u => (builtGraph false edges hsmall).outNeigh u) = builtRow false false edges :=
      funext (builtGraph_outNeigh hsmall)
    have hin : (fun u => (builtGraph false edges hsmall).inNeigh u) = builtRow false true edges :=
      funext (builtGraph_inNeigh hsmall)
    rw [Csr.length_neighbors, Csr.length_neighbors]
    show Csr.rowOffset (fun u => (builtGraph false edges hsmall).outNeigh u) _ =
      Csr.rowOffset (fun u => (builtGraph false edges hsmall).inNeigh u) _
    rw [hout, hin]
    exact length_rows_transposed.symm
  obtain ⟨r, m', hreach⟩ := (hbuilds 1 fun _ => default).returns .refl
  have hr := (hbuilds 1 fun _ => default).result r m' hreach
  have hlength := hsame.correct.result r m' hreach
  rw [hr] at hlength
  exact h.lt.ne hlength

end

/-- Two vertices that are joined to each other and to `k` more. -/
def hubs (k : Nat) : List (EdgePair Nat Nat) :=
  ⟨0, 1⟩ :: ((List.range k).map (fun i => ⟨0, i + 2⟩) ++ (List.range k).map fun i => ⟨1, i + 2⟩)

theorem mem_hubs {k u v : Nat} : ⟨u, v⟩ ∈ hubs k ↔ u < 2 ∧ u < v ∧ v < k + 2 := by
  simp only [hubs, List.mem_cons, List.mem_append, List.mem_map, List.mem_range, EdgePair.mk.injEq]
  constructor
  · rintro (⟨rfl, rfl⟩ | ⟨i, hi, rfl, rfl⟩ | ⟨i, hi, rfl, rfl⟩) <;> omega
  · rintro ⟨hu, huv, hv⟩
    by_cases hv1 : v = 1
    · exact .inl ⟨by omega, hv1⟩
    · have hu' : u = 0 ∨ u = 1 := by omega
      rcases hu' with rfl | rfl
      · exact .inr (.inl ⟨v - 2, by omega, rfl, by omega⟩)
      · exact .inr (.inr ⟨v - 2, by omega, rfl, by omega⟩)

/-- Without loops, an edge counts a vertex once at most. -/
theorem count_add_count_le {el : List (EdgePair Nat Nat)} (h : ∀ e ∈ el, e.u ≠ e.v) (x : Nat) :
    (el.map EdgePair.u).count x + (el.map EdgePair.v).count x ≤ el.length := by
  induction el with
  | nil => exact Nat.le_refl 0
  | cons e el ih =>
    rw [List.forall_mem_cons] at h
    have hrest := ih h.2
    have hne := h.1
    simp only [List.map_cons, List.count_cons, List.length_cons, beq_iff_eq]
    split <;> split <;> omega

theorem hubs_countable {k : Nat} (hk : k + 1 = 2 ^ 30) : Countable true (hubs k) := by
  intro x
  have hle := count_add_count_le (fun e (he : e ∈ hubs k) => (mem_hubs.mp he).2.1.ne) x
  have hlength : (hubs k).length = 2 * k + 1 := by
    simp only [hubs, List.length_cons, List.length_append, List.length_map, List.length_range]
    omega
  show _ + _ < 2 ^ 31
  omega

theorem maxNodeID_hubs {k : Nat} (hk : 0 < k) : maxNodeID (hubs k) = k + 1 := by
  have hlt : maxNodeID (hubs k) < k + 2 := by
    apply maxNodeID_lt (by omega)
    intro e he
    have hmem := mem_hubs.mp he
    omega
  have hle := (le_maxNodeID (mem_hubs.mpr ⟨Nat.zero_lt_two, k.succ_pos, (k + 1).lt_succ_self⟩)).2
  simp only at hle
  omega

/-- The graph of the two hubs. -/
structure HubGraph (k : Nat) (g : Graph n) : Prop where
  nodes : n = k + 2
  undirected : g.directed = false
  canonical : g.Canonical
  edge : ∀ u v, g.Edge u v ↔ u ≠ v ∧ (u.val < 2 ∨ v.val < 2)

theorem BuiltFrom.hubGraph {k : Nat} (hk : 0 < k) {g : Graph n} (h : BuiltFrom true (hubs k) g) :
    HubGraph k g where
  nodes := by rw [h.nodes, maxNodeID_hubs hk]
  undirected := h.directed
  canonical := h.canonical
  edge u v := by
    have hnodes := h.nodes
    rw [maxNodeID_hubs hk] at hnodes
    rw [h.edge, mem_hubs, mem_hubs, Ne, Fin.ext_iff]
    simp only [true_and]
    omega

namespace HubGraph

variable {k : Nat} {g : Graph n}

/-- A hub has all other vertices as neighbours, another vertex the two hubs. -/
theorem length_outNeigh (h : HubGraph k g) (u : Fin n) :
    (g.outNeigh u).length = if u.val < 2 then k + 1 else 2 := by
  have hnodes := h.nodes
  have hcard : (g.outNeigh u).length = (g.outNeigh u).toFinset.card :=
    (List.toFinset_card_of_nodup (rows_nodup h.canonical.outSorted u)).symm
  have hmem (v : Fin n) : v ∈ g.outNeigh u ↔ u ≠ v ∧ (u.val < 2 ∨ v.val < 2) := h.edge u v
  rw [hcard]
  by_cases hu : u.val < 2
  · have hset : (g.outNeigh u).toFinset = Finset.univ.erase u := by
      ext v
      rw [List.mem_toFinset, hmem, Finset.mem_erase, ne_comm]
      simp [hu]
    rw [if_pos hu, hset, Finset.card_erase_of_mem (Finset.mem_univ u), Finset.card_fin]
    omega
  · have hset : (g.outNeigh u).toFinset = {⟨0, by omega⟩, ⟨1, by omega⟩} := by
      ext v
      rw [List.mem_toFinset, hmem, Finset.mem_insert, Finset.mem_singleton, Fin.ext_iff, Fin.ext_iff, Ne,
        Fin.ext_iff]
      simp only
      omega
    rw [if_neg hu, hset, Finset.card_pair]
    simp

/-- Counted twice for every neighbour, the hubs' counters are negative and outweigh all others. -/
theorem sum_degreeOf (h : HubGraph k g) (hk : k + 1 = 2 ^ 30) {N : Nat} (hN : N = n)
    {edges : List (EdgePair (Fin N) (Fin N))}
    (hraw : edges.map EdgePair.raw = (rowEdges fun u => g.outNeigh u).map EdgePair.raw) :
    ∑ v, toNodeID (degreeOf true false false edges v) < 0 := by
  subst hN
  have hdegree (v : Fin N) : toNodeID (degreeOf true false false edges v) =
      if v.val < 2 then -2 ^ 31 else 4 := by
    have hin : inRow (fun u => g.outNeigh u) v = g.outNeigh v := by
      apply (inRow_sorted _ v).eq_of_mem_iff (h.canonical.outSorted v)
      intro u
      have hsource : u ∈ inRow (fun u => g.outNeigh u) v ↔ g.Edge u v :=
        mem_sourcesBelow.trans (and_iff_right u.isLt)
      rw [hsource]
      exact ⟨h.canonical.transposed.symm h.undirected, h.canonical.transposed.symm h.undirected⟩
    obtain ⟨hsources, htargets⟩ := count_raw_rowEdges h.canonical.outSorted v
    rw [degreeOf_raw hraw, hsources, htargets, hin, h.length_outNeigh v]
    by_cases hv : v.val < 2
    · have hcast : ((2 ^ 31 : Nat) : Int) = 2 ^ 31 := rfl
      have htwice : (k + 1) + (k + 1) = 2 ^ 31 := by omega
      simp only [hv, if_true, Bool.true_or, htwice, hcast, toNodeID]
      decide
    · simp only [hv, if_false, if_true, Bool.true_or]
      decide
  obtain rfl := h.nodes
  simp only [hdegree, Fin.sum_univ_succ]
  simp
  omega

/-- The text of the graph is not loaded: there is no room for the neighbours. -/
theorem not_loads (h : HubGraph k g) (hk : k + 1 = 2 ^ 30) {filename : List UInt8}
    (hsuffix : getSuffix filename = .ok (ascii ".el")) :
    ¬ Loads (!g.directed) filename (writeEL idText g) ⟨n, g⟩ := by
  intro hloads
  have hbuilds := hloads.builds hsuffix
  rw [h.undirected] at hbuilds
  have hnodes := h.nodes
  have hmax : n = maxNodeID ((rowEdges fun u => g.outNeigh u).map EdgePair.raw) + 1 := by
    have hedge : g.Edge ⟨0, by omega⟩ ⟨k + 1, by omega⟩ :=
      (h.edge _ _).mpr ⟨fun heq => absurd (Fin.mk.inj heq) (by omega), .inl Nat.zero_lt_two⟩
    exact maxNodeID_rowEdges hedge (.inr hnodes.symm)
  obtain ⟨edges, hedges, hraw⟩ := edges_of_max ((rowEdges fun u => g.outNeigh u).map EdgePair.raw)
  have hn := g.nodes_lt
  have hfail := makeGraph_canFail (by omega) hedges
    (makeCSR_canFail_of_neg (T := 1) (h.sum_degreeOf hk hmax.symm hraw)) fun _ => default
  exact hfail.not_correct (hbuilds 1 _)

end HubGraph

/-- The graph is built, but not loaded again. -/
theorem makeGraph_hubs {k : Nat} (hk : k + 1 = 2 ^ 30) :
    ∃ m m' r, Prog.Reach (makeGraph 1 true (hubs k), m) (.ret r, m') ∧ r.2.LastIncident ∧
      ¬ ∀ filename, getSuffix filename = .ok (ascii ".el") →
        Loads (!r.2.directed) filename (writeEL idText r.2) r := by
  have hsuffix : getSuffix (ascii "g.el") = .ok (ascii ".el") := rfl
  have hpos : 0 < k := by omega
  have hmax := maxNodeID_hubs hpos
  have hn : maxNodeID (hubs k) + 1 + 1 < 2 ^ 31 := by omega
  obtain ⟨edges, hedges, hel⟩ := edges_of_max (hubs k)
  have hcorrect := (makeGraph_solo (T := 1) hn (hubs_countable hk) hedges hel fun _ => default).correct
  obtain ⟨r, m', hreach⟩ := hcorrect.returns .refl
  obtain ⟨rfl, -⟩ := hcorrect.result r m' hreach
  have hhub : HubGraph k (builtGraph true edges hn) := (builtGraph_builtFrom hn hel rfl).hubGraph hpos
  have hlast : k + 1 < maxNodeID (hubs k) + 1 := by omega
  refine ⟨_, m', _, hreach, ?_, fun hloads => hhub.not_loads hk hsuffix (hloads _ hsuffix)⟩
  refine ⟨⟨k + 1, hlast⟩, (congrArg (· + 1) hmax).symm, .inl ?_⟩
  have hedge := (hhub.edge ⟨k + 1, hlast⟩ ⟨0, Nat.succ_pos _⟩).mpr
    ⟨fun heq => absurd (Fin.mk.inj heq) (by omega), .inr Nat.zero_lt_two⟩
  exact List.ne_nil_of_mem hedge

/-- With `2 ^ 32` edges at a vertex the graph has lost edges in the direction that is written; with `2 ^ 30`
neighbours of a vertex in an undirected graph, its text has too many edges at the vertex. -/
theorem writeEL_not_total :
    (∃ m m' r, Prog.Reach (makeGraph 1 false (fans (2 ^ 27)), m) (.ret r, m') ∧ r.2.LastIncident ∧
      ¬ ∀ filename, getSuffix filename = .ok (ascii ".el") →
        Loads (!r.2.directed) filename (writeEL idText r.2) r) ∧
    ∃ m m' r, Prog.Reach (makeGraph 1 true (hubs (2 ^ 30 - 1)), m) (.ret r, m') ∧ r.2.LastIncident ∧
      ¬ ∀ filename, getSuffix filename = .ok (ascii ".el") →
        Loads (!r.2.directed) filename (writeEL idText r.2) r := by
  have hsuffix : getSuffix (ascii "g.el") = .ok (ascii ".el") := rfl
  refine ⟨?_, makeGraph_hubs rfl⟩
  have hcorrect := (makeGraph_fans rfl fun _ => default).correct
  obtain ⟨r, m', hreach⟩ := hcorrect.returns .refl
  have hr := hcorrect.result r m' hreach
  obtain ⟨u, hu, hne⟩ := hr.last
  exact ⟨_, m', r, hreach, ⟨u, hu, .inr hne⟩, fun hloads => hr.not_loads hsuffix (hloads _ hsuffix)⟩

end Gapbs
