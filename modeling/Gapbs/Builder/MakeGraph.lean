import Mathlib.Combinatorics.SimpleGraph.DegreeSum
import Mathlib.Data.Finset.Lattice.Fold
import Gapbs.Builder.Squish

/-!
# From an edge list to a graph

`MakeGraphFromEL` followed by `SquishGraph`, as `MakeGraph` of `builder.h` runs them when the graph
is not built in place, for unweighted edge lists.
-/

namespace Gapbs

open Conc Function

variable {n : Nat}

/-! ## The number of vertices -/

/-- One iteration of the loop of `FindMaxNodeID`. -/
def maxOfEdge (maxSeen : Nat) (e : EdgePair Nat Nat) : Nat := max (max maxSeen e.u) e.v

/-- `FindMaxNodeID(el)`: the private maxima of the threads are reduced into `max_seen`, which starts
as 0.  A private maximum starts as the least id. -/
def findMaxNodeID {S : Type} (T : Nat) [NeZero T] (el : List (EdgePair Nat Nat)) : Prog S Nat := do
  let sched ← .pick (Schedule.serial T el.length)
  let seen ← .fork fun t => .forEach (sched.work t) 0 fun i maxSeen =>
    .ret (maxOfEdge maxSeen (el.get i))
  return Finset.univ.sup seen

/-- The largest id of an edge list. -/
def maxNodeID (el : List (EdgePair Nat Nat)) : Nat := el.foldl maxOfEdge 0

theorem foldl_maxOfEdge_le {l : List (EdgePair Nat Nat)} {a k : Nat} :
    l.foldl maxOfEdge a ≤ k ↔ a ≤ k ∧ ∀ e ∈ l, e.u ≤ k ∧ e.v ≤ k := by
  induction l generalizing a with
  | nil => simp
  | cons e l ih =>
    rw [List.foldl_cons, ih, maxOfEdge, List.forall_mem_cons, max_le_iff, max_le_iff]
    tauto

theorem le_maxNodeID {el : List (EdgePair Nat Nat)} {e : EdgePair Nat Nat} (he : e ∈ el) :
    e.u ≤ maxNodeID el ∧ e.v ≤ maxNodeID el :=
  (foldl_maxOfEdge_le.mp (le_refl (maxNodeID el))).2 e he

theorem findMaxNodeID_solo {S : Type} {T : Nat} [NeZero T] (el : List (EdgePair Nat Nat)) (s : S) :
    Solo (findMaxNodeID T el) s fun k s' => k = maxNodeID el ∧ s' = s := by
  apply Solo.pick_bind
  intro sched
  apply Solo.bind
  let seen (l : List (Fin el.length)) : Nat := (l.map el.get).foldl maxOfEdge 0
  refine (Solo.fork (Δ := Unit) (fun _ σ τ => σ = τ)
    (fun t k σ => k = seen (sched.work t) ∧ σ = (s, ())) () fun t => ?_).mono ?_
  · -- nothing is shared between the threads
    have hstable (P : S × Unit → Prop) :
        Stable (Rely (fun _ : Fin T => fun σ τ : S × Unit => σ = τ) t) P := by
      rintro σ τ hσ ⟨_, _, rfl⟩
      exact hσ
    apply WP.forEach (fun pre k σ => k = seen pre ∧ σ = (s, ())) ⟨rfl, rfl⟩ (fun _ _ => hstable _)
    rintro pre i post k σ - ⟨rfl, rfl⟩
    refine WP.ret ⟨?_, rfl⟩ (hstable _)
    simp [seen]
  · rintro k s' ⟨_, hk⟩
    have hs : s' = s := congrArg Prod.fst (hk 0).2
    refine Solo.ret ⟨eq_of_forall_ge_iff fun b => ?_, hs⟩
    rw [Finset.sup_le_iff, maxNodeID, foldl_maxOfEdge_le]
    constructor
    · intro h
      refine ⟨Nat.zero_le b, fun e he => ?_⟩
      obtain ⟨i, rfl⟩ := List.mem_iff_get.mp he
      obtain ⟨t, ht⟩ := sched.exists_mem i
      have hle := h t (Finset.mem_univ t)
      rw [(hk t).1, foldl_maxOfEdge_le] at hle
      exact hle.2 _ (List.mem_map_of_mem ht)
    · intro h t _
      rw [(hk t).1, foldl_maxOfEdge_le]
      refine ⟨Nat.zero_le b, fun e he => ?_⟩
      obtain ⟨i, -, rfl⟩ := List.mem_map.mp he
      exact h.2 _ (List.get_mem el i)

/-! ## The program -/

/-- An edge whose ids are in range. -/
def toEdge (n : Nat) (e : EdgePair Nat Nat) : Option (EdgePair (Fin n) (Fin n)) :=
  if h : e.u < n ∧ e.v < n then some ⟨⟨e.u, h.1⟩, ⟨e.v, h.2⟩⟩ else none

/-- The arrays of the builder. -/
structure BuilderMem (n : Nat) (D : Type) where
  out : CsrMem n D
  inn : CsrMem n D
  squish : SquishMem n D

namespace BuilderMem

variable {D : Type}

instance : Inhabited (BuilderMem n D) :=
  let sums : PrefixMem Int n (blockCount n prefixBlockSize) := ⟨fun _ => 0, fun _ => 0, fun _ => 0⟩
  ⟨⟨⟨fun _ => 0, sums, fun _ => 0, [], fun _ => 0⟩, ⟨fun _ => 0, sums, fun _ => 0, [], fun _ => 0⟩,
    ⟨[], fun _ => 0, sums, [], fun _ => 0⟩⟩⟩

def outLens : Lens (BuilderMem n D) (CsrMem n D) where
  get m := m.out
  set out m := { m with out }
  get_set _ _ := rfl
  set_get _ := rfl
  set_set _ _ _ := rfl

def innLens : Lens (BuilderMem n D) (CsrMem n D) where
  get m := m.inn
  set inn m := { m with inn }
  get_set _ _ := rfl
  set_get _ := rfl
  set_set _ _ _ := rfl

def squishLens : Lens (BuilderMem n D) (SquishMem n D) where
  get m := m.squish
  set squish m := { m with squish }
  get_set _ _ := rfl
  set_get _ := rfl
  set_set _ _ _ := rfl

/-- The heap has room for the arrays of any number of vertices. -/
def sizeLens (n : Nat) : Lens (∀ n, BuilderMem n (Fin n)) (BuilderMem n (Fin n)) where
  get m := m n
  set a m := update m n a
  get_set _ _ := update_self ..
  set_get _ := update_eq_self ..
  set_set _ _ _ := update_idem ..

end BuilderMem

/-- `MakeGraphFromEL(el)` outside in-place building, once `num_nodes_` is set.  `GenIndex` has
thrown if the pointers are too many to be counted. -/
def makeGraphFromEL {D : Type} [Dest n D] (T : Nat) [NeZero T] (symmetrize : Bool)
    (el : List (EdgePair (Fin n) D)) : Prog (BuilderMem n D) (CSRGraph n D) := do
  let out ← (makeCSR T symmetrize el false).zoom BuilderMem.outLens
  if h : n + 1 < 2 ^ 31 then
    if symmetrize then return .ofUndirected out h
    else
      let inn ← (makeCSR T symmetrize el true).zoom BuilderMem.innLens
      return .ofDirected out inn h
  else .fail

/-- The graph of an edge list, as `MakeGraph` builds it outside in-place building. -/
def makeGraph (T : Nat) [NeZero T] (symmetrize : Bool) (el : List (EdgePair Nat Nat)) :
    Prog (∀ n, BuilderMem n (Fin n)) ((n : Nat) × Graph n) := do
  let maxSeen ← findMaxNodeID T el
  -- `FindMaxNodeID(el) + 1` is a sum of two `int`
  if maxSeen + 1 < 2 ^ 31 then
    let n := maxSeen + 1
    match el.mapM (toEdge n) with
    | none => .fail
    | some edges =>
      let g ← (makeGraphFromEL T symmetrize edges).zoom (BuilderMem.sizeLens n)
      let g ← ((squishGraph T g).zoom BuilderMem.squishLens).zoom (BuilderMem.sizeLens n)
      return ⟨n, g⟩
  else .fail

/-! ## Neighbourhoods without weights -/

section Row

variable {v : Fin n} {xs ys : List (Fin n)}

theorem sortList_sorted (xs : List (Fin n)) : (sortList xs).Pairwise (· ≤ ·) := by
  have hsorted : (sortList xs).Pairwise fun a b => !decide (b < a) := by
    apply List.pairwise_mergeSort
    · intro a b c hab hbc
      simp only [Bool.not_eq_true', decide_eq_false_iff_not, not_lt] at *
      exact hab.trans hbc
    · intro a b
      simpa [Dest.lt] using le_total a b
  exact hsorted.imp fun hab => by simpa using hab

theorem sortList_perm (h : xs.Perm ys) : sortList xs = sortList ys :=
  List.Perm.eq_of_pairwise' (sortList_sorted xs) (sortList_sorted ys)
    (((List.mergeSort_perm xs _).trans h).trans (List.mergeSort_perm ys _).symm)

theorem uniqueList_sortList (xs : List (Fin n)) : uniqueList (sortList xs) = (sortList xs).dedup := by
  rw [← (sortList_sorted xs).destutter_eq_dedup, uniqueList]
  congr! 3
  simp [Dest.eq]

/-- What is left of a neighbourhood: the other vertices that occur in it. -/
theorem mem_squishRow {d : Fin n} : d ∈ squishRow v xs ↔ d ∈ xs ∧ d ≠ v := by
  rw [squishRow, uniqueList_sortList, removeVertex, List.mem_filter, List.mem_dedup, sortList,
    List.mem_mergeSort]
  simp [Dest.id]

theorem squishRow_sorted (v : Fin n) (xs : List (Fin n)) : (squishRow v xs).Pairwise (· < ·) := by
  rw [squishRow, uniqueList_sortList, removeVertex]
  apply List.Pairwise.filter
  have hsorted := (sortList_sorted xs).sublist (List.dedup_sublist _)
  exact (hsorted.and (List.nodup_dedup _)).imp fun hab => lt_of_le_of_ne hab.1 hab.2

theorem squishRow_nodup (v : Fin n) (xs : List (Fin n)) : (squishRow v xs).Nodup :=
  (squishRow_sorted v xs).imp fun hab => hab.ne

theorem squishRow_perm (v : Fin n) (h : xs.Perm ys) : squishRow v xs = squishRow v ys := by
  rw [squishRow, squishRow, sortList_perm h]

theorem length_squishRow_le (v : Fin n) (xs : List (Fin n)) : (squishRow v xs).length ≤ n := by
  simpa using (squishRow_nodup v xs).length_le_card

end Row

/-! ## The graph of an edge list -/

section Built

variable {symmetrize transpose : Bool} {el : List (EdgePair (Fin n) (Fin n))}

theorem mem_incident {u v : Fin n} : v ∈ incident symmetrize transpose el u ↔
    ((symmetrize || !transpose) = true ∧ ⟨u, v⟩ ∈ el) ∨
      ((symmetrize || transpose) = true ∧ ⟨v, u⟩ ∈ el) := by
  have hentry (e : EdgePair (Fin n) (Fin n)) : v ∈ rowOf u (entries symmetrize transpose e) ↔
      ((symmetrize || !transpose) = true ∧ e = ⟨u, v⟩) ∨
        ((symmetrize || transpose) = true ∧ e = ⟨v, u⟩) := by
    obtain ⟨a, b⟩ := e
    cases symmetrize <;> cases transpose <;>
      simp [entries, rowOf, Dest.id, Dest.getSource, and_comm, eq_comm]
  induction el with
  | nil => simp [incident, rowOf]
  | cons e el ih =>
    have hrest : v ∈ rowOf u (el.flatMap (entries symmetrize transpose)) ↔ _ := ih
    rw [incident, List.flatMap_cons, rowOf_append, List.mem_append, hentry, hrest, List.mem_cons,
      List.mem_cons, eq_comm (a := e), eq_comm (a := e), and_or_left, and_or_left, or_or_or_comm]

/-- The row of `v` in the graph of an edge list. -/
def builtRow (symmetrize transpose : Bool) (el : List (EdgePair (Fin n) (Fin n))) (v : Fin n) :
    List (Fin n) :=
  squishRow v (incident symmetrize transpose el v)

/-- The graph of an edge list. -/
def builtGraph (symmetrize : Bool) (el : List (EdgePair (Fin n) (Fin n))) (hn : n + 1 < 2 ^ 31) :
    Graph n :=
  let out := Csr.ofRows (builtRow symmetrize false el)
  let inn := Csr.ofRows (builtRow symmetrize true el)
  if symmetrize then .ofUndirected out hn else .ofDirected out inn hn

theorem mem_builtRow {u v : Fin n} : v ∈ builtRow symmetrize transpose el u ↔
    u ≠ v ∧ (((symmetrize || !transpose) = true ∧ ⟨u, v⟩ ∈ el) ∨
      ((symmetrize || transpose) = true ∧ ⟨v, u⟩ ∈ el)) := by
  rw [builtRow, mem_squishRow, mem_incident, and_comm, ne_comm]

theorem builtRow_sorted (u : Fin n) : (builtRow symmetrize transpose el u).Pairwise (· < ·) :=
  squishRow_sorted u _

theorem builtRow_nodup (u : Fin n) : (builtRow symmetrize transpose el u).Nodup :=
  squishRow_nodup u _

theorem offset_total (degrees : Fin n → Nat) : offset degrees n = ∑ i, degrees i := by
  simp [offset]

/-- A directed graph has one entry for each distinct edge that is no loop. -/
theorem length_rows_directed : Csr.rowOffset (builtRow false false el) n =
    ((el.filter fun e => e.u ≠ e.v).dedup).length := by
  let edges : Finset (EdgePair (Fin n) (Fin n)) := (el.filter fun e => e.u ≠ e.v).toFinset
  have hedges : edges.card = ((el.filter fun e => e.u ≠ e.v).dedup).length := List.card_toFinset _
  rw [← hedges, Csr.rowOffset, offset_total, Finset.card_eq_sum_card_fiberwise
    (f := EdgePair.u) (t := Finset.univ) fun _ _ => Finset.mem_univ _]
  apply Finset.sum_congr rfl
  intro u _
  rw [← List.toFinset_card_of_nodup (builtRow_nodup u)]
  apply Finset.card_bij fun v _ => (⟨u, v⟩ : EdgePair (Fin n) (Fin n))
  · intro v hv
    have hmem := mem_builtRow.mp (List.mem_toFinset.mp hv)
    simp only [edges, Finset.mem_filter, List.mem_toFinset, List.mem_filter, decide_eq_true_eq]
    simpa using And.comm.mp hmem
  · exact fun v _ w _ h => (EdgePair.mk.inj h).2
  · rintro ⟨a, v⟩ he
    simp only [edges, Finset.mem_filter, List.mem_toFinset, List.mem_filter,
      decide_eq_true_eq] at he
    obtain ⟨⟨hmem, hne⟩, rfl⟩ := he
    exact ⟨v, List.mem_toFinset.mpr (mem_builtRow.mpr ⟨hne, .inl ⟨rfl, hmem⟩⟩), rfl⟩

/-- A symmetrized graph has two entries for each distinct unordered pair that is no loop. -/
theorem length_rows_symmetrized : Csr.rowOffset (builtRow true false el) n =
    2 * (((el.filter fun e => e.u ≠ e.v).map fun e => s(e.u, e.v)).dedup).length := by
  let G : SimpleGraph (Fin n) :=
    { Adj := fun u v => u ≠ v ∧ (⟨u, v⟩ ∈ el ∨ ⟨v, u⟩ ∈ el)
      symm := ⟨fun u v h => ⟨h.1.symm, h.2.symm⟩⟩
      loopless := ⟨fun u h => h.1 rfl⟩ }
  have hdec : DecidableRel G.Adj := fun u v => inferInstanceAs (Decidable (_ ∧ _))
  have hdegree (u : Fin n) : (builtRow true false el u).length = G.degree u := by
    rw [← List.toFinset_card_of_nodup (builtRow_nodup u), ← G.card_neighborFinset_eq_degree]
    congr 1
    ext v
    rw [List.mem_toFinset, G.mem_neighborFinset, mem_builtRow]
    simp [G]
  have hedges : G.edgeFinset = ((el.filter fun e => e.u ≠ e.v).map fun e => s(e.u, e.v)).toFinset := by
    ext e
    induction e using Sym2.ind with
    | _ u v =>
      rw [SimpleGraph.mem_edgeFinset, SimpleGraph.mem_edgeSet, List.mem_toFinset, List.mem_map]
      constructor
      · rintro ⟨hne, huv | hvu⟩
        · exact ⟨⟨u, v⟩, by simpa using ⟨huv, hne⟩, rfl⟩
        · exact ⟨⟨v, u⟩, by simpa using ⟨hvu, Ne.symm hne⟩, Sym2.eq_swap⟩
      · rintro ⟨⟨a, b⟩, hab, heq⟩
        obtain ⟨hmem, hne⟩ : (⟨a, b⟩ : EdgePair (Fin n) (Fin n)) ∈ el ∧ a ≠ b := by simpa using hab
        rcases Sym2.eq_iff.mp heq with ⟨rfl, rfl⟩ | ⟨rfl, rfl⟩
        · exact ⟨hne, .inl hmem⟩
        · exact ⟨Ne.symm hne, .inr hmem⟩
  rw [← List.card_toFinset, ← hedges, ← G.sum_degrees_eq_twice_card_edges, Csr.rowOffset,
    offset_total]
  exact Finset.sum_congr rfl fun u _ => hdegree u

theorem builtGraph_directed (hn : n + 1 < 2 ^ 31) :
    (builtGraph symmetrize el hn).directed = !symmetrize := by
  cases symmetrize <;> rfl

theorem builtGraph_outNeigh (hn : n + 1 < 2 ^ 31) (v : Fin n) :
    (builtGraph symmetrize el hn).outNeigh v = builtRow symmetrize false el v := by
  cases symmetrize <;> exact Csr.neigh_ofRows _ v

theorem builtGraph_inNeigh (hn : n + 1 < 2 ^ 31) (v : Fin n) :
    (builtGraph symmetrize el hn).inNeigh v = builtRow symmetrize (!symmetrize) el v := by
  cases symmetrize <;> exact Csr.neigh_ofRows _ v

theorem builtGraph_numEdges (hn : n + 1 < 2 ^ 31) : (builtGraph symmetrize el hn).numEdges =
    if symmetrize then (((el.filter fun e => e.u ≠ e.v).map fun e => s(e.u, e.v)).dedup).length
    else ((el.filter fun e => e.u ≠ e.v).dedup).length := by
  cases symmetrize with
  | true =>
    change (Csr.rowOffset (builtRow true false el) n - Csr.rowOffset (builtRow true false el) 0) / 2 = _
    rw [length_rows_symmetrized, Csr.rowOffset, offset_zero, if_pos rfl]
    omega
  | false =>
    change Csr.rowOffset (builtRow false false el) n - Csr.rowOffset (builtRow false false el) 0 = _
    rw [length_rows_directed, Csr.rowOffset, offset_zero, Nat.sub_zero]
    rfl

end Built

/-! ## The construction -/

section

variable {T : Nat} [NeZero T] {symmetrize : Bool}

/-- All slots that the scatter loop of one `MakeCSR` had to fill were written exactly once. -/
def CsrMem.WrittenOnce {D : Type} (m : CsrMem n D) : Prop := ∀ k < m.neighs.length, m.writes k = 1

theorem squished_eq_builtGraph {el : List (EdgePair (Fin n) (Fin n))} {g : Graph n}
    (hdirected : g.directed = !symmetrize)
    (hout : ∀ v, (g.outNeigh v).Perm (incident symmetrize false el v))
    (hin : symmetrize = false → ∀ v, (g.inNeigh v).Perm (incident symmetrize true el v)) :
    g.squished = builtGraph symmetrize el g.nodes_lt := by
  have houtRows : (fun v => squishRow v (g.outNeigh v)) = builtRow symmetrize false el :=
    funext fun v => squishRow_perm v (hout v)
  cases symmetrize with
  | true => rw [CSRGraph.squished, builtGraph, houtRows, hdirected]; rfl
  | false =>
    have hinRows : (fun v => squishRow v (g.inNeigh v)) = builtRow false true el :=
      funext fun v => squishRow_perm v (hin rfl v)
    rw [CSRGraph.squished, builtGraph, houtRows, hinRows, hdirected]
    rfl

/-- `MakeGraphFromEL` collects the neighbours of every vertex. -/
theorem makeGraphFromEL_collects {D : Type} [Dest n D] {el : List (EdgePair (Fin n) D)}
    (hn : n + 1 < 2 ^ 31) (hdegree : ∀ transpose v, degreeOf symmetrize false transpose el v < 2 ^ 31)
    (m : BuilderMem n D) :
    Solo (makeGraphFromEL T symmetrize el) m fun g m' => g.directed = !symmetrize ∧
      (∀ v, (g.outNeigh v).Perm (incident symmetrize false el v)) ∧
      (symmetrize = false → ∀ v, (g.inNeigh v).Perm (incident symmetrize true el v)) ∧
      m'.out.WrittenOnce ∧ (symmetrize = false → m'.inn.WrittenOnce) := by
  apply Solo.bind
  apply (Solo.zoom (makeCSR_solo hn (hdegree false) _)).mono
  rintro out m ⟨⟨hout, hwritten⟩, -⟩
  rw [dif_pos hn]
  cases symmetrize with
  | true =>
    apply Solo.ret
    exact ⟨rfl, hout, nofun, hwritten, nofun⟩
  | false =>
    apply Solo.bind
    apply (Solo.zoom (makeCSR_solo hn (hdegree true) _)).mono
    rintro inn m' ⟨⟨hin, hwrittenIn⟩, hm'⟩
    apply Solo.ret
    refine ⟨rfl, hout, fun _ => hin, ?_, fun _ => hwrittenIn⟩
    rw [hm']
    exact hwritten

theorem makeGraphFromEL_solo {el : List (EdgePair (Fin n) (Fin n))} (hn : n + 1 < 2 ^ 31)
    (hdegree : ∀ transpose v, degreeOf symmetrize false transpose el v < 2 ^ 31)
    (m : BuilderMem n (Fin n)) :
    Solo (makeGraphFromEL T symmetrize el) m fun g m' =>
      g.squished = builtGraph symmetrize el hn ∧ m'.out.WrittenOnce ∧
        (symmetrize = false → m'.inn.WrittenOnce) :=
  (makeGraphFromEL_collects hn hdegree m).mono fun _ _ ⟨hdirected, hout, hin, hwritten⟩ =>
    ⟨squished_eq_builtGraph hdirected hout hin, hwritten⟩

end

/-! ## Ids in range -/

section

/-- The edge as it stands in the edge list. -/
def EdgePair.raw (e : EdgePair (Fin n) (Fin n)) : EdgePair Nat Nat := ⟨e.u, e.v⟩

theorem EdgePair.raw_injective : Injective (EdgePair.raw (n := n)) := by
  rintro ⟨a, b⟩ ⟨c, d⟩ h
  obtain ⟨hac, hbd⟩ := EdgePair.mk.inj h
  rw [EdgePair.mk.injEq]
  exact ⟨Fin.ext hac, Fin.ext hbd⟩

theorem exists_edges {el : List (EdgePair Nat Nat)} (h : ∀ e ∈ el, e.u < n ∧ e.v < n) :
    ∃ edges, el.mapM (toEdge n) = some edges ∧ edges.map EdgePair.raw = el := by
  induction el with
  | nil => exact ⟨[], rfl, rfl⟩
  | cons e el ih =>
    rw [List.forall_mem_cons] at h
    obtain ⟨edges, hedges, hraw⟩ := ih h.2
    refine ⟨⟨⟨e.u, h.1.1⟩, ⟨e.v, h.1.2⟩⟩ :: edges, ?_, ?_⟩
    · rw [List.mapM_cons, hedges, toEdge, dif_pos h.1]
      rfl
    · rw [List.map_cons, hraw]
      rfl

variable (symmetrize : Bool) (el : List (EdgePair Nat Nat))

/-- No counter of `CountDegrees` leaves the range of `NodeID_`. -/
def Countable : Prop := ∀ x : Nat,
  let sources := (el.map EdgePair.u).count x
  let targets := (el.map EdgePair.v).count x
  if symmetrize then sources + targets < 2 ^ 31 else sources < 2 ^ 31 ∧ targets < 2 ^ 31

/-- What is asked of a graph that is built from the edge list. -/
structure BuiltFrom (g : Graph n) : Prop where
  nodes : n = maxNodeID el + 1
  directed : g.directed = !symmetrize
  outSorted : ∀ v, (g.outNeigh v).Pairwise (· < ·)
  inSorted : ∀ v, (g.inNeigh v).Pairwise (· < ·)
  edge : ∀ u v, g.Edge u v ↔
    u ≠ v ∧ (⟨u, v⟩ ∈ el ∨ symmetrize = true ∧ (⟨v, u⟩ : EdgePair Nat Nat) ∈ el)
  transposed : g.Transposed
  same : symmetrize = true → ∀ v, g.inNeigh v = g.outNeigh v
  numEdges : g.numEdges =
    if symmetrize then (((el.filter fun e => e.u ≠ e.v).map fun e => s(e.u, e.v)).dedup).length
    else ((el.filter fun e => e.u ≠ e.v).dedup).length

/-- One graph is the result of all interleavings, on any team of threads. -/
def MakesGraph : Prop :=
  ∃ r : (n : Nat) × Graph n, BuiltFrom symmetrize el r.2 ∧
    ∀ (T : Nat) [NeZero T] (m : ∀ n, BuilderMem n (Fin n)),
      (makeGraph T symmetrize el).Correct m fun r' m' => r' = r ∧ (m' r.1).out.WrittenOnce ∧
        (symmetrize = false → (m' r.1).inn.WrittenOnce)

variable {symmetrize el}

theorem degreeOf_eq (transpose : Bool) (edges : List (EdgePair (Fin n) (Fin n))) (x : Fin n) :
    degreeOf symmetrize false transpose edges x =
      (if symmetrize || !transpose then (edges.map EdgePair.u).count x else 0) +
        if symmetrize || transpose then (edges.map EdgePair.v).count x else 0 := by
  induction edges with
  | nil => simp [degreeOf]
  | cons e edges ih =>
    rw [degreeOf, List.flatMap_cons, List.count_append, ← degreeOf, ih]
    cases symmetrize <;> cases transpose <;>
      simp [countedVertices, Dest.id, List.count_cons] <;> omega

theorem degreeOf_raw {edges : List (EdgePair (Fin n) (Fin n))} (hel : edges.map EdgePair.raw = el)
    (transpose : Bool) (x : Fin n) : degreeOf symmetrize false transpose edges x =
      (if symmetrize || !transpose then (el.map EdgePair.u).count x.val else 0) +
        if symmetrize || transpose then (el.map EdgePair.v).count x.val else 0 := by
  have hcount (f : EdgePair (Fin n) (Fin n) → Fin n) :
      (edges.map fun e => (f e).val).count x.val = (edges.map f).count x := by
    have hmap := List.count_map_of_injective (edges.map f) Fin.val Fin.val_injective x
    rwa [List.map_map] at hmap
  rw [degreeOf_eq, ← hcount EdgePair.u, ← hcount EdgePair.v, ← hel, List.map_map, List.map_map]
  rfl

theorem Countable.degreeOf {edges : List (EdgePair (Fin n) (Fin n))}
    (h : Countable symmetrize el) (hel : edges.map EdgePair.raw = el) (transpose : Bool)
    (x : Fin n) : degreeOf symmetrize false transpose edges x < 2 ^ 31 := by
  have hx := h x.val
  rw [degreeOf_raw hel]
  cases symmetrize <;> cases transpose <;> simp at hx ⊢ <;> omega

theorem builtGraph_builtFrom {edges : List (EdgePair (Fin n) (Fin n))} (hn : n + 1 < 2 ^ 31)
    (hel : edges.map EdgePair.raw = el) (hnodes : n = maxNodeID el + 1) :
    BuiltFrom symmetrize el (builtGraph symmetrize edges hn) := by
  subst hel
  have hraw (u v : Fin n) : (⟨u, v⟩ : EdgePair Nat Nat) ∈ edges.map EdgePair.raw ↔ ⟨u, v⟩ ∈ edges :=
    List.mem_map_of_injective (a := (⟨u, v⟩ : EdgePair (Fin n) (Fin n))) EdgePair.raw_injective
  have hfilter : (edges.map EdgePair.raw).filter (fun e => e.u ≠ e.v) =
      (edges.filter fun e => e.u ≠ e.v).map EdgePair.raw := by
    rw [List.filter_map]
    congr 2
    funext e
    exact decide_eq_decide.mpr (not_congr Fin.ext_iff.symm)
  refine ⟨hnodes, builtGraph_directed hn, fun v => ?_, fun v => ?_, fun u v => ?_, fun u v => ?_,
    fun hsymm v => ?_, ?_⟩
  · rw [builtGraph_outNeigh]
    exact builtRow_sorted v
  · rw [builtGraph_inNeigh]
    exact builtRow_sorted v
  · rw [Graph.Edge, builtGraph_outNeigh, mem_builtRow, hraw, hraw]
    simp
  · rw [Graph.Edge, builtGraph_outNeigh, builtGraph_inNeigh, mem_builtRow, mem_builtRow, ne_comm]
    cases symmetrize <;> simp
    tauto
  · rw [builtGraph_outNeigh, builtGraph_inNeigh, hsymm]
    rfl
  · rw [builtGraph_numEdges, hfilter]
    cases symmetrize with
    | true =>
      rw [if_pos rfl, if_pos rfl, List.map_map]
      have hpairs : (fun e => s(e.u, e.v)) ∘ EdgePair.raw (n := n) =
          Sym2.map Fin.val ∘ fun e => s(e.u, e.v) := rfl
      rw [hpairs, ← List.map_map, List.dedup_map_of_injective (Sym2.map.injective Fin.val_injective),
        List.length_map]
    | false =>
      rw [if_neg (by decide), if_neg (by decide), List.dedup_map_of_injective EdgePair.raw_injective,
        List.length_map]

end

/-! ## The result -/

section

variable {symmetrize : Bool} {el : List (EdgePair Nat Nat)}

theorem maxNodeID_lt {k : Nat} (hk : 0 < k) (hids : ∀ e ∈ el, e.u < k ∧ e.v < k) :
    maxNodeID el < k := by
  have hle : maxNodeID el ≤ k - 1 := by
    rw [maxNodeID, foldl_maxOfEdge_le]
    refine ⟨Nat.zero_le _, fun e he => ?_⟩
    have hlt := hids e he
    omega
  omega

/-- The ids of an edge list are below the number of vertices. -/
theorem edges_of_max (el : List (EdgePair Nat Nat)) :
    ∃ edges, el.mapM (toEdge (maxNodeID el + 1)) = some edges ∧ edges.map EdgePair.raw = el :=
  exists_edges fun _ he =>
    ⟨Nat.lt_succ_of_le (le_maxNodeID he).1, Nat.lt_succ_of_le (le_maxNodeID he).2⟩

theorem makeGraph_solo {T : Nat} [NeZero T] (hn : maxNodeID el + 1 + 1 < 2 ^ 31)
    (hcount : Countable symmetrize el) {edges : List (EdgePair (Fin (maxNodeID el + 1)) _)}
    (hedges : el.mapM (toEdge (maxNodeID el + 1)) = some edges) (hel : edges.map EdgePair.raw = el)
    (m : ∀ n, BuilderMem n (Fin n)) :
    Solo (makeGraph T symmetrize el) m fun r m' => r = ⟨_, builtGraph symmetrize edges hn⟩ ∧
      (m' (maxNodeID el + 1)).out.WrittenOnce ∧
      (symmetrize = false → (m' (maxNodeID el + 1)).inn.WrittenOnce) := by
  have hlt : maxNodeID el + 1 < 2 ^ 31 := by omega
  apply Solo.bind
  apply (findMaxNodeID_solo _ m).mono
  rintro _ _ ⟨rfl, rfl⟩
  rw [if_pos hlt]
  simp only [hedges]
  apply Solo.bind
  apply (Solo.zoom (makeGraphFromEL_solo hn (hcount.degreeOf hel) _)).mono
  rintro g m ⟨⟨hg, hout, hinn⟩, -⟩
  apply Solo.bind
  have hsmall (transpose : Bool) (v : Fin (maxNodeID el + 1)) :
      (squishRow v ((g.side transpose).neigh v)).length < 2 ^ 31 :=
    (length_squishRow_le v _).trans_lt hlt
  apply (Solo.zoom (Solo.zoom (squishGraph_solo hsmall _))).mono
  rintro _ m' ⟨⟨rfl, hm'⟩, -⟩
  apply Solo.ret
  have houtSame := congrArg BuilderMem.out hm'
  have hinnSame := congrArg BuilderMem.inn hm'
  refine ⟨by rw [hg], ?_, fun hsymm => ?_⟩
  · exact houtSame ▸ hout
  · exact hinnSame ▸ hinn hsymm

/-- Building fails where `MakeCSR` does. -/
theorem makeGraph_canFail {T : Nat} [NeZero T] (hlt : maxNodeID el + 1 < 2 ^ 31)
    {edges : List (EdgePair (Fin (maxNodeID el + 1)) _)}
    (hedges : el.mapM (toEdge (maxNodeID el + 1)) = some edges)
    (hfail : ∀ m, (makeCSR T symmetrize edges false).CanFail m) (m : ∀ n, BuilderMem n (Fin n)) :
    (makeGraph T symmetrize el).CanFail m := by
  apply (findMaxNodeID_solo el _).correct.canFail_bind
  rintro _ m ⟨rfl, -⟩
  rw [if_pos hlt]
  simp only [hedges]
  apply Prog.CanFail.bind
  apply Prog.CanFail.zoom
  apply Prog.CanFail.bind
  apply Prog.CanFail.zoom
  exact hfail _

theorem maxNodeID_largest : maxNodeID [⟨0, 2 ^ 31 - 2⟩] = 2 ^ 31 - 2 := by decide

theorem countable_singleton (e : EdgePair Nat Nat) : Countable false [e] := by
  intro x
  have hsources := List.count_le_length (l := [e.u]) (a := x)
  have htargets := List.count_le_length (l := [e.v]) (a := x)
  exact ⟨hsources.trans_lt (by simp), htargets.trans_lt (by simp)⟩

/-- An edge to the vertex `2 ^ 31 - 2`: its id is in range, but the index of the graph is one entry
longer than `GenIndex` can count. -/
theorem makeGraph_canFail_largest (T : Nat) [NeZero T] (m : ∀ n, BuilderMem n (Fin n)) :
    (makeGraph T false [⟨0, 2 ^ 31 - 2⟩]).CanFail m := by
  have hcount := countable_singleton ⟨0, 2 ^ 31 - 2⟩
  have hmax := maxNodeID_largest
  generalize [(⟨0, 2 ^ 31 - 2⟩ : EdgePair Nat Nat)] = el at hcount hmax ⊢
  obtain ⟨edges, hedges, hraw⟩ := edges_of_max el
  apply makeGraph_canFail (by omega) hedges
  exact makeCSR_canFail (by omega) (hcount.degreeOf hraw false)

/-- With `2 ^ 31` copies of an edge the counter of its source is negative. -/
theorem sum_degreeOf_copies {k : Nat} (hk : 2 ^ 31 = k)
    {edges : List (EdgePair (Fin (n + 1)) (Fin (n + 1)))}
    (hraw : edges.map EdgePair.raw = List.replicate k ⟨0, 1⟩) :
    ∑ v, toNodeID (degreeOf false false false edges v) < 0 := by
  have hwrapped : toNodeID k = -2 ^ 31 := by
    have hcast : (k : Int) = 2 ^ 31 := by exact_mod_cast hk.symm
    rw [hcast, toNodeID]
    decide
  have hfirst : degreeOf false false false edges ⟨0, Nat.succ_pos _⟩ = k := by
    rw [degreeOf_raw hraw]
    simp
  have hother (v : Fin (n + 1)) (hv : v ≠ ⟨0, Nat.succ_pos _⟩) :
      degreeOf false false false edges v = 0 := by
    have hne : 0 ≠ v.val := fun heq => hv (Fin.ext heq.symm)
    rw [degreeOf_raw hraw]
    simp [List.count_replicate, hne]
  rw [Finset.sum_eq_single ⟨0, Nat.succ_pos _⟩]
  · rw [hfirst, hwrapped]
    decide
  · intro v _ hv
    rw [hother v hv]
    rfl
  · exact fun h => absurd (Finset.mem_univ _) h

theorem maxNodeID_copies {k : Nat} (hpos : 0 < k) : maxNodeID (List.replicate k ⟨0, 1⟩) = 1 := by
  have hle := le_maxNodeID (List.mem_replicate.mpr ⟨hpos.ne', rfl⟩ :
    (⟨0, 1⟩ : EdgePair Nat Nat) ∈ List.replicate k ⟨0, 1⟩)
  have hlt : maxNodeID (List.replicate k ⟨0, 1⟩) < 2 := by
    apply maxNodeID_lt (by decide)
    intro e he
    rw [List.eq_of_mem_replicate he]
    decide
  exact le_antisymm (Nat.le_of_lt_succ hlt) hle.2

theorem makeGraph_canFail_copies (T : Nat) [NeZero T] (m : ∀ n, BuilderMem n (Fin n)) :
    (makeGraph T false (List.replicate (2 ^ 31) ⟨0, 1⟩)).CanFail m := by
  generalize hk : 2 ^ 31 = k
  have hmax := maxNodeID_copies (k := k) (by omega)
  obtain ⟨edges, hedges, hraw⟩ := edges_of_max (List.replicate k ⟨0, 1⟩)
  apply makeGraph_canFail (by rw [hmax]; decide) hedges
  exact makeCSR_canFail_of_neg (sum_degreeOf_copies hk hraw)

end

/-- As long as the ids and the counters fit their types, all interleavings build the same graph, and
it is the one that the edge list describes. -/
theorem makeGraph_correct (symmetrize : Bool) (el : List (EdgePair Nat Nat))
    (hids : ∀ e ∈ el, e.u < 2 ^ 31 - 2 ∧ e.v < 2 ^ 31 - 2) (hcount : Countable symmetrize el) :
    MakesGraph symmetrize el := by
  have hmax := maxNodeID_lt (by decide) hids
  have hn : maxNodeID el + 1 + 1 < 2 ^ 31 := by omega
  obtain ⟨edges, hedges, hel⟩ := edges_of_max el
  refine ⟨⟨_, builtGraph symmetrize edges hn⟩, builtGraph_builtFrom hn hel rfl, fun T _ m => ?_⟩
  apply Solo.correct
  apply (makeGraph_solo hn hcount hedges hel m).mono
  rintro _ m' ⟨rfl, hwritten⟩
  exact ⟨rfl, hwritten⟩

/-- Both orientations of an edge, a duplicate and a loop. -/
theorem makeGraph_correct_pair : MakesGraph true [⟨0, 1⟩, ⟨1, 0⟩, ⟨0, 1⟩, ⟨1, 1⟩] := by
  apply makeGraph_correct
  · decide
  · intro x
    have hsources := List.count_le_length (l := [0, 1, 0, 1]) (a := x)
    have htargets := List.count_le_length (l := [1, 0, 1, 1]) (a := x)
    simp only [List.length_cons, List.length_nil] at hsources htargets
    show [0, 1, 0, 1].count x + [1, 0, 1, 1].count x < 2 ^ 31
    omega

/-- Ids below `2 ^ 31 - 1` are not enough: the largest of them gives an index that is too long, and
with `2 ^ 31` copies of an edge a counter overflows. -/
theorem makeGraph_not_total :
    ¬ MakesGraph false [⟨0, 2 ^ 31 - 2⟩] ∧ ¬ MakesGraph false (List.replicate (2 ^ 31) ⟨0, 1⟩) := by
  constructor
  · rintro ⟨r, -, hcorrect⟩
    exact (makeGraph_canFail_largest 1 fun _ => default).not_correct (hcorrect 1 _)
  · rintro ⟨r, -, hcorrect⟩
    exact (makeGraph_canFail_copies 1 fun _ => default).not_correct (hcorrect 1 _)

end Gapbs
