import Mathlib.Order.Bounds.Basic
import Gapbs.Builder.MakeGraph
import Gapbs.Lib.FirstOfKey

/-!
# Graphs of weighted edge lists

The same builder on destinations that carry a weight.  Weights play no part in which destinations are
kept: the ids of the graph's rows are those of the graph without weights.  Of several weights the
least one is kept, and it is the same in all copies of an edge.
-/

namespace Gapbs

open Conc Function

variable {n : Nat}

instance : Dest n (NodeWeight n) where
  id d := d.v
  getSource u d := ⟨u, d.w⟩
  lt a b := if a.v = b.v then a.w < b.w else a.v < b.v
  eq a b := a.v = b.v

/-- An edge of a weighted edge list without its weight. -/
def EdgePair.unweighted (e : EdgePair Nat (Nat × Int)) : EdgePair Nat Nat := ⟨e.u, e.v.1⟩

def toWEdge (n : Nat) (e : EdgePair Nat (Nat × Int)) : Option (EdgePair (Fin n) (NodeWeight n)) :=
  if h : e.u < n ∧ e.v.1 < n then some ⟨⟨e.u, h.1⟩, ⟨⟨e.v.1, h.2⟩, e.v.2⟩⟩ else none

/-- The heap has room for the arrays of any number of vertices. -/
def BuilderMem.weightedLens (n : Nat) :
    Lens (∀ n, BuilderMem n (NodeWeight n)) (BuilderMem n (NodeWeight n)) where
  get m := m n
  set a m := update m n a
  get_set _ _ := update_self ..
  set_get _ := update_eq_self ..
  set_set _ _ _ := update_idem ..

/-- The graph of a weighted edge list, as `MakeGraph` of a `WeightedBuilder` builds it. -/
def makeWGraph (T : Nat) [NeZero T] (symmetrize : Bool) (el : List (EdgePair Nat (Nat × Int))) :
    Prog (∀ n, BuilderMem n (NodeWeight n)) ((n : Nat) × WGraph n) := do
  let maxSeen ← findMaxNodeID T (el.map EdgePair.unweighted)
  if maxSeen + 1 < 2 ^ 31 then
    let n := maxSeen + 1
    match el.mapM (toWEdge n) with
    | none => .fail
    | some edges =>
      let g ← (makeGraphFromEL T symmetrize edges).zoom (BuilderMem.weightedLens n)
      let g ← ((squishGraph T g).zoom BuilderMem.squishLens).zoom (BuilderMem.weightedLens n)
      return ⟨n, g⟩
  else .fail

/-! ## Ids -/

section Row

/-- `operator<` orders destinations by their ids and then by their weights. -/
instance : PartialOrder (NodeWeight n) where
  le a b := a.v < b.v ∨ a.v = b.v ∧ a.w ≤ b.w
  le_refl a := .inr ⟨rfl, le_rfl⟩
  le_trans a b c hab hbc := by
    rcases hab with hlt | ⟨heq, hle⟩
    · exact .inl (hlt.trans_le (hbc.elim le_of_lt fun h => h.1.le))
    · rw [heq]
      exact hbc.imp_right fun h => ⟨h.1, hle.trans h.2⟩
  le_antisymm a b hab hba := by
    cases a
    cases b
    grind

theorem nodeWeight_le_iff {a b : NodeWeight n} : a ≤ b ↔ a.v < b.v ∨ a.v = b.v ∧ a.w ≤ b.w :=
  Iff.rfl

theorem monotone_v : Monotone (NodeWeight.v (n := n)) := by
  intro a b hab
  rcases nodeWeight_le_iff.mp hab with hlt | ⟨heq, -⟩
  · exact hlt.le
  · exact heq.le

theorem sortList_pairwise (xs : List (NodeWeight n)) : (sortList xs).Pairwise (· ≤ ·) := by
  have hle : (sortList xs).Pairwise fun a b => !Dest.lt b a := by
    apply List.pairwise_mergeSort
    · intro a b c hab hbc
      simp only [Dest.lt, Bool.not_eq_true'] at *
      grind
    · intro a b
      simp only [Dest.lt]
      grind
  refine hle.imp fun {a b} hab => ?_
  rw [nodeWeight_le_iff]
  simp only [Dest.lt, Bool.not_eq_true'] at hab
  grind

theorem map_v_sortList (xs : List (NodeWeight n)) :
    (sortList xs).map NodeWeight.v = sortList (xs.map NodeWeight.v) := by
  have hsorted : ((sortList xs).map NodeWeight.v).Pairwise (· ≤ ·) := by
    rw [List.pairwise_map]
    exact (sortList_pairwise xs).imp fun hab => monotone_v hab
  have hperm : ((sortList xs).map NodeWeight.v).Perm (sortList (xs.map NodeWeight.v)) :=
    ((List.mergeSort_perm xs _).map _).trans (List.mergeSort_perm (xs.map NodeWeight.v) _).symm
  exact hperm.eq_of_pairwise' hsorted (sortList_sorted _)

theorem map_v_squishRow (v : Fin n) (xs : List (NodeWeight n)) :
    (squishRow v xs).map NodeWeight.v = squishRow v (xs.map NodeWeight.v) := by
  have hunique : (uniqueList (sortList xs)).map NodeWeight.v =
      uniqueList (sortList (xs.map NodeWeight.v)) := by
    rw [uniqueList, uniqueList, ← map_v_sortList]
    apply List.map_destutter
    exact fun a _ b _ => Iff.rfl
  rw [squishRow, squishRow, removeVertex, removeVertex, ← hunique, List.filter_map]
  rfl

theorem uniqueList_eq_firsts (xs : List (NodeWeight n)) :
    uniqueList xs = FirstOfKey.firsts NodeWeight.v xs := by
  rw [uniqueList, FirstOfKey.firsts]
  congr! 3
  simp [Dest.eq]

/-- What is left of a neighbourhood: of each id other than the vertex itself the least weight. -/
theorem mem_squishRow_iff {v : Fin n} {xs : List (NodeWeight n)} {d : NodeWeight n} :
    d ∈ squishRow v xs ↔ d.v ≠ v ∧ IsLeast { w | ⟨d.v, w⟩ ∈ xs } d.w := by
  have hsorted := sortList_pairwise xs
  rw [squishRow, removeVertex, List.mem_filter, uniqueList_eq_firsts,
    FirstOfKey.mem_firsts monotone_v hsorted]
  have hmem (x : NodeWeight n) : x ∈ sortList xs ↔ x ∈ xs := List.mem_mergeSort
  simp only [hmem, Dest.id, decide_eq_true_eq]
  rw [and_comm]
  apply and_congr_right
  intro _
  constructor
  · rintro ⟨hd, hmin⟩
    refine ⟨hd, fun w hw => ?_⟩
    rcases nodeWeight_le_iff.mp (hmin ⟨d.v, w⟩ hw rfl) with hlt | ⟨-, hle⟩
    · exact absurd hlt (lt_irrefl _)
    · exact hle
  · rintro ⟨hd, hmin⟩
    refine ⟨hd, fun x hx hxd => nodeWeight_le_iff.mpr (.inr ⟨hxd.symm, hmin ?_⟩)⟩
    show (⟨d.v, x.w⟩ : NodeWeight n) ∈ xs
    rwa [← hxd]

theorem squishRow_pairwise (v : Fin n) (xs : List (NodeWeight n)) :
    (squishRow v xs).Pairwise fun a b => a.v < b.v := by
  rw [squishRow, uniqueList_eq_firsts]
  exact (FirstOfKey.firsts_pairwise monotone_v (sortList_pairwise xs)).filter _

/-- Rows with the same elements leave the same. -/
theorem squishRow_congr (v : Fin n) {xs ys : List (NodeWeight n)} (h : ∀ d, d ∈ xs ↔ d ∈ ys) :
    squishRow v xs = squishRow v ys := by
  have hirrefl : Std.Irrefl fun a b : NodeWeight n => a.v < b.v := ⟨fun a => lt_irrefl a.v⟩
  apply List.Pairwise.eq_of_mem_iff (squishRow_pairwise v xs) (squishRow_pairwise v ys)
  intro d
  rw [mem_squishRow_iff, mem_squishRow_iff]
  simp only [h]

end Row

/-- An edge of a graph without its weight. -/
def EdgePair.ids (e : EdgePair (Fin n) (NodeWeight n)) : EdgePair (Fin n) (Fin n) := ⟨e.u, e.v.v⟩

variable {symmetrize transpose : Bool} {el : List (EdgePair (Fin n) (NodeWeight n))}

theorem degreeOf_ids (v : Fin n) : degreeOf symmetrize false transpose (el.map EdgePair.ids) v =
    degreeOf symmetrize false transpose el v := by
  rw [degreeOf, degreeOf, List.flatMap_map]
  rfl

theorem map_v_incident (v : Fin n) : (incident symmetrize transpose el v).map NodeWeight.v =
    incident symmetrize transpose (el.map EdgePair.ids) v := by
  have hentries (e : EdgePair (Fin n) (NodeWeight n)) :
      (entries symmetrize transpose e).map (fun p => (p.1, p.2.v)) = entries symmetrize transpose e.ids := by
    cases symmetrize <;> cases transpose <;> rfl
  have hrow (l : List (Fin n × NodeWeight n)) :
      (rowOf v l).map NodeWeight.v = rowOf v (l.map fun p => (p.1, p.2.v)) := by
    rw [rowOf, rowOf, List.filter_map, List.map_map, List.map_map]
    rfl
  rw [incident, incident, hrow, List.map_flatMap, List.flatMap_map]
  simp only [hentries]

/-- The rows of a graph have the lengths that they would have without weights. -/
structure RowsAs {D : Type} (symmetrize : Bool) (edges : List (EdgePair (Fin n) (Fin n))) (g : CSRGraph n D) :
    Prop where
  directed : g.directed = !symmetrize
  out : ∀ v, (g.outNeigh v).length = (builtRow symmetrize false edges v).length
  inn : ∀ v, (g.inNeigh v).length = (builtRow symmetrize (!symmetrize) edges v).length

theorem rowsAs_squished {g : WGraph n} (hdirected : g.directed = !symmetrize)
    (hout : ∀ v, (g.outNeigh v).Perm (incident symmetrize false el v))
    (hin : symmetrize = false → ∀ v, (g.inNeigh v).Perm (incident symmetrize true el v)) :
    RowsAs symmetrize (el.map EdgePair.ids) g.squished := by
  have hlength {xs : List (NodeWeight n)} {transpose : Bool} (v : Fin n)
      (h : xs.Perm (incident symmetrize transpose el v)) :
      (squishRow v xs).length = (builtRow symmetrize transpose (el.map EdgePair.ids) v).length := by
    have hids := map_v_squishRow v xs
    rw [squishRow_perm v (h.map NodeWeight.v), map_v_incident] at hids
    rw [builtRow, ← hids, List.length_map]
  cases symmetrize with
  | true =>
    rw [CSRGraph.squished, hdirected]
    refine ⟨rfl, fun v => ?_, fun v => ?_⟩
    · exact (congrArg List.length (Csr.neigh_ofRows _ v)).trans (hlength v (hout v))
    · exact (congrArg List.length (Csr.neigh_ofRows _ v)).trans (hlength v (hout v))
  | false =>
    rw [CSRGraph.squished, hdirected]
    refine ⟨rfl, fun v => ?_, fun v => ?_⟩
    · exact (congrArg List.length (Csr.neigh_ofRows _ v)).trans (hlength v (hout v))
    · exact (congrArg List.length (Csr.neigh_ofRows _ v)).trans (hlength v (hin rfl v))

/-! ## The construction -/

theorem mem_of_mem_squishRow {v : Fin n} {xs : List (NodeWeight n)} {d : NodeWeight n}
    (h : d ∈ squishRow v xs) : d ∈ xs := by
  have hsorted : d ∈ sortList xs := (List.destutter_sublist _ _).mem (List.mem_filter.mp h).1
  exact List.mem_mergeSort.mp hsorted

/-- All weights of a row come from the edge list. -/
theorem weight_of_mem_incident {v : Fin n} {d : NodeWeight n} (h : d ∈ incident symmetrize transpose el v) :
    ∃ e ∈ el, e.v.w = d.w := by
  obtain ⟨p, hp, rfl⟩ := List.mem_map.mp h
  obtain ⟨e, he, hpe⟩ := List.mem_flatMap.mp (List.mem_filter.mp hp).1
  refine ⟨e, he, ?_⟩
  simp only [entries, List.mem_append] at hpe
  rcases hpe with hpe | hpe
  · split at hpe
    · rw [List.mem_singleton.mp hpe]
    · cases hpe
  · split at hpe
    · rw [List.mem_singleton.mp hpe]
      rfl
    · cases hpe

/-- The weights of a graph are among those of an edge list. -/
def WeightsFrom (weights : List Int) (g : WGraph n) : Prop :=
  ∀ v, (∀ d ∈ g.outNeigh v, d.w ∈ weights) ∧ ∀ d ∈ g.inNeigh v, d.w ∈ weights

theorem weightsFrom_squished {g : WGraph n} (hdirected : g.directed = !symmetrize)
    (hout : ∀ v, (g.outNeigh v).Perm (incident symmetrize false el v))
    (hin : symmetrize = false → ∀ v, (g.inNeigh v).Perm (incident symmetrize true el v)) :
    WeightsFrom (el.map fun e => e.v.w) g.squished := by
  have hrow {xs : List (NodeWeight n)} {transpose : Bool} {v : Fin n} {c : Csr n (NodeWeight n)}
      (h : xs.Perm (incident symmetrize transpose el v)) (hc : c.neigh v = squishRow v xs) :
      ∀ d ∈ c.neigh v, d.w ∈ el.map fun e => e.v.w := by
    intro d hd
    rw [hc] at hd
    obtain ⟨e, he, hw⟩ := weight_of_mem_incident (h.mem_iff.mp (mem_of_mem_squishRow hd))
    exact List.mem_map.mpr ⟨e, he, hw⟩
  intro v
  cases symmetrize with
  | true =>
    rw [CSRGraph.squished, hdirected]
    exact ⟨hrow (hout v) (Csr.neigh_ofRows _ v), hrow (hout v) (Csr.neigh_ofRows _ v)⟩
  | false =>
    rw [CSRGraph.squished, hdirected]
    exact ⟨hrow (hout v) (Csr.neigh_ofRows _ v), hrow (hin rfl v) (Csr.neigh_ofRows _ v)⟩

/-- The edge as it stands in the edge list. -/
def EdgePair.rawW (e : EdgePair (Fin n) (NodeWeight n)) : EdgePair Nat (Nat × Int) :=
  ⟨e.u, (e.v.v.val, e.v.w)⟩

theorem EdgePair.rawW_injective : Injective (EdgePair.rawW (n := n)) := by
  rintro ⟨a, ⟨b, w⟩⟩ ⟨c, ⟨d, x⟩⟩ h
  obtain ⟨hac, hdest⟩ := EdgePair.mk.inj h
  obtain ⟨hbd, hwx⟩ := Prod.mk.inj hdest
  obtain rfl := Fin.ext hac
  obtain rfl := Fin.ext hbd
  obtain rfl := hwx
  rfl

theorem map_raw_ids {edges : List (EdgePair (Fin n) (NodeWeight n))} {l : List (EdgePair Nat (Nat × Int))}
    (h : edges.map EdgePair.rawW = l) :
    (edges.map EdgePair.ids).map EdgePair.raw = l.map EdgePair.unweighted := by
  rw [← h, List.map_map, List.map_map]
  rfl

theorem exists_wEdges {l : List (EdgePair Nat (Nat × Int))} (h : ∀ e ∈ l, e.u < n ∧ e.v.1 < n) :
    ∃ edges, l.mapM (toWEdge n) = some edges ∧ edges.map EdgePair.rawW = l := by
  induction l with
  | nil => exact ⟨[], rfl, rfl⟩
  | cons e l ih =>
    rw [List.forall_mem_cons] at h
    obtain ⟨edges, hedges, hraw⟩ := ih h.2
    refine ⟨⟨⟨e.u, h.1.1⟩, ⟨⟨e.v.1, h.1.2⟩, e.v.2⟩⟩ :: edges, ?_, ?_⟩
    · rw [List.mapM_cons, hedges, toWEdge, dif_pos h.1]
      rfl
    · rw [List.map_cons, hraw]
      rfl

/-- What `SquishGraph` is given: the neighbours of every vertex, in some order. -/
structure Collects (symmetrize : Bool) (el : List (EdgePair (Fin n) (NodeWeight n))) (g : WGraph n) :
    Prop where
  directed : g.directed = !symmetrize
  out : ∀ v, (g.outNeigh v).Perm (incident symmetrize false el v)
  inn : symmetrize = false → ∀ v, (g.inNeigh v).Perm (incident symmetrize true el v)

theorem makeWGraph_collects {T : Nat} [NeZero T] {l : List (EdgePair Nat (Nat × Int))}
    (hn : maxNodeID (l.map EdgePair.unweighted) + 1 + 1 < 2 ^ 31)
    (hcount : Countable symmetrize (l.map EdgePair.unweighted))
    {edges : List (EdgePair (Fin (maxNodeID (l.map EdgePair.unweighted) + 1)) (NodeWeight _))}
    (hedges : l.mapM (toWEdge (maxNodeID (l.map EdgePair.unweighted) + 1)) = some edges)
    (hraw : edges.map EdgePair.rawW = l) (m : ∀ n, BuilderMem n (NodeWeight n)) :
    Solo (makeWGraph T symmetrize l) m fun r _ =>
      ∃ g : WGraph (maxNodeID (l.map EdgePair.unweighted) + 1), r = ⟨_, g.squished⟩ ∧
        Collects symmetrize edges g := by
  have hlt : maxNodeID (l.map EdgePair.unweighted) + 1 < 2 ^ 31 := by omega
  apply Solo.bind
  apply (findMaxNodeID_solo _ m).mono
  rintro _ _ ⟨rfl, rfl⟩
  rw [if_pos hlt]
  simp only [hedges]
  have hdegree (transpose : Bool) (v : Fin _) : degreeOf symmetrize false transpose edges v < 2 ^ 31 := by
    rw [← degreeOf_ids]
    exact hcount.degreeOf (map_raw_ids hraw) transpose v
  apply Solo.bind
  apply (Solo.zoom (makeGraphFromEL_collects hn hdegree _)).mono
  rintro g m ⟨⟨hdirected, hout, hin, -⟩, -⟩
  apply Solo.bind
  have hsmall (transpose : Bool) (v : Fin (maxNodeID (l.map EdgePair.unweighted) + 1)) :
      (squishRow v ((g.side transpose).neigh v)).length < 2 ^ 31 := by
    rw [← List.length_map (f := NodeWeight.v), map_v_squishRow]
    exact (length_squishRow_le v _).trans_lt hlt
  apply (Solo.zoom (Solo.zoom (squishGraph_solo hsmall _))).mono
  rintro _ m' ⟨⟨rfl, -⟩, -⟩
  exact Solo.ret ⟨g, rfl, hdirected, hout, hin⟩

/-- The ids of a weighted edge list are below the number of vertices. -/
theorem wEdges_of_max (l : List (EdgePair Nat (Nat × Int))) :
    ∃ edges, l.mapM (toWEdge (maxNodeID (l.map EdgePair.unweighted) + 1)) = some edges ∧
      edges.map EdgePair.rawW = l := by
  apply exists_wEdges
  intro e he
  have hle := le_maxNodeID (List.mem_map_of_mem (f := EdgePair.unweighted) he)
  exact ⟨Nat.lt_succ_of_le hle.1, Nat.lt_succ_of_le hle.2⟩

/-- Ids that leave room for the index. -/
theorem maxNodeID_unweighted_lt {l : List (EdgePair Nat (Nat × Int))}
    (hids : ∀ e ∈ l, e.u < 2 ^ 31 - 2 ∧ e.v.1 < 2 ^ 31 - 2) :
    maxNodeID (l.map EdgePair.unweighted) + 1 + 1 < 2 ^ 31 := by
  have hmax : maxNodeID (l.map EdgePair.unweighted) < 2 ^ 31 - 2 := by
    apply maxNodeID_lt (by decide)
    intro e he
    obtain ⟨e', he', rfl⟩ := List.mem_map.mp he
    exact hids e' he'
  omega

/-- A weighted graph has the rows of the graph without weights, and weights of the edge list. -/
theorem makeWGraph_solo {T : Nat} [NeZero T] {l : List (EdgePair Nat (Nat × Int))}
    (hids : ∀ e ∈ l, e.u < 2 ^ 31 - 2 ∧ e.v.1 < 2 ^ 31 - 2)
    (hcount : Countable symmetrize (l.map EdgePair.unweighted)) (m : ∀ n, BuilderMem n (NodeWeight n)) :
    Solo (makeWGraph T symmetrize l) m fun r _ => 0 < r.1 ∧
      (∃ edges, RowsAs symmetrize edges r.2) ∧ WeightsFrom (l.map fun e => e.v.2) r.2 := by
  obtain ⟨edges, hedges, hraw⟩ := wEdges_of_max l
  apply (makeWGraph_collects (maxNodeID_unweighted_lt hids) hcount hedges hraw m).mono
  rintro _ _ ⟨g, rfl, h⟩
  refine ⟨Nat.succ_pos _, ⟨_, rowsAs_squished h.directed h.out h.inn⟩, ?_⟩
  have hweights := congrArg (List.map fun e => e.v.2) hraw
  rw [List.map_map] at hweights
  rw [← hweights]
  exact weightsFrom_squished h.directed h.out h.inn

/-! ## The weights that survive -/

theorem mem_incident_weight {u v : Fin n} {w : Int} :
    ⟨v, w⟩ ∈ incident symmetrize transpose el u ↔
      ((symmetrize || !transpose) = true ∧ ⟨u, ⟨v, w⟩⟩ ∈ el) ∨
        ((symmetrize || transpose) = true ∧ ⟨v, ⟨u, w⟩⟩ ∈ el) := by
  have hentry (e : EdgePair (Fin n) (NodeWeight n)) :
      ⟨v, w⟩ ∈ rowOf u (entries symmetrize transpose e) ↔
        ((symmetrize || !transpose) = true ∧ e = ⟨u, ⟨v, w⟩⟩) ∨
          ((symmetrize || transpose) = true ∧ e = ⟨v, ⟨u, w⟩⟩) := by
    obtain ⟨a, ⟨b, x⟩⟩ := e
    cases symmetrize <;> cases transpose <;>
      simp only [entries, rowOf, Dest.id, Dest.getSource] <;> grind
  induction el with
  | nil => simp [incident, rowOf]
  | cons e el ih =>
    have hrest : ⟨v, w⟩ ∈ rowOf u (el.flatMap (entries symmetrize transpose)) ↔ _ := ih
    rw [incident, List.flatMap_cons, rowOf_append, List.mem_append, hentry, hrest, List.mem_cons,
      List.mem_cons, eq_comm (a := e), eq_comm (a := e), and_or_left, and_or_left, or_or_or_comm]

/-- The row of `v` in the weighted graph of an edge list. -/
def builtWRow (symmetrize transpose : Bool) (el : List (EdgePair (Fin n) (NodeWeight n))) (v : Fin n) :
    List (NodeWeight n) :=
  squishRow v (incident symmetrize transpose el v)

/-- The weighted graph of an edge list. -/
def builtWGraph (symmetrize : Bool) (el : List (EdgePair (Fin n) (NodeWeight n))) (hn : n + 1 < 2 ^ 31) :
    WGraph n :=
  let out := Csr.ofRows (builtWRow symmetrize false el)
  let inn := Csr.ofRows (builtWRow symmetrize true el)
  if symmetrize then .ofUndirected out hn else .ofDirected out inn hn

theorem Collects.squished_eq {g : WGraph n} (h : Collects symmetrize el g) :
    g.squished = builtWGraph symmetrize el g.nodes_lt := by
  have hrow {xs : List (NodeWeight n)} {transpose : Bool} {v : Fin n}
      (hxs : xs.Perm (incident symmetrize transpose el v)) :
      squishRow v xs = builtWRow symmetrize transpose el v :=
    squishRow_congr v fun _ => hxs.mem_iff
  have hout : (fun v => squishRow v (g.outNeigh v)) = builtWRow symmetrize false el :=
    funext fun v => hrow (h.out v)
  cases symmetrize with
  | true =>
    rw [CSRGraph.squished, builtWGraph, hout, h.directed]
    rfl
  | false =>
    have hin : (fun v => squishRow v (g.inNeigh v)) = builtWRow false true el :=
      funext fun v => hrow (h.inn rfl v)
    rw [CSRGraph.squished, builtWGraph, hout, hin, h.directed]
    rfl

theorem builtWGraph_outNeigh (hn : n + 1 < 2 ^ 31) (v : Fin n) :
    (builtWGraph symmetrize el hn).outNeigh v = builtWRow symmetrize false el v := by
  cases symmetrize <;> exact Csr.neigh_ofRows _ v

theorem builtWGraph_inNeigh (hn : n + 1 < 2 ^ 31) (v : Fin n) :
    (builtWGraph symmetrize el hn).inNeigh v = builtWRow symmetrize (!symmetrize) el v := by
  cases symmetrize <;> exact Csr.neigh_ofRows _ v

/-- The weights of all list entries from `u` to `v`, or in either orientation. -/
def weightsOf (symmetrize : Bool) (l : List (EdgePair Nat (Nat × Int))) (u v : Nat) : Set Int :=
  { w | ⟨u, (v, w)⟩ ∈ l ∨ symmetrize = true ∧ ⟨v, (u, w)⟩ ∈ l }

/-- What is asked of a weighted graph that is built from an edge list: of the weights of an edge the
least one is kept, and both copies of the edge carry it. -/
structure WBuiltFrom (symmetrize : Bool) (l : List (EdgePair Nat (Nat × Int))) (g : WGraph n) : Prop where
  nodes : n = maxNodeID (l.map EdgePair.unweighted) + 1
  directed : g.directed = !symmetrize
  outSorted : ∀ v, (g.outNeigh v).Pairwise fun a b => a.v < b.v
  inSorted : ∀ v, (g.inNeigh v).Pairwise fun a b => a.v < b.v
  least : ∀ u v w, ⟨v, w⟩ ∈ g.outNeigh u ↔ u ≠ v ∧ IsLeast (weightsOf symmetrize l u v) w
  transposed : ∀ u v w, ⟨v, w⟩ ∈ g.outNeigh u ↔ ⟨u, w⟩ ∈ g.inNeigh v
  symm : symmetrize = true → ∀ u v w, ⟨v, w⟩ ∈ g.outNeigh u ↔ ⟨u, w⟩ ∈ g.outNeigh v

/-- One weighted graph is the result of all interleavings, on any team of threads. -/
def MakesWGraph (symmetrize : Bool) (l : List (EdgePair Nat (Nat × Int))) : Prop :=
  ∃ r : (n : Nat) × WGraph n, WBuiltFrom symmetrize l r.2 ∧
    ∀ (T : Nat) [NeZero T] (m : ∀ n, BuilderMem n (NodeWeight n)),
      (makeWGraph T symmetrize l).Correct m fun r' _ => r' = r

theorem weightsOf_comm (l : List (EdgePair Nat (Nat × Int))) (u v : Nat) :
    weightsOf true l u v = weightsOf true l v u := by
  ext w
  simp [weightsOf, or_comm]

theorem mem_builtWRow {l : List (EdgePair Nat (Nat × Int))} (hraw : el.map EdgePair.rawW = l) {u v : Fin n}
    {w : Int} : ⟨v, w⟩ ∈ builtWRow symmetrize transpose el u ↔ u ≠ v ∧ IsLeast
      (if symmetrize then weightsOf true l u v else
        if transpose then weightsOf false l v u else weightsOf false l u v) w := by
  have hmem (a b : Fin n) (x : Int) : (⟨a, (b.val, x)⟩ : EdgePair Nat (Nat × Int)) ∈ l ↔ ⟨a, ⟨b, x⟩⟩ ∈ el := by
    rw [← hraw]
    exact List.mem_map_of_injective (a := (⟨a, ⟨b, x⟩⟩ : EdgePair (Fin n) (NodeWeight n)))
      EdgePair.rawW_injective
  rw [builtWRow, mem_squishRow_iff, ne_comm]
  simp only [mem_incident_weight]
  cases symmetrize <;> cases transpose <;> simp [weightsOf, hmem]

theorem builtWGraph_builtFrom {l : List (EdgePair Nat (Nat × Int))} (hn : n + 1 < 2 ^ 31)
    (hraw : el.map EdgePair.rawW = l) (hnodes : n = maxNodeID (l.map EdgePair.unweighted) + 1) :
    WBuiltFrom symmetrize l (builtWGraph symmetrize el hn) := by
  refine ⟨hnodes, ?_, fun v => ?_, fun v => ?_, fun u v w => ?_, fun u v w => ?_, fun hsymm u v w => ?_⟩
  · cases symmetrize <;> rfl
  · rw [builtWGraph_outNeigh]
    exact squishRow_pairwise v _
  · rw [builtWGraph_inNeigh]
    exact squishRow_pairwise v _
  · rw [builtWGraph_outNeigh, mem_builtWRow hraw]
    cases symmetrize <;> rfl
  · rw [builtWGraph_outNeigh, builtWGraph_inNeigh, mem_builtWRow hraw, mem_builtWRow hraw, ne_comm,
      weightsOf_comm l u v]
    cases symmetrize <;> rfl
  · subst hsymm
    rw [builtWGraph_outNeigh, builtWGraph_outNeigh, mem_builtWRow hraw, mem_builtWRow hraw, ne_comm,
      weightsOf_comm l u v]
    rfl

theorem makeWGraph_eq {T : Nat} [NeZero T] {l : List (EdgePair Nat (Nat × Int))}
    (hn : maxNodeID (l.map EdgePair.unweighted) + 1 + 1 < 2 ^ 31)
    (hcount : Countable symmetrize (l.map EdgePair.unweighted))
    {edges : List (EdgePair (Fin (maxNodeID (l.map EdgePair.unweighted) + 1)) (NodeWeight _))}
    (hedges : l.mapM (toWEdge (maxNodeID (l.map EdgePair.unweighted) + 1)) = some edges)
    (hraw : edges.map EdgePair.rawW = l) (m : ∀ n, BuilderMem n (NodeWeight n)) :
    Solo (makeWGraph T symmetrize l) m fun r _ => r = ⟨_, builtWGraph symmetrize edges hn⟩ := by
  apply (makeWGraph_collects hn hcount hedges hraw m).mono
  rintro _ _ ⟨g, rfl, h⟩
  rw [h.squished_eq]

/-- Building fails where `MakeCSR` does. -/
theorem makeWGraph_canFail {T : Nat} [NeZero T] {l : List (EdgePair Nat (Nat × Int))}
    (hlt : maxNodeID (l.map EdgePair.unweighted) + 1 < 2 ^ 31)
    {edges : List (EdgePair (Fin (maxNodeID (l.map EdgePair.unweighted) + 1)) (NodeWeight _))}
    (hedges : l.mapM (toWEdge (maxNodeID (l.map EdgePair.unweighted) + 1)) = some edges)
    (hfail : ∀ m, (makeCSR T symmetrize edges false).CanFail m) (m : ∀ n, BuilderMem n (NodeWeight n)) :
    (makeWGraph T symmetrize l).CanFail m := by
  apply (findMaxNodeID_solo _ _).correct.canFail_bind
  rintro _ m ⟨rfl, -⟩
  rw [if_pos hlt]
  simp only [hedges]
  apply Prog.CanFail.bind
  apply Prog.CanFail.zoom
  apply Prog.CanFail.bind
  apply Prog.CanFail.zoom
  exact hfail _

/-- The index for a vertex `2 ^ 31 - 2` is too long, as without weights. -/
theorem makeWGraph_canFail_largest (T : Nat) [NeZero T] (m : ∀ n, BuilderMem n (NodeWeight n)) :
    (makeWGraph T false [⟨0, (2 ^ 31 - 2, 1)⟩]).CanFail m := by
  have hcount := countable_singleton ⟨0, 2 ^ 31 - 2⟩
  have hmax := maxNodeID_largest
  have hids : [(⟨0, (2 ^ 31 - 2, 1)⟩ : EdgePair Nat (Nat × Int))].map EdgePair.unweighted =
      [⟨0, 2 ^ 31 - 2⟩] := rfl
  rw [← hids] at hcount hmax
  generalize [(⟨0, (2 ^ 31 - 2, 1)⟩ : EdgePair Nat (Nat × Int))] = l at hcount hmax ⊢
  obtain ⟨edges, hedges, hraw⟩ := wEdges_of_max l
  apply makeWGraph_canFail (by omega) hedges
  refine makeCSR_canFail (by omega) fun v => ?_
  rw [← degreeOf_ids]
  exact hcount.degreeOf (map_raw_ids hraw) false v

/-- With `2 ^ 31` copies of an edge there is no room for the neighbours, as without weights. -/
theorem makeWGraph_canFail_copies (T : Nat) [NeZero T] (m : ∀ n, BuilderMem n (NodeWeight n)) :
    (makeWGraph T false (List.replicate (2 ^ 31) ⟨0, (1, 1)⟩)).CanFail m := by
  generalize hk : 2 ^ 31 = k
  have hids : (List.replicate k (⟨0, (1, 1)⟩ : EdgePair Nat (Nat × Int))).map EdgePair.unweighted =
      List.replicate k ⟨0, 1⟩ := List.map_replicate
  obtain ⟨edges, hedges, hraw⟩ := wEdges_of_max (List.replicate k ⟨0, (1, 1)⟩)
  have hmax : maxNodeID ((List.replicate k (⟨0, (1, 1)⟩ : EdgePair Nat (Nat × Int))).map
      EdgePair.unweighted) = 1 := by
    rw [hids]
    exact maxNodeID_copies (by omega)
  apply makeWGraph_canFail (by rw [hmax]; decide) hedges
  apply makeCSR_canFail_of_neg
  simp only [← degreeOf_ids]
  exact sum_degreeOf_copies hk ((map_raw_ids hraw).trans hids)

/-- As long as the ids and the counters fit their types, all interleavings build the same weighted graph:
of the weights that the edge list has for an edge the least one, in both copies of the edge. -/
theorem makeWGraph_correct (symmetrize : Bool) (l : List (EdgePair Nat (Nat × Int)))
    (hids : ∀ e ∈ l, e.u < 2 ^ 31 - 2 ∧ e.v.1 < 2 ^ 31 - 2)
    (hcount : Countable symmetrize (l.map EdgePair.unweighted)) : MakesWGraph symmetrize l := by
  have hn := maxNodeID_unweighted_lt hids
  obtain ⟨edges, hedges, hraw⟩ := wEdges_of_max l
  refine ⟨⟨_, builtWGraph symmetrize edges hn⟩, builtWGraph_builtFrom hn hraw rfl, fun T _ m => ?_⟩
  exact (makeWGraph_eq hn hcount hedges hraw m).correct

/-- Both orientations of an edge with different weights, a duplicate and a loop. -/
theorem makeWGraph_correct_pair : MakesWGraph true [⟨0, (1, 5)⟩, ⟨1, (0, -3)⟩, ⟨0, (1, 7)⟩, ⟨1, (1, 1)⟩] := by
  apply makeWGraph_correct
  · decide
  · intro x
    have hsources := List.count_le_length (l := [0, 1, 0, 1]) (a := x)
    have htargets := List.count_le_length (l := [1, 0, 1, 1]) (a := x)
    simp only [List.length_cons, List.length_nil] at hsources htargets
    show [0, 1, 0, 1].count x + [1, 0, 1, 1].count x < 2 ^ 31
    omega

/-- The largest of the ids gives an index that is too long, and with `2 ^ 31` copies of an edge a
counter overflows: there is no graph. -/
theorem makeWGraph_not_total :
    ¬ MakesWGraph false [⟨0, (2 ^ 31 - 2, 1)⟩] ∧
      ¬ MakesWGraph false (List.replicate (2 ^ 31) ⟨0, (1, 1)⟩) := by
  constructor
  · rintro ⟨r, -, hcorrect⟩
    exact (makeWGraph_canFail_largest 1 fun _ => default).not_correct (hcorrect 1 _)
  · rintro ⟨r, -, hcorrect⟩
    exact (makeWGraph_canFail_copies 1 fun _ => default).not_correct (hcorrect 1 _)

end Gapbs
