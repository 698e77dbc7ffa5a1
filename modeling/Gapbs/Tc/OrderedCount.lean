import Mathlib.Data.Finset.Sort
import Mathlib.Data.BitVec
import Mathlib.Data.Nat.Choose.Basic
import Gapbs.Builder.Rows
import Gapbs.Conc.Schedule

/-!
# Counting triangles

`OrderedCount` of `tc.cc`.  A triangle `u > v > w` is found from its largest vertex: the loop over
the neighbours `w` of `u` is merged with one pass of the iterator `it` over the neighbours of `v`.
The pass has no test against the end of the neighbourhood, and an iterator that is dereferenced at
the end is an undefined operation here.
-/

namespace Gapbs

open Conc

variable {n : Nat} {S : Type}

/-- `size_t` -/
abbrev SizeT := BitVec 64

/-- `while (*it < w) it++`, with the iterator as what it has still ahead of it. -/
def advance (w : Fin n) : List (Fin n) → Option (List (Fin n))
  | [] => none
  | x :: rest => if x < w then advance w rest else some (x :: rest)

/-- The loop over `w`, which adds to `total`. -/
def countCommon (v : Fin n) : List (Fin n) → List (Fin n) → SizeT → Option SizeT
  | [], _, total => some total
  | w :: ws, it, total =>
      if w > v then some total
      else do
        let it ← advance w it
        let x ← it.head?
        countCommon v ws it (if w = x then total + 1 else total)

/-- The loop over `v`. -/
def countFrom (g : Graph n) (u : Fin n) : List (Fin n) → SizeT → Option SizeT
  | [], total => some total
  | v :: vs, total =>
      if v > u then some total
      else do
        let total ← countCommon v (g.outNeigh u) (g.outNeigh v) total
        countFrom g u vs total

/-- One iteration of the parallel loop. -/
def countVertex (g : Graph n) (u : Fin n) (total : SizeT) : Prog S SizeT :=
  match countFrom g u (g.outNeigh u) total with
  | some total => .ret total
  | none => .fail

/-- `OrderedCount(g)` on a team of `T` threads, whose private totals are added up. -/
def orderedCount (g : Graph n) (T : Nat) [NeZero T] : Prog S SizeT := do
  let sched ← .pick (Schedule.serial T n)
  let totals ← .fork fun t => .forEach (sched.work t) 0 (countVertex g)
  return ∑ t, totals t

/-- What the kernel asks of its input. -/
structure Graph.Simple (g : Graph n) : Prop where
  undirected : g.directed = false
  symm : ∀ u v, g.Edge u v → g.Edge v u
  irrefl : ∀ v, ¬ g.Edge v v
  sorted : ∀ v, (g.outNeigh v).Pairwise (· < ·)

/-- The triangles: sets of three pairwise adjacent vertices. -/
def Graph.triangles (g : Graph n) : Finset (Finset (Fin n)) :=
  {t ∈ Finset.univ.powersetCard 3 | ∀ u ∈ t, ∀ v ∈ t, u ≠ v → g.Edge u v}

open VertexFacts in
/-- Three vertices, pairwise adjacent. -/
def triangleGraph : Graph 3 :=
  .ofUndirected
    { index := ![0, 2, 4, 6]
      neighbors := [1, 2, 0, 2, 0, 1]
      index_zero := rfl
      index_mono := by decide
      index_last := rfl } tripleIndex_lt

/-! ## The merge -/

/-- The iterator stops in front of the first element that is not below `w`. -/
theorem advance_eq {w x : Fin n} {it : List (Fin n)} (hit : it.Pairwise (· < ·)) (hx : x ∈ it)
    (hwx : w ≤ x) : ∃ y rest, advance w it = some (y :: rest) ∧ w ≤ y ∧
      (y :: rest).Pairwise (· < ·) ∧ ∀ z, w ≤ z → (z ∈ y :: rest ↔ z ∈ it) := by
  induction it with
  | nil => exact absurd hx (List.not_mem_nil)
  | cons a it ih =>
    by_cases ha : a < w
    · have hxit : x ∈ it := by
        rcases List.mem_cons.mp hx with rfl | hxit
        · exact absurd ha (not_lt.mpr hwx)
        · exact hxit
      obtain ⟨y, rest, hadv, hy, hsorted, hmem⟩ := ih hit.of_cons hxit
      refine ⟨y, rest, ?_, hy, hsorted, fun z hz => ?_⟩
      · rw [advance, if_pos ha, hadv]
      · rw [hmem z hz, List.mem_cons]
        have hne : z ≠ a := fun heq => not_lt.mpr hz (heq ▸ ha)
        simp [hne]
    · exact ⟨a, it, by rw [advance, if_neg ha], not_lt.mp ha, hit, fun _ _ => Iff.rfl⟩

/-- The merge counts the common elements up to `v`, and it never runs past the end as long as some
element ahead of the iterator bounds them. -/
theorem countCommon_eq {v x : Fin n} (ws : List (Fin n)) {it : List (Fin n)} (total : SizeT)
    (hws : ws.Pairwise (· < ·)) (hit : it.Pairwise (· < ·)) (hx : x ∈ it) (hvx : v ≤ x) :
    countCommon v ws it total =
      some (total + (ws.filter fun w => w ≤ v ∧ w ∈ it).length) := by
  induction ws generalizing it total with
  | nil => simp [countCommon]
  | cons w ws ih =>
    rw [List.pairwise_cons] at hws
    by_cases hw : w > v
    · -- the `break`: the remaining neighbours are larger still
      have hnone : (w :: ws).filter (fun w => w ≤ v ∧ w ∈ it) = [] := by
        rw [List.filter_eq_nil_iff]
        intro z hz
        have hvz : v < z := by
          rcases List.mem_cons.mp hz with rfl | hz
          · exact hw
          · exact hw.trans (hws.1 z hz)
        simp [hvz]
      rw [countCommon, if_pos hw, hnone]
      simp
    · have hwv : w ≤ v := not_lt.mp hw
      obtain ⟨y, rest, hadv, hwy, hsorted, hmem⟩ := advance_eq hit hx (hwv.trans hvx)
      have hxrest : x ∈ y :: rest := (hmem x (hwv.trans hvx)).mpr hx
      have hfilter : ws.filter (fun w => w ≤ v ∧ w ∈ y :: rest) =
          ws.filter (fun w => w ≤ v ∧ w ∈ it) := by
        apply List.filter_congr
        intro z hz
        simp only [hmem z (hws.1 z hz).le]
      have hyw : w ∈ it ↔ w = y := by
        rw [← hmem w le_rfl, List.mem_cons]
        constructor
        · rintro (h | h)
          · exact h
          · exact absurd hwy (not_le.mpr ((List.pairwise_cons.mp hsorted).1 w h))
        · exact .inl
      rw [countCommon, if_neg hw, hadv]
      show countCommon v ws (y :: rest) (if w = y then total + 1 else total) = _
      rw [ih _ hws.2 hsorted hxrest, hfilter]
      by_cases heq : w = y
      · have hin : w ≤ v ∧ w ∈ it := ⟨hwv, hyw.mpr heq⟩
        rw [if_pos heq, List.filter_cons_of_pos (by simpa using hin), List.length_cons]
        rw [Nat.cast_succ, add_right_comm, add_assoc]
      · have hout : ¬ (w ≤ v ∧ w ∈ it) := fun h => heq (hyw.mp h.2)
        rw [if_neg heq, List.filter_cons_of_neg (by simpa using hout)]

/-! ## The loops over `v` and `u` -/

open VertexFacts in
/-- The pairs `v ≥ w` of common neighbours that the loop finds from `u`. -/
def commonBelow (g : Graph n) (u v : Fin n) : Nat :=
  ((g.outNeigh u).filter fun w => w ≤ v ∧ w ∈ g.outNeigh v).length

theorem countFrom_eq {g : Graph n} (hg : g.Simple) {u : Fin n} (vs : List (Fin n)) (total : SizeT)
    (hvs : vs.Pairwise (· < ·)) (hmem : ∀ v ∈ vs, g.Edge u v) :
    countFrom g u vs total =
      some (total + (((vs.filter (· ≤ u)).map (commonBelow g u)).sum : Nat)) := by
  induction vs generalizing total with
  | nil => simp [countFrom]
  | cons v vs ih =>
    rw [List.pairwise_cons] at hvs
    by_cases hv : v > u
    · have hnone : (v :: vs).filter (· ≤ u) = [] := by
        rw [List.filter_eq_nil_iff]
        intro z hz
        have huz : u < z := by
          rcases List.mem_cons.mp hz with rfl | hz
          · exact hv
          · exact hv.trans (hvs.1 z hz)
        simp [huz]
      rw [countFrom, if_pos hv, hnone]
      simp
    · -- `u` itself lies ahead of the iterator throughout the merge
      have hu : u ∈ g.outNeigh v := hg.symm u v (hmem v (List.mem_cons_self ..))
      rw [countFrom, if_neg hv, countCommon_eq _ _ (hg.sorted u) (hg.sorted v) hu (not_lt.mp hv)]
      show countFrom g u vs (total + (commonBelow g u v : Nat)) = _
      rw [ih _ hvs.2 fun z hz => hmem z (List.mem_cons_of_mem v hz),
        List.filter_cons_of_pos (by simpa using hv), List.map_cons, List.sum_cons, Nat.cast_add,
        add_assoc]

/-- What is counted from `u`. -/
def countedFrom (g : Graph n) (u : Fin n) : Nat :=
  (((g.outNeigh u).filter (· ≤ u)).map (commonBelow g u)).sum

theorem orderedCount_sum {g : Graph n} (hg : g.Simple) (T : Nat) [NeZero T] (s : S) :
    Solo (orderedCount g T) s fun total t =>
      t = s ∧ total = ((∑ u, countedFrom g u : Nat) : SizeT) := by
  apply Solo.pick_bind
  intro sched
  apply Solo.bind
  apply (Solo.fork (Δ := Unit) (fun _ _ _ => False)
    (fun t total σ => σ.1 = s ∧ total = ((sched.work t).map fun u => (countedFrom g u : SizeT)).sum)
    () ?_).mono
  · rintro totals s' ⟨_, h⟩
    obtain ⟨t⟩ : Nonempty (Fin T) := ⟨0⟩
    apply Solo.ret
    refine ⟨(h t).1, ?_⟩
    have htotals : ∀ t, totals t = ((sched.work t).map fun u => (countedFrom g u : SizeT)).sum :=
      fun t => (h t).2
    rw [Finset.sum_congr rfl fun t _ => htotals t, sched.sum_work, Nat.cast_sum]
  · intro t
    have stable (P : S × Unit → Prop) : Stable (Rely (fun _ _ _ => False) t) P :=
      Stable.rely fun _ _ _ _ _ h => h.elim
    apply WP.forEach (fun pre total σ => σ.1 = s ∧
      total = (pre.map fun u => (countedFrom g u : SizeT)).sum) ⟨rfl, rfl⟩ (fun _ _ => stable _)
    rintro pre u post total σ - ⟨hσ, rfl⟩
    rw [countVertex, countFrom_eq hg _ _ (hg.sorted u) fun v hv => hv]
    apply WP.ret _ (stable _)
    refine ⟨hσ, ?_⟩
    rw [List.map_append, List.sum_append]
    simp [countedFrom]

/-! ## Triangles -/

/-- The triples that are counted. -/
def orderedTriples (g : Graph n) : Finset (Fin n × Fin n × Fin n) :=
  {t | g.Edge t.1 t.2.1 ∧ g.Edge t.1 t.2.2 ∧ g.Edge t.2.1 t.2.2 ∧ t.2.1 ≤ t.1 ∧ t.2.2 ≤ t.2.1}

theorem card_orderedTriples {g : Graph n} (hg : g.Simple) :
    (orderedTriples g).card = ∑ u, countedFrom g u := by
  have nodup (u : Fin n) : (g.outNeigh u).Nodup := (hg.sorted u).imp fun hlt => hlt.ne
  have hcommon (u v : Fin n) : commonBelow g u v =
      ∑ w, if g.Edge u w ∧ w ≤ v ∧ g.Edge v w then 1 else 0 := by
    rw [commonBelow, ← List.toFinset_card_of_nodup ((nodup u).filter _), ← Finset.card_filter]
    congr 1
    ext w
    rw [Finset.mem_filter_univ, List.mem_toFinset, List.mem_filter]
    simp [Graph.Edge]
  have hcounted (u : Fin n) : countedFrom g u =
      ∑ v, if g.Edge u v ∧ v ≤ u then commonBelow g u v else 0 := by
    rw [countedFrom, ← List.sum_toFinset _ ((nodup u).filter _), ← Finset.sum_filter]
    congr 1
    ext v
    rw [Finset.mem_filter_univ, List.mem_toFinset, List.mem_filter]
    simp [Graph.Edge]
  rw [orderedTriples, Finset.card_filter, Fintype.sum_prod_type]
  apply Finset.sum_congr rfl
  intro u _
  rw [hcounted, Fintype.sum_prod_type]
  apply Finset.sum_congr rfl
  intro v _
  rw [hcommon]
  by_cases huv : g.Edge u v ∧ v ≤ u
  · rw [if_pos huv]
    apply Finset.sum_congr rfl
    intro w _
    simp [huv.1, huv.2, and_left_comm, and_comm]
  · rw [if_neg huv]
    apply Finset.sum_eq_zero
    intro w _
    rw [if_neg]
    exact fun h => huv ⟨h.1, h.2.2.2.1⟩

theorem ordered_lt {g : Graph n} (hg : g.Simple) {t : Fin n × Fin n × Fin n}
    (ht : t ∈ orderedTriples g) : t.2.1 < t.1 ∧ t.2.2 < t.2.1 := by
  obtain ⟨huv, -, hvw, hvu, hwv⟩ := (Finset.mem_filter_univ t).mp ht
  have hne {x y : Fin n} (h : g.Edge x y) : y ≠ x := fun heq => hg.irrefl x (heq ▸ h)
  exact ⟨lt_of_le_of_ne hvu (hne huv), lt_of_le_of_ne hwv (hne hvw)⟩

theorem mem_triangles {g : Graph n} (hg : g.Simple) {u v w : Fin n} (huv : g.Edge u v) (huw : g.Edge u w)
    (hvw : g.Edge v w) : {u, v, w} ∈ g.triangles := by
  have hne {x y : Fin n} (h : g.Edge x y) : x ≠ y := fun heq => hg.irrefl y (heq ▸ h)
  rw [Graph.triangles, Finset.mem_filter, Finset.mem_powersetCard_univ]
  refine ⟨Finset.card_eq_three.mpr ⟨u, v, w, hne huv, hne huw, hne hvw, rfl⟩, ?_⟩
  have hvu := hg.symm u v huv
  have hwu := hg.symm u w huw
  have hwv := hg.symm v w hvw
  intro x hx y hy hxy
  simp only [Finset.mem_insert, Finset.mem_singleton] at hx hy
  rcases hx with rfl | rfl | rfl <;> rcases hy with rfl | rfl | rfl <;>
    first
    | assumption
    | exact absurd rfl hxy

theorem card_triangles {g : Graph n} (hg : g.Simple) :
    g.triangles.card = (orderedTriples g).card := by
  symm
  apply Finset.card_bij (fun t _ => {t.1, t.2.1, t.2.2})
  · rintro ⟨u, v, w⟩ ht
    obtain ⟨huv, huw, hvw, -, -⟩ := (Finset.mem_filter_univ _).mp ht
    exact mem_triangles hg huv huw hvw
  · -- the largest, the middle and the smallest element are determined by the set
    rintro ⟨u, v, w⟩ ht ⟨u', v', w'⟩ ht' heq
    have hlt := ordered_lt hg ht
    have hlt' := ordered_lt hg ht'
    have hmem (x : Fin n) : x = u ∨ x = v ∨ x = w ↔ x = u' ∨ x = v' ∨ x = w' := by
      have hx := Finset.ext_iff.mp heq x
      simpa using hx
    have hu := (hmem u).mp (.inl rfl)
    have hv := (hmem v).mp (.inr (.inl rfl))
    have hw := (hmem w).mp (.inr (.inr rfl))
    have hu' := (hmem u').mpr (.inl rfl)
    have hw' := (hmem w').mpr (.inr (.inr rfl))
    simp only [Prod.mk.injEq]
    simp only [Fin.ext_iff, Fin.lt_def] at hlt hlt' hu hv hw hu' hw' ⊢
    omega
  · intro t ht
    rw [Graph.triangles, Finset.mem_filter, Finset.mem_powersetCard_univ] at ht
    obtain ⟨hcard, hadj⟩ := ht
    -- enumerate the three vertices in order
    let e := t.orderEmbOfFin hcard
    have hmem (i : Fin 3) : e i ∈ t := t.orderEmbOfFin_mem hcard i
    have hlt₁ : e 0 < e 1 := e.lt_iff_lt.mpr (by decide)
    have hlt₂ : e 1 < e 2 := e.lt_iff_lt.mpr (by decide)
    refine ⟨(e 2, e 1, e 0), ?_, ?_⟩
    · rw [orderedTriples, Finset.mem_filter_univ]
      exact ⟨hadj _ (hmem 2) _ (hmem 1) hlt₂.ne', hadj _ (hmem 2) _ (hmem 0) (hlt₁.trans hlt₂).ne',
        hadj _ (hmem 1) _ (hmem 0) hlt₁.ne', hlt₂.le, hlt₁.le⟩
    · rw [← Finset.image_orderEmbOfFin_univ t hcard]
      ext x
      simp only [Finset.mem_insert, Finset.mem_singleton, Finset.mem_image, Finset.mem_univ, true_and]
      constructor
      · rintro (rfl | rfl | rfl)
        · exact ⟨2, rfl⟩
        · exact ⟨1, rfl⟩
        · exact ⟨0, rfl⟩
      · rintro ⟨i, rfl⟩
        have hi : ∀ i : Fin 3, i = 2 ∨ i = 1 ∨ i = 0 := by decide
        rcases hi i with rfl | rfl | rfl
        · exact .inl rfl
        · exact .inr (.inl rfl)
        · exact .inr (.inr rfl)

/-- `OrderedCount` counts the triangles, and no iterator is dereferenced at an end. -/
theorem orderedCount_solo {g : Graph n} (hg : g.Simple) (T : Nat) [NeZero T] (s : S) :
    Solo (orderedCount g T) s fun total t => t = s ∧ total = (g.triangles.card : SizeT) := by
  rw [card_triangles hg, card_orderedTriples hg]
  exact orderedCount_sum hg T s

/-! ## Complete graphs -/

/-- Every two vertices are joined. -/
def completeGraph (n : Nat) (hn : n + 1 < 2 ^ 31) : Graph n :=
  .ofUndirected (.ofRows fun u => (List.finRange n).filter (· ≠ u)) hn

section Complete

variable (hn : n + 1 < 2 ^ 31)

theorem edge_completeGraph (u v : Fin n) : (completeGraph n hn).Edge u v ↔ v ≠ u := by
  unfold Graph.Edge completeGraph
  rw [CSRGraph.outNeigh_ofUndirected, Csr.neigh_ofRows]
  simp

theorem completeGraph_simple : (completeGraph n hn).Simple := by
  refine ⟨rfl, fun u v huv => ?_, fun v hv => ?_, fun v => ?_⟩
  · rw [edge_completeGraph] at huv ⊢
    exact huv.symm
  · rw [edge_completeGraph] at hv
    exact hv rfl
  · unfold completeGraph
    rw [CSRGraph.outNeigh_ofUndirected, Csr.neigh_ofRows]
    exact (List.pairwise_lt_finRange n).filter _

theorem card_triangles_completeGraph : (completeGraph n hn).triangles.card = n.choose 3 := by
  have hall : (completeGraph n hn).triangles = Finset.univ.powersetCard 3 := by
    unfold Graph.triangles
    apply Finset.filter_true_of_mem
    intro t _ u _ v _ huv
    rw [edge_completeGraph]
    exact huv.symm
  rw [hall, Finset.card_powersetCard, Finset.card_univ, Fintype.card_fin]

end Complete

end Gapbs
