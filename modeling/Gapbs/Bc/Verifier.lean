import Mathlib.Tactic.Positivity
import Mathlib.Tactic.Ring
import Gapbs.Bc.Brandes
import Gapbs.Bfs.Verifier

/-!
# The verifier of the betweenness centrality

`BCVerifier` is serial: it searches with a vector instead of the sliding queue, and finds the levels and
the successors again from the depths.
-/

namespace Gapbs

open Conc Function HopDistance

variable {n : Nat}

/-- The local variables of `BCVerifier`; `search` holds `depths` and `to_visit`. -/
structure BcVerifierMem (n : Nat) where
  search : VerifierMem n
  pathCounts : Fin n → ℚ
  vertsAtDepth : List (List (Fin n))
  deltas : Fin n → ℚ
  scores : Fin n → ℚ

/-- A neighbour without a depth is one step further than `u`. -/
def visitTarget (u v : Fin n) : Prog (BcVerifierMem n) Unit := do
  let depthV ← .load fun s => s.search.depth v
  if depthV = -1 then
    let depthU ← .load fun s => s.search.depth u
    .store fun s => { s with search := s.search.setDepth v (depthU + 1) }
    .storeAt fun s => (s.search.pushBack v).map fun r => { s with search := r }
  else return ()

def countTarget (u v : Fin n) : Prog (BcVerifierMem n) Unit := do
  let depthV ← .load fun s => s.search.depth v
  let depthU ← .load fun s => s.search.depth u
  if depthV = depthU + 1 then
    let countU ← .load fun s => s.pathCounts u
    .store fun s => { s with pathCounts := update s.pathCounts v (s.pathCounts v + countU) }
  else return ()

/-- The BFS phase; `it` is the position of the iterator in `to_visit`. -/
def serialCount (g : Graph n) (source : Fin n) : Prog (BcVerifierMem n) Unit := do
  .store fun s => { s with search := { s.search with depth := fun _ => -1 } }
  .store fun s => { s with search := s.search.setDepth source 0 }
  .store fun s => { s with pathCounts := fun _ => 0 }
  .store fun s => { s with pathCounts := update s.pathCounts source 1 }
  .storeAt fun s => (VerifierMem.pushBack { s.search with toVisit := [] } source).map fun r =>
    { s with search := r }
  .iter (fun it => do
    let size ← .load fun s => s.search.toVisit.length
    if it = size then return .inr ()
    let u ← .loadAt fun s => s.search.toVisit[it]?
    .forEach (g.outNeigh u) () fun v _ => do
      visitTarget u v
      countTarget u v
    return .inl (it + 1)) 0

/-- `verts_at_depth.resize(size)` -/
def resize (vertsAtDepth : List (List (Fin n))) (size : Nat) : List (List (Fin n)) :=
  vertsAtDepth.take size ++ List.replicate (size - vertsAtDepth.length) []

/-- The body of the loop that gets the lists of vertices at each depth. -/
def fileVertex (v : Fin n) : Prog (BcVerifierMem n) Unit := do
  let d ← .load fun s => s.search.depth v
  if d ≠ -1 then
    .store fun s => if (s.vertsAtDepth.length : Int) ≤ d then
      { s with vertsAtDepth := resize s.vertsAtDepth (d + 1).toNat } else s
    .storeAt fun s => if 0 ≤ d ∧ d.toNat < s.vertsAtDepth.length then
      some { s with vertsAtDepth := s.vertsAtDepth.modify d.toNat (· ++ [v]) } else none
  else return ()

/-- `deltas[u] += (path_counts[u] / path_counts[v]) * (1 + deltas[v])`, at the successors. -/
def addShare (u v : Fin n) : Prog (BcVerifierMem n) Unit := do
  let depthV ← .load fun s => s.search.depth v
  let depthU ← .load fun s => s.search.depth u
  if depthV = depthU + 1 then
    let countU ← .load fun s => s.pathCounts u
    let countV ← .load fun s => s.pathCounts v
    let deltaV ← .load fun s => s.deltas v
    if countV = 0 then .fail
    else .store fun s =>
      { s with deltas := update s.deltas u (s.deltas u + countU / countV * (1 + deltaV)) }
  else return ()

def addDelta (g : Graph n) (u : Fin n) : Prog (BcVerifierMem n) Unit := do
  .forEach (g.outNeigh u) () fun v _ => addShare u v
  let deltaU ← .load fun s => s.deltas u
  .store fun s => { s with scores := update s.scores u (s.scores u + deltaU) }

/-- One iteration of the loop over the sources. -/
def verifierIter (g : Graph n) (source : Fin n) : Prog (BcVerifierMem n) Unit := do
  serialCount g source
  .store fun s => { s with vertsAtDepth := [] }
  .forEach (List.finRange n) () fun v _ => fileVertex v
  .store fun s => { s with deltas := fun _ => 0 }
  let size ← .load fun s => s.vertsAtDepth.length
  .forEach (List.range size).reverse () fun depth _ => do
    let verts ← .loadAt fun s => s.vertsAtDepth[depth]?
    .forEach verts () fun u _ => addDelta g u

/-- `std::numeric_limits<ScoreT>::epsilon()` -/
def epsilon : ℚ := 1 / 2 ^ 23

/-- `BCVerifier`; the scores that it recomputes are left in the memory. -/
def bcVerifier (g : Graph n) (sources : List (Fin n)) (scoresToTest : Fin n → ℚ) :
    Prog (BcVerifierMem n) Bool := do
  .store fun s => { s with scores := fun _ => 0 }
  .forEach sources () fun source _ => verifierIter g source
  let biggestScore ← .loadAt fun s => (List.ofFn s.scores).max?
  .forEach (List.finRange n) () fun v _ => do
    let score ← .load fun s => s.scores v
    if biggestScore = 0 then .fail
    else .store fun s => { s with scores := update s.scores v (score / biggestScore) }
  .forEach (List.finRange n) true fun v allOk => do
    let score ← .load fun s => s.scores v
    if epsilon < |scoresToTest v - score| then return false else return allOk

/-! ## The BFS phase -/

variable {g : Graph n} {source : Fin n}

/-- What the vertices of `done` have added to the count of `v`. -/
def inflow (g : Graph n) (s : BcVerifierMem n) (done : List (Fin n)) (v : Fin n) : ℚ :=
  (done.map fun u => if s.search.depth v = s.search.depth u + 1 then
    ((g.outNeigh u).count v : ℚ) * s.pathCounts u else 0).sum

/-- The counts when the vertices before position `it` have been processed. -/
def Tallied (g : Graph n) (source : Fin n) (it : Nat) (s : BcVerifierMem n) : Prop :=
  ∀ v, s.pathCounts v = (if v = source then 1 else 0) + inflow g s (s.search.toVisit.take it) v

/-- The counts when the neighbours `pre` of the vertex `u` at position `it` have been processed, too. -/
def Tally (g : Graph n) (source : Fin n) (it : Nat) (u : Fin n) (pre : List (Fin n))
    (s : BcVerifierMem n) : Prop :=
  ∀ v, s.pathCounts v = (if v = source then 1 else 0) + inflow g s (s.search.toVisit.take it) v +
    if s.search.depth v = s.search.depth u + 1 then (pre.count v : ℚ) * s.pathCounts u else 0

theorem inflow_congr {s s' : BcVerifierMem n} {done : List (Fin n)} {v : Fin n}
    (hv : s'.search.depth v = s.search.depth v)
    (hdone : ∀ u ∈ done, s'.search.depth u = s.search.depth u ∧ s'.pathCounts u = s.pathCounts u) :
    inflow g s' done v = inflow g s done v := by
  rw [inflow, inflow]
  congr 1
  apply List.map_congr_left
  intro u hu
  rw [hv, (hdone u hu).1, (hdone u hu).2]

/-- A vertex to which there is no edge has got nothing. -/
theorem inflow_eq_zero {s : BcVerifierMem n} {done : List (Fin n)} {v : Fin n}
    (h : ∀ u ∈ done, ¬ g.Edge u v) : inflow g s done v = 0 := by
  apply List.sum_eq_zero
  intro x hx
  obtain ⟨u, hu, rfl⟩ := List.mem_map.mp hx
  rw [List.count_eq_zero_of_not_mem (h u hu), Nat.cast_zero, zero_mul, ite_self]

/-- The vertices before the current one are no further away. -/
theorem Searching.le_current {it : Nat} {s : VerifierMem n} (h : Searching g source it s) {u w : Fin n}
    (hu : s.toVisit[it]? = some u) (hw : w ∈ s.toVisit.take it) :
    w ∈ s.toVisit ∧ s.depth w ≤ s.depth u ∧ ∀ v, g.Edge w v → v ∈ s.toVisit := by
  obtain ⟨j, hj, rfl⟩ := List.getElem_of_mem hw
  rw [List.length_take] at hj
  obtain ⟨hit, rfl⟩ := List.getElem?_eq_some_iff.mp hu
  rw [List.getElem_take]
  refine ⟨List.getElem_mem _, List.pairwise_iff_getElem.mp h.sorted j it _ hit (by omega), fun v hE => ?_⟩
  exact (h.closed j (by omega) _ (List.getElem?_eq_getElem _) v hE).1

/-- A new vertex has no count yet. -/
theorem Tally.visit {it : Nat} {u v : Fin n} {pre : List (Fin n)} {s : BcVerifierMem n}
    (hs : Expanding g source it u pre s.search) (h : Tally g source it u pre s)
    (hv : s.search.depth v = -1) {r : VerifierMem n} (hvisit : r.toVisit = s.search.toVisit ++ [v])
    (hdepth : r.depth = update s.search.depth v (s.search.depth u + 1)) :
    Tally g source it u pre { s with search := r } := by
  have hnot : v ∉ s.search.toVisit := fun hmem => (hs.searching.mem v).mp hmem hv
  have hold {x : Fin n} (hx : x ∈ s.search.toVisit) : r.depth x = s.search.depth x := by
    rw [hdepth, update_of_ne (hs.searching.depth_ne hx hv)]
  have htake : r.toVisit.take it = s.search.toVisit.take it := by
    rw [hvisit, List.take_append_of_le_length hs.searching.le]
  have hcurrent {w : Fin n} (hw : w ∈ s.search.toVisit.take it) :=
    hs.searching.le_current hs.current hw
  intro x
  refine (h x).trans ?_
  show _ = (if x = source then 1 else 0) + inflow g { s with search := r } (r.toVisit.take it) x +
    if r.depth x = r.depth u + 1 then (pre.count x : ℚ) * s.pathCounts u else 0
  rw [htake]
  by_cases hx : x = v
  · subst hx
    have hedge : ∀ w ∈ s.search.toVisit.take it, ¬ g.Edge w x := fun w hw hE =>
      hnot ((hcurrent hw).2.2 x hE)
    have hpre : pre.count x = 0 := List.count_eq_zero_of_not_mem fun hmem => hnot (hs.seen x hmem).1
    rw [inflow_eq_zero hedge, inflow_eq_zero hedge, hpre, Nat.cast_zero, zero_mul, ite_self, ite_self]
  · have hxd : r.depth x = s.search.depth x := by rw [hdepth, update_of_ne hx]
    have hinflow : inflow g { s with search := r } (s.search.toVisit.take it) x =
        inflow g s (s.search.toVisit.take it) x :=
      inflow_congr hxd fun w hw => ⟨hold (hcurrent hw).1, rfl⟩
    rw [hinflow, hxd, hold hs.mem_current]

theorem count_append_of_ne {pre : List (Fin n)} {v x : Fin n} (hx : x ≠ v) :
    (pre ++ [v]).count x = pre.count x := by
  have hne : (v == x) = false := beq_eq_false_iff_ne.mpr hx.symm
  rw [List.count_append, List.count_singleton, hne]
  rfl

theorem Tally.skip {it : Nat} {u v : Fin n} {pre : List (Fin n)} {s : BcVerifierMem n}
    (h : Tally g source it u pre s) (hv : s.search.depth v ≠ s.search.depth u + 1) :
    Tally g source it u (pre ++ [v]) s := by
  intro x
  rw [h x]
  by_cases hx : x = v
  · subst hx
    rw [if_neg hv, if_neg hv]
  · rw [count_append_of_ne hx]

/-- The count of `u` is added to that of a successor, which comes later in the queue. -/
theorem Tally.add {it : Nat} {u v : Fin n} {pre pre' : List (Fin n)} {s : BcVerifierMem n}
    (hs : Expanding g source it u pre' s.search) (h : Tally g source it u pre s)
    (hv : s.search.depth v = s.search.depth u + 1) :
    Tally g source it u (pre ++ [v])
      { s with pathCounts := update s.pathCounts v (s.pathCounts v + s.pathCounts u) } := by
  have huv : u ≠ v := by
    rintro rfl
    omega
  have hbefore {w : Fin n} (hw : w ∈ s.search.toVisit.take it) : w ≠ v := by
    rintro rfl
    have hle := (hs.searching.le_current hs.current hw).2.1
    omega
  let s' : BcVerifierMem n :=
    { s with pathCounts := update s.pathCounts v (s.pathCounts v + s.pathCounts u) }
  have hu : s'.pathCounts u = s.pathCounts u := update_of_ne huv _ _
  intro x
  have hinflow : inflow g s' (s.search.toVisit.take it) x = inflow g s (s.search.toVisit.take it) x :=
    inflow_congr rfl fun w hw => ⟨rfl, update_of_ne (hbefore hw) _ _⟩
  show s'.pathCounts x = (if x = source then 1 else 0) + inflow g s' (s.search.toVisit.take it) x +
    if s.search.depth x = s.search.depth u + 1 then ((pre ++ [v]).count x : ℚ) * s'.pathCounts u else 0
  rw [hinflow, hu]
  by_cases hx : x = v
  · subst hx
    have hself : s'.pathCounts x = s.pathCounts x + s.pathCounts u := update_self ..
    rw [hself, h x, if_pos hv, if_pos hv, List.count_append, List.count_singleton_self, Nat.cast_add,
      Nat.cast_one]
    ring
  · have hother : s'.pathCounts x = s.pathCounts x := update_of_ne hx _ _
    rw [hother, count_append_of_ne hx]
    exact h x

theorem Tally.next {it : Nat} {u : Fin n} {s : BcVerifierMem n}
    (hu : s.search.toVisit[it]? = some u) (h : Tally g source it u (g.outNeigh u) s) :
    Tallied g source (it + 1) s := by
  obtain ⟨hit, rfl⟩ := List.getElem?_eq_some_iff.mp hu
  intro v
  rw [h v, List.take_succ_eq_append_getElem hit, inflow, inflow, List.map_append, List.sum_append,
    add_assoc]
  simp

theorem Tallied.start {it : Nat} {u : Fin n} {s : BcVerifierMem n} (h : Tallied g source it s) :
    Tally g source it u [] s := by
  intro v
  rw [h v]
  simp

/-- The loop over the neighbours of the current vertex. -/
theorem countNeighbours_solo {it : Nat} {u : Fin n} {s : BcVerifierMem n}
    (hs : Expanding g source it u [] s.search) (h : Tally g source it u [] s) :
    Solo (.forEach (g.outNeigh u) () fun v _ => do
        visitTarget u v
        countTarget u v) s fun _ s' => Searching g source (it + 1) s'.search ∧
      Tallied g source (it + 1) s' ∧ s'.scores = s.scores := by
  apply (Solo.forEach (fun pre _ s' => Expanding g source it u pre s'.search ∧
    Tally g source it u pre s' ∧ s'.scores = s.scores) ⟨hs, h, rfl⟩ ?_).mono
  · rintro _ s' ⟨hs', htally, hscores⟩
    exact ⟨hs'.searching.next hs'.current hs'.seen, htally.next hs'.current, hscores⟩
  · rintro pre v post ⟨⟩ s₁ hsplit ⟨hs₁, htally, hscores⟩
    have hE : g.Edge u v := by
      show v ∈ g.outNeigh u
      rw [hsplit]
      simp
    apply Solo.bind
    have hvisit : Solo (visitTarget u v) s₁ fun _ s' => Expanding g source it u (pre ++ [v]) s'.search ∧
        Tally g source it u pre s' ∧ s'.scores = s₁.scores := by
      apply Solo.load_bind
      by_cases hv : s₁.search.depth v = -1
      · rw [if_pos hv]
        obtain ⟨r, hpush, hr, hvisit, hdepth⟩ := hs₁.push hE hv
        apply Solo.load_bind
        apply Solo.store_bind
        apply Solo.storeAt (t := { s₁ with search := r }) (congrArg (Option.map _) hpush)
        exact ⟨hr, htally.visit hs₁ hv hvisit hdepth, rfl⟩
      · rw [if_neg hv]
        exact Solo.ret ⟨hs₁.keep hv, htally, rfl⟩
    apply hvisit.mono
    rintro _ s₂ ⟨hs₂, htally₂, hscores₂⟩
    apply Solo.load_bind
    apply Solo.load_bind
    by_cases hv : s₂.search.depth v = s₂.search.depth u + 1
    · rw [if_pos hv]
      apply Solo.load_bind
      apply Solo.store
      exact ⟨hs₂, htally₂.add hs₂ hv, hscores₂.trans hscores⟩
    · rw [if_neg hv]
      exact Solo.ret ⟨hs₂, htally₂.skip hv, hscores₂.trans hscores⟩

theorem serialCount_solo (s : BcVerifierMem n) :
    Solo (serialCount g source) s fun _ s' => Searching g source s'.search.toVisit.length s'.search ∧
      Tallied g source s'.search.toVisit.length s' ∧ s'.scores = s.scores := by
  apply Solo.store_bind
  apply Solo.store_bind
  apply Solo.store_bind
  apply Solo.store_bind
  let t : BcVerifierMem n := { s with search := ⟨update (fun _ => -1) source 0, [source]⟩,
                                      pathCounts := update (fun _ => 0) source 1 }
  have hstart : Searching g source 0 t.search ∧ Tallied g source 0 t ∧ t.scores = s.scores := by
    refine ⟨searching_start, fun v => ?_, rfl⟩
    show update (fun _ => (0 : ℚ)) source 1 v = (if v = source then 1 else 0) + 0
    by_cases hv : v = source
    · rw [hv, update_self, if_pos rfl, add_zero]
    · rw [update_of_ne hv, if_neg hv, add_zero]
  apply Solo.storeAt_bind (t := t) (congrArg (Option.map _) (pushBack_source _))
  apply Solo.iter (fun it s' => Searching g source it s'.search ∧ Tallied g source it s' ∧
    s'.scores = s.scores) (fun it _ => n - it) hstart
  rintro it s₁ ⟨hs₁, htally, hscores⟩
  apply Solo.load_bind
  have hlen := length_le_of_nodup hs₁.nodup
  by_cases hit : it = s₁.search.toVisit.length
  · rw [if_pos hit]
    exact Solo.ret ⟨hit ▸ hs₁, hit ▸ htally, hscores⟩
  · rw [if_neg hit]
    have hlt : it < s₁.search.toVisit.length := lt_of_le_of_ne hs₁.le hit
    apply Solo.loadAt_bind (b := s₁.search.toVisit[it])
    · exact List.getElem?_eq_getElem hlt
    apply Solo.bind
    apply (countNeighbours_solo ⟨hs₁, List.getElem?_eq_getElem hlt, by simp⟩ htally.start).mono
    rintro _ s₂ ⟨hs₂, htally₂, hscores₂⟩
    exact Solo.ret ⟨⟨hs₂, htally₂, hscores₂.trans hscores⟩, by omega⟩

/-- When all vertices have been processed, the counts are those of the shortest paths. -/
theorem Tallied.numPaths_eq (hg : g.SimpleCsr) {s : BcVerifierMem n}
    (hs : Searching g source s.search.toVisit.length s.search)
    (h : Tallied g source s.search.toVisit.length s) {k : Nat} {v : Fin n}
    (hv : IsDistance g.Edge k source v) : s.pathCounts v = numPaths g.Edge source v := by
  have hdepth {k : Nat} {x : Fin n} : s.search.depth x = k ↔ IsDistance g.Edge k source x :=
    (hs.depth_eq x).2 k
  have hmem {k : Nat} {x : Fin n} (hx : IsDistance g.Edge k source x) : x ∈ s.search.toVisit :=
    (hs.mem x).mpr ((hs.depth_eq x).1.mpr hx.reachable)
  induction k generalizing v with
  | zero =>
    obtain rfl := isDistance_zero.mp hv
    rw [h source, if_pos rfl, numPaths_self, Nat.cast_one, List.take_length, inflow, List.sum_eq_zero,
      add_zero]
    intro x hx
    obtain ⟨u, hu, rfl⟩ := List.mem_map.mp hx
    obtain ⟨j, hj, -⟩ := hs.walk u hu
    rw [if_neg]
    rw [hs.root, hj]
    omega
  | succ k ih =>
    have hne : v ≠ source := by
      rintro rfl
      exact absurd (hv.unique (isDistance_zero.mpr rfl)) (Nat.succ_ne_zero k)
    -- only the predecessors contribute
    have hpreds : preds g.Edge source k v = s.search.toVisit.toFinset.filter fun u =>
        s.search.depth u = k ∧ g.Edge u v := by
      ext u
      rw [mem_preds, Finset.mem_filter, List.mem_toFinset, hdepth]
      exact ⟨fun hu => ⟨hmem hu.1, hu⟩, fun hu => hu.2⟩
    have hterm (u : Fin n) (hu : u ∈ s.search.toVisit) :
        (if s.search.depth v = s.search.depth u + 1 then
          ((g.outNeigh u).count v : ℚ) * s.pathCounts u else 0) =
        if s.search.depth u = k ∧ g.Edge u v then (numPaths g.Edge source u : ℚ) else 0 := by
      have hiff : s.search.depth v = s.search.depth u + 1 ↔ s.search.depth u = k := by
        have hdv : s.search.depth v = ((k + 1 : Nat) : Int) := hdepth.mpr hv
        omega
      by_cases hd : s.search.depth u = k
      · rw [if_pos (hiff.mpr hd), ih (hdepth.mp hd)]
        by_cases hE : g.Edge u v
        · rw [if_pos ⟨hd, hE⟩, List.count_eq_one_of_mem (hg.nodup u) hE, Nat.cast_one, one_mul]
        · rw [if_neg fun h => hE h.2, List.count_eq_zero_of_not_mem hE, Nat.cast_zero, zero_mul]
      · rw [if_neg fun h => hd (hiff.mp h), if_neg fun h => hd h.1]
    rw [h v, if_neg hne, zero_add, List.take_length, inflow, List.map_congr_left hterm,
      ← List.sum_toFinset _ hs.nodup, ← Finset.sum_filter, ← hpreds, hv.numPaths_succ, Nat.cast_sum]

/-! ## The lists of vertices at each depth -/

/-- The vertices `pre` have been filed under their depths. -/
structure Filed (depth : Fin n → Int) (pre : List (Fin n)) (l : List (List (Fin n))) : Prop where
  lists : ∀ (d : Nat) x, l[d]? = some x → x = pre.filter fun v => depth v = d
  room : ∀ v ∈ pre, depth v ≠ -1 → (depth v).toNat < l.length

theorem Filed.resize {depth : Fin n → Int} {pre : List (Fin n)} {l : List (List (Fin n))}
    (h : Filed depth pre l) {size : Nat} (hsize : l.length ≤ size) : Filed depth pre (resize l size) := by
  have htake : l.take size = l := List.take_of_length_le hsize
  refine ⟨fun d x hx => ?_, fun v hv hd => ?_⟩
  · rw [Gapbs.resize, htake] at hx
    rcases Nat.lt_or_ge d l.length with hlt | hge
    · rw [List.getElem?_append_left hlt] at hx
      exact h.lists d x hx
    · -- no vertex has a depth that the list did not reach
      rw [List.getElem?_append_right hge] at hx
      have hnil : x = [] := List.eq_of_mem_replicate (List.mem_of_getElem? hx)
      rw [hnil, eq_comm, List.filter_eq_nil_iff]
      intro v hv hd
      have hd : depth v = d := by simpa using hd
      have hroom := h.room v hv (by omega)
      omega
  · have hroom := h.room v hv hd
    rw [Gapbs.resize, htake, List.length_append, List.length_replicate]
    omega

theorem Filed.add {depth : Fin n → Int} {pre : List (Fin n)} {l : List (List (Fin n))}
    (h : Filed depth pre l) {v : Fin n} {d : Nat} (hv : depth v = d) (hd : d < l.length) :
    Filed depth (pre ++ [v]) (l.modify d (· ++ [v])) := by
  refine ⟨fun j x hx => ?_, fun u hu hne => ?_⟩
  · rw [List.getElem?_modify] at hx
    obtain ⟨y, hy, rfl⟩ := Option.map_eq_some_iff.mp hx
    rw [h.lists j y hy, List.filter_append]
    by_cases hj : d = j
    · subst hj
      rw [if_pos rfl, List.filter_cons_of_pos (by simpa using hv)]
      rfl
    · have hne : ¬ depth v = (j : Int) := by omega
      rw [if_neg hj, List.filter_cons_of_neg (by simpa using hne), List.filter_nil, List.append_nil]
  · rw [List.length_modify]
    rcases List.mem_append.mp hu with hu | hu
    · exact h.room u hu hne
    · rw [List.mem_singleton.mp hu, hv]
      exact hd

theorem Filed.skip {depth : Fin n → Int} {pre : List (Fin n)} {l : List (List (Fin n))}
    (h : Filed depth pre l) {v : Fin n} (hv : depth v = -1) : Filed depth (pre ++ [v]) l := by
  refine ⟨fun d x hx => ?_, fun u hu hne => ?_⟩
  · have hvd : ¬ depth v = (d : Int) := by omega
    rw [h.lists d x hx, List.filter_append, List.filter_cons_of_neg (by simpa using hvd),
      List.filter_nil, List.append_nil]
  · rcases List.mem_append.mp hu with hu | hu
    · exact h.room u hu hne
    · exact absurd (List.mem_singleton.mp hu ▸ hv) hne

theorem fileVertex_solo {s : BcVerifierMem n} {pre : List (Fin n)} {v : Fin n}
    (hdepth : s.search.depth v = -1 ∨ ∃ d : Nat, s.search.depth v = d)
    (h : Filed s.search.depth pre s.vertsAtDepth) :
    Solo (fileVertex v) s fun _ s' => s' = { s with vertsAtDepth := s'.vertsAtDepth } ∧
      Filed s.search.depth (pre ++ [v]) s'.vertsAtDepth := by
  apply Solo.load_bind
  rcases hdepth with hd | ⟨d, hd⟩
  · rw [hd]
    exact Solo.ret ⟨rfl, h.skip hd⟩
  · rw [hd, if_pos (by omega)]
    apply Solo.store_bind
    have hget : (d : Int).toNat = d := Int.toNat_natCast d
    by_cases hroom : (s.vertsAtDepth.length : Int) ≤ d
    · let l := resize s.vertsAtDepth ((d : Int) + 1).toNat
      have hfiled : Filed s.search.depth pre l := h.resize (by omega)
      have hlt : d < l.length := by
        show d < (resize _ _).length
        rw [resize, List.length_append, List.length_take, List.length_replicate]
        omega
      rw [if_pos hroom]
      refine Solo.storeAt (t := { s with vertsAtDepth := l.modify d (· ++ [v]) }) ?_
        ⟨rfl, hfiled.add hd hlt⟩
      rw [hget]
      exact if_pos ⟨Int.natCast_nonneg d, hlt⟩
    · have hlt : d < s.vertsAtDepth.length := by omega
      rw [if_neg hroom]
      refine Solo.storeAt (t := { s with vertsAtDepth := s.vertsAtDepth.modify d (· ++ [v]) }) ?_
        ⟨rfl, h.add hd hlt⟩
      rw [hget]
      exact if_pos ⟨Int.natCast_nonneg d, hlt⟩

/-! ## The dependencies -/

/-- What the sums over the successors read: distances and numbers of paths. -/
structure Measured (g : Graph n) (source : Fin n) (s : BcVerifierMem n) : Prop where
  depths : ∀ v (k : Nat), s.search.depth v = k ↔ v ∈ level g.Edge source k
  counts : ∀ v (k : Nat), v ∈ level g.Edge source k → s.pathCounts v = numPaths g.Edge source v

open scoped Classical in
/-- The vertices of `done` have their dependencies, the others have none. -/
structure Summed (g : Graph n) (source : Fin n) (done : Set (Fin n)) (s₀ s : BcVerifierMem n) : Prop where
  rest : s = { s₀ with deltas := s.deltas, scores := s.scores }
  deltas : ∀ v, s.deltas v = if v ∈ done then dependency g.Edge source v else 0
  scores : ∀ v, s.scores v = s₀.scores v + if v ∈ done then dependency g.Edge source v else 0

/-- The loop over the neighbours of `u`, when all its successors are done. -/
theorem addShares_solo (hg : g.SimpleCsr) {k : Nat} {u : Fin n} {s : BcVerifierMem n}
    (hs : Measured g source s) (hu : u ∈ level g.Edge source k) (hzero : s.deltas u = 0)
    (hnext : ∀ v ∈ level g.Edge source (k + 1), s.deltas v = dependency g.Edge source v) :
    Solo (.forEach (g.outNeigh u) () fun v _ => addShare u v) s fun _ s' =>
      s' = { s with deltas := update s.deltas u (dependency g.Edge source u) } := by
  let term (v : Fin n) : ℚ := if v ∈ level g.Edge source (k + 1) then share g source u v else 0
  let after (x : ℚ) : BcVerifierMem n := { s with deltas := update s.deltas u x }
  have hstart : s = after (([] : List (Fin n)).map term).sum := by
    show s = { s with deltas := update s.deltas u 0 }
    rw [← hzero, update_eq_self]
  apply (Solo.forEach (fun pre _ s' => s' = after (pre.map term).sum) hstart ?_).mono
  · rintro _ _ rfl
    rw [sum_share_eq hg hu]
  · rintro pre v post ⟨⟩ _ - rfl
    have hdepthU : s.search.depth u = k := (hs.depths u k).mpr hu
    have hiff : s.search.depth v = s.search.depth u + 1 ↔ v ∈ level g.Edge source (k + 1) := by
      rw [← hs.depths, hdepthU, Nat.cast_succ]
    have hsum : ((pre ++ [v]).map term).sum = (pre.map term).sum + term v := by simp
    apply Solo.load_bind
    apply Solo.load_bind
    show Solo (if s.search.depth v = s.search.depth u + 1 then _ else _) _ _
    by_cases hv : v ∈ level g.Edge source (k + 1)
    · have hvu : v ≠ u := by
        rintro rfl
        exact not_mem_level_of_reached (level_subset_reached k hu) k.lt_succ_self hv
      have hne : s.pathCounts v ≠ 0 := by
        rw [hs.counts v _ hv]
        exact Nat.cast_ne_zero.mpr (mem_level_iff.mp hv).numPaths_pos.ne'
      have hdelta : (after (pre.map term).sum).deltas v = dependency g.Edge source v :=
        (update_of_ne hvu _ _).trans (hnext v hv)
      rw [if_pos (hiff.mpr hv)]
      apply Solo.load_bind
      apply Solo.load_bind
      apply Solo.load_bind
      show Solo (if s.pathCounts v = 0 then _ else _) _ _
      rw [if_neg hne, hdelta]
      apply Solo.store
      have hterm : term v = s.pathCounts u / s.pathCounts v * (1 + dependency g.Edge source v) := by
        rw [hs.counts u k hu, hs.counts v _ hv]
        exact if_pos hv
      have hself : (after (pre.map term).sum).deltas u = (pre.map term).sum := update_self ..
      rw [hsum, hterm, hself]
      show ({ s with deltas := _ } : BcVerifierMem n) = { s with deltas := _ }
      rw [update_idem]
    · rw [if_neg fun h => hv (hiff.mp h)]
      have hterm : term v = 0 := if_neg hv
      rw [hsum, hterm, add_zero]
      exact Solo.ret rfl

theorem addDelta_solo (hg : g.SimpleCsr) {k : Nat} {u : Fin n} {done : Set (Fin n)}
    {s₀ s : BcVerifierMem n} (h₀ : Measured g source s₀) (h : Summed g source done s₀ s)
    (hu : u ∈ level g.Edge source k) (hnot : u ∉ done)
    (hnext : ∀ v ∈ level g.Edge source (k + 1), v ∈ done) :
    Solo (addDelta g u) s fun _ s' => Summed g source (insert u done) s₀ s' := by
  classical
  have hs : Measured g source s := by
    rw [h.rest]
    exact ⟨h₀.depths, h₀.counts⟩
  have hzero : s.deltas u = 0 := (h.deltas u).trans (if_neg hnot)
  have hsucc (v : Fin n) (hv : v ∈ level g.Edge source (k + 1)) :
      s.deltas v = dependency g.Edge source v := (h.deltas v).trans (if_pos (hnext v hv))
  apply Solo.bind
  apply (addShares_solo hg hs hu hzero hsucc).mono
  rintro _ _ rfl
  apply Solo.load_bind
  apply Solo.store
  have hself : update s.deltas u (dependency g.Edge source u) u = dependency g.Edge source u := update_self ..
  refine ⟨?_, fun v => ?_, fun v => ?_⟩
  · show ({ s with deltas := _, scores := _ } : BcVerifierMem n) = { s₀ with deltas := _, scores := _ }
    rw [h.rest]
  · show update s.deltas u (dependency g.Edge source u) v = _
    by_cases hv : v = u
    · rw [hv, hself, if_pos (Set.mem_insert _ _)]
    · rw [update_of_ne hv, h.deltas v]
      simp only [Set.mem_insert_iff, hv, false_or]
  · show update s.scores u (s.scores u + update s.deltas u _ u) v = _
    rw [hself]
    by_cases hv : v = u
    · rw [hv, update_self, h.scores u, if_neg hnot, add_zero, if_pos (Set.mem_insert _ _)]
    · rw [update_of_ne hv, h.scores v]
      simp only [Set.mem_insert_iff, hv, false_or]

/-! ## One source -/

/-- The vertices at one depth. -/
theorem addLevel_solo (hg : g.SimpleCsr) {k : Nat} {l : List (Fin n)} (hnodup : l.Nodup)
    (hl : ∀ v, v ∈ l ↔ v ∈ level g.Edge source k) {s₀ s : BcVerifierMem n}
    (h₀ : Measured g source s₀)
    (h : Summed g source { v | ∃ j, k + 1 ≤ j ∧ v ∈ level g.Edge source j } s₀ s) :
    Solo (.forEach l () fun u _ => addDelta g u) s fun _ s' =>
      Summed g source { v | ∃ j, k ≤ j ∧ v ∈ level g.Edge source j } s₀ s' := by
  let later : Set (Fin n) := { v | ∃ j, k + 1 ≤ j ∧ v ∈ level g.Edge source j }
  have hstart : Summed g source (later ∪ { v | v ∈ ([] : List (Fin n)) }) s₀ s := by
    have hempty : later ∪ { v | v ∈ ([] : List (Fin n)) } = later := by simp
    rw [hempty]
    exact h
  apply (Solo.forEach (fun pre _ s' => Summed g source (later ∪ { v | v ∈ pre }) s₀ s') hstart ?_).mono
  · intro _ s' hs'
    have hall : later ∪ { v | v ∈ l } = { v | ∃ j, k ≤ j ∧ v ∈ level g.Edge source j } := by
      ext v
      constructor
      · rintro (⟨j, hj, hv⟩ | hv)
        · exact ⟨j, (Nat.le_succ k).trans hj, hv⟩
        · exact ⟨k, le_rfl, (hl v).mp hv⟩
      · rintro ⟨j, hj, hv⟩
        rcases Nat.lt_or_eq_of_le hj with hlt | rfl
        · exact .inl ⟨j, hlt, hv⟩
        · exact .inr ((hl v).mpr hv)
    exact hall ▸ hs'
  · rintro pre u post ⟨⟩ s₁ hsplit hs₁
    have hu : u ∈ level g.Edge source k := (hl u).mp (by simp [hsplit])
    have hnot : u ∉ later ∪ { v | v ∈ pre } := by
      rintro (⟨j, hj, hv⟩ | hv)
      · exact not_mem_level_of_reached (level_subset_reached k hu) hj hv
      · rw [hsplit, List.nodup_append] at hnodup
        exact hnodup.2.2 u hv u (by simp) rfl
    have hinsert : later ∪ { v | v ∈ pre ++ [u] } = insert u (later ∪ { v | v ∈ pre }) := by
      ext v
      simp only [Set.mem_union, Set.mem_ofPred_eq, List.mem_append, List.mem_singleton,
        Set.mem_insert_iff]
      tauto
    rw [hinsert]
    exact addDelta_solo hg h₀ hs₁ hu hnot fun v hv => .inl ⟨k + 1, le_rfl, hv⟩

/-- All depths, the largest one first. -/
theorem addLevels_solo (hg : g.SimpleCsr) {s₀ : BcVerifierMem n} (h₀ : Measured g source s₀)
    (hfiled : Filed s₀.search.depth (List.finRange n) s₀.vertsAtDepth)
    (hdeltas : s₀.deltas = fun _ => 0) :
    Solo (.forEach (List.range s₀.vertsAtDepth.length).reverse () fun depth _ => do
        let verts ← .loadAt fun s : BcVerifierMem n => s.vertsAtDepth[depth]?
        .forEach verts () fun u _ => addDelta g u) s₀ fun _ s' =>
      Summed g source { v | ∃ j, 0 ≤ j ∧ v ∈ level g.Edge source j } s₀ s' := by
  let size := s₀.vertsAtDepth.length
  have hstart : Summed g source { v | ∃ j, size ≤ j ∧ v ∈ level g.Edge source j } s₀ s₀ := by
    have hnone (v : Fin n) : v ∉ { v | ∃ j, size ≤ j ∧ v ∈ level g.Edge source j } := by
      rintro ⟨j, hj, hv⟩
      have hd := (h₀.depths v j).mpr hv
      have hroom := hfiled.room v (List.mem_finRange v) (by omega)
      omega
    refine ⟨rfl, fun v => ?_, fun v => ?_⟩
    · rw [hdeltas, if_neg (hnone v)]
    · rw [if_neg (hnone v), add_zero]
  have hdone : size - (List.range size).reverse.length = 0 := by
    rw [List.length_reverse, List.length_range, Nat.sub_self]
  rw [← hdone]
  apply Solo.forEach (fun pre _ s =>
    Summed g source { v | ∃ j, size - pre.length ≤ j ∧ v ∈ level g.Edge source j } s₀ s) hstart
  intro pre d post _ s hsplit hs
  have hd : d + pre.length + 1 = size := range_reverse_split hsplit
  have hpre : size - pre.length = d + 1 := by omega
  have hnext : size - (pre ++ [d]).length = d := by
    rw [List.length_append, List.length_singleton]
    omega
  rw [hpre] at hs
  rw [hnext]
  have hlt : d < s₀.vertsAtDepth.length := by
    change d < size
    omega
  have hget : s.vertsAtDepth[d]? = some s₀.vertsAtDepth[d] := by
    rw [hs.rest]
    exact List.getElem?_eq_getElem hlt
  have hverts := hfiled.lists d _ (List.getElem?_eq_getElem hlt)
  have hnodup : s₀.vertsAtDepth[d].Nodup := by
    rw [hverts]
    exact (List.nodup_finRange n).filter _
  have hmem (v : Fin n) : v ∈ s₀.vertsAtDepth[d] ↔ v ∈ level g.Edge source d := by
    rw [hverts, List.mem_filter, ← h₀.depths]
    simp
  exact Solo.loadAt_bind hget (addLevel_solo hg hnodup hmem h₀ hs)

/-- An iteration adds the same to the scores as one of `Brandes`. -/
theorem verifierIter_solo (hg : g.SimpleCsr) (s : BcVerifierMem n) :
    Solo (verifierIter g source) s fun _ s' => ∀ v, s'.scores v = s.scores v + contribution g source v := by
  apply Solo.bind
  apply (serialCount_solo s).mono
  rintro _ s₁ ⟨hsearch, htally, hscores⟩
  have hdepth (v : Fin n) (k : Nat) : s₁.search.depth v = k ↔ v ∈ level g.Edge source k := by
    rw [mem_level_iff]
    exact (hsearch.depth_eq v).2 k
  have hcases (v : Fin n) : s₁.search.depth v = -1 ∨ ∃ d : Nat, s₁.search.depth v = d := by
    by_cases hv : s₁.search.depth v = -1
    · exact .inl hv
    · obtain ⟨k, hk, -⟩ := hsearch.walk v ((hsearch.mem v).mpr hv)
      exact .inr ⟨k, hk⟩
  apply Solo.store_bind
  apply Solo.bind
  let s₂ : BcVerifierMem n := { s₁ with vertsAtDepth := [] }
  have hstart : s₂ = { s₂ with vertsAtDepth := s₂.vertsAtDepth } ∧
      Filed s₁.search.depth [] s₂.vertsAtDepth := ⟨rfl, by simp [s₂], by simp⟩
  apply (Solo.forEach (fun pre _ s' => s' = { s₂ with vertsAtDepth := s'.vertsAtDepth } ∧
    Filed s₁.search.depth pre s'.vertsAtDepth) hstart ?_).mono
  · rintro _ s₃ ⟨hrest, hfiled⟩
    apply Solo.store_bind
    apply Solo.load_bind
    have hmeasured : Measured g source { s₃ with deltas := fun _ => 0 } := by
      rw [hrest]
      exact ⟨hdepth, fun v k hv => htally.numPaths_eq hg hsearch (mem_level_iff.mp hv)⟩
    have hsame : s₃.search = s₁.search := by rw [hrest]
    apply (addLevels_solo hg hmeasured (hsame.symm ▸ hfiled) rfl).mono
    intro _ s₄ hs₄ v
    refine (hs₄.scores v).trans ?_
    show s₃.scores v + _ = _
    have hscores₃ : s₃.scores = s.scores := by
      rw [hrest]
      exact hscores
    rw [hscores₃, contribution]
    congr 1
    by_cases hv : Relation.ReflTransGen g.Edge source v
    · rw [if_pos hv]
      exact if_pos (exists_level_iff.mpr hv)
    · rw [if_neg hv]
      exact if_neg fun h => hv (exists_level_iff.mp h)
  · rintro pre v post ⟨⟩ s₃ - ⟨hrest, hfiled⟩
    have hsame : s₃.search = s₁.search := by rw [hrest]
    apply (fileVertex_solo (hsame ▸ hcases v) (hsame ▸ hfiled)).mono
    rintro _ s₄ ⟨hrest₄, hfiled₄⟩
    refine ⟨?_, hsame ▸ hfiled₄⟩
    rw [hrest₄, hrest]

/-! ## The comparison -/

theorem accumulateSerial_solo (hg : g.SimpleCsr) (sources : List (Fin n)) {s : BcVerifierMem n}
    (hs : s.scores = fun _ => 0) :
    Solo (.forEach sources () fun source _ => verifierIter g source) s fun _ s' =>
      s'.scores = centrality g sources := by
  have hstart : s.scores = centrality g [] := by
    rw [hs]
    rfl
  apply Solo.forEach (fun pre _ (s' : BcVerifierMem n) => s'.scores = centrality g pre) hstart
  intro pre source post _ s₁ _ hs₁
  apply (verifierIter_solo hg s₁).mono
  intro _ s₂ hs₂
  funext v
  rw [hs₂, hs₁, centrality_append]

theorem normalizeSerial_solo {biggestScore : ℚ} (hpos : 0 < biggestScore) (s : BcVerifierMem n) :
    Solo (.forEach (List.finRange n) () fun v _ => do
        let score ← .load fun s => s.scores v
        if biggestScore = 0 then .fail
        else .store fun s => { s with scores := update s.scores v (score / biggestScore) }) s
      fun _ s' => s'.scores = fun v => s.scores v / biggestScore := by
  let Inv (pre : List (Fin n)) (s' : BcVerifierMem n) : Prop :=
    ∀ v, s'.scores v = if v ∈ pre then s.scores v / biggestScore else s.scores v
  apply (Solo.forEach (fun pre _ s' => Inv pre s') (fun v => (if_neg (by simp)).symm) ?_).mono
  · intro _ s' hs'
    funext v
    rw [hs' v, if_pos (List.mem_finRange v)]
  · intro pre v post _ s₁ hsplit hs₁
    have hnot : v ∉ pre := by
      have hnodup := List.nodup_finRange n
      rw [hsplit, List.nodup_append] at hnodup
      exact fun hmem => hnodup.2.2 v hmem v (by simp) rfl
    apply Solo.load_bind
    rw [if_neg hpos.ne']
    apply Solo.store
    intro u
    show update s₁.scores v (s₁.scores v / biggestScore) u = _
    by_cases hu : u = v
    · rw [hu, update_self, hs₁ v, if_neg hnot, if_pos (by simp)]
    · rw [update_of_ne hu, hs₁ u]
      simp [hu]

/-- Scores that are the same are accepted. -/
theorem compareSerial_solo {scoresToTest : Fin n → ℚ} {s : BcVerifierMem n}
    (hs : s.scores = scoresToTest) :
    Solo (.forEach (List.finRange n) true fun v allOk => do
        let score ← .load fun s => s.scores v
        if epsilon < |scoresToTest v - score| then return false else return allOk) s
      fun allOk s' => allOk = true ∧ s' = s := by
  apply Solo.forEach (fun _ allOk s' => allOk = true ∧ s' = s) ⟨rfl, rfl⟩
  intro pre v post _ s₁ _ hs₁
  obtain ⟨rfl, hsame⟩ := hs₁
  apply Solo.load_bind
  have hle : ¬ epsilon < |scoresToTest v - s₁.scores v| := by
    rw [hsame, hs, sub_self, abs_zero, epsilon]
    exact not_lt.mpr (by positivity)
  rw [if_neg hle]
  exact Solo.ret ⟨rfl, hsame⟩

theorem bcVerifier_solo (hg : g.SimpleCsr) {sources : List (Fin n)} {biggest : ℚ} (hpos : 0 < biggest)
    (hgreatest : IsGreatest (Set.range (centrality g sources)) biggest) {scoresToTest : Fin n → ℚ}
    (htest : ∀ v, scoresToTest v = centrality g sources v / biggest) (s : BcVerifierMem n) :
    Solo (bcVerifier g sources scoresToTest) s fun allOk s' =>
      allOk = true ∧ s'.scores = scoresToTest := by
  apply Solo.store_bind
  apply Solo.bind
  apply (accumulateSerial_solo hg sources rfl).mono
  intro _ s₁ hs₁
  have hmax : (List.ofFn s₁.scores).max? = some biggest := by
    rw [hs₁, List.max?_eq_some_iff]
    obtain ⟨⟨v, hv⟩, hle⟩ := hgreatest
    refine ⟨(List.mem_ofFn' _ _).mpr ⟨v, hv⟩, fun x hx => ?_⟩
    obtain ⟨u, rfl⟩ := (List.mem_ofFn' _ _).mp hx
    exact hle ⟨u, rfl⟩
  refine Solo.loadAt_bind (b := biggest) hmax ?_
  apply Solo.bind
  apply (normalizeSerial_solo hpos s₁).mono
  intro _ s₂ hs₂
  have hscores : s₂.scores = scoresToTest := by
    funext v
    rw [hs₂, hs₁, htest v]
  apply (compareSerial_solo hscores).mono
  rintro _ _ ⟨hok, rfl⟩
  exact ⟨hok, hscores⟩

/-- `Brandes` and its verifier, for every team, every sequence of sources with an out-edge among them
and every interleaving. -/
theorem brandes_correct {n : Nat} (g : Graph n) (hg : g.SimpleCsr) (sources : List (Fin n))
    (hsources : ∃ source ∈ sources, 0 < g.outDegree source) (T : Nat) [NeZero T]
    (s₀ : BcMem n g.numEdgesDirected) :
    (brandes T g sources).Correct s₀ fun (scores, biggestScore) s =>
      scores = centrality g sources ∧ 0 < biggestScore ∧
      IsGreatest (Set.range scores) biggestScore ∧ (∀ v, s.scores v = scores v / biggestScore) ∧
      ∀ t₀, (bcVerifier g sources s.scores).Correct t₀ fun allOk t =>
        allOk = true ∧ t.scores = s.scores := by
  apply ((brandes_solo hg hsources s₀).mono ?_).correct
  rintro ⟨_, biggest⟩ s ⟨rfl, hpos, hgreatest, hs⟩
  exact ⟨rfl, hpos, hgreatest, hs, fun t₀ => (bcVerifier_solo hg hpos hgreatest hs t₀).correct⟩

theorem brandes_correct_pair :
    (brandes 2 pairGraph [0, 1]).Correct (blankBcMem 2 _) fun (scores, biggestScore) s =>
      scores = centrality pairGraph [0, 1] ∧ 0 < biggestScore ∧
      IsGreatest (Set.range scores) biggestScore ∧ (∀ v, s.scores v = scores v / biggestScore) ∧
      ∀ t₀, (bcVerifier pairGraph [0, 1] s.scores).Correct t₀ fun allOk t =>
        allOk = true ∧ t.scores = s.scores :=
  brandes_correct pairGraph pairGraph_simpleCsr [0, 1] ⟨0, by decide⟩ 2 (blankBcMem 2 _)

end Gapbs
