import Gapbs.Bc.Round
import Gapbs.Bfs.Dobfs
import Gapbs.Lib.PathCount

/-!
# The forward phase

`PBFS` goes from level to level.  When it stops, the queue holds the levels one behind the other,
`depth_index` their boundaries with an empty level in front, `path_counts` the numbers of shortest paths,
and `succ` the edges from a level to the next.
-/

namespace Gapbs

open Conc Function HopDistance

variable {n m : Nat}

theorem fill_solo {S X : Type} {T : Nat} [NeZero T] (array : Lens S (Fin n → X)) (initVal : X) (s : S) :
    Solo (fill T array initVal) s fun _ s' => s' = array.set (fun _ => initVal) s := by
  apply (Solo.parallelFor_of_own
    (fun i s₁ s₂ => s₂ = array.set (update (array.get s₁) i initVal) s₁)
    (fun s' => s' = array.set (array.get s') s) (fun _ _ => True) (fun i s' => array.get s' i = initVal)
    (array.set_get s).symm (fun _ => trivial) ?_ (fun _ _ _ _ _ _ _ _ => trivial) ?_ ?_).mono
  · rintro _ s' ⟨hs', hpost⟩
    rw [hs', funext hpost]
  · rintro i s₁ _ hs₁ rfl
    rw [array.get_set, hs₁, array.set_set]
  · rintro i j s₁ _ hij _ hpost rfl
    rw [array.get_set, update_of_ne hij]
    exact hpost
  · intro i s₁ _ _
    apply WP.store (P := fun _ => True) trivial fun _ _ _ _ => trivial
    · rintro _ σ τ hσ ⟨j, hj, hown⟩
      rw [hown, array.get_set, update_of_ne hj.symm]
      exact hσ
    · refine fun s _ _ => ⟨(), .inr rfl, ?_⟩
      rw [array.get_set, update_self]

section Levels

variable (g : Graph n) (source : Fin n)

/-- `l` lists the vertices of level `k`. -/
structure ListsLevel (k : Nat) (l : List (Fin n)) : Prop where
  nodup : l.Nodup
  mem : ∀ v, v ∈ l ↔ v ∈ level g.Edge source k

/-- The boundaries of the levels, the empty one in front included. -/
def boundaries (ls : List (List (Fin n))) (k : Nat) : List Nat :=
  0 :: (List.range k).map fun j => (ls.take j).flatten.length

/-- The queue holds the levels `ls` and, as its window, the level `w` behind them. -/
structure LevelsAt (ls : List (List (Fin n))) (w : List (Fin n)) (q : SlidingQueue (Fin n) n)
    (depthIndex : List Nat) : Prop where
  queue : QueueAt ls.flatten w q
  levels : ∀ j l, ls[j]? = some l → ListsLevel g source j l
  window : ListsLevel g source ls.length w
  index : depthIndex = boundaries ls ls.length

/-- Between two rounds. -/
structure AtDepth (k : Nat) (s : BcMem n m) : Prop where
  depths : ∀ j ≤ k, ∀ v ∈ level g.Edge source j, s.depths v = j
  unreached : ∀ v, v ∉ reached g.Edge source k → s.depths v = -1
  counts : ∀ v ∈ reached g.Edge source k, s.pathCounts v = numPaths g.Edge source v
  zero : ∀ v, v ∉ reached g.Edge source k → s.pathCounts v = 0
  bits : ∀ pos : Fin m, s.succ.getBit pos = true ↔ ∃ j < k, ∃ u ∈ level g.Edge source j,
    ∃ v ∈ level g.Edge source (j + 1), (v, pos.val) ∈ g.outSlots u
  queue : ∃ ls w, ls.length = k ∧ LevelsAt g source ls w s.queue s.depthIndex

variable {g source} {k : Nat}

theorem AtDepth.depth_ne {s : BcMem n m} (h : AtDepth g source k s) {v : Fin n}
    (hv : v ∈ reached g.Edge source k) : ∃ j ≤ k, s.depths v = (j : Int) := by
  obtain ⟨j, hj, hlevel⟩ := exists_level hv
  exact ⟨j, hj, h.depths j hj v hlevel⟩

theorem AtDepth.depth_iff {s : BcMem n m} (h : AtDepth g source k s) {v : Fin n} :
    s.depths v = -1 ↔ v ∉ reached g.Edge source k := by
  constructor
  · intro hv hr
    obtain ⟨j, -, hj⟩ := h.depth_ne hr
    omega
  · exact h.unreached v

theorem LevelsAt.mem_flatten {ls : List (List (Fin n))} {w : List (Fin n)}
    {q : SlidingQueue (Fin n) n} {depthIndex : List Nat} (h : LevelsAt g source ls w q depthIndex)
    {v : Fin n} (hv : v ∈ ls.flatten) : ∃ j < ls.length, v ∈ level g.Edge source j := by
  obtain ⟨l, hl, hvl⟩ := List.mem_flatten.mp hv
  obtain ⟨j, hj⟩ := List.getElem?_of_mem hl
  exact ⟨j, (List.getElem?_eq_some_iff.mp hj).1, ((h.levels j l hj).mem v).mp hvl⟩

/-- No vertex is queued twice. -/
theorem LevelsAt.nodup {ls : List (List (Fin n))} {w : List (Fin n)} {q : SlidingQueue (Fin n) n}
    {depthIndex : List Nat} (h : LevelsAt g source ls w q depthIndex) : (ls.flatten ++ w).Nodup := by
  apply List.Nodup.append _ h.window.nodup
  · intro v hv hvw
    obtain ⟨j, hj, hlevel⟩ := h.mem_flatten hv
    exact not_mem_level_of_reached (level_subset_reached j hlevel) hj ((h.window.mem v).mp hvw)
  · rw [List.nodup_flatten]
    constructor
    · intro l hl
      obtain ⟨j, hj⟩ := List.getElem?_of_mem hl
      exact (h.levels j l hj).nodup
    · rw [List.pairwise_iff_getElem]
      intro i j hi hj hij v hvi hvj
      have hlevel := ((h.levels i _ (List.getElem?_eq_getElem hi)).mem v).mp hvi
      exact not_mem_level_of_reached (level_subset_reached i hlevel) hij
        (((h.levels j _ (List.getElem?_eq_getElem hj)).mem v).mp hvj)

theorem boundaries_append (ls : List (List (Fin n))) (w : List (Fin n)) :
    boundaries (ls ++ [w]) (ls.length + 1) = boundaries ls ls.length ++ [ls.flatten.length] := by
  have htake (j : Nat) (hj : j ≤ ls.length) : (ls ++ [w]).take j = ls.take j := List.take_append_of_le_length hj
  rw [boundaries, boundaries, List.range_succ, List.map_append, List.cons_append, List.map_singleton,
    htake _ le_rfl, List.take_length]
  congr 2
  apply List.map_congr_left
  intro j hj
  rw [htake j (List.mem_range.mp hj).le]

theorem boundaries_zero (ls : List (List (Fin n))) (k : Nat) : (boundaries ls (k + 1))[0]? = some 0 := rfl

theorem boundaries_get (ls : List (List (Fin n))) {j k : Nat} (hj : j < k) :
    (boundaries ls k)[j + 1]? = some (ls.take j).flatten.length := by
  rw [boundaries, List.getElem?_cons_succ, List.getElem?_map, List.getElem?_range hj]
  rfl

/-- The levels stand one behind the other. -/
theorem getElem?_flatten_levels {ls : List (List (Fin n))} {j i : Nat} {l : List (Fin n)} {x : Fin n}
    (hj : ls[j]? = some l) (hx : l[i]? = some x) :
    ls.flatten[(ls.take j).flatten.length + i]? = some x := by
  obtain ⟨hlt, rfl⟩ := List.getElem?_eq_some_iff.mp hj
  have hi := (List.getElem?_eq_some_iff.mp hx).1
  have hsplit : ls.flatten = (ls.take j).flatten ++ (ls[j] ++ (ls.drop (j + 1)).flatten) := by
    conv_lhs => rw [← List.take_append_drop j ls, List.drop_eq_getElem_cons hlt]
    rw [List.flatten_append, List.flatten_cons]
  rw [hsplit, List.getElem?_append_right (by omega), Nat.add_sub_cancel_left,
    List.getElem?_append_left hi, hx]

/-! ## One round -/

/-- The paths to a vertex of the next level are those to its predecessors in the window. -/
theorem sum_window (hg : g.SimpleCsr) {w : List (Fin n)} (hw : ListsLevel g source k w)
    {pathCounts : Fin n → ℚ} (hcounts : ∀ u ∈ w, pathCounts u = numPaths g.Edge source u) {v : Fin n}
    (hv : v ∈ level g.Edge source (k + 1)) :
    (w.map fun u => ((g.outNeigh u).count v : ℚ) * pathCounts u).sum = numPaths g.Edge source v := by
  have hterm (u : Fin n) (hu : u ∈ w) : ((g.outNeigh u).count v : ℚ) * pathCounts u =
      if g.Edge u v then (numPaths g.Edge source u : ℚ) else 0 := by
    rw [hcounts u hu]
    by_cases hE : g.Edge u v
    · rw [if_pos hE, List.count_eq_one_of_mem (hg.nodup u) hE, Nat.cast_one, one_mul]
    · rw [if_neg hE, List.count_eq_zero_of_not_mem hE, Nat.cast_zero, zero_mul]
  have hpreds : preds g.Edge source k v = w.toFinset.filter fun u => g.Edge u v := by
    ext u
    rw [mem_preds, Finset.mem_filter, List.mem_toFinset, hw.mem, mem_level_iff]
  rw [List.map_congr_left hterm, ← List.sum_toFinset _ hw.nodup, ← Finset.sum_filter, ← hpreds,
    (mem_level_iff.mp hv).numPaths_succ, Nat.cast_sum]

theorem AtDepth.listsLevel_succ {s s' : BcMem n m} (h : AtDepth g source k s) {w l : List (Fin n)}
    (hw : ListsLevel g source k w) (hround : RoundDone g w l (k + 1) s s') :
    ListsLevel g source (k + 1) l := by
  refine ⟨hround.nodup, fun v => ?_⟩
  rw [hround.mem, h.depth_iff, mem_level_succ]
  simp only [hw.mem]

/-- The depths, the counts and the marks after a round. -/
theorem AtDepth.step (hg : g.SimpleCsr) {s s' : BcMem n m} (h : AtDepth g source k s)
    {ls : List (List (Fin n))} {w l : List (Fin n)} (hk : ls.length = k)
    (hq : LevelsAt g source ls w s.queue s.depthIndex)
    (hround : RoundDone g w l ((k : Int) + 1) s s') :
    AtDepth g source (k + 1) { s'.pushIndex with queue := s'.queue.slideWindow } := by
  have hw : ListsLevel g source k w := hk ▸ hq.window
  have hl : ListsLevel g source (k + 1) l := h.listsLevel_succ hw hround
  -- the round discovers the next level and leaves the vertices found before alone
  have hold {v : Fin n} (hv : v ∈ reached g.Edge source k) : v ∉ l := fun hvl =>
    not_mem_level_of_reached hv k.lt_succ_self ((hl.mem v).mp hvl)
  refine ⟨fun j hj v hv => ?_, fun v hv => ?_, fun v hv => ?_, fun v hv => ?_, fun pos => ?_,
    ls ++ [w], l, by simp [hk], ?_, fun j l' hj => ?_, ?_, ?_⟩
  · show s'.depths v = j
    rw [hround.depths]
    rcases Nat.lt_or_eq_of_le hj with hlt | rfl
    · have hle := Nat.le_of_lt_succ hlt
      rw [if_neg (hold (reached_mono hle (level_subset_reached j hv)))]
      exact h.depths j hle v hv
    · rw [if_pos ((hl.mem v).mpr hv)]
      exact (Int.natCast_succ k).symm
  · rw [mem_reached_succ, not_or] at hv
    show s'.depths v = -1
    rw [hround.depths, if_neg fun hvl => hv.2 ((hl.mem v).mp hvl)]
    exact h.unreached v hv.1
  · show s'.pathCounts v = _
    rw [hround.counts]
    rcases mem_reached_succ.mp hv with hv | hv
    · rw [if_neg fun hnone => h.depth_iff.mp hnone hv, add_zero, h.counts v hv]
    · have hnot := (mem_level_succ.mp hv).1
      rw [if_pos (h.unreached v hnot), h.zero v hnot, zero_add]
      exact sum_window hg hw (fun u hu => h.counts u (level_subset_reached k ((hw.mem u).mp hu))) hv
  · rw [mem_reached_succ, not_or] at hv
    show s'.pathCounts v = 0
    rw [hround.counts, h.zero v hv.1, if_pos (h.unreached v hv.1), zero_add]
    apply List.sum_eq_zero
    intro x hx
    obtain ⟨u, hu, rfl⟩ := List.mem_map.mp hx
    have hE : ¬ g.Edge u v := fun hE => hv.2 (mem_level_succ.mpr ⟨hv.1, u, (hw.mem u).mp hu, hE⟩)
    rw [List.count_eq_zero_of_not_mem hE, Nat.cast_zero, zero_mul]
  · show s'.succ.getBit pos = true ↔ _
    rw [hround.marks, h.bits]
    constructor
    · rintro (⟨j, hj, hslot⟩ | ⟨u, hu, v, hslot, hv⟩)
      · exact ⟨j, hj.trans k.lt_succ_self, hslot⟩
      · have hlevel : v ∈ level g.Edge source (k + 1) := mem_level_succ.mpr
          ⟨h.depth_iff.mp hv, u, (hw.mem u).mp hu, edge_of_mem_outSlots hslot⟩
        exact ⟨k, k.lt_succ_self, u, (hw.mem u).mp hu, v, hlevel, hslot⟩
    · rintro ⟨j, hj, u, hu, v, hv, hslot⟩
      rcases Nat.lt_succ_iff_lt_or_eq.mp hj with hlt | rfl
      · exact .inl ⟨j, hlt, u, hu, v, hv, hslot⟩
      · exact .inr ⟨u, (hw.mem u).mpr hu, v, hslot, h.unreached v (mem_level_succ.mp hv).1⟩
  · show QueueAt (ls ++ [w]).flatten l s'.queue.slideWindow
    rw [List.flatten_append, List.flatten_singleton]
    exact hq.queue.extend hround.kept hround.sharedIn hround.slots
  · rcases Nat.lt_or_ge j ls.length with hlt | hge
    · rw [List.getElem?_append_left hlt] at hj
      exact hq.levels j l' hj
    · rw [List.getElem?_append_right hge] at hj
      obtain ⟨hzero, rfl⟩ : j - ls.length = 0 ∧ w = l' := by
        cases hsub : j - ls.length <;> simp_all
      have hjk : j = k := by omega
      exact hjk ▸ hw
  · rw [List.length_append, hk]
    exact hl
  · show s'.depthIndex ++ [s'.queue.sharedOutStart] = _
    have hindex : s'.depthIndex = s.depthIndex := by rw [hround.rest]
    rw [hindex, hq.index, hround.kept.start, hq.queue.start, List.length_append, List.length_singleton,
      boundaries_append]

theorem pbfsRound_solo {T : Nat} [NeZero T] (hg : g.SimpleCsr) (hm : m = g.numEdgesDirected)
    {s : BcMem n m} (h : AtDepth g source k s) (hk : s.queue.empty = false) :
    Solo (pbfsRound T g ((k : Int) + 1)) s fun _ s' => AtDepth g source (k + 1) s' ∧
      s'.scores = s.scores ∧ n - s'.queue.sharedOutStart < n - s.queue.sharedOutStart := by
  obtain ⟨ls, w, hlen, hq⟩ := h.queue
  have hw : ListsLevel g source k w := hlen ▸ hq.window
  have hreached {v : Fin n} (hv : v ∈ w) : v ∈ reached g.Edge source k :=
    level_subset_reached k ((hw.mem v).mp hv)
  have hhold : s.queue.HoldsWindow w := hq.queue.holdsWindow hq.nodup
  have hdepth (v : Fin n) : s.depths v ≠ (k : Int) + 1 := by
    by_cases hv : v ∈ reached g.Edge source k
    · obtain ⟨j, hj, hd⟩ := h.depth_ne hv
      omega
    · rw [h.unreached v hv]
      omega
  have hroom : s.queue.sharedIn + (Finset.univ.filter fun v => s.depths v = -1).card ≤ n := by
    rw [hq.queue.sharedIn, ← List.length_append, ← List.toFinset_card_of_nodup hq.nodup]
    have hdisj : Disjoint (ls.flatten ++ w).toFinset (Finset.univ.filter fun v => s.depths v = -1) := by
      rw [Finset.disjoint_left]
      intro v hv hnone
      apply h.depth_iff.mp (Finset.mem_filter.mp hnone).2
      rcases List.mem_append.mp (List.mem_toFinset.mp hv) with hv | hv
      · obtain ⟨j, hj, hlevel⟩ := hq.mem_flatten hv
        exact reached_mono (hlen ▸ hj.le) (level_subset_reached j hlevel)
      · exact hreached hv
    rw [← Finset.card_union_of_disjoint hdisj]
    exact (Finset.card_le_univ _).trans (Fintype.card_fin n).le
  apply Solo.load_bind
  rw [hhold.size]
  apply Solo.pick_bind
  intro sched
  apply Solo.bind
  apply (pbfsWorkers_solo (by omega) hdepth hroom hhold (fun u hu hnone => h.depth_iff.mp hnone (hreached hu))
    (fun u v pos hslot => hm ▸ outSlots_lt hg hslot) sched).mono
  rintro _ s' ⟨l, hround⟩
  apply Solo.store_bind
  apply Solo.store
  refine ⟨h.step hg hlen hq hround, ?_, ?_⟩
  · show s'.scores = s.scores
    rw [hround.rest]
  · -- the window was not empty
    have hlt : s.queue.sharedOutStart < s.queue.sharedOutEnd := by
      have hne : w ≠ [] := fun hnil => by simp [hq.queue.empty_iff.mpr hnil] at hk
      have hpos := List.length_pos_iff.mpr hne
      rw [hq.queue.start, hq.queue.stop]
      omega
    have hle : s.queue.sharedOutEnd ≤ n := by
      rw [hq.queue.stop, ← List.length_append]
      exact length_le_of_nodup hq.nodup
    show n - s'.queue.sharedOutEnd < _
    rw [hround.kept.stop]
    omega

/-! ## The whole search -/

variable (g source) in
/-- What `PBFS` leaves behind: the levels `ls`, of which the last one is not empty, in the queue. -/
structure Searched (s : BcMem n m) : Prop where
  counts : ∀ v, Relation.ReflTransGen g.Edge source v → s.pathCounts v = numPaths g.Edge source v
  bits : ∀ pos : Fin m, s.succ.getBit pos = true ↔ ∃ j, ∃ u ∈ level g.Edge source j,
    ∃ v ∈ level g.Edge source (j + 1), (v, pos.val) ∈ g.outSlots u
  queue : ∃ ls : List (List (Fin n)), level g.Edge source ls.length = ∅ ∧
    (∀ j l, ls[j]? = some l → ListsLevel g source j l) ∧
    (∀ i x, ls.flatten[i]? = some x → s.queue.slot i = some x) ∧
    s.depthIndex = boundaries ls (ls.length + 1)

theorem boundaries_succ (ls : List (List (Fin n))) :
    boundaries ls (ls.length + 1) = boundaries ls ls.length ++ [ls.flatten.length] := by
  rw [boundaries, boundaries, List.range_succ, List.map_append, List.cons_append, List.map_singleton,
    List.take_length]

theorem LevelsAt.level_eq_empty {ls : List (List (Fin n))} {w : List (Fin n)}
    {q : SlidingQueue (Fin n) n} {depthIndex : List Nat} (h : LevelsAt g source ls w q depthIndex)
    (hempty : q.empty = true) : level g.Edge source ls.length = ∅ := by
  have hw : w = [] := h.queue.empty_iff.mp hempty
  subst hw
  apply Finset.eq_empty_of_forall_notMem
  exact fun v hv => absurd ((h.window.mem v).mpr hv) (by simp)

/-- A vertex that is not reached has no path and no count. -/
theorem AtDepth.counts_eq {s : BcMem n m} (h : AtDepth g source k s) (hempty : s.queue.empty = true)
    (v : Fin n) : s.pathCounts v = numPaths g.Edge source v := by
  by_cases hv : v ∈ reached g.Edge source k
  · exact h.counts v hv
  · obtain ⟨ls, w, rfl, hq⟩ := h.queue
    have hunreachable : ¬ Relation.ReflTransGen g.Edge source v := fun hreach =>
      hv ((mem_reached_iff_reachable (hq.level_eq_empty hempty)).mpr hreach)
    rw [h.zero v hv, numPaths_eq_zero hunreachable, Nat.cast_zero]

theorem AtDepth.searched {s : BcMem n m} (h : AtDepth g source k s) (hempty : s.queue.empty = true) :
    Searched g source s.pushIndex := by
  obtain ⟨ls, w, rfl, hq⟩ := h.queue
  have hlevel := hq.level_eq_empty hempty
  have hw : w = [] := hq.queue.empty_iff.mp hempty
  subst hw
  refine ⟨fun v hv => h.counts v ((mem_reached_iff_reachable hlevel).mpr hv), fun pos => ?_,
    ls, hlevel, hq.levels, fun i x hi => ?_, ?_⟩
  · refine (h.bits pos).trans ⟨fun ⟨j, _, hslot⟩ => ⟨j, hslot⟩, ?_⟩
    -- behind the last level there are none
    rintro ⟨j, u, hu, hslot⟩
    refine ⟨j, ?_, u, hu, hslot⟩
    by_contra hge
    exact level_ne_empty (not_lt.mp hge) (Finset.ne_empty_of_mem hu) hlevel
  · have hlt := (List.getElem?_eq_some_iff.mp hi).1
    have hle := length_le_of_nodup hq.nodup
    rw [List.append_nil] at hle
    show (if i < n then s.queue.shared i else none) = some x
    rw [if_pos (by omega)]
    exact hq.queue.slots i x (by rwa [List.append_nil])
  · show s.depthIndex ++ [s.queue.sharedOutStart] = _
    rw [hq.index, hq.queue.start, boundaries_succ]

/-- The state in which the loop is entered. -/
theorem atDepth_zero {s : BcMem n m} (hdepths : s.depths = update (fun _ => -1) source 0)
    (hcounts : s.pathCounts = update (fun _ => 0) source 1)
    (hsucc : ∀ pos, s.succ.getBit pos = false) (hqueue : QueueAt [] [source] s.queue)
    (hindex : s.depthIndex = [0]) : AtDepth g source 0 s := by
  have hsource {v : Fin n} (hv : v ∈ reached g.Edge source 0) : v = source := Finset.mem_singleton.mp hv
  have hother {v : Fin n} (hv : v ∉ reached g.Edge source 0) : v ≠ source := fun heq =>
    hv (Finset.mem_singleton.mpr heq)
  refine ⟨fun j hj v hv => ?_, fun v hv => ?_, fun v hv => ?_, fun v hv => ?_, fun pos => ?_,
    [], [source], rfl, hqueue, by simp, ⟨by simp, fun v => ?_⟩, hindex⟩
  · obtain rfl := Nat.le_zero.mp hj
    rw [hdepths, mem_level_zero.mp hv, update_self]
    rfl
  · rw [hdepths, update_of_ne (hother hv)]
  · rw [hcounts, hsource hv, update_self, numPaths_self, Nat.cast_one]
  · rw [hcounts, update_of_ne (hother hv)]
  · simp [hsucc pos]
  · rw [List.mem_singleton]
    exact mem_level_zero.symm

theorem pbfs_solo {T : Nat} [NeZero T] (hg : g.SimpleCsr) (hm : m = g.numEdgesDirected) {s : BcMem n m}
    (hcounts : s.pathCounts = fun _ => 0) (hindex : s.depthIndex = [])
    (hin : s.queue.sharedIn = 0) (hstart : s.queue.sharedOutStart = 0) (hstop : s.queue.sharedOutEnd = 0)
    (hsucc : ∀ pos, s.succ.getBit pos = false) :
    Solo (pbfs T g source) s fun _ s' => Searched g source s' ∧
      (∀ v, s'.pathCounts v = numPaths g.Edge source v) ∧ s'.scores = s.scores := by
  have hn : 0 < n := source.pos
  let q : SlidingQueue (Fin n) n := ⟨update s.queue.shared 0 (some source), 1, 0, 0⟩
  have hpush : s.queue.pushBack source = some q := by
    simp [SlidingQueue.pushBack, SlidingQueue.put, hin, hstart, hstop, hn, q]
  have hqueue : QueueAt [] [source] q.slideWindow := by
    refine ⟨rfl, rfl, rfl, fun k x hk => ?_⟩
    show update s.queue.shared 0 (some source) k = some x
    cases k with
    | zero => simpa using hk
    | succ k => simp at hk
  apply Solo.bind
  apply (fill_solo BcMem.depthsLens (-1) s).mono
  rintro _ _ rfl
  apply Solo.store_bind
  apply Solo.store_bind
  refine Solo.storeAt_bind (congrArg (Option.map _) hpush) ?_
  apply Solo.store_bind
  apply Solo.store_bind
  let Inv (depth : Int) (s' : BcMem n m) : Prop :=
    ∃ k : Nat, depth = k ∧ AtDepth g source k s' ∧ s'.scores = s.scores
  apply Solo.iter_bind Inv (fun _ s' => n - s'.queue.sharedOutStart)
  · refine ⟨0, rfl, atDepth_zero rfl ?_ hsucc hqueue ?_, rfl⟩
    · show update s.pathCounts source 1 = _
      rw [hcounts]
    · show s.depthIndex ++ [0] = [0]
      rw [hindex, List.nil_append]
  · rintro depth s' ⟨k, rfl, hs', hscores⟩
    apply Solo.load_bind
    by_cases hempty : s'.queue.empty = true
    · rw [if_pos hempty]
      apply Solo.ret
      apply Solo.store
      exact ⟨hs'.searched hempty, hs'.counts_eq hempty, hscores⟩
    · rw [if_neg hempty]
      apply Solo.bind
      apply (pbfsRound_solo hg hm hs' (Bool.eq_false_iff.mpr hempty)).mono
      rintro _ s₁ ⟨hs₁, hsame, hlt⟩
      exact Solo.ret ⟨⟨k + 1, (Int.natCast_succ k).symm, hs₁, hsame.trans hscores⟩, hlt⟩

end Levels

end Gapbs
