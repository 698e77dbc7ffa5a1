import Gapbs.Bc.Forward

/-!
# The backward phase

The levels are worked through from the deepest one up.  The dependency of a vertex is a sum over its
successors, which are found by the marks in `succ` and whose own dependencies are there already.
-/

namespace Gapbs

open Conc Function HopDistance

variable {n m : Nat} {g : Graph n} {source : Fin n}

/-- What the sum over the successors reads. -/
structure Gathers (g : Graph n) (source : Fin n) (j : Nat) (s : BcMem n m) : Prop where
  counts : ∀ v, Relation.ReflTransGen g.Edge source v → s.pathCounts v = numPaths g.Edge source v
  bits : ∀ pos : Fin m, s.succ.getBit pos = true ↔ ∃ j, ∃ u ∈ level g.Edge source j,
    ∃ v ∈ level g.Edge source (j + 1), (v, pos.val) ∈ g.outSlots u
  deltas : ∀ v ∈ level g.Edge source (j + 1), s.deltas v = dependency g.Edge source v

theorem reachable_of_level {j : Nat} {v : Fin n} (hv : v ∈ level g.Edge source j) :
    Relation.ReflTransGen g.Edge source v :=
  (mem_level_iff.mp hv).reachable

/-- At the edges of a vertex, the marks tell the next level. -/
theorem Gathers.getBit_iff {j : Nat} {s : BcMem n m} (h : Gathers g source j s) {u v : Fin n}
    {pos : Fin m} (hu : u ∈ level g.Edge source j) (hslot : (v, pos.val) ∈ g.outSlots u) :
    s.succ.getBit pos = true ↔ v ∈ level g.Edge source (j + 1) := by
  rw [h.bits]
  constructor
  · rintro ⟨i, u', hu', v', hv', hslot'⟩
    obtain ⟨rfl, rfl⟩ := outSlots_inj hslot hslot'
    obtain rfl := (mem_level_iff.mp hu).unique (mem_level_iff.mp hu')
    exact hv'
  · exact fun hv => ⟨j, u, hu, v, hv, hslot⟩

/-- What the successor `v` of `u` adds. -/
noncomputable def share (g : Graph n) (source u v : Fin n) : ℚ :=
  (numPaths g.Edge source u : ℚ) / numPaths g.Edge source v * (1 + dependency g.Edge source v)

theorem sum_share_eq (hg : g.SimpleCsr) {j : Nat} {u : Fin n} (hu : u ∈ level g.Edge source j) :
    ((g.outNeigh u).map fun v => if v ∈ level g.Edge source (j + 1) then share g source u v else 0).sum =
      dependency g.Edge source u := by
  have hsuccs : succs g.Edge source j u =
      (g.outNeigh u).toFinset.filter fun v => v ∈ level g.Edge source (j + 1) := by
    ext v
    rw [mem_succs, Finset.mem_filter, List.mem_toFinset, mem_level_iff]
    exact And.comm
  rw [← List.sum_toFinset _ (hg.nodup u), ← Finset.sum_filter, ← hsuccs,
    (mem_level_iff.mp hu).dependency_eq]
  rfl

theorem sum_share_slots (hg : g.SimpleCsr) {j : Nat} {u : Fin n} (hu : u ∈ level g.Edge source j) :
    ((g.outSlots u).map fun e => if e.1 ∈ level g.Edge source (j + 1) then share g source u e.1 else 0).sum =
      dependency g.Edge source u := by
  rw [← sum_share_eq hg hu, ← map_fst_outSlots u, List.map_map]
  rfl

/-- The loop over the neighbours adds up the dependency, whatever the other threads do meanwhile. -/
theorem gatherDelta_wp (hg : g.SimpleCsr) (hm : m = g.numEdgesDirected) {j : Nat} {u : Fin n}
    (hu : u ∈ level g.Edge source j) {R G : BcMem n m × Unit → BcMem n m × Unit → Prop}
    {P : BcMem n m × Unit → Prop} (hstable : Stable R P) (hP : ∀ σ, P σ → Gathers g source j σ.1)
    {σ : BcMem n m × Unit} (hσ : P σ) :
    WP R G (fun x τ => x = dependency g.Edge source u ∧ P τ) (gatherDelta g u) σ := by
  -- the marked slots are those that lead to the next level
  let term (e : Fin n × Nat) : ℚ := if e.1 ∈ level g.Edge source (j + 1) then share g source u e.1 else 0
  let Inv (pre : List (Fin n × Nat)) (x : ℚ) (τ : BcMem n m × Unit) : Prop := x = (pre.map term).sum ∧ P τ
  have hinv (pre : List (Fin n × Nat)) (x : ℚ) : Stable R (Inv pre x) :=
    fun σ τ hσ hR => ⟨hσ.1, hstable σ τ hσ.2 hR⟩
  apply (WP.forEach Inv ⟨rfl, hσ⟩ hinv ?_).mono
  · rintro x τ ⟨rfl, hτ⟩
    exact ⟨sum_share_slots hg hu, hτ⟩
  · rintro pre ⟨v, pos⟩ post x τ hsplit ⟨rfl, hτ⟩
    have hslot : (v, pos) ∈ g.outSlots u := by
      rw [hsplit]
      simp
    have hpos : pos < m := hm ▸ outSlots_lt hg hslot
    have hnext : ((pre ++ [(v, pos)]).map term).sum = (pre.map term).sum + term (v, pos) := by simp
    apply WP.loadAt_bind (P := P) hτ hstable
    intro s γ hs
    refine ⟨s.succ.getBit ⟨pos, hpos⟩, dif_pos hpos, ?_⟩
    have hbit : s.succ.getBit ⟨pos, hpos⟩ = true ↔ v ∈ level g.Edge source (j + 1) :=
      (hP _ hs).getBit_iff hu hslot
    by_cases hv : v ∈ level g.Edge source (j + 1)
    · rw [if_pos (hbit.mpr hv)]
      apply WP.load_bind (P := P) hs hstable
      intro s₁ γ₁ hs₁
      apply WP.load_bind (P := P) hs₁ hstable
      intro s₂ γ₂ hs₂
      apply WP.load_bind (P := P) hs₂ hstable
      intro s₃ γ₃ hs₃
      have hcountU := (hP _ hs₁).counts u (reachable_of_level hu)
      have hcountV := (hP _ hs₂).counts v (reachable_of_level hv)
      have hdelta := (hP _ hs₃).deltas v hv
      change s₁.pathCounts u = _ at hcountU
      change s₂.pathCounts v = _ at hcountV
      change s₃.deltas v = _ at hdelta
      have hne : (numPaths g.Edge source v : ℚ) ≠ 0 :=
        Nat.cast_ne_zero.mpr (mem_level_iff.mp hv).numPaths_pos.ne'
      rw [hcountU, hcountV, hdelta, if_neg hne]
      refine WP.ret ⟨?_, hs₃⟩ (hinv _ _)
      rw [hnext]
      show _ = _ + if v ∈ _ then _ else (0 : ℚ)
      rw [if_pos hv]
      rfl
    · rw [if_neg fun hb => hv (hbit.mp hb)]
      refine WP.ret ⟨?_, hs⟩ (hinv _ _)
      rw [hnext]
      show _ = _ + if v ∈ _ then _ else (0 : ℚ)
      rw [if_neg hv, add_zero]

/-! ## One level -/

/-- What the iteration for `u` may do. -/
structure OwnScore (u : Fin n) (s s' : BcMem n m) : Prop where
  rest : s' = { s with deltas := s'.deltas, scores := s'.scores }
  deltas : ∀ v, v ≠ u → s'.deltas v = s.deltas v
  scores : ∀ v, v ≠ u → s'.scores v = s.scores v

/-- What the iterations for `l` may do. -/
structure OwnLevel (l : List (Fin n)) (s s' : BcMem n m) : Prop where
  rest : s' = { s with deltas := s'.deltas, scores := s'.scores }
  deltas : ∀ v, v ∉ l → s'.deltas v = s.deltas v
  scores : ∀ v, v ∉ l → s'.scores v = s.scores v

theorem OwnScore.onLevel {l : List (Fin n)} {u : Fin n} (hu : u ∈ l) {s s₁ s₂ : BcMem n m}
    (h : OwnLevel l s s₁) (h' : OwnScore u s₁ s₂) : OwnLevel l s s₂ := by
  have hne {v : Fin n} (hv : v ∉ l) : v ≠ u := fun heq => hv (heq ▸ hu)
  refine ⟨?_, fun v hv => (h'.deltas v (hne hv)).trans (h.deltas v hv),
    fun v hv => (h'.scores v (hne hv)).trans (h.scores v hv)⟩
  rw [h'.rest, h.rest]

/-- Before a level: the next one has its dependencies, and the slots hold the level. -/
structure BeforeLevel (g : Graph n) (source : Fin n) (j first : Nat) (l : List (Fin n))
    (s : BcMem n m) : Prop where
  gathers : Gathers g source j s
  nodup : l.Nodup
  level : ∀ v ∈ l, v ∈ level g.Edge source j
  slots : ∀ i x, l[i]? = some x → s.queue.slot (first + i) = some x

theorem OwnLevel.gathers {j first : Nat} {l : List (Fin n)} {s s' : BcMem n m}
    (h : BeforeLevel g source j first l s) (hown : OwnLevel l s s') : Gathers g source j s' := by
  refine ⟨fun v hv => ?_, fun pos => ?_, fun v hv => ?_⟩
  · rw [hown.rest]
    exact h.gathers.counts v hv
  · rw [hown.rest]
    exact h.gathers.bits pos
  · have hnot : v ∉ l := fun hvl =>
      not_mem_level_of_reached (level_subset_reached j (h.level v hvl)) j.lt_succ_self hv
    rw [hown.deltas v hnot]
    exact h.gathers.deltas v hv

section Level

variable {j first : Nat} {l : List (Fin n)} {s₀ : BcMem n m}

theorem backVertex_wp (hg : g.SimpleCsr) (hm : m = g.numEdgesDirected)
    (h : BeforeLevel g source j first l s₀) (i : Fin l.length) {s : BcMem n m} (hs : OwnLevel l s₀ s)
    (hscore : s.scores l[i] = s₀.scores l[i]) :
    WP (Γ := Unit) (fun σ τ => ∃ k : Fin l.length, k ≠ i ∧ OwnScore l[k] σ.1 τ.1)
      (fun σ τ => OwnScore l[i] σ.1 τ.1)
      (fun _ σ => σ.1.deltas l[i] = dependency g.Edge source l[i] ∧
        σ.1.scores l[i] = s₀.scores l[i] + dependency g.Edge source l[i])
      (backVertex g (first + i)) (s, ()) := by
  let u : Fin n := l[i]
  have hu : u ∈ l := List.getElem_mem i.isLt
  have hne (k : Fin l.length) (hk : k ≠ i) : u ≠ l[k] := fun heq =>
    hk (Fin.ext (h.nodup.getElem_inj_iff.mp heq).symm)
  let P (σ : BcMem n m × Unit) : Prop := OwnLevel l s₀ σ.1 ∧ σ.1.scores u = s₀.scores u
  let R (σ τ : BcMem n m × Unit) : Prop := ∃ k : Fin l.length, k ≠ i ∧ OwnScore l[k] σ.1 τ.1
  have hP : Stable R P := fun σ τ hσ ⟨k, hk, hown⟩ =>
    ⟨hown.onLevel (List.getElem_mem k.isLt) hσ.1, (hown.scores u (hne k hk)).trans hσ.2⟩
  have hdelta (x : ℚ) : Stable R fun σ => σ.1.deltas u = x := fun σ τ hσ ⟨k, hk, hown⟩ =>
    (hown.deltas u (hne k hk)).trans hσ
  have hpost (x y : ℚ) : Stable R fun σ => σ.1.deltas u = x ∧ σ.1.scores u = y :=
    fun σ τ hσ ⟨k, hk, hown⟩ => ⟨(hown.deltas u (hne k hk)).trans hσ.1, (hown.scores u (hne k hk)).trans hσ.2⟩
  apply WP.loadAt_bind (P := P) ⟨hs, hscore⟩ hP
  intro s₁ γ₁ hs₁
  have hslot : s₁.queue.slot (first + i) = some u := by
    have hrest : s₁ = { s₀ with deltas := s₁.deltas, scores := s₁.scores } := hs₁.1.rest
    rw [hrest]
    exact h.slots i u (List.getElem?_eq_getElem i.isLt)
  refine ⟨u, hslot, ?_⟩
  apply WP.bind
  apply (gatherDelta_wp hg hm (h.level u hu) hP (fun σ hσ => OwnLevel.gathers h hσ.1) hs₁).mono
  rintro _ σ ⟨rfl, hσ⟩
  apply WP.store_bind (P := P) hσ hP
  intro s₂ γ₂ hs₂
  have hstep : OwnScore u s₂ { s₂ with deltas := update s₂.deltas u (dependency g.Edge source u) } :=
    ⟨rfl, fun v hv => update_of_ne hv _ _, fun _ _ => rfl⟩
  refine ⟨(), .inr hstep, ?_⟩
  apply WP.load_bind (P := fun σ => σ.1.deltas u = dependency g.Edge source u ∧ σ.1.scores u = s₀.scores u)
    ⟨update_self .., hs₂.2⟩ (hpost _ _)
  rintro s₃ γ₃ ⟨hd, hsc⟩
  change s₃.scores u = s₀.scores u at hsc
  rw [hsc]
  apply WP.store (P := fun σ => σ.1.deltas u = dependency g.Edge source u) hd (hdelta _) fun _ => hpost _ _
  intro s₄ γ₄ hs₄
  refine ⟨(), .inr ⟨rfl, fun _ _ => rfl, fun v hv => update_of_ne hv _ _⟩, hs₄, update_self ..⟩

/-- After a level. -/
structure LevelDone (g : Graph n) (source : Fin n) (l : List (Fin n)) (s s' : BcMem n m) : Prop where
  rest : s' = { s with deltas := s'.deltas, scores := s'.scores }
  deltas : ∀ v, s'.deltas v = if v ∈ l then dependency g.Edge source v else s.deltas v
  scores : ∀ v, s'.scores v = s.scores v + if v ∈ l then dependency g.Edge source v else 0

theorem backLevel_solo {T : Nat} [NeZero T] (hg : g.SimpleCsr) (hm : m = g.numEdgesDirected)
    (h : BeforeLevel g source j first l s₀) :
    Solo (.parallelFor T l.length fun i => backVertex g (first + i)) s₀ fun _ s' =>
      LevelDone g source l s₀ s' := by
  have hne (i k : Fin l.length) (hik : i ≠ k) : l[i] ≠ l[k] := fun heq =>
    hik (Fin.ext (h.nodup.getElem_inj_iff.mp heq))
  apply (Solo.parallelFor_of_own (fun i s s' => OwnScore l[i] s s') (fun s => OwnLevel l s₀ s)
    (fun i s => s.scores l[i] = s₀.scores l[i])
    (fun i s => s.deltas l[i] = dependency g.Edge source l[i] ∧
      s.scores l[i] = s₀.scores l[i] + dependency g.Edge source l[i])
    ⟨rfl, fun _ _ => rfl, fun _ _ => rfl⟩ (fun _ => rfl) ?_ ?_ ?_ ?_).mono
  · rintro _ s' ⟨hown, hpost⟩
    refine ⟨hown.rest, fun v => ?_, fun v => ?_⟩
    · split_ifs with hv
      · obtain ⟨i, hi, rfl⟩ := List.getElem_of_mem hv
        exact (hpost ⟨i, hi⟩).1
      · exact hown.deltas v hv
    · split_ifs with hv
      · obtain ⟨i, hi, rfl⟩ := List.getElem_of_mem hv
        exact (hpost ⟨i, hi⟩).2
      · rw [add_zero]
        exact hown.scores v hv
  · exact fun i s s' hs hown => hown.onLevel (List.getElem_mem i.isLt) hs
  · exact fun i k s s' hik _ hpre hown => (hown.scores _ (hne i k hik)).trans hpre
  · exact fun i k s s' hik _ hpost hown =>
      ⟨(hown.deltas _ (hne i k hik)).trans hpost.1, (hown.scores _ (hne i k hik)).trans hpost.2⟩
  · exact fun i s hs hpre => backVertex_wp hg hm h i hs hpre

end Level

/-! ## All levels -/

open scoped Classical in
/-- The levels from `d` on have been worked through. -/
structure BackFrom (g : Graph n) (source : Fin n) (d : Nat) (s₀ s : BcMem n m) : Prop where
  rest : s = { s₀ with deltas := s.deltas, scores := s.scores }
  deltas : ∀ j, d ≤ j → ∀ v ∈ level g.Edge source j, s.deltas v = dependency g.Edge source v
  scores : ∀ v, s.scores v = s₀.scores v +
    if ∃ j, d ≤ j ∧ v ∈ level g.Edge source j then dependency g.Edge source v else 0

theorem LevelDone.backFrom {j : Nat} {l : List (Fin n)} {s₀ s s' : BcMem n m}
    (hl : ∀ v, v ∈ l ↔ v ∈ level g.Edge source j) (hs : BackFrom g source (j + 1) s₀ s)
    (h : LevelDone g source l s s') : BackFrom g source j s₀ s' := by
  refine ⟨?_, fun i hi v hv => ?_, fun v => ?_⟩
  · rw [h.rest, hs.rest]
  · rw [h.deltas]
    rcases Nat.lt_or_eq_of_le hi with hlt | rfl
    · split_ifs
      · rfl
      · exact hs.deltas i hlt v hv
    · rw [if_pos ((hl v).mpr hv)]
  · rw [h.scores, hs.scores, add_assoc]
    congr 1
    by_cases hv : v ∈ l
    · -- no other level holds the vertex
      have hlevel := (hl v).mp hv
      have hnone : ¬ ∃ i, j + 1 ≤ i ∧ v ∈ level g.Edge source i := by
        rintro ⟨i, hi, hvi⟩
        exact not_mem_level_of_reached (level_subset_reached j hlevel) hi hvi
      rw [if_neg hnone, if_pos hv, if_pos ⟨j, le_rfl, hlevel⟩, zero_add]
    · have hiff : (∃ i, j + 1 ≤ i ∧ v ∈ level g.Edge source i) ↔
          ∃ i, j ≤ i ∧ v ∈ level g.Edge source i := by
        constructor
        · exact fun ⟨i, hi, hvi⟩ => ⟨i, (Nat.le_succ j).trans hi, hvi⟩
        · rintro ⟨i, hi, hvi⟩
          refine ⟨i, lt_of_le_of_ne hi ?_, hvi⟩
          rintro rfl
          exact hv ((hl v).mpr hvi)
      rw [if_neg hv, add_zero]
      by_cases hex : ∃ i, j ≤ i ∧ v ∈ level g.Edge source i
      · rw [if_pos hex, if_pos (hiff.mpr hex)]
      · rw [if_neg hex, if_neg fun h => hex (hiff.mp h)]

theorem range_reverse_split {k d : Nat} {pre post : List Nat}
    (h : (List.range k).reverse = pre ++ d :: post) : d + pre.length + 1 = k := by
  have hlength := congrArg List.length h
  rw [List.length_reverse, List.length_range, List.length_append, List.length_cons] at hlength
  have hget := congrArg (fun l => l[pre.length]?) h
  simp only [List.getElem?_append_right le_rfl, Nat.sub_self, List.getElem?_cons_zero] at hget
  have hindex : pre.length + post.length + 1 = (List.range k).length := by
    rw [List.length_range]
    omega
  rw [List.getElem?_reverse' hindex, List.getElem?_range (by omega)] at hget
  have hd := Option.some.inj hget
  omega

/-- A slice between two boundaries. -/
theorem backSlice_solo {T : Nat} [NeZero T] (hg : g.SimpleCsr) (hm : m = g.numEdgesDirected)
    {s₀ s : BcMem n m} {ls : List (List (Fin n))} (hs₀ : Searched g source s₀)
    (hlevels : ∀ j l, ls[j]? = some l → ListsLevel g source j l)
    (hslots : ∀ i x, ls.flatten[i]? = some x → s₀.queue.slot i = some x) {j : Nat} (hj : j < ls.length)
    (hs : BackFrom g source (j + 1) s₀ s) :
    Solo (.parallelFor T ((ls.take (j + 1)).flatten.length - (ls.take j).flatten.length)
        fun i => backVertex g ((ls.take j).flatten.length + i)) s fun _ s' =>
      BackFrom g source j s₀ s' := by
  have hget : ls[j]? = some ls[j] := List.getElem?_eq_getElem hj
  have hl := hlevels j _ hget
  have hlength : (ls.take (j + 1)).flatten.length - (ls.take j).flatten.length = ls[j].length := by
    rw [List.take_succ_eq_append_getElem hj, List.flatten_append, List.flatten_singleton,
      List.length_append, Nat.add_sub_cancel_left]
  have hbefore : BeforeLevel g source j (ls.take j).flatten.length ls[j] s := by
    refine ⟨⟨?_, ?_, hs.deltas (j + 1) le_rfl⟩, hl.nodup, fun v hv => (hl.mem v).mp hv, fun i x hx => ?_⟩
    · rw [hs.rest]
      exact hs₀.counts
    · rw [hs.rest]
      exact hs₀.bits
    · rw [hs.rest]
      exact hslots _ x (getElem?_flatten_levels hget hx)
  rw [hlength]
  exact (backLevel_solo hg hm hbefore).mono fun _ s' h => h.backFrom hl.mem hs

theorem backPropagate_solo {T : Nat} [NeZero T] (hg : g.SimpleCsr) (hm : m = g.numEdgesDirected)
    {s₀ : BcMem n m} (h : Searched g source s₀) :
    Solo (backPropagate T g) s₀ fun _ s' => BackFrom g source 0 s₀ s' := by
  obtain ⟨ls, hlast, hlevels, hslots, hindex⟩ := h.queue
  have hsize : s₀.depthIndex.length - 1 = ls.length + 1 := by simp [hindex, boundaries]
  have hstart : BackFrom g source ls.length s₀ s₀ := by
    have hnone (j : Nat) (hj : ls.length ≤ j) (v : Fin n) : v ∉ level g.Edge source j := fun hv =>
      level_ne_empty hj (Finset.ne_empty_of_mem hv) hlast
    refine ⟨rfl, fun j hj v hv => absurd hv (hnone j hj v), fun v => ?_⟩
    rw [if_neg, add_zero]
    rintro ⟨j, hj, hv⟩
    exact hnone j hj v hv
  have hdone : ls.length - (List.range (ls.length + 1)).reverse.length = 0 := by
    rw [List.length_reverse, List.length_range]
    omega
  apply Solo.load_bind
  rw [hsize, ← hdone]
  apply Solo.forEach (fun pre _ s => BackFrom g source (ls.length - pre.length) s₀ s) hstart
  intro pre d post _ s hsplit hs
  have hd := range_reverse_split hsplit
  rw [List.length_append, List.length_singleton]
  have hboundaries : s.depthIndex = boundaries ls (ls.length + 1) := by
    rw [hs.rest]
    exact hindex
  have hlastAt (hlt : d < ls.length + 1) : s.depthIndex[d + 1]? = some (ls.take d).flatten.length := by
    rw [hboundaries]
    exact boundaries_get ls hlt
  cases d with
  | zero =>
    -- the level in front is empty
    have hfirstAt : s.depthIndex[0]? = some 0 := by
      rw [hboundaries]
      exact boundaries_zero ls _
    have hpre : ls.length - pre.length = 0 := by omega
    have hnext : ls.length - (pre.length + 1) = 0 := by omega
    rw [hpre] at hs
    rw [hnext]
    refine Solo.loadAt_bind hfirstAt (Solo.loadAt_bind (hlastAt (Nat.succ_pos _)) ?_)
    exact (Solo.parallelFor_of_own (fun _ _ _ => True) (fun s' => s' = s) (fun _ _ => True)
      (fun _ _ => True) rfl (fun i => i.elim0) (fun i => i.elim0) (fun i => i.elim0)
      (fun i => i.elim0) fun i => i.elim0).mono fun _ s' hs' => hs'.1 ▸ hs
  | succ j =>
    have hfirstAt : s.depthIndex[j + 1]? = some (ls.take j).flatten.length := by
      rw [hboundaries]
      exact boundaries_get ls (by omega)
    have hpre : ls.length - pre.length = j + 1 := by omega
    have hnext : ls.length - (pre.length + 1) = j := by omega
    rw [hpre] at hs
    rw [hnext]
    refine Solo.loadAt_bind hfirstAt (Solo.loadAt_bind (hlastAt (by omega)) ?_)
    exact backSlice_solo hg hm h hlevels hslots (by omega) hs

/-! ## One source -/

open scoped Classical in
/-- What a source adds to the scores. -/
noncomputable def contribution (g : Graph n) (source v : Fin n) : ℚ :=
  if Relation.ReflTransGen g.Edge source v then dependency g.Edge source v else 0

theorem exists_level_iff {v : Fin n} :
    (∃ j, 0 ≤ j ∧ v ∈ level g.Edge source j) ↔ Relation.ReflTransGen g.Edge source v := by
  constructor
  · rintro ⟨j, _, hv⟩
    exact reachable_of_level hv
  · intro h
    obtain ⟨k, hk⟩ := exists_isDistance h
    exact ⟨k, k.zero_le, mem_level_iff.mpr hk⟩

/-- An iteration adds the dependencies of its source to the scores. -/
theorem brandesIter_solo {T : Nat} [NeZero T] (hg : g.SimpleCsr) (hm : m = g.numEdgesDirected)
    (s : BcMem n m) :
    Solo (brandesIter T g source) s fun _ s' => ∀ v, s'.scores v = s.scores v + contribution g source v := by
  apply Solo.bind
  apply (fill_solo BcMem.pathCountsLens 0 s).mono
  rintro _ _ rfl
  apply Solo.store_bind
  apply Solo.store_bind
  apply Solo.store_bind
  apply Solo.bind
  have hreset (pos : Fin m) : s.succ.reset.getBit pos = false := Bitmap.getBit_reset s.succ pos
  refine Solo.mono (pbfs_solo hg hm ?counts ?index ?sharedIn ?start ?stop hreset) ?_
  case counts | index | sharedIn | start | stop => rfl
  rintro _ s₁ ⟨hs₁, -, hscores⟩
  apply Solo.bind
  apply (fill_solo BcMem.deltasLens 0 s₁).mono
  rintro _ _ rfl
  have hblank : Searched g source (BcMem.deltasLens.set (fun _ => 0) s₁) :=
    ⟨hs₁.counts, hs₁.bits, hs₁.queue⟩
  apply (backPropagate_solo hg hm hblank).mono
  intro _ s₂ hs₂ v
  refine (hs₂.scores v).trans ?_
  show s₁.scores v + _ = _
  rw [hscores]
  congr 1
  rw [contribution]
  by_cases hv : Relation.ReflTransGen g.Edge source v
  · rw [if_pos hv, if_pos (exists_level_iff.mpr hv)]
  · rw [if_neg hv, if_neg fun h => hv (exists_level_iff.mp h)]

end Gapbs
