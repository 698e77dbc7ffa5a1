import Gapbs.Bc.Backward

/-!
# The scores

`Brandes` adds up the dependencies of the sources that are picked, and divides them by the largest one.
-/

namespace Gapbs

open Conc Function HopDistance

variable {n m : Nat} {g : Graph n}

/-- What the scores should be for the sources that are picked. -/
noncomputable def centrality (g : Graph n) (sources : List (Fin n)) (v : Fin n) : ℚ :=
  (sources.map fun source => contribution g source v).sum

theorem contribution_nonneg (source v : Fin n) : 0 ≤ contribution g source v := by
  rw [contribution]
  split_ifs
  · exact dependency_nonneg
  · exact le_rfl

theorem centrality_append (pre : List (Fin n)) (source v : Fin n) :
    centrality g (pre ++ [source]) v = centrality g pre v + contribution g source v := by
  rw [centrality, centrality, List.map_append, List.sum_append]
  simp

/-- A source with an out-edge has a score. -/
theorem centrality_pos (hg : g.SimpleCsr) {sources : List (Fin n)} {source : Fin n}
    (hsource : source ∈ sources) (hdeg : 0 < g.outDegree source) : 0 < centrality g sources source := by
  have hlength := g.length_outNeigh source
  obtain ⟨t, ht⟩ := List.exists_mem_of_length_pos (hlength ▸ hdeg)
  have hne : t ≠ source := fun heq => hg.loopless source (heq ▸ ht : source ∈ g.outNeigh source)
  have hpos : 0 < contribution g source source := by
    rw [contribution, if_pos .refl]
    exact dependency_self_pos ht hne
  have hle : contribution g source source ≤ centrality g sources source := by
    refine List.single_le_sum ?_ _ (List.mem_map_of_mem (f := fun s => contribution g s source) hsource)
    intro x hx
    obtain ⟨source', -, rfl⟩ := List.mem_map.mp hx
    exact contribution_nonneg source' source
  exact hpos.trans_le hle

/-! ## The largest score -/

/-- `x` is the largest of the values `f` and of 0. -/
structure IsBiggest {ι : Type} (f : ι → ℚ) (P : ι → Prop) (x : ℚ) : Prop where
  nonneg : 0 ≤ x
  le : ∀ i, P i → f i ≤ x
  attained : x = 0 ∨ ∃ i, x = f i

theorem IsBiggest.max {ι : Type} {f : ι → ℚ} {P : ι → Prop} {x : ℚ} (h : IsBiggest f P x) (i : ι) :
    IsBiggest f (fun j => P j ∨ j = i) (max x (f i)) := by
  refine ⟨h.nonneg.trans (le_max_left _ _), ?_, ?_⟩
  · rintro j (hj | rfl)
    · exact (h.le j hj).trans (le_max_left _ _)
    · exact le_max_right _ _
  · rcases max_choice x (f i) with heq | heq
    · rw [heq]
      exact h.attained
    · exact .inr ⟨i, heq⟩

/-- The maximum of the partial results. -/
theorem IsBiggest.foldl {ι : Type} {f : ι → ℚ} (l : List ((ι → Prop) × ℚ)) {P : ι → Prop} {x : ℚ}
    (h : IsBiggest f P x) (hl : ∀ e ∈ l, IsBiggest f e.1 e.2) :
    IsBiggest f (fun i => P i ∨ ∃ e ∈ l, e.1 i) ((l.map Prod.snd).foldl Max.max x) := by
  induction l generalizing P x with
  | nil => exact ⟨h.nonneg, fun i hi => h.le i (by simpa using hi), h.attained⟩
  | cons e l ih =>
    rw [List.forall_mem_cons] at hl
    have hnext : IsBiggest f (fun i => P i ∨ e.1 i) (Max.max x e.2) := by
      refine ⟨h.nonneg.trans (le_max_left _ _), ?_, ?_⟩
      · rintro i (hi | hi)
        · exact (h.le i hi).trans (le_max_left _ _)
        · exact (hl.1.le i hi).trans (le_max_right _ _)
      · rcases max_choice x e.2 with heq | heq
        · rw [heq]
          exact h.attained
        · rw [heq]
          exact hl.1.attained
    have hrest := ih hnext hl.2
    exact ⟨hrest.nonneg, fun i hi => hrest.le i (by simpa [or_assoc] using hi), hrest.attained⟩

/-- A positive one is the maximum of the values alone. -/
theorem IsBiggest.isGreatest {ι : Type} {f : ι → ℚ} {x : ℚ} (h : IsBiggest f (fun _ => True) x)
    (hpos : 0 < x) : IsGreatest (Set.range f) x := by
  obtain ⟨i, hi⟩ := h.attained.resolve_left hpos.ne'
  refine ⟨⟨i, hi.symm⟩, ?_⟩
  rintro _ ⟨j, rfl⟩
  exact h.le j trivial

theorem biggestScore_solo {T : Nat} [NeZero T] (s : BcMem n m) :
    Solo (biggestScore T) s fun x s' => s' = s ∧ IsBiggest s.scores (fun _ => True) x := by
  apply Solo.pick_bind
  intro sched
  apply Solo.bind
  let Part (t : Fin T) (x : ℚ) (σ : BcMem n m × Unit) : Prop :=
    σ.1 = s ∧ IsBiggest s.scores (fun v => v ∈ sched.work t) x
  apply (Solo.fork (Δ := Unit) (fun _ σ τ => τ = σ) Part () fun t => ?_).mono
  · rintro parts s' ⟨_, h⟩
    obtain rfl : s' = s := (h 0).1
    have hzero : IsBiggest s'.scores (fun _ => False) 0 := ⟨le_rfl, fun _ hi => hi.elim, .inl rfl⟩
    have hfold := hzero.foldl (List.ofFn fun t => ((· ∈ sched.work t), parts t)) (by
      intro e he
      obtain ⟨t, rfl⟩ := (List.mem_ofFn' _ _).mp he
      exact (h t).2)
    rw [List.map_ofFn] at hfold
    refine Solo.ret ⟨rfl, hfold.nonneg, fun v _ => hfold.le v (.inr ?_), hfold.attained⟩
    obtain ⟨t, ht⟩ := sched.exists_mem v
    exact ⟨_, (List.mem_ofFn' _ _).mpr ⟨t, rfl⟩, ht⟩
  · let Inv (pre : List (Fin n)) (x : ℚ) (σ : BcMem n m × Unit) : Prop :=
      σ.1 = s ∧ IsBiggest s.scores (fun v => v ∈ pre) x
    have hstable (pre : List (Fin n)) (x : ℚ) :
        Stable (Rely (fun (_ : Fin T) (σ τ : BcMem n m × Unit) => τ = σ) t) (Inv pre x) := by
      rintro σ _ hσ ⟨_, _, rfl⟩
      exact hσ
    apply WP.forEach Inv ⟨rfl, le_rfl, fun _ hv => by simp at hv, .inl rfl⟩ hstable
    rintro pre v post x σ _ hσ
    apply WP.load_bind (P := Inv pre x) hσ (hstable pre x)
    rintro s₁ γ ⟨hs₁, hx⟩
    obtain rfl : s₁ = s := hs₁
    have hmax := hx.max v
    refine WP.ret ⟨rfl, hmax.nonneg, fun u hu => hmax.le u ?_, hmax.attained⟩ (hstable _ _)
    simpa using hu

/-! ## The whole kernel -/

/-- The loop over the sources. -/
theorem accumulate_solo {T : Nat} [NeZero T] (hg : g.SimpleCsr) (hm : m = g.numEdgesDirected)
    (sources : List (Fin n)) {s : BcMem n m} (hs : s.scores = fun _ => 0) :
    Solo (.forEach sources () fun source _ => brandesIter T g source) s fun _ s' =>
      s'.scores = centrality g sources := by
  have hstart : s.scores = centrality g [] := by
    rw [hs]
    rfl
  apply Solo.forEach (fun pre _ (s' : BcMem n m) => s'.scores = centrality g pre) hstart
  intro pre source post _ s₁ _ hs₁
  apply (brandesIter_solo hg hm s₁).mono
  intro _ s₂ hs₂
  funext v
  rw [hs₂, hs₁, centrality_append]

theorem normalize_solo {T : Nat} [NeZero T] {biggest : ℚ} (hpos : 0 < biggest) (s : BcMem n m) :
    Solo (.parallelFor T n fun v => do
        let score ← .load fun s => s.scores v
        if biggest = 0 then .fail
        else .store fun s => { s with scores := update s.scores v (score / biggest) }) s
      fun _ s' => ∀ v, s'.scores v = s.scores v / biggest := by
  apply (Solo.parallelFor_of_own (fun v s₁ s₂ => ∀ u, u ≠ v → s₂.scores u = s₁.scores u) (fun _ => True)
    (fun v s₁ => s₁.scores v = s.scores v) (fun v s₁ => s₁.scores v = s.scores v / biggest) trivial
    (fun _ => rfl) (fun _ _ _ _ _ => trivial) (fun v u _ _ huv _ hv hown => (hown v huv).trans hv)
    (fun v u _ _ huv _ hv hown => (hown v huv).trans hv) ?_).mono
  · exact fun _ s' h => h.2
  · intro v s₁ _ hs₁
    have hstable (x : ℚ) : Stable (fun σ τ : BcMem n m × Unit => ∃ u, u ≠ v ∧
        ∀ w, w ≠ u → τ.1.scores w = σ.1.scores w) fun σ => σ.1.scores v = x :=
      fun σ τ hσ ⟨u, hu, hown⟩ => (hown v hu.symm).trans hσ
    apply WP.load_bind (P := fun σ => σ.1.scores v = s.scores v) hs₁ (hstable _)
    intro s₂ γ hs₂
    change s₂.scores v = s.scores v at hs₂
    rw [if_neg hpos.ne', hs₂]
    apply WP.store (P := fun _ => True) trivial (fun _ _ _ _ => trivial) fun _ => hstable _
    exact fun s₃ _ _ => ⟨(), .inr fun u hu => update_of_ne hu _ _, update_self ..⟩

theorem brandes_solo {T : Nat} [NeZero T] (hg : g.SimpleCsr) {sources : List (Fin n)}
    (hsources : ∃ source ∈ sources, 0 < g.outDegree source) (s : BcMem n g.numEdgesDirected) :
    Solo (brandes T g sources) s fun r s' => r.1 = centrality g sources ∧ 0 < r.2 ∧
      IsGreatest (Set.range (centrality g sources)) r.2 ∧
      ∀ v, s'.scores v = centrality g sources v / r.2 := by
  apply Solo.bind
  apply (fill_solo BcMem.scoresLens 0 s).mono
  rintro _ _ rfl
  apply Solo.bind
  apply (accumulate_solo hg rfl sources rfl).mono
  intro _ s₁ hs₁
  apply Solo.load_bind
  apply Solo.bind
  apply (biggestScore_solo s₁).mono
  rintro biggest _ ⟨rfl, hbiggest⟩
  rw [hs₁] at hbiggest ⊢
  obtain ⟨source, hsource, hdeg⟩ := hsources
  have hpos : 0 < biggest := (centrality_pos hg hsource hdeg).trans_le (hbiggest.le source trivial)
  apply Solo.bind
  apply (normalize_solo hpos _).mono
  intro _ s₂ hs₂
  refine Solo.ret ⟨rfl, hpos, hbiggest.isGreatest hpos, fun v => ?_⟩
  rw [hs₂ v, hs₁]

end Gapbs
