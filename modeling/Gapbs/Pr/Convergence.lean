import Gapbs.Pr.GaussSeidel

/-!
# The accuracy of the two kernels

One more iteration would leave exactly one vector of scores as it is.  An iteration of `PageRankPull`
brings the residual down by the damping factor, and so does a sweep of `PageRankPullGS`, in spite of the
races in it; the number of iterations that are enough and the distance to the exact scores follow.
-/

namespace Gapbs

open Conc RankFlow

variable {n : ℕ}

/-- The exact scores. -/
def IsPageRank (g : Graph n) (kDamp : ℚ) (p : Fin n → ℚ) : Prop := nextScores g kDamp p = p

/-- What `PRVerifier` compares with the target error. -/
def residualOf (g : Graph n) (kDamp : ℚ) (scores : Fin n → ℚ) : ℚ :=
  change scores (nextScores g kDamp scores)

section Rates

variable {g : Graph n} {kDamp : ℚ}

theorem existsUnique_isPageRank (hg : g.TransposedEdges) (hpos : 0 < kDamp) (hlt : kDamp < 1) :
    ∃! p, IsPageRank g kDamp p :=
  existsUnique_fixed hg hpos.le hlt fun _ => baseScore kDamp n

theorem IsPageRank.change_le (hg : g.TransposedEdges) (hpos : 0 < kDamp) {p : Fin n → ℚ}
    (hp : IsPageRank g kDamp p) (scores : Fin n → ℚ) :
    (1 - kDamp) * change p scores ≤ residualOf g kDamp scores :=
  sumDist_fixed_le hg hpos.le hp scores

theorem residualOf_nextScores_le (hg : g.TransposedEdges) (hpos : 0 < kDamp) (scores : Fin n → ℚ) :
    residualOf g kDamp (nextScores g kDamp scores) ≤ kDamp * residualOf g kDamp scores :=
  change_nextScores_le hg hpos _ _

/-- The first scores and what arrives from them both sum to at most 1. -/
theorem residualOf_init_le (hg : g.TransposedEdges) (hpos : 0 < kDamp) :
    residualOf g kDamp (fun _ => initScore n) ≤ 2 * kDamp := by
  have hproper := properScores_init g
  have hterm (v : Fin n) : |nextScores g kDamp (fun _ => initScore n) v - initScore n| ≤
      kDamp * (incoming g (fun _ => initScore n) v + initScore n) := by
    have hin : 0 ≤ incoming g (fun _ => initScore n) v :=
      inflow_share_nonneg (fun u => g.outNeigh u) (fun u => g.inNeigh u) (fun u => (hproper.pos u).le) v
    have hinit : 0 < initScore n := hproper.pos v
    have hnext : nextScores g kDamp (fun _ => initScore n) v - initScore n =
        kDamp * (incoming g (fun _ => initScore n) v - initScore n) := by
      rw [nextScores, baseScore, initScore]
      ring
    rw [hnext, abs_mul, abs_of_pos hpos]
    exact mul_le_mul_of_nonneg_left (abs_le.mpr ⟨by linarith, by linarith⟩) hpos.le
  have harrives : ∑ v, incoming g (fun _ => initScore n) v ≤ ∑ _v : Fin n, initScore n :=
    sum_inflow_share_le hg fun u => (hproper.pos u).le
  calc residualOf g kDamp (fun _ => initScore n)
      ≤ ∑ v, kDamp * (incoming g (fun _ => initScore n) v + initScore n) :=
        Finset.sum_le_sum fun v _ => hterm v
    _ = kDamp * (∑ v, incoming g (fun _ => initScore n) v + ∑ _v : Fin n, initScore n) := by
        rw [← Finset.mul_sum, Finset.sum_add_distrib]
    _ ≤ kDamp * (1 + 1) := by
        have hsum := hproper.sum_le
        exact mul_le_mul_of_nonneg_left (by linarith) hpos.le
    _ = 2 * kDamp := by ring

theorem Swept.contracts {s m : PrMem n} (h : Swept g kDamp s m) (hg : g.TransposedEdges) (hpos : 0 < kDamp)
    (hlt : kDamp < 1) : residualOf g kDamp m.scores ≤ kDamp * residualOf g kDamp s.scores := by
  obtain ⟨reads, hmixes⟩ := h.mixes
  exact hmixes.residual_le hg hpos.le hlt

theorem Swept.change_le {s m : PrMem n} (h : Swept g kDamp s m) (hg : g.TransposedEdges) (hpos : 0 < kDamp) :
    (1 - kDamp) * change s.scores m.scores ≤ residualOf g kDamp s.scores := by
  obtain ⟨reads, hmixes⟩ := h.mixes
  exact hmixes.change_le hg hpos.le

end Rates

section Runs

variable {g : Graph n} {kDamp epsilon : ℚ} {T : ℕ} [NeZero T]

/-- What is known of the result of a run of either kernel. -/
structure Accurate (g : Graph n) (kDamp : ℚ) (maxIters : ℕ) (epsilon : ℚ) (converged : Bool)
    (scores : Fin n → ℚ) : Prop where
  small : converged = true → residualOf g kDamp scores < kDamp * epsilon
  late : converged = false → residualOf g kDamp scores ≤ 2 * kDamp ^ (maxIters + 1)

theorem pageRankPullGS_solo (hg : g.TransposedEdges) (hpos : 0 < kDamp) (hlt : kDamp < 1) (maxIters : ℕ)
    (epsilon : ℚ) (s : PrMem n) :
    Solo (pageRankPullGS T g kDamp maxIters epsilon) s fun converged m =>
      Accurate g kDamp maxIters epsilon converged m.scores ∧
      (1 ≤ maxIters → 2 * kDamp ^ maxIters < (1 - kDamp) * epsilon → converged = true) := by
  apply Solo.bind
  apply (fillScores_solo s).mono
  intro _ m₀ hm₀
  have hinit : residualOf g kDamp m₀.scores ≤ 2 * kDamp := by
    rw [show m₀.scores = fun _ => initScore n from funext hm₀]
    exact residualOf_init_le hg hpos
  apply Solo.bind
  apply (initContribs_solo hm₀).mono
  rintro _ m₁ ⟨hscores, hfresh⟩
  apply Solo.bind
  apply (Solo.forBreak (fun pre _ m => Fresh g m ∧ residualOf g kDamp m.scores ≤ 2 * kDamp ^ (pre.length + 1) ∧
      (1 ≤ pre.length → (1 - kDamp) * epsilon ≤ 2 * kDamp ^ pre.length))
    (fun _ m => residualOf g kDamp m.scores < kDamp * epsilon) ⟨hfresh, ?_, by simp⟩ ?_).mono
  · rintro (_ | _) m h
    · obtain ⟨-, hres, hslow⟩ := h
      rw [List.length_range] at hres hslow
      exact Solo.ret ⟨⟨by simp, fun _ => hres⟩, fun hiters hrate => absurd (hslow hiters) (not_le.mpr hrate)⟩
    · exact Solo.ret ⟨⟨fun _ => h, by simp⟩, fun _ _ => rfl⟩
  · simpa [hscores] using hinit
  · intro pre i post _ m _ ⟨hm, hres, hslow⟩
    apply Solo.bind
    apply (gaussSeidelSweep_solo hg kDamp hm).mono
    rintro error m' ⟨hswept, rfl⟩
    split
    · next herror =>
      apply Solo.ret
      have hle := hswept.residual_le hg hpos
      exact hle.trans_lt (mul_lt_mul_of_pos_left herror hpos)
    · next herror =>
      have hnext := hswept.contracts hg hpos hlt
      have hchange := hswept.change_le hg hpos
      refine Solo.ret ⟨hswept.fresh, ?_, fun _ => ?_⟩
      · rw [List.length_append, List.length_singleton]
        calc residualOf g kDamp m'.scores ≤ kDamp * (2 * kDamp ^ (pre.length + 1)) :=
              hnext.trans (mul_le_mul_of_nonneg_left hres hpos.le)
          _ = 2 * kDamp ^ (pre.length + 1 + 1) := by ring
      · rw [List.length_append, List.length_singleton]
        have hscaled := mul_le_mul_of_nonneg_left (not_lt.mp herror) (sub_pos.mpr hlt).le
        linarith

/-- The Jacobi iterations are those of the map itself. -/
theorem residualOf_scoresAfter_le (hg : g.TransposedEdges) (hpos : 0 < kDamp) (k : ℕ) :
    residualOf g kDamp (scoresAfter g kDamp k) ≤ 2 * kDamp ^ (k + 1) := by
  induction k with
  | zero =>
    rw [zero_add, pow_one]
    exact residualOf_init_le hg hpos
  | succ k ih =>
    calc residualOf g kDamp (scoresAfter g kDamp (k + 1))
        ≤ kDamp * residualOf g kDamp (scoresAfter g kDamp k) := residualOf_nextScores_le hg hpos _
      _ ≤ kDamp * (2 * kDamp ^ (k + 1)) := mul_le_mul_of_nonneg_left ih hpos.le
      _ = 2 * kDamp ^ (k + 1 + 1) := by ring

theorem pageRankPull_rates (hg : g.TransposedEdges) (hpos : 0 < kDamp) (maxIters : ℕ) (epsilon : ℚ)
    (s : PrMem n) :
    Solo (pageRankPull T g kDamp maxIters epsilon) s fun run m =>
      Accurate g kDamp maxIters epsilon run.converged m.scores ∧
      (1 ≤ maxIters → 2 * kDamp ^ maxIters < epsilon → run.converged = true) := by
  apply Solo.bind
  apply (fillScores_solo s).mono
  intro _ m hm
  apply Solo.bind
  apply (Solo.forBreak (fun pre _ m => m.scores = scoresAfter g kDamp pre.length ∧
      (1 ≤ pre.length → epsilon ≤ 2 * kDamp ^ pre.length))
    (fun _ m => residualOf g kDamp m.scores < kDamp * epsilon) ⟨funext hm, by simp⟩ ?_).mono
  · rintro (history | history) m h
    · obtain ⟨hscores, hslow⟩ := h
      rw [List.length_range] at hscores hslow
      refine Solo.ret ⟨⟨by simp, fun _ => ?_⟩, fun hiters hrate => absurd (hslow hiters) (not_le.mpr hrate)⟩
      rw [hscores]
      exact residualOf_scoresAfter_le hg hpos maxIters
    · exact Solo.ret ⟨⟨fun _ => h, by simp⟩, fun _ _ => rfl⟩
  · intro pre i post history m _ ⟨hscores, hslow⟩
    apply Solo.bind
    apply (jacobiIteration_solo hg kDamp m).mono
    rintro error m' ⟨hnext, herror⟩
    apply Solo.load_bind
    change error = residualOf g kDamp m.scores at herror
    split
    · next hlt =>
      apply Solo.ret
      rw [hnext]
      exact (residualOf_nextScores_le hg hpos _).trans_lt (mul_lt_mul_of_pos_left (herror ▸ hlt) hpos)
    · next hge =>
      have hle := residualOf_scoresAfter_le hg hpos pre.length
      rw [← hscores, ← herror] at hle
      refine Solo.ret ⟨?_, fun _ => ?_⟩
      · rw [hnext, hscores, List.length_append, List.length_singleton]
        rfl
      · rw [List.length_append, List.length_singleton]
        exact (not_lt.mp hge).trans hle

end Runs

/-! ## What the kernels return -/

/-- The scores as estimates of the exact ones. -/
structure Estimates (g : Graph n) (kDamp : ℚ) (maxIters : ℕ) (epsilon : ℚ) (converged : Bool)
    (p scores : Fin n → ℚ) : Prop where
  early : converged = true → (1 - kDamp) * change p scores < kDamp * epsilon
  late : converged = false → (1 - kDamp) * change p scores ≤ 2 * kDamp ^ (maxIters + 1)

theorem Accurate.estimates {g : Graph n} {kDamp epsilon : ℚ} {maxIters : ℕ} {converged : Bool}
    {p scores : Fin n → ℚ} (h : Accurate g kDamp maxIters epsilon converged scores) (hg : g.TransposedEdges)
    (hpos : 0 < kDamp) (hp : IsPageRank g kDamp p) : Estimates g kDamp maxIters epsilon converged p scores where
  early hc := (hp.change_le hg hpos scores).trans_lt (h.small hc)
  late hc := (hp.change_le hg hpos scores).trans (h.late hc)

/-- Whatever its threads see of each other's updates, every sweep of `PageRankPullGS` contracts the
residual and leaves the contributions as the next one needs them; the kernel estimates the exact scores
and leaves its loop early when it is given enough iterations. -/
theorem pageRankPullGS_estimates (T : ℕ) [NeZero T] (g : Graph n) (hg : g.TransposedEdges) (kDamp : ℚ)
    (hpos : 0 < kDamp) (hlt : kDamp < 1) (maxIters : ℕ) (epsilon : ℚ) (s : PrMem n) :
    (∀ t, Fresh g t → (gaussSeidelSweep T g kDamp).Correct t fun _ m =>
      Fresh g m ∧ residualOf g kDamp m.scores ≤ kDamp * residualOf g kDamp t.scores) ∧
    ∃ p, IsPageRank g kDamp p ∧ (∀ q, IsPageRank g kDamp q → q = p) ∧
      (pageRankPullGS T g kDamp maxIters epsilon).Correct s fun converged m =>
        Estimates g kDamp maxIters epsilon converged p m.scores ∧
        (1 ≤ maxIters → 2 * kDamp ^ maxIters < (1 - kDamp) * epsilon → converged = true) := by
  refine ⟨fun t ht => ((gaussSeidelSweep_solo hg kDamp ht).mono ?_).correct, ?_⟩
  · exact fun _ m h => ⟨h.1.fresh, h.1.contracts hg hpos hlt⟩
  · obtain ⟨p, hp, hunique⟩ := existsUnique_isPageRank hg hpos hlt
    refine ⟨p, hp, hunique, ((pageRankPullGS_solo hg hpos hlt maxIters epsilon s).mono ?_).correct⟩
    exact fun converged m h => ⟨h.1.estimates hg hpos hp, h.2⟩

theorem pageRankPullGS_estimates_dangling :
    (∀ t, Fresh danglingGraph t → (gaussSeidelSweep 2 danglingGraph (17 / 20)).Correct t fun _ m =>
      Fresh danglingGraph m ∧
        residualOf danglingGraph (17 / 20) m.scores ≤ 17 / 20 * residualOf danglingGraph (17 / 20) t.scores) ∧
    ∃ p, IsPageRank danglingGraph (17 / 20) p ∧ (∀ q, IsPageRank danglingGraph (17 / 20) q → q = p) ∧
      (pageRankPullGS 2 danglingGraph (17 / 20) 100 (1 / 10000)).Correct ⟨fun _ => 0, fun _ => none⟩
        fun converged m => Estimates danglingGraph (17 / 20) 100 (1 / 10000) converged p m.scores ∧
          (1 ≤ 100 → 2 * (17 / 20) ^ 100 < (1 - 17 / 20) * (1 / 10000 : ℚ) → converged = true) :=
  pageRankPullGS_estimates 2 danglingGraph (by decide) (17 / 20) (by norm_num) (by norm_num) 100 (1 / 10000) _

/-- `PageRankPull` estimates the same scores, and needs fewer iterations to be sure of it. -/
theorem pageRankPull_estimates (T : ℕ) [NeZero T] (g : Graph n) (hg : g.TransposedEdges) (kDamp : ℚ)
    (hpos : 0 < kDamp) (hlt : kDamp < 1) (maxIters : ℕ) (epsilon : ℚ) (s : PrMem n) :
    ∃ p, IsPageRank g kDamp p ∧ (∀ q, IsPageRank g kDamp q → q = p) ∧
      (pageRankPull T g kDamp maxIters epsilon).Correct s fun run m =>
        Estimates g kDamp maxIters epsilon run.converged p m.scores ∧
        (1 ≤ maxIters → 2 * kDamp ^ maxIters < epsilon → run.converged = true) := by
  obtain ⟨p, hp, hunique⟩ := existsUnique_isPageRank hg hpos hlt
  refine ⟨p, hp, hunique, ((pageRankPull_rates hg hpos maxIters epsilon s).mono ?_).correct⟩
  exact fun run m h => ⟨h.1.estimates hg hpos hp, h.2⟩

theorem pageRankPull_estimates_dangling :
    ∃ p, IsPageRank danglingGraph (17 / 20) p ∧ (∀ q, IsPageRank danglingGraph (17 / 20) q → q = p) ∧
      (pageRankPull 2 danglingGraph (17 / 20) 100 (1 / 10000)).Correct ⟨fun _ => 0, fun _ => none⟩
        fun run m => Estimates danglingGraph (17 / 20) 100 (1 / 10000) run.converged p m.scores ∧
          (1 ≤ 100 → 2 * (17 / 20) ^ 100 < (1 / 10000 : ℚ) → run.converged = true) :=
  pageRankPull_estimates 2 danglingGraph (by decide) (17 / 20) (by norm_num) (by norm_num) 100 (1 / 10000) _

/-- The scores of two runs that have converged, one of each kernel, are close to each other. -/
theorem pageRank_agree (T T' : ℕ) [NeZero T] [NeZero T'] (g : Graph n) (hg : g.TransposedEdges) (kDamp : ℚ)
    (hpos : 0 < kDamp) (hlt : kDamp < 1) (maxIters maxIters' : ℕ) (epsilon epsilon' : ℚ) (s : PrMem n) :
    (pageRankPullGS T g kDamp maxIters epsilon).Correct s fun converged m => converged = true →
      ∀ s', (pageRankPull T' g kDamp maxIters' epsilon').Correct s' fun run m' => run.converged = true →
        (1 - kDamp) * change m.scores m'.scores < kDamp * (epsilon + epsilon') := by
  apply ((pageRankPullGS_solo hg hpos hlt maxIters epsilon s).mono ?_).correct
  rintro converged m ⟨hgs, -⟩ hc s'
  apply ((pageRankPull_rates hg hpos maxIters' epsilon' s').mono ?_).correct
  rintro run m' ⟨hjacobi, -⟩ hc'
  have hdist := sumDist_le_residuals (fun _ => baseScore kDamp n) hg hpos.le m.scores m'.scores
  have hfirst := hgs.small hc
  have hsecond := hjacobi.small hc'
  change (1 - kDamp) * change m.scores m'.scores ≤ residualOf g kDamp m.scores + residualOf g kDamp m'.scores
    at hdist
  linarith

theorem pageRank_agree_dangling :
    (pageRankPullGS 2 danglingGraph (17 / 20) 100 (1 / 10000)).Correct ⟨fun _ => 0, fun _ => none⟩
      fun converged m => converged = true →
        ∀ s', (pageRankPull 3 danglingGraph (17 / 20) 100 (1 / 10000)).Correct s' fun run m' =>
          run.converged = true →
            (1 - 17 / 20) * change m.scores m'.scores < 17 / 20 * (1 / 10000 + 1 / 10000) :=
  pageRank_agree 2 3 danglingGraph (by decide) (17 / 20) (by norm_num) (by norm_num) 100 100 (1 / 10000)
    (1 / 10000) _

end Gapbs
