import Mathlib.Tactic.NormNum
import Gapbs.Lib.DampedFlow
import Gapbs.Pr.Sweep

/-!
# `PageRankPull`

Every iteration computes all contributions before it replaces any score, so it is one application of
a linear map, and that map is a contraction.
-/

namespace Gapbs

open Conc RankFlow

variable {n : ℕ}

/-- One iteration; it returns the error. -/
def jacobiIteration (T : ℕ) [NeZero T] (g : Graph n) (kDamp : ℚ) : Prog (PrMem n) ℚ := do
  .parallelFor T n (writeContrib g)
  .parallelSum T n fun u error => do
    let total ← incomingTotal g (fun v => .loadAt fun m => m.outgoingContrib v) u
    updateScore kDamp u total error

/-- A run as its caller sees it: whether it left the loop because the error was small, and for each
iteration the error that is printed and the scores it ended with. -/
structure PrRun (n : ℕ) where
  converged : Bool
  history : List (ℚ × (Fin n → ℚ))

def pageRankPull (T : ℕ) [NeZero T] (g : Graph n) (kDamp : ℚ) (maxIters : ℕ) (epsilon : ℚ) :
    Prog (PrMem n) (PrRun n) := do
  fillScores T n
  let run ← .forBreak (List.range maxIters) [] fun _ history => do
    let error ← jacobiIteration T g kDamp
    let scores ← .load PrMem.scores
    if error < epsilon then
      return .inr (history ++ [(error, scores)])
    return .inl (history ++ [(error, scores)])
  match run with
  | .inl history => return ⟨false, history⟩
  | .inr history => return ⟨true, history⟩

/-! ## The map -/

/-- What one iteration makes of the scores. -/
def nextScores (g : Graph n) (kDamp : ℚ) (scores : Fin n → ℚ) (v : Fin n) : ℚ :=
  baseScore kDamp n + kDamp * incoming g scores v

/-- The total change from one vector of scores to another. -/
def change (old new : Fin n → ℚ) : ℚ := sumDist old new

theorem change_nonneg (old new : Fin n → ℚ) : 0 ≤ change old new := sumDist_nonneg old new

section Map

variable {g : Graph n} {kDamp : ℚ}

/-- An iteration is a damped flow. -/
theorem nextScores_eq_damped (scores : Fin n → ℚ) : nextScores g kDamp scores =
    damped (fun u => g.outNeigh u) (fun v => g.inNeigh v) (fun _ => baseScore kDamp n) kDamp scores := rfl

theorem change_nextScores_le (hg : g.TransposedEdges) (hpos : 0 < kDamp) (a b : Fin n → ℚ) :
    change (nextScores g kDamp a) (nextScores g kDamp b) ≤ kDamp * change a b := by
  rw [nextScores_eq_damped, nextScores_eq_damped]
  exact sumDist_damped_le _ hg hpos.le a b

/-- The verifier applies the map once more. -/
theorem prVerifier_eq_change (hg : g.TransposedEdges) (scores : Fin n → ℚ) (targetError : ℚ) :
    prVerifier g kDamp scores targetError =
      some (decide (change scores (nextScores g kDamp scores) < targetError)) :=
  prVerifier_eq hg kDamp scores targetError

theorem baseScore_pos (hlt : kDamp < 1) (v : Fin n) : 0 < baseScore kDamp n := by
  have hn : 0 < n := v.pos
  exact div_pos (sub_pos.mpr hlt) (Nat.cast_pos.mpr hn)

theorem nextScores_pos (hpos : 0 < kDamp) (hlt : kDamp < 1) {scores : Fin n → ℚ}
    (h : ∀ v, 0 < scores v) (v : Fin n) : 0 < nextScores g kDamp scores v := by
  have hin := inflow_share_nonneg (fun u => g.outNeigh u) (fun u => g.inNeigh u) (fun u => (h u).le) v
  exact add_pos_of_pos_of_nonneg (baseScore_pos hlt v) (mul_nonneg hpos.le hin)

theorem sum_nextScores (g : Graph n) (kDamp : ℚ) (hn : 0 < n) (scores : Fin n → ℚ) :
    ∑ v, nextScores g kDamp scores v = 1 - kDamp + kDamp * ∑ v, incoming g scores v := by
  have hne : (n : ℚ) ≠ 0 := Nat.cast_ne_zero.mpr hn.ne'
  simp only [nextScores, Finset.sum_add_distrib, ← Finset.mul_sum, Finset.sum_const, Finset.card_univ,
    Fintype.card_fin, nsmul_eq_mul, baseScore]
  rw [mul_div_cancel₀ _ hne]

/-- What is promised of the scores after every iteration. -/
structure ProperScores (g : Graph n) (scores : Fin n → ℚ) : Prop where
  pos : ∀ v, 0 < scores v
  sum_le : ∑ v, scores v ≤ 1
  sum_eq : 0 < n → (∀ v, g.outDegree v ≠ 0) → ∑ v, scores v = 1

theorem properScores_init (g : Graph n) : ProperScores g fun _ => initScore n := by
  have hsum : 0 < n → ∑ _v : Fin n, initScore n = 1 := by
    intro hn
    have hne : (n : ℚ) ≠ 0 := Nat.cast_ne_zero.mpr hn.ne'
    rw [Finset.sum_const, Finset.card_univ, Fintype.card_fin, nsmul_eq_mul, initScore,
      mul_one_div_cancel hne]
  refine ⟨fun v => ?_, ?_, fun hn _ => hsum hn⟩
  · exact one_div_pos.mpr (Nat.cast_pos.mpr v.pos)
  · rcases Nat.eq_zero_or_pos n with rfl | hn
    · simp
    · exact (hsum hn).le

theorem ProperScores.next (hg : g.TransposedEdges) (hpos : 0 < kDamp) (hlt : kDamp < 1)
    {scores : Fin n → ℚ} (h : ProperScores g scores) : ProperScores g (nextScores g kDamp scores) where
  pos := nextScores_pos hpos hlt h.pos
  sum_le := by
    rcases Nat.eq_zero_or_pos n with rfl | hn
    · simp
    · have hin := sum_inflow_share_le hg fun u => (h.pos u).le
      have hdamped := mul_le_mul_of_nonneg_left (hin.trans h.sum_le) hpos.le
      rw [sum_nextScores g kDamp hn]
      change 1 - kDamp + kDamp * ∑ v, RankFlow.inflow _ (RankFlow.share _ scores) v ≤ 1
      linarith
  sum_eq hn hdeg := by
    have hout (u : Fin n) : g.outNeigh u ≠ [] := by
      intro hnil
      apply hdeg u
      rw [← g.length_outNeigh, hnil, List.length_nil]
    have hin := sum_inflow_share hg scores hout
    rw [sum_nextScores g kDamp hn]
    change 1 - kDamp + kDamp * ∑ v, RankFlow.inflow _ (RankFlow.share _ scores) v = 1
    rw [hin, h.sum_eq hn hdeg]
    ring

end Map

/-! ## The iterations -/

/-- The scores after `k` iterations. -/
def scoresAfter (g : Graph n) (kDamp : ℚ) : ℕ → Fin n → ℚ
  | 0 => fun _ => initScore n
  | k + 1 => nextScores g kDamp (scoresAfter g kDamp k)

/-- The error of iteration `k` and the scores it ends with. -/
def iterationOf (g : Graph n) (kDamp : ℚ) (k : ℕ) : ℚ × (Fin n → ℚ) :=
  (change (scoresAfter g kDamp k) (scoresAfter g kDamp (k + 1)), scoresAfter g kDamp (k + 1))

theorem properScores_scoresAfter {g : Graph n} (hg : g.TransposedEdges) {kDamp : ℚ} (hpos : 0 < kDamp)
    (hlt : kDamp < 1) (k : ℕ) : ProperScores g (scoresAfter g kDamp k) := by
  induction k with
  | zero => exact properScores_init g
  | succ k ih => exact ih.next hg hpos hlt

/-- What an iteration of the first loop may do: write the contribution of `j`. -/
def ContribStep (j : Fin n) (m m' : PrMem n) : Prop :=
  m'.scores = m.scores ∧ ∀ k, k ≠ j → m'.outgoingContrib k = m.outgoingContrib k

/-- What an iteration of the second loop may do: write the score of `j`. -/
def ScoreStep (j : Fin n) (m m' : PrMem n) : Prop :=
  m'.outgoingContrib = m.outgoingContrib ∧ ∀ k, k ≠ j → m'.scores k = m.scores k

theorem writeContribs_solo {T : ℕ} [NeZero T] (g : Graph n) (s : PrMem n) :
    Solo (.parallelFor T n (writeContrib g)) s fun _ m => m.scores = s.scores ∧
      ∀ v, m.outgoingContrib v = quotient (s.scores v) (g.outDegree v) := by
  let Scores (m : PrMem n) : Prop := m.scores = s.scores
  let Written (v : Fin n) (m : PrMem n) : Prop :=
    m.outgoingContrib v = quotient (s.scores v) (g.outDegree v)
  have hscores (i j : Fin n) (_ : j ≠ i) (m m' : PrMem n) (hm : Scores m) (h : ContribStep j m m') :
      Scores m' := h.1.trans hm
  have hwritten (i j : Fin n) (hji : j ≠ i) (m m' : PrMem n) (hm : Written i m)
      (h : ContribStep j m m') : Written i m' := (h.2 i hji.symm).trans hm
  apply Solo.parallelFor_of_own ContribStep Scores (fun _ _ => True) Written rfl (fun _ => trivial)
    (fun _ _ _ hm h => h.1.trans hm) (fun _ _ _ _ _ _ _ _ => trivial)
    (fun i j m m' hij _ hm h => hwritten i j hij.symm m m' hm h)
  intro i m hm _
  apply WP.load_bind (P := fun σ => Scores σ.1) hm (stable_others (hscores i))
  intro m _ hm
  have hm : m.scores = s.scores := hm
  rw [hm]
  apply WP.store (P := fun σ => Scores σ.1) hm (stable_others (hscores i))
    (fun _ => stable_others (hwritten i))
  intro m _ _
  exact ⟨(), .inr ⟨rfl, fun k hk => m.setContrib_of_ne hk _⟩, m.setContrib_self i _⟩

/-- The second loop, from contributions that are those of the scores. -/
theorem updateScores_solo {T : ℕ} [NeZero T] {g : Graph n} (hg : g.TransposedEdges) (kDamp : ℚ)
    (s : PrMem n) (hs : ∀ v, s.outgoingContrib v = quotient (s.scores v) (g.outDegree v)) :
    Solo (.parallelSum T n fun u error => do
      let total ← incomingTotal g (fun v => .loadAt fun m => m.outgoingContrib v) u
      updateScore kDamp u total error) s fun error m => m.scores = nextScores g kDamp s.scores ∧
      error = change s.scores (nextScores g kDamp s.scores) := by
  let Contribs (m : PrMem n) : Prop := m.outgoingContrib = s.outgoingContrib
  let Old (u : Fin n) (m : PrMem n) : Prop := m.scores u = s.scores u
  let New (u : Fin n) (m : PrMem n) : Prop := m.scores u = nextScores g kDamp s.scores u
  let Changed (u : Fin n) (x : ℚ) (m : PrMem n) : Prop :=
    New u m ∧ x = |nextScores g kDamp s.scores u - s.scores u|
  have hsep (val : Fin n → ℚ) : Separate ScoreStep Contribs Old fun u => Changed u (val u) := by
    refine ⟨fun _ _ _ hm h => h.1.trans hm, fun u j _ _ hj _ hm h => (h.2 u hj).trans hm, ?_⟩
    exact fun u j _ _ hj _ hm h => ⟨(h.2 u hj).trans hm.1, hm.2⟩
  apply (Solo.parallelSum ScoreStep Contribs Old hsep rfl (fun _ => rfl) ?_).mono
  · rintro error m ⟨val, herror, -, hpost⟩
    refine ⟨funext fun u => (hpost u).1, herror.trans ?_⟩
    exact Finset.sum_congr rfl fun u _ => (hpost u).2
  · intro u error m hm hold
    have hbefore : ∀ j, j ≠ u → ∀ m m', Contribs m ∧ Old u m → ScoreStep j m m' → Contribs m' ∧ Old u m' :=
      fun j hj m m' h hown => ⟨hown.1.trans h.1, (hown.2 u hj.symm).trans h.2⟩
    apply WP.bind
    apply (incomingTotal_wp (fun σ => Contribs σ.1 ∧ Old u σ.1) (fun v c _ => contrib g s.scores v = c)
      ⟨hm, hold⟩ (stable_others hbefore) (fun _ _ _ _ _ h _ => h) ?_).mono
    · rintro total ⟨m, ⟨⟩⟩ ⟨hm, reads, rfl, hreads⟩
      have hmap : (g.inNeigh u).map (contrib g s.scores) = reads := by
        rw [← List.forall₂_eq_eq_eq, List.forall₂_map_left_iff]
        exact hreads
      have hnext : baseScore kDamp n + kDamp * reads.sum = nextScores g kDamp s.scores u := by
        rw [← hmap]
        rfl
      have hafter : ∀ j, j ≠ u → ∀ m m', New u m → ScoreStep j m m' → New u m' :=
        fun j hj m m' h hown => (hown.2 u hj.symm).trans h
      apply (updateScore_wp (fun σ => Contribs σ.1 ∧ Old u σ.1) (fun σ => New u σ.1) hm
        (stable_others hbefore) (stable_others hafter) (fun _ h => h.2) (fun _ h => h.trans hnext.symm)
        ?_).mono
      · rintro y σ ⟨rfl, hnew⟩
        exact ⟨_, rfl, hnew, by rw [hnext]⟩
      · intro m _ _
        rw [hnext]
        exact ⟨(), ⟨rfl, fun k hk => m.setScore_of_ne hk _⟩, m.setScore_self u _⟩
    · intro v σ hv hσ
      have hstable : Stable (Γ := Unit) (fun σ τ => ∃ j, j ≠ u ∧ ScoreStep j σ.1 τ.1)
          fun σ => Contribs σ.1 ∧ Old u σ.1 := stable_others hbefore
      apply WP.op hσ hstable fun c => hstable.and fun _ _ h _ => h
      intro m _ hm
      -- the edge from `v` to `u` makes the out-degree of `v` positive
      have hread : m.outgoingContrib v = some (contrib g s.scores v) := by
        rw [hm.1, hs, quotient_of_edge (hg.edge hv)]
      exact ⟨_, m, (), by simp [hread], .inl rfl, hm, rfl⟩

theorem jacobiIteration_solo {T : ℕ} [NeZero T] {g : Graph n} (hg : g.TransposedEdges) (kDamp : ℚ)
    (s : PrMem n) : Solo (jacobiIteration T g kDamp) s fun error m =>
      m.scores = nextScores g kDamp s.scores ∧
        error = change s.scores (nextScores g kDamp s.scores) := by
  apply Solo.bind
  apply (writeContribs_solo g s).mono
  rintro - m ⟨hscores, hcontrib⟩
  rw [← hscores] at hcontrib ⊢
  exact updateScores_solo hg kDamp m hcontrib

/-- What a run returns after `k` iterations. -/
structure RanFor (g : Graph n) (kDamp : ℚ) (k : ℕ) (history : List (ℚ × (Fin n → ℚ))) (m : PrMem n) :
    Prop where
  history : history = (List.range k).map (iterationOf g kDamp)
  scores : m.scores = scoresAfter g kDamp k

theorem RanFor.next {g : Graph n} {kDamp : ℚ} {k : ℕ} {history : List (ℚ × (Fin n → ℚ))}
    {m m' : PrMem n} {error : ℚ} (h : RanFor g kDamp k history m)
    (hscores : m'.scores = nextScores g kDamp m.scores)
    (herror : error = change m.scores (nextScores g kDamp m.scores)) :
    RanFor g kDamp (k + 1) (history ++ [(error, m'.scores)]) m' := by
  rw [h.scores] at hscores herror
  refine ⟨?_, hscores⟩
  rw [h.history, List.range_succ, List.map_append, hscores, herror]
  rfl

theorem pageRankPull_solo {T : ℕ} [NeZero T] {g : Graph n} (hg : g.TransposedEdges) (kDamp : ℚ)
    (maxIters : ℕ) (epsilon : ℚ) (s : PrMem n) :
    Solo (pageRankPull T g kDamp maxIters epsilon) s fun run m => ∃ k, RanFor g kDamp k run.history m ∧
      (run.converged = true → ∃ j, k = j + 1 ∧ (iterationOf g kDamp j).1 < epsilon) ∧
      (run.converged = false → k = maxIters) := by
  apply Solo.bind
  apply (fillScores_solo s).mono
  intro _ m hm
  apply Solo.bind
  apply (Solo.forBreak (fun pre history m => RanFor g kDamp pre.length history m)
    (fun history m => ∃ j, RanFor g kDamp (j + 1) history m ∧ (iterationOf g kDamp j).1 < epsilon)
    ⟨rfl, funext hm⟩ ?_).mono
  · rintro (history | history) m h
    · exact Solo.ret ⟨_, h, nofun, fun _ => List.length_range⟩
    · obtain ⟨j, hran, herror⟩ := h
      exact Solo.ret ⟨_, hran, fun _ => ⟨j, rfl, herror⟩, nofun⟩
  · intro pre i post history m _ hran
    apply Solo.bind
    apply (jacobiIteration_solo hg kDamp m).mono
    rintro error m' ⟨hscores, herror⟩
    have hnext := hran.next hscores herror
    apply Solo.load_bind
    split
    · next hlt =>
      rw [herror, hran.scores] at hlt
      exact Solo.ret ⟨pre.length, hnext, hlt⟩
    · apply Solo.ret
      rw [List.length_append, List.length_singleton]
      exact hnext

/-- The errors fall by the damping factor, the scores stay positive and do not sum to more than 1 (to
exactly 1 when no vertex is dangling and there is one at all), and a run that leaves its loop because
of the error is accepted. -/
theorem pageRankPull_correct (T : ℕ) [NeZero T] (g : Graph n) (hg : g.TransposedEdges) (kDamp : ℚ)
    (hpos : 0 < kDamp) (hlt : kDamp < 1) (maxIters : ℕ) (epsilon : ℚ) (s : PrMem n) :
    (pageRankPull T g kDamp maxIters epsilon).Correct s fun run m =>
      (∀ k (hk : k + 1 < run.history.length), run.history[k + 1].1 ≤ kDamp * run.history[k].1) ∧
      (∀ iteration ∈ run.history, ProperScores g iteration.2) ∧
      (run.converged = true → prVerifier g kDamp m.scores epsilon = some true) := by
  apply ((pageRankPull_solo hg kDamp maxIters epsilon s).mono _).correct
  rintro run m ⟨k, hran, hconverged, -⟩
  refine ⟨fun i hi => ?_, fun iteration hi => ?_, fun hc => ?_⟩
  · simp only [hran.history, List.getElem_map, List.getElem_range]
    exact change_nextScores_le hg hpos _ _
  · rw [hran.history] at hi
    obtain ⟨i, -, rfl⟩ := List.mem_map.mp hi
    exact properScores_scoresAfter hg hpos hlt (i + 1)
  · obtain ⟨j, rfl, herror⟩ := hconverged hc
    rw [prVerifier_eq_change hg, hran.scores, Option.some_inj, decide_eq_true_iff]
    have hnonneg : 0 ≤ (iterationOf g kDamp j).1 := change_nonneg _ _
    calc change (scoresAfter g kDamp (j + 1)) (nextScores g kDamp (scoresAfter g kDamp (j + 1)))
        ≤ kDamp * (iterationOf g kDamp j).1 := change_nextScores_le hg hpos _ _
      _ ≤ (iterationOf g kDamp j).1 := mul_le_of_le_one_left hnonneg hlt.le
      _ < epsilon := herror

theorem pageRankPull_correct_dangling :
    (pageRankPull 2 danglingGraph (17 / 20) 20 (1 / 10000)).Correct ⟨fun _ => 0, fun _ => none⟩
      fun run m =>
        (∀ k (hk : k + 1 < run.history.length), run.history[k + 1].1 ≤ 17 / 20 * run.history[k].1) ∧
        (∀ iteration ∈ run.history, ProperScores danglingGraph iteration.2) ∧
        (run.converged = true → prVerifier danglingGraph (17 / 20) m.scores (1 / 10000) = some true) :=
  pageRankPull_correct 2 danglingGraph (by decide) (17 / 20) (by norm_num) (by norm_num) 20 (1 / 10000) _

/-- The graph without vertices. -/
def noVertices : Graph 0 :=
  .ofUndirected
    { index := ![0]
      neighbors := []
      index_zero := rfl
      index_mono := by decide
      index_last := rfl } (by decide)

/-- No vertex of this graph is dangling, and its scores sum to 0. -/
theorem pageRankPull_noVertices :
    ¬ (pageRankPull 1 noVertices (17 / 20) 1 0).Correct ⟨fun _ => 0, fun _ => none⟩ fun run _ =>
      ∀ iteration ∈ run.history, (∀ v, noVertices.outDegree v ≠ 0) → ∑ v, iteration.2 v = 1 := by
  intro h
  have hsolo := (pageRankPull_solo (T := 1) (g := noVertices) (fun u => u.elim0) (17 / 20) 1 0
    ⟨fun _ => 0, fun _ => none⟩).correct
  obtain ⟨run, m, hrun⟩ := h.returns .refl
  have hsum := h.result run m hrun
  obtain ⟨k, hran, hconverged, hlast⟩ := hsolo.result run m hrun
  have hk : 0 < k := by
    cases hc : run.converged with
    | true =>
      obtain ⟨j, rfl, -⟩ := hconverged hc
      exact Nat.succ_pos j
    | false => exact (hlast hc).ge
  have hmem : iterationOf noVertices (17 / 20) 0 ∈ run.history := by
    rw [hran.history]
    exact List.mem_map.mpr ⟨0, List.mem_range.mpr hk, rfl⟩
  have hone := hsum _ hmem fun v => v.elim0
  simp at hone

end Gapbs
