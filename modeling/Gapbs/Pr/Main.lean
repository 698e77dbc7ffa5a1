import Gapbs.Bench.Benchmark
import Gapbs.Bench.TopScores
import Gapbs.Pr.Convergence

/-!
# The programs `pr` and `pr_spmv`

The verifier is given the tolerance of the kernel.  A kernel that stops because of its iterations need
not pass, unless these are enough to bring the residual below the tolerance anyway.
-/

namespace Gapbs

open Conc RankFlow Bench

variable {n : ℕ}

/-- The options of `CLPageRank` besides those of `CLApp`. -/
structure CLPageRank extends CLApp where
  maxIters : ℤ
  tolerance : ℚ

/-- `PRBound` of `pr` -/
def prKernel (T : ℕ) [NeZero T] (cli : CLPageRank) (g : Graph n) (kDamp : ℚ) : Prog (PrMem n) (Fin n → ℚ) := do
  let _ ← pageRankPullGS T g kDamp cli.maxIters.toNat cli.tolerance
  .load PrMem.scores

/-- `PRBound` of `pr_spmv` -/
def prSpmvKernel (T : ℕ) [NeZero T] (cli : CLPageRank) (g : Graph n) (kDamp : ℚ) :
    Prog (PrMem n) (Fin n → ℚ) := do
  let _ ← pageRankPull T g kDamp cli.maxIters.toNat cli.tolerance
  .load PrMem.scores

/-- The rest of `main`, which the two programs share. -/
def prTrials {E : Type} (cli : CLPageRank) (g : Graph n) (kDamp : ℚ) (kernel : Prog (PrMem n) (Fin n → ℚ)) :
    Prog (TrialMem E (PrMem n) Unit) (List (Line (List (ℚ ×ₗ Fin n)))) :=
  benchmarkKernel cli.toCLApp (onNew TrialMem.workLens id kernel)
    (fun scores => .loadAt fun _ => printTopScores scores)
    fun scores => onNew TrialMem.checkLens id (.loadAt fun _ => prVerifier g kDamp scores cli.tolerance)

def prMain {E : Type} (T : ℕ) [NeZero T] (cli : CLPageRank) (g : Graph n) (kDamp : ℚ) :
    Prog (TrialMem E (PrMem n) Unit) (List (Line (List (ℚ ×ₗ Fin n)))) :=
  prTrials cli g kDamp (prKernel T cli g kDamp)

def prSpmvMain {E : Type} (T : ℕ) [NeZero T] (cli : CLPageRank) (g : Graph n) (kDamp : ℚ) :
    Prog (TrialMem E (PrMem n) Unit) (List (Line (List (ℚ ×ₗ Fin n)))) :=
  prTrials cli g kDamp (prSpmvKernel T cli g kDamp)

/-! ## The runs of the programs -/

section Runs

variable {g : Graph n} {kDamp : ℚ}

theorem Accurate.lt_of_enough {maxIters : ℕ} {epsilon : ℚ} {converged : Bool} {scores : Fin n → ℚ}
    (h : Accurate g kDamp maxIters epsilon converged scores) (hpos : 0 < kDamp) (hlt : kDamp < 1)
    (henough : 2 * kDamp ^ (maxIters + 1) < epsilon) : residualOf g kDamp scores < epsilon := by
  have hepsilon : 0 < epsilon := lt_trans (by positivity) henough
  cases hc : converged with
  | true => exact (h.small hc).trans (mul_lt_of_lt_one_left hepsilon hlt)
  | false => exact (h.late hc).trans_lt henough

theorem prTrials_solo {E : Type} {cli : CLPageRank} {kernel : Prog (PrMem n) (Fin n → ℚ)}
    (hg : g.TransposedEdges) (hpos : 0 < kDamp) {p : Fin n → ℚ} (hp : IsPageRank g kDamp p)
    (hkernel : ∀ m, Solo kernel m fun scores _ => residualOf g kDamp scores < cli.tolerance)
    (s : TrialMem E (PrMem n) Unit) :
    Solo (prTrials cli g kDamp kernel) s fun printed _ => AllPassed cli.toCLApp (fun top => ∃ scores,
      (1 - kDamp) * change p scores < cli.tolerance ∧ Ranks 5 (scorePairs scores) top) printed := by
  apply plain_solo (fun scores => residualOf g kDamp scores < cli.tolerance) hkernel
  · intro scores s hscores
    obtain ⟨top, htop, hranks⟩ := printTopScores_ranks scores
    exact Solo.loadAt htop ⟨⟨scores, (hp.change_le hg hpos scores).trans_lt hscores, hranks⟩, rfl⟩
  · intro scores s hscores
    refine Solo.loadAt (a := true) ?_ rfl
    rw [prVerifier_eq_change hg, Option.some_inj, decide_eq_true_iff]
    exact hscores

theorem prMain_solo {T : ℕ} [NeZero T] (hg : g.TransposedEdges) (hpos : 0 < kDamp) (hlt : kDamp < 1)
    {cli : CLPageRank} (henough : 2 * kDamp ^ (cli.maxIters.toNat + 1) < cli.tolerance) {p : Fin n → ℚ}
    (hp : IsPageRank g kDamp p) (s : TrialMem Unit (PrMem n) Unit) :
    Solo (prMain T cli g kDamp) s fun printed _ => AllPassed cli.toCLApp (fun top => ∃ scores,
      (1 - kDamp) * change p scores < cli.tolerance ∧ Ranks 5 (scorePairs scores) top) printed := by
  apply prTrials_solo hg hpos hp
  intro m
  apply Solo.bind
  apply (pageRankPullGS_solo hg hpos hlt cli.maxIters.toNat cli.tolerance m).mono
  rintro converged m' ⟨haccurate, -⟩
  exact Solo.op rfl (haccurate.lt_of_enough hpos hlt henough)

theorem prSpmvMain_solo {T : ℕ} [NeZero T] (hg : g.TransposedEdges) (hpos : 0 < kDamp) (hlt : kDamp < 1)
    {cli : CLPageRank} (henough : 2 * kDamp ^ (cli.maxIters.toNat + 1) < cli.tolerance) {p : Fin n → ℚ}
    (hp : IsPageRank g kDamp p) (s : TrialMem Unit (PrMem n) Unit) :
    Solo (prSpmvMain T cli g kDamp) s fun printed _ => AllPassed cli.toCLApp (fun top => ∃ scores,
      (1 - kDamp) * change p scores < cli.tolerance ∧ Ranks 5 (scorePairs scores) top) printed := by
  apply prTrials_solo hg hpos hp
  intro m
  apply Solo.bind
  apply (pageRankPull_rates hg hpos cli.maxIters.toNat cli.tolerance m).mono
  rintro run m' ⟨haccurate, -⟩
  exact Solo.op rfl (haccurate.lt_of_enough hpos hlt henough)

end Runs

end Gapbs
