import Gapbs.Bc.Verifier
import Gapbs.Bench.Benchmark
import Gapbs.Bench.TopScores

/-!
# The program `bc`

A trial runs `num_iters` iterations, each from a source of its own.  The verifier goes through the same
sources in the same order, because its picker has been asked as often as that of the kernel.
-/

namespace Gapbs

open Conc Gen Bench

variable {n : Nat}

/-- The sources of the iterations that are left. -/
def pickSources (sp : SourcePicker n) : Nat → sp.rng.State → Fueled (Option (List (Fin n)) × sp.rng.State)
  | 0, s => pure (some [], s)
  | k + 1, s => do
    let (source, s) ← sp.pickNext s
    match source with
    | none => return (none, s)
    | some source => do
      let (sources, s) ← pickSources sp k s
      return (sources.map (source :: ·), s)

/-- `Brandes` returns the scores. -/
def bcKernel (T : Nat) [NeZero T] (g : Graph n) (sources : List (Fin n)) :
    Prog (BcMem n g.numEdgesDirected) (Fin n → ℚ) := do
  let _ ← brandes T g sources
  .load fun s => s.scores

/-- `main`, from the first picker on. -/
def bcMain (T : Nat) [NeZero T] (cli : CLApp) (numIters : Int) (g : Graph n) (rng : RandomEngine) :
    Prog (TrialMem rng.State (BcMem n g.numEdgesDirected) (BcVerifierMem n)) (List (Line (List (ℚ ×ₗ Fin n)))) :=
  let sp : SourcePicker n := ⟨toNodeID cli.startVertex, rng, g.outDegree⟩
  searchMain sp cli (pickSources sp numIters.toNat) id (bcKernel T g)
    (fun scores => .loadAt fun _ => printTopScores scores) (bcVerifier g)

/-! ## The runs of the program -/

theorem pickSources_returns {sp : SourcePicker n} (h : sp.Usable) (k j : Nat) :
    ∃ sources i, (pickSources sp k (sp.rng.after kRandSeed j)).Returns (some sources, sp.rng.after kRandSeed i) ∧
      sources.length = k ∧ ∀ source ∈ sources, sp.MayPick source := by
  induction k generalizing j with
  | zero => exact ⟨[], j, Fueled.returns_pure.mpr rfl, rfl, by simp⟩
  | succ k ih =>
    obtain ⟨source, i, hpick, hsource⟩ := h.pickNext_returns j
    obtain ⟨sources, i', hrest, hlength, hsources⟩ := ih i
    refine ⟨source :: sources, i', ?_, by rw [List.length_cons, hlength], ?_⟩
    · rw [pickSources, hpick.bind_iff]
      simp only
      rw [hrest.bind_iff]
      exact Fueled.returns_pure.mpr rfl
    · exact List.forall_mem_cons.mpr ⟨hsource, hsources⟩

/-- The scores of `sources`, divided by the biggest of them. -/
def Normalised (g : Graph n) (sources : List (Fin n)) (scores : Fin n → ℚ) : Prop :=
  ∃ biggest, 0 < biggest ∧ IsGreatest (Set.range (centrality g sources)) biggest ∧
    ∀ v, scores v = centrality g sources v / biggest

theorem bcMain_solo {g : Graph n} (hg : g.SimpleCsr) {T : Nat} [NeZero T] {cli : CLApp} {numIters : Int}
    (hiters : 1 ≤ numIters) {rng : RandomEngine}
    (hsp : SourcePicker.Usable ⟨toNodeID cli.startVertex, rng, g.outDegree⟩)
    (hdeg : ∀ v, SourcePicker.MayPick ⟨toNodeID cli.startVertex, rng, g.outDegree⟩ v → 0 < g.outDegree v)
    (s₀ : TrialMem rng.State (BcMem n g.numEdgesDirected) (BcVerifierMem n)) :
    Solo (bcMain T cli numIters g rng) s₀ fun printed _ => AllPassed cli (fun top => ∃ sources scores,
      (sources.length : Int) = numIters ∧
      (∀ source ∈ sources, SourcePicker.MayPick ⟨toNodeID cli.startVertex, rng, g.outDegree⟩ source) ∧
      Normalised g sources scores ∧ Ranks 5 (scorePairs scores) top) printed := by
  apply searchMain_solo (fun sources => sources.length = numIters.toNat ∧ ∀ source ∈ sources,
    SourcePicker.MayPick ⟨toNodeID cli.startVertex, rng, g.outDegree⟩ source) (Normalised g)
    (pickSources_returns hsp numIters.toNat)
  · rintro sources s ⟨hlength, hpicked⟩
    have hsome : ∃ source ∈ sources, 0 < g.outDegree source := by
      cases sources with
      | nil =>
        rw [List.length_nil] at hlength
        omega
      | cons source _ => exact ⟨source, by simp, hdeg source (hpicked source (by simp))⟩
    apply Solo.bind
    apply (brandes_solo hg hsome s).mono
    rintro ⟨_, biggest⟩ s' ⟨-, hpos, hgreatest, hscores⟩
    exact Solo.op rfl ⟨biggest, hpos, hgreatest, hscores⟩
  · rintro sources scores s ⟨hlength, hpicked⟩ hscores
    obtain ⟨top, htop, hranks⟩ := printTopScores_ranks scores
    exact Solo.loadAt htop ⟨⟨sources, scores, by omega, hpicked, hscores, hranks⟩, rfl⟩
  · rintro sources scores s - ⟨biggest, hpos, hgreatest, hscores⟩
    exact (bcVerifier_solo hg hpos hgreatest hscores s).mono fun _ _ h => h.1

/-- Every trial passes, and `-a` prints the five best of the scores for sources that may have been
picked. -/
theorem bcMain_correct {n : Nat} (g : Graph n) (hg : g.SimpleCsr) (T : Nat) [NeZero T] (cli : CLApp)
    (numIters : Int) (hiters : 1 ≤ numIters) (rng : RandomEngine)
    (hsp : SourcePicker.Usable ⟨toNodeID cli.startVertex, rng, g.outDegree⟩)
    (hdeg : ∀ v, SourcePicker.MayPick ⟨toNodeID cli.startVertex, rng, g.outDegree⟩ v → 0 < g.outDegree v)
    (s₀ : TrialMem rng.State (BcMem n g.numEdgesDirected) (BcVerifierMem n)) :
    (bcMain T cli numIters g rng).Correct s₀ fun printed _ => AllPassed cli (fun top => ∃ sources scores,
      (sources.length : Int) = numIters ∧
      (∀ source ∈ sources, SourcePicker.MayPick ⟨toNodeID cli.startVertex, rng, g.outDegree⟩ source) ∧
      Normalised g sources scores ∧ Ranks 5 (scorePairs scores) top) printed :=
  (bcMain_solo hg hiters hsp hdeg s₀).correct

theorem bcMain_correct_pair :
    (bcMain 2 ⟨true, 3, -1, true⟩ 4 pairGraph countingEngine).Correct
      ⟨countingEngine.seed 0, countingEngine.seed 0, blankBcMem 2 _,
        ⟨⟨fun _ => 0, []⟩, fun _ => 0, [], fun _ => 0, fun _ => 0⟩⟩ fun printed _ =>
      AllPassed ⟨true, 3, -1, true⟩ (fun top => ∃ sources scores, (sources.length : Int) = 4 ∧
        (∀ source ∈ sources,
          SourcePicker.MayPick ⟨toNodeID (-1), countingEngine, pairGraph.outDegree⟩ source) ∧
        Normalised pairGraph sources scores ∧ Ranks 5 (scorePairs scores) top) printed :=
  bcMain_correct pairGraph pairGraph_simpleCsr 2 ⟨true, 3, -1, true⟩ 4 (by decide) countingEngine
    ⟨by decide, by decide, countingEngine_recurrent _, 0, by unfold SourcePicker.MayPick; decide⟩
    (fun v _ => (by decide : ∀ v, 0 < pairGraph.outDegree v) v)
    ⟨countingEngine.seed 0, countingEngine.seed 0, blankBcMem 2 _,
      ⟨⟨fun _ => 0, []⟩, fun _ => 0, [], fun _ => 0, fun _ => 0⟩⟩

end Gapbs
