import Gapbs.Bc.Main
import Gapbs.Bfs.Main
import Gapbs.Cc.Main
import Gapbs.Graph.Unweighted
import Gapbs.Io.SameGraph
import Gapbs.Pr.Main
import Gapbs.Tc.Main

/-!
# From a file to the verdicts

What the programs require of a graph holds of every graph that is built from an edge list: no program
fails a trial on a graph that has been loaded.
-/

namespace Gapbs

open Conc Gen Bench

variable {n : Nat} {g : Graph n} {symmetrize : Bool} {el : List (EdgePair Nat Nat)}

/-! ## The graph of an edge list -/

theorem GraphOf.simple (h : GraphOf symmetrize el g) (hd : g.directed = false) : g.Simple :=
  ⟨hd, fun _ _ hedge => h.transposed.symm hd hedge, h.loopless, h.outSorted⟩

/-- No neighbour is listed twice, so that the rows and their transposes list each edge once. -/
theorem GraphOf.transposedEdges (h : GraphOf symmetrize el g) : g.TransposedEdges := by
  intro u v
  rw [(h.inNodup v).count, (h.nodup u).count]
  exact if_congr (h.transposed u v) rfl rfl

/-! ## The programs -/

/-- Every trial of every program passes under all interleavings, and what it prints is about `g`; the
options and what the arrays hold at the start are arbitrary.  The searches need something to pick, the
verifier of `tc` a product that fits, and PageRank enough iterations for its tolerance. -/
structure SuitePasses (g : Graph n) : Prop where
  bfs : ∀ (p : Port) (T : Nat) [NeZero T] (cli : CLApp) (rng : RandomEngine) (alpha beta maxBuIters : Int),
    1 ≤ alpha → 1 ≤ beta → SourcePicker.Usable ⟨toNodeID cli.startVertex, rng, g.outDegree⟩ →
    ∀ s₀, (bfsMain p T cli g rng alpha beta maxBuIters).Correct s₀ fun printed _ =>
      AllPassed cli (fun a => ∃ source,
        SourcePicker.MayPick ⟨toNodeID cli.startVertex, rng, g.outDegree⟩ source ∧ ReachedFrom g source a)
        printed
  bc : ∀ (T : Nat) [NeZero T] (cli : CLApp) (numIters : Int) (rng : RandomEngine), 1 ≤ numIters →
    SourcePicker.Usable ⟨toNodeID cli.startVertex, rng, g.outDegree⟩ →
    (∀ v, SourcePicker.MayPick ⟨toNodeID cli.startVertex, rng, g.outDegree⟩ v → 0 < g.outDegree v) →
    ∀ s₀, (bcMain T cli numIters g rng).Correct s₀ fun printed _ => AllPassed cli (fun top => ∃ sources scores,
      (sources.length : Int) = numIters ∧
      (∀ source ∈ sources, SourcePicker.MayPick ⟨toNodeID cli.startVertex, rng, g.outDegree⟩ source) ∧
      Normalised g sources scores ∧ Ranks 5 (scorePairs scores) top) printed
  cc : ∀ (T : Nat) [NeZero T] (cli : CLApp) (s₀ : TrialMem Unit (Comp n) (CcVerifierMem n)),
    (ccMain T cli g).Correct s₀ fun printed _ => AllPassed cli (ComponentStats g) printed
  ccSv : ∀ (T : Nat) [NeZero T] (cli : CLApp) (s₀ : TrialMem Unit (SvMem n) (CcVerifierMem n)),
    (svMain T cli g).Correct s₀ fun printed _ => AllPassed cli (ComponentStats g) printed
  tc : ∀ (T : Nat) [NeZero T] (cli : CLApp), 6 * g.triangles.card < 2 ^ 64 →
    ∀ s₀ : TrialMem Unit (RelabelMem n) Unit, (tcMain T cli g).Correct s₀ fun result _ =>
      if g.directed then result = none
      else ∃ printed, result = some printed ∧
        AllPassed cli (fun total => total.toNat = g.triangles.card) printed
  pr : ∀ (T : ℕ) [NeZero T] (cli : CLPageRank) (kDamp : ℚ), 0 < kDamp → kDamp < 1 →
    2 * kDamp ^ (cli.maxIters.toNat + 1) < cli.tolerance → ∀ p, IsPageRank g kDamp p →
    ∀ s : TrialMem Unit (PrMem n) Unit,
      (prMain T cli g kDamp).Correct s fun printed _ => AllPassed cli.toCLApp (fun top => ∃ scores,
        (1 - kDamp) * change p scores < cli.tolerance ∧ Ranks 5 (scorePairs scores) top) printed
  prSpmv : ∀ (T : ℕ) [NeZero T] (cli : CLPageRank) (kDamp : ℚ), 0 < kDamp → kDamp < 1 →
    2 * kDamp ^ (cli.maxIters.toNat + 1) < cli.tolerance → ∀ p, IsPageRank g kDamp p →
    ∀ s : TrialMem Unit (PrMem n) Unit,
      (prSpmvMain T cli g kDamp).Correct s fun printed _ => AllPassed cli.toCLApp (fun top => ∃ scores,
        (1 - kDamp) * change p scores < cli.tolerance ∧ Ranks 5 (scorePairs scores) top) printed

theorem BuiltFrom.suitePasses (h : BuiltFrom symmetrize el g) : SuitePasses g where
  bfs p _ _ _ _ _ _ maxBuIters halpha hbeta hsp s₀ :=
    (bfsMain_solo p h.transposed h.graphOf.outDegree_lt halpha hbeta maxBuIters hsp s₀).correct
  bc _ _ _ _ _ hiters hsp hdeg s₀ := (bcMain_solo h.graphOf.simpleCsr hiters hsp hdeg s₀).correct
  cc _ _ _ s₀ := (ccMain_solo h.transposed (by rw [h.nodes]; exact Nat.succ_pos _) s₀).correct
  ccSv _ _ _ s₀ := (svMain_solo h.transposed s₀).correct
  tc _ _ _ hsize s₀ :=
    (tcMain_solo (by rw [h.nodes]; exact Nat.succ_pos _) h.graphOf.simple hsize s₀).correct
  pr _ _ _ _ hpos hlt henough _ hp s := (prMain_solo h.graphOf.transposedEdges hpos hlt henough hp s).correct
  prSpmv _ _ _ _ hpos hlt henough _ hp s :=
    (prSpmvMain_solo h.graphOf.transposedEdges hpos hlt henough hp s).correct

/-- The files of an edge list are loaded, whatever their format and under all interleavings of the builder,
as one graph, which the list describes, and on it every trial of every program passes. -/
theorem suite_passes (symmetrize : Bool) (l : List (EdgePair Nat (Nat × Int)))
    (hl : ∀ e ∈ l, (e.u < 2 ^ 31 - 2 ∧ e.v.1 < 2 ^ 31 - 2) ∧ IsInt32 e.v.2)
    (hcount : Countable symmetrize (l.map EdgePair.unweighted)) :
    ∃ r : (n : Nat) × Graph n, BuiltFrom symmetrize (l.map EdgePair.unweighted) r.2 ∧
      AllLoad symmetrize l r ∧ SuitePasses r.2 := by
  have hn := maxNodeID_unweighted_lt fun e he => (hl e he).1
  obtain ⟨edges, -, hel⟩ := edges_of_max (l.map EdgePair.unweighted)
  have hbuilt : BuiltFrom symmetrize _ (builtGraph symmetrize edges hn) := builtGraph_builtFrom hn hel rfl
  exact ⟨⟨_, _⟩, hbuilt, allLoad hl hcount hbuilt, hbuilt.suitePasses⟩

/-- Both orientations of an edge, a duplicate and a loop. -/
theorem suite_passes_pair :
    let l : List (EdgePair Nat (Nat × Int)) := [⟨1, 0, -3⟩, ⟨0, 1, 5⟩, ⟨1, 0, 7⟩, ⟨1, 1, 1⟩]
    ∃ r : (n : Nat) × Graph n, BuiltFrom true (l.map EdgePair.unweighted) r.2 ∧ AllLoad true l r ∧
      SuitePasses r.2 := by
  apply suite_passes
  · unfold IsInt32
    decide
  · exact countable_of_length (by decide)

end Gapbs
