import Gapbs.Bench.Benchmark
import Gapbs.Bfs.Verifier

/-!
# The program `bfs`

A trial takes a source from its picker and searches from there, and the verifier searches again from the
source that its own picker gives.  The three programs differ in their parallel regions alone.
-/

namespace Gapbs

open Conc Gen Bench

variable {n : Nat} {g : Graph n} {source : Fin n}

/-- What `PrintBFSStats` prints. -/
structure TreeStats where
  treeSize : Int
  nEdges : Int

def printBFSStats (g : Graph n) (bfsTree : Fin n → Int) : TreeStats :=
  (List.finRange n).foldl (fun t v =>
    if bfsTree v ≥ 0 then ⟨t.treeSize + 1, t.nEdges + g.outDegree v⟩ else t) ⟨0, 0⟩

/-- `DOBFS` returns the array of parents. -/
def bfsKernel (p : Port) (T : Nat) [NeZero T] (g : Graph n) (alpha beta maxBuIters : Int)
    (source : Fin n) : Prog (BfsMem n) (Fin n → Int) := do
  let _ ← dobfs p T g source alpha beta maxBuIters
  .load fun s => s.parent

/-- `main`, or `BfsMain`, from the first picker on. -/
def bfsMain (p : Port) (T : Nat) [NeZero T] (cli : CLApp) (g : Graph n) (rng : RandomEngine)
    (alpha beta maxBuIters : Int) :
    Prog (TrialMem rng.State (BfsMem n) (VerifierMem n)) (List (Line TreeStats)) :=
  let sp : SourcePicker n := ⟨toNodeID cli.startVertex, rng, g.outDegree⟩
  searchMain sp cli sp.pickNext id (bfsKernel p T g alpha beta maxBuIters)
    (fun bfsTree => .ret (printBFSStats g bfsTree)) (bfsVerifier g)

/-! ## What is printed -/

/-- The numbers of vertices and edges that the search comes to. -/
def ReachedFrom (g : Graph n) (source : Fin n) (a : TreeStats) : Prop :=
  ∃ R : Finset (Fin n), (∀ v, v ∈ R ↔ Relation.ReflTransGen g.Edge source v) ∧
    a = ⟨R.card, ∑ v ∈ R, g.outDegree v⟩

theorem printBFSStats_eq (g : Graph n) (bfsTree : Fin n → Int) :
    printBFSStats g bfsTree =
      ⟨({v | bfsTree v ≥ 0} : Finset (Fin n)).card, ∑ v with bfsTree v ≥ 0, g.outDegree v⟩ := by
  have hfold (l : List (Fin n)) (t : TreeStats) :
      l.foldl (fun t v => if bfsTree v ≥ 0 then ⟨t.treeSize + 1, t.nEdges + g.outDegree v⟩ else t) t =
        ⟨t.treeSize + (l.map fun v => if bfsTree v ≥ 0 then 1 else 0).sum,
          t.nEdges + (l.map fun v => if bfsTree v ≥ 0 then (g.outDegree v : Int) else 0).sum⟩ := by
    induction l generalizing t with
    | nil => simp
    | cons v l ih =>
      rw [List.foldl_cons, ih, List.map_cons, List.map_cons, List.sum_cons, List.sum_cons]
      split <;> simp [add_assoc]
  rw [printBFSStats, hfold, Finset.sum_filter, Finset.card_filter, Nat.cast_sum, Fin.sum_univ_def,
    Fin.sum_univ_def]
  simp

theorem IsBfsTree.nonneg_iff {parent : Fin n → Int} (h : IsBfsTree g source parent) (v : Fin n) :
    parent v ≥ 0 ↔ Relation.ReflTransGen g.Edge source v := by
  refine ⟨fun hv => ?_, fun hv => ?_⟩
  · by_contra hnot
    rw [(h.unreached v).mpr hnot] at hv
    omega
  · by_cases hvs : v = source
    · rw [hvs, h.root]
      omega
    · obtain ⟨u, hu, -⟩ := h.tree v hvs hv
      rw [hu]
      omega

theorem IsBfsTree.stats {parent : Fin n → Int} (h : IsBfsTree g source parent) :
    ReachedFrom g source (printBFSStats g parent) :=
  ⟨({v | parent v ≥ 0} : Finset (Fin n)), fun v => by simpa using h.nonneg_iff v, printBFSStats_eq g parent⟩

/-! ## The runs of the program -/

/-- The verifier accepts every breadth-first tree. -/
theorem bfsVerifier_accepts (hg : g.Transposed) {parent : Fin n → Int} (h : IsBfsTree g source parent)
    (s₀ : VerifierMem n) : Solo (bfsVerifier g source parent) s₀ fun pass _ => pass = true := by
  apply Solo.bind
  apply (serialBfs_solo s₀).mono
  intro _ s hs
  have hgood := (isBfsTree_iff hg hs).mp h
  apply Solo.bind
  apply (Solo.forBreak (fun _ _ s' => s' = s) (fun _ _ => False) rfl ?_).mono
  · rintro (⟨⟩ | b) s' hs'
    · exact Solo.ret rfl
    · exact hs'.elim
  · rintro pre u post ⟨⟩ s' - rfl
    apply (checkVertex_solo u s').mono
    rintro r s'' ⟨rfl, ⟨rfl, -⟩ | ⟨rfl, hu⟩⟩
    · rfl
    · exact hu (hgood u)

theorem bfsMain_solo (p : Port) (hg : g.Transposed) (hdeg : ∀ v, g.outDegree v < 2 ^ 31) {T : Nat} [NeZero T]
    {alpha beta : Int} (halpha : 1 ≤ alpha) (hbeta : 1 ≤ beta) (maxBuIters : Int) {cli : CLApp}
    {rng : RandomEngine} (hsp : SourcePicker.Usable ⟨toNodeID cli.startVertex, rng, g.outDegree⟩)
    (s₀ : TrialMem rng.State (BfsMem n) (VerifierMem n)) :
    Solo (bfsMain p T cli g rng alpha beta maxBuIters) s₀ fun printed _ =>
      AllPassed cli (fun a => ∃ source,
        SourcePicker.MayPick ⟨toNodeID cli.startVertex, rng, g.outDegree⟩ source ∧ ReachedFrom g source a)
        printed := by
  apply searchMain_solo (SourcePicker.MayPick ⟨toNodeID cli.startVertex, rng, g.outDegree⟩)
    (fun source parent => IsBfsTree g source parent) hsp.pickNext_returns
  · intro source s _
    apply Solo.bind
    apply (dobfs_solo p hg hdeg (terminating_of_pos halpha hbeta maxBuIters) s).mono
    rintro _ s' ⟨htree, -⟩
    exact Solo.op rfl htree
  · exact fun source parent s hsource htree => Solo.ret ⟨⟨source, hsource, htree.stats⟩, rfl⟩
  · exact fun source parent s _ htree => bfsVerifier_accepts hg htree s

/-- Every trial of the three programs passes under every interleaving, and what `-a` prints are the
numbers of vertices and edges that can be reached from a source that may have been picked. -/
theorem bfsMain_correct (p : Port) {n : Nat} (g : Graph n) (hg : g.Transposed)
    (hdeg : ∀ v, g.outDegree v < 2 ^ 31) (T : Nat) [NeZero T] (alpha beta : Int) (halpha : 1 ≤ alpha)
    (hbeta : 1 ≤ beta) (maxBuIters : Int) (cli : CLApp) (rng : RandomEngine)
    (hsp : SourcePicker.Usable ⟨toNodeID cli.startVertex, rng, g.outDegree⟩)
    (s₀ : TrialMem rng.State (BfsMem n) (VerifierMem n)) :
    (bfsMain p T cli g rng alpha beta maxBuIters).Correct s₀ fun printed _ =>
      AllPassed cli (fun a => ∃ source,
        SourcePicker.MayPick ⟨toNodeID cli.startVertex, rng, g.outDegree⟩ source ∧ ReachedFrom g source a)
        printed :=
  (bfsMain_solo p hg hdeg halpha hbeta maxBuIters hsp s₀).correct

theorem bfsMain_correct_pair :
    (bfsMain .caladan 2 ⟨true, 16, -1, true⟩ pairGraph countingEngine 15 18 0).Correct
      ⟨countingEngine.seed 0, countingEngine.seed 0, blankMem 2, ⟨fun _ => 0, []⟩⟩ fun printed _ =>
      AllPassed ⟨true, 16, -1, true⟩ (fun a => ∃ source,
        SourcePicker.MayPick ⟨toNodeID (-1), countingEngine, pairGraph.outDegree⟩ source ∧
          ReachedFrom pairGraph source a) printed :=
  bfsMain_correct .caladan pairGraph (by decide) (by decide) 2 15 18 (by decide) (by decide) 0
    ⟨true, 16, -1, true⟩ countingEngine ⟨by decide, by decide, countingEngine_recurrent _, 0, by
      unfold SourcePicker.MayPick; decide⟩
    ⟨countingEngine.seed 0, countingEngine.seed 0, blankMem 2, ⟨fun _ => 0, []⟩⟩

end Gapbs
