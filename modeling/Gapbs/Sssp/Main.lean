import Gapbs.Bench.Benchmark
import Gapbs.Graph.Unweighted
import Gapbs.Io.SameGraph
import Gapbs.Sssp.OneEntry

/-!
# The program `sssp`

With its default, a `delta` of 1, no trial of the program fails: the frontier that the kernel allocates is
large enough for what comes into it.
-/

namespace Gapbs

open Conc Gen Bench ShortestPath

variable {n : Nat} {g : WGraph n}

/-- The options of `CLDelta<WeightT>` besides those of `CLApp`. -/
structure CLDelta extends CLApp where
  delta : Int := 1

/-- `PrintSSSPStats` counts the vertices that are not infinitely far away. -/
def printSSSPStats (dist : Fin n → Int) : Nat :=
  (List.finRange n).countP fun v => dist v ≠ kDistInf

/-- `main` from the first picker on -/
def ssspMain (T : Nat) [NeZero T] (cli : CLDelta) (g : WGraph n) (rng : RandomEngine) :
    Prog (TrialMem rng.State (DeltaMem T n) (DijkstraMem n)) (List (Line Nat)) :=
  let sp : SourcePicker n := ⟨toNodeID cli.startVertex, rng, g.outDegree⟩
  searchMain sp cli.toCLApp sp.pickNext DeltaMem.atCall (fun source => deltaStep g source cli.delta T)
    (fun dist => .ret (printSSSPStats dist)) (ssspVerifier g)

/-! ## What is printed -/

theorem cappedDistance_ne_iff {α : Type} {E : α → α → Nat → Prop} {s v : α} {cap : Nat} :
    cappedDistance E s cap v ≠ cap ↔ distance E s v < cap := by
  rw [cappedDistance]
  rcases lt_or_ge (distance E s v) cap with hlt | hge
  · rw [min_eq_left hlt.le]
    refine iff_of_true (fun heq => ?_) hlt
    obtain ⟨k, hk⟩ := ENat.ne_top_iff_exists.mp hlt.ne_top
    rw [← hk, ENat.toNat_natCast] at heq
    rw [← hk, heq] at hlt
    exact lt_irrefl _ hlt
  · rw [min_eq_right hge, ENat.toNat_natCast]
    exact iff_of_false (fun h => h rfl) hge.not_gt

/-- The number of vertices that are nearer to the source than the distance that stands for infinity. -/
def NearTo (g : WGraph n) (source : Fin n) (numReached : Nat) : Prop :=
  ∃ R : Finset (Fin n), (∀ v, v ∈ R ↔ distance g.Edge source v < kDistInf) ∧ numReached = R.card

theorem printSSSPStats_eq {source : Fin n} {dist : Fin n → Int}
    (h : ∀ v, dist v = (cappedDistance g.Edge source kDistInf v : Int)) :
    NearTo g source (printSSSPStats dist) := by
  refine ⟨Finset.univ.filter fun v => dist v ≠ kDistInf, fun v => ?_, ?_⟩
  · rw [Finset.mem_filter, h v, ← cappedDistance_ne_iff]
    simp
  · rw [printSSSPStats, List.countP_eq_length_filter, ← List.toFinset_card_of_nodup]
    · congr 1
      ext v
      simp
    · exact (List.nodup_finRange n).filter _

/-! ## The runs of the program -/

/-- The verifier accepts the distances. -/
theorem ssspVerifier_accepts (hg : g.WeightsOk) {source : Fin n} {dist : Fin n → Int}
    (h : ∀ v, dist v = (cappedDistance g.Edge source kDistInf v : Int)) (s₀ : DijkstraMem n) :
    Solo (ssspVerifier g source dist) s₀ fun pass _ => pass = true := by
  apply Solo.bind
  apply (dijkstra_solo hg s₀).mono
  intro _ s hs
  apply (Solo.forEach (fun _ allOk s' => s' = s ∧ allOk = true) ⟨rfl, rfl⟩ ?_).mono
  · exact fun pass _ hpass => hpass.2
  · rintro pre v post _ _ - ⟨rfl, rfl⟩
    apply Solo.load_bind
    rw [hs v, if_neg (not_not.mpr (h v))]
    exact Solo.ret ⟨rfl, rfl⟩

theorem ssspMain_solo {T : Nat} [NeZero T] (hg : g.WeightsOk) (hroom : g.targets.card ≤ g.numEdgesDirected)
    (hpos : 0 < g.numEdgesDirected) {cli : CLDelta} (hdelta : 1 ≤ cli.delta) (hmul : g.Multiples cli.delta)
    {rng : RandomEngine} (hsp : SourcePicker.Usable ⟨toNodeID cli.startVertex, rng, g.outDegree⟩)
    (s₀ : TrialMem rng.State (DeltaMem T n) (DijkstraMem n)) :
    Solo (ssspMain T cli g rng) s₀ fun printed _ =>
      AllPassed cli.toCLApp (fun numReached => ∃ source,
        SourcePicker.MayPick ⟨toNodeID cli.startVertex, rng, g.outDegree⟩ source ∧ NearTo g source numReached)
        printed := by
  apply searchMain_solo (SourcePicker.MayPick ⟨toNodeID cli.startVertex, rng, g.outDegree⟩)
    (fun source dist => ∀ v, dist v = (cappedDistance g.Edge source kDistInf v : Int)) hsp.pickNext_returns
  · exact fun source s _ => deltaStepIn_solo hg hdelta hmul hpos hroom s
  · exact fun source dist s hsource hdist => Solo.ret ⟨⟨source, hsource, printSSSPStats_eq hdist⟩, rfl⟩
  · exact fun source dist s _ hdist => ssspVerifier_accepts hg hdist s

/-- Every weight of the graph is one of the list. -/
theorem WBuiltFrom.forall_weight {symmetrize : Bool} {l : List (EdgePair Nat (Nat × Int))}
    (h : WBuiltFrom symmetrize l g) {P : Int → Prop} (hP : ∀ e ∈ l, P e.v.2) :
    ∀ u, ∀ wn ∈ g.outNeigh u, P wn.w := by
  intro u wn hwn
  rcases ((h.least u wn.v wn.w).mp hwn).2.1 with hw | ⟨-, hw⟩
  · exact hP _ hw
  · exact hP _ hw

/-- The graph of a weighted list is loaded from the files of all formats with weights, and on it every trial
of `sssp` passes under every interleaving if the weights are multiples of `delta`, as they are by default. -/
theorem ssspMain_correct (symmetrize : Bool) (l : List (EdgePair Nat (Nat × Int)))
    (hl : ∀ e ∈ l, (e.u < 2 ^ 31 - 2 ∧ e.v.1 < 2 ^ 31 - 2) ∧ 0 ≤ e.v.2 ∧ e.v.2 ≤ kDistInf)
    (hcount : Countable symmetrize (l.map EdgePair.unweighted)) :
    ∃ r : (n : Nat) × WGraph n, WBuiltFrom symmetrize l r.2 ∧ AllWLoad symmetrize l r ∧
      ∀ (T : Nat) [NeZero T] (cli : CLDelta) (rng : RandomEngine), 0 < r.2.numEdgesDirected →
        1 ≤ cli.delta → (∀ e ∈ l, cli.delta ∣ e.v.2) →
        SourcePicker.Usable ⟨toNodeID cli.startVertex, rng, r.2.outDegree⟩ →
        ∀ s₀, (ssspMain T cli r.2 rng).Correct s₀ fun printed _ =>
          AllPassed cli.toCLApp (fun numReached => ∃ source,
            SourcePicker.MayPick ⟨toNodeID cli.startVertex, rng, r.2.outDegree⟩ source ∧
              NearTo r.2 source numReached) printed := by
  have hn := maxNodeID_unweighted_lt fun e he => (hl e he).1
  have hprintable : ∀ e ∈ l, Printable e := by
    intro e he
    obtain ⟨hids, hw⟩ := hl e he
    refine ⟨hids, ?_⟩
    unfold IsInt32
    rw [kDistInf] at hw
    omega
  obtain ⟨edges, -, hel⟩ := wEdges_of_max l
  have hbuilt : WBuiltFrom symmetrize l (builtWGraph symmetrize edges hn) := builtWGraph_builtFrom hn hel rfl
  have hg : (builtWGraph symmetrize edges hn).WeightsOk :=
    hbuilt.forall_weight (P := fun w => 0 ≤ w ∧ w ≤ kDistInf) fun e he => (hl e he).2
  refine ⟨⟨_, _⟩, hbuilt, allWLoad hprintable hcount hbuilt, fun T _ cli rng hpos hdelta hdvd hsp s₀ => ?_⟩
  have hroom := (WGraph.card_targets_le _).trans hbuilt.length_neighbors.le
  exact (ssspMain_solo hg hroom hpos hdelta (hbuilt.forall_weight hdvd) hsp s₀).correct

/-- Two weights for one edge, and a loop; the default options with `-a` and `-v`. -/
theorem ssspMain_correct_pair :
    let l : List (EdgePair Nat (Nat × Int)) := [⟨1, 0, 3⟩, ⟨0, 1, 5⟩, ⟨1, 0, 7⟩, ⟨1, 1, 1⟩]
    let cli : CLDelta := { doAnalysis := true, numTrials := 16, startVertex := -1, doVerify := true }
    ∃ r : (n : Nat) × WGraph n, WBuiltFrom true l r.2 ∧ AllWLoad true l r ∧
      ∀ s₀, (ssspMain 2 cli r.2 countingEngine).Correct s₀ fun printed _ =>
        AllPassed cli.toCLApp (fun numReached => ∃ source,
          SourcePicker.MayPick ⟨toNodeID cli.startVertex, countingEngine, r.2.outDegree⟩ source ∧
            NearTo r.2 source numReached) printed := by
  intro l cli
  have hcount : Countable true (l.map EdgePair.unweighted) := countable_of_length (by decide)
  obtain ⟨⟨n, g⟩, hbuilt, hload, hruns⟩ := ssspMain_correct true l (by unfold kDistInf; decide) hcount
  refine ⟨⟨n, g⟩, hbuilt, hload, hruns 2 cli countingEngine ?_ le_rfl (fun e _ => Int.one_dvd _) ?_⟩
  all_goals
    obtain rfl : n = 2 := hbuilt.nodes
    have hmin : ∀ w ∈ weightsOf true l (0 : Fin 2).val (1 : Fin 2).val, 3 ≤ w := by
      intro w hw
      simp [weightsOf, l] at hw
      omega
    have hedge : (⟨1, 3⟩ : NodeWeight 2) ∈ g.outNeigh 0 :=
      (hbuilt.least 0 1 3).mpr ⟨Fin.zero_ne_one, .inr ⟨rfl, by simp [l]⟩, hmin⟩
    have hdegree := List.length_pos_of_mem hedge
  · rw [← hbuilt.length_neighbors]
    exact List.length_pos_of_mem (List.mem_of_mem_drop (List.mem_of_mem_take hedge))
  · refine ⟨show 2 < 2 ^ 31 by decide, show 32 ≤ 64 by decide, countingEngine_recurrent _, 0, ?_⟩
    rw [g.length_outNeigh] at hdegree
    exact hdegree.ne'

end Gapbs
