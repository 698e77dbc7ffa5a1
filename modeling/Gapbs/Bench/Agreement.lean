import Gapbs.Bc.Search
import Gapbs.Bfs.Main
import Gapbs.Cc.Afforest
import Gapbs.Cc.ShiloachVishkin
import Gapbs.Lib.UniformWeights
import Gapbs.Sssp.Main

/-!
# What the kernels say about one graph

The kernels race in different ways, but on one graph they do not contradict each other: depths in a
breadth-first tree are distances, and on an undirected graph a search finds one component.
-/

namespace Gapbs

open Conc HopDistance ShortestPath

variable {n : Nat} {symmetrize : Bool} {l : List (EdgePair Nat (Nat × Int))}

/-! ## `bfs` and `sssp` -/

/-- A vertex without a parent is infinitely far away, and any other one as far as its depth says. -/
def DepthsAre (w : Nat) (source : Fin n) (parent dist : Fin n → Int) : Prop :=
  ∀ v, if parent v = -1 then dist v = kDistInf
    else ∃ k, Depth (fun v u => parent v = (u.val : Int)) source v k ∧ dist v = min (k * w) kDistInf

theorem IsBfsTree.depthsAre {g : WGraph n} {source : Fin n} {w : Nat}
    (hw : ∀ u, ∀ wn ∈ g.outNeigh u, wn.w = w) {parent dist : Fin n → Int}
    (h : IsBfsTree g.unweighted source parent)
    (hdist : ∀ v, dist v = (cappedDistance g.Edge source kDistInf v : Int)) :
    DepthsAre w source parent dist := by
  have hedge (u v : Fin n) (x : Nat) : g.Edge u v x ↔ g.unweighted.Edge u v ∧ x = w := by
    rw [WGraph.edge_unweighted_iff]
    constructor
    · intro hx
      have hxw := hw u _ hx
      exact ⟨⟨x, hx⟩, Int.ofNat.inj hxw⟩
    · rintro ⟨⟨y, hy⟩, rfl⟩
      obtain rfl : y = x := hw u _ hy
      exact hy
  have hparents (v u u' : Fin n) (hu : parent v = (u.val : Int)) (hu' : parent v = (u'.val : Int)) :
      u = u' := by
    rw [hu] at hu'
    exact Fin.ext (Int.ofNat.inj hu')
  intro v
  split
  · next hv =>
    rw [hdist v, cappedDistance_of_unreachable hedge ((h.unreached v).mp hv)]
  · next hv =>
    have hreach : Relation.ReflTransGen g.unweighted.Edge source v := not_not.mp (mt (h.unreached v).mpr hv)
    obtain ⟨k, hk⟩ := exists_isDistance hreach
    refine ⟨k, (h.tree.depth_iff hparents hreach).mpr hk, ?_⟩
    rw [hdist v, cappedDistance_of_isDistance hedge hk, Nat.cast_min]

/-- The files of a list whose edges all have weight `w` are loaded as one graph without weights and one
with them.  On these, all interleavings of `DeltaStep` return the same distances, and all trees that the
interleavings of the searches return have them for depths. -/
theorem bfs_sssp_agree (symmetrize : Bool) (l : List (EdgePair Nat (Nat × Int))) (w : Nat)
    (hw : w ≤ kDistInf) (hl : ∀ e ∈ l, (e.u < 2 ^ 31 - 2 ∧ e.v.1 < 2 ^ 31 - 2) ∧ e.v.2 = w)
    (hcount : Countable symmetrize (l.map EdgePair.unweighted)) :
    ∃ (n : Nat) (g : Graph n) (wg : WGraph n), BuiltFrom symmetrize (l.map EdgePair.unweighted) g ∧
      WBuiltFrom symmetrize l wg ∧ AllLoad symmetrize l ⟨n, g⟩ ∧ AllWLoad symmetrize l ⟨n, wg⟩ ∧
      (0 < wg.numEdgesDirected → ∀ (source : Fin n) (U : Nat) [NeZero U] (delta : Int),
        1 ≤ delta → delta ∣ w → ∀ t₀ : DeltaMem U n, ∃ dist : Fin n → Int,
          (deltaStep wg source delta U).Correct t₀.atCall (fun r _ => r = dist) ∧
          ∀ (p : Port) (T : Nat) [NeZero T] (alpha beta maxBuIters : Int), 1 ≤ alpha → 1 ≤ beta → ∀ s₀,
            (dobfs p T g source alpha beta maxBuIters).Correct s₀ fun _ s =>
              DepthsAre w source s.parent dist) := by
  have hn := maxNodeID_unweighted_lt fun e he => (hl e he).1
  have hprintable : ∀ e ∈ l, Printable e := by
    intro e he
    obtain ⟨hids, hew⟩ := hl e he
    refine ⟨hids, ?_⟩
    unfold IsInt32
    rw [kDistInf] at hw
    omega
  obtain ⟨edges, -, hel⟩ := edges_of_max (l.map EdgePair.unweighted)
  obtain ⟨wedges, -, hwel⟩ := wEdges_of_max l
  have hbuilt : BuiltFrom symmetrize _ (builtGraph symmetrize edges hn) := builtGraph_builtFrom hn hel rfl
  have hwbuilt : WBuiltFrom symmetrize l (builtWGraph symmetrize wedges hn) := builtWGraph_builtFrom hn hwel rfl
  refine ⟨_, _, _, hbuilt, hwbuilt, allLoad hprintable hcount hbuilt, allWLoad hprintable hcount hwbuilt, ?_⟩
  intro hpos source U _ delta hdelta hdvd t₀
  have hsame := hbuilt.graphOf.unique hwbuilt.graphOf_unweighted
  have hweight := hwbuilt.forall_weight (P := fun x => x = w) fun e he => (hl e he).2
  have hg : (builtWGraph symmetrize wedges hn).WeightsOk := by
    intro u wn hwn
    rw [hweight u wn hwn]
    omega
  have hmul : (builtWGraph symmetrize wedges hn).Multiples delta := by
    intro u wn hwn
    rw [hweight u wn hwn]
    exact hdvd
  have hroom := (WGraph.card_targets_le _).trans hwbuilt.length_neighbors.le
  have hsssp : (deltaStep (builtWGraph symmetrize wedges hn) source delta U).Correct t₀.atCall fun r _ =>
      ∀ v, r v = (cappedDistance (builtWGraph symmetrize wedges hn).Edge source kDistInf v : Int) :=
    (deltaStepIn_solo hg hdelta hmul hpos hroom t₀).correct
  refine ⟨_, hsssp.mono fun r _ hr => funext hr, fun p T _ alpha beta maxBuIters halpha hbeta s₀ => ?_⟩
  have hterm : Terminating (builtGraph symmetrize edges hn) source alpha beta maxBuIters :=
    terminating_of_pos halpha hbeta maxBuIters
  apply ((dobfs_solo p hbuilt.transposed hbuilt.graphOf.outDegree_lt hterm s₀).mono ?_).correct
  rintro _ s ⟨htree, -⟩
  rw [hsame] at htree
  exact htree.depthsAre hweight fun v => rfl

/-- A path of two edges. -/
theorem bfs_sssp_agree_path :
    let l : List (EdgePair Nat (Nat × Int)) := [⟨0, 1, 1⟩, ⟨1, 2, 1⟩]
    ∃ (n : Nat) (g : Graph n) (wg : WGraph n), AllLoad false l ⟨n, g⟩ ∧ AllWLoad false l ⟨n, wg⟩ ∧
      ∀ (source : Fin n) (t₀ : DeltaMem 2 n), ∃ dist : Fin n → Int,
        (deltaStep wg source 1 2).Correct t₀.atCall (fun r _ => r = dist) ∧
        ∀ s₀, (dobfs .pthread 4 g source 15 18 0).Correct s₀ fun _ s => DepthsAre 1 source s.parent dist := by
  intro l
  have hcount : Countable false (l.map EdgePair.unweighted) := countable_of_length (by decide)
  obtain ⟨n, g, wg, -, hwbuilt, hload, hwload, hruns⟩ :=
    bfs_sssp_agree false l 1 (by unfold kDistInf; decide) (by decide) hcount
  have hpos : 0 < wg.numEdgesDirected := by
    obtain rfl : n = 3 := hwbuilt.nodes
    have hmin : ∀ w ∈ weightsOf false l (0 : Fin 3).val (1 : Fin 3).val, 1 ≤ w := by
      intro w hw
      simp [weightsOf, l] at hw
      omega
    have hedge : (⟨1, 1⟩ : NodeWeight 3) ∈ wg.outNeigh 0 :=
      (hwbuilt.least 0 1 1).mpr ⟨Fin.zero_ne_one, .inl (by simp [l]), hmin⟩
    rw [← hwbuilt.length_neighbors]
    exact List.length_pos_of_mem (List.mem_of_mem_drop (List.mem_of_mem_take hedge))
  refine ⟨n, g, wg, hload, hwload, fun source t₀ => ?_⟩
  obtain ⟨dist, hdist, htrees⟩ := hruns hpos source 2 1 le_rfl (one_dvd _) t₀
  exact ⟨dist, hdist, fun s₀ => htrees .pthread 4 15 18 0 (by decide) (by decide) s₀⟩

/-! ## Searches and components -/

section Components

variable {g : Graph n}

/-- The least vertex of every component. -/
def Labels (g : Graph n) (label : Fin n → Fin n) : Prop := ∀ v, IsLeast { x | g.Weak v x } (label v)

theorem Labels.eq_iff {label : Fin n → Fin n} (h : Labels g label) (u v : Fin n) :
    label u = label v ↔ g.Weak u v := by
  have hequiv := g.weak_equivalence
  constructor
  · intro heq
    exact hequiv.trans (h u).1 (heq ▸ hequiv.symm (h v).1)
  · intro huv
    have hset : { x | g.Weak u x } = { x | g.Weak v x } :=
      Set.ext fun x => ⟨hequiv.trans (hequiv.symm huv), hequiv.trans huv⟩
    exact (h u).unique (hset ▸ h v)

/-- In an undirected graph a vertex can be reached from the others of its component. -/
theorem Graph.weak_iff_reachable (hsymm : ∀ u v, g.Edge u v → g.Edge v u) (u v : Fin n) :
    g.Weak u v ↔ Relation.ReflTransGen g.Edge u v := by
  constructor
  · intro h
    have hback {a b : Fin n} (hab : Relation.ReflTransGen g.Edge a b) : Relation.ReflTransGen g.Edge b a := by
      induction hab with
      | refl => exact .refl
      | tail _ hE ih => exact .head (hsymm _ _ hE) ih
    have hequiv : Equivalence (Relation.ReflTransGen g.Edge) := ⟨fun _ => .refl, hback, .trans⟩
    exact h.lift hequiv fun _ _ hE => .single hE
  · intro h
    induction h with
    | refl => exact .refl u
    | tail _ hE ih => exact .trans _ _ _ ih (.rel _ _ hE)

theorem numPaths_ne_zero_iff {source v : Fin n} :
    numPaths g.Edge source v ≠ 0 ↔ Relation.ReflTransGen g.Edge source v := by
  constructor
  · exact fun h => not_not.mp (mt numPaths_eq_zero h)
  · intro h
    obtain ⟨k, hk⟩ := exists_isDistance h
    exact hk.numPaths_pos.ne'

end Components

/-- The files of a symmetrized list are loaded as one graph, and on it all interleavings of `Afforest` and
of `ShiloachVishkin` return one labelling.  The vertices with the label of a source are those that all
interleavings of the searches from it reach, with parents in `bfs` and with shortest paths in `bc`. -/
theorem searches_components_agree (l : List (EdgePair Nat (Nat × Int)))
    (hl : ∀ e ∈ l, (e.u < 2 ^ 31 - 2 ∧ e.v.1 < 2 ^ 31 - 2) ∧ IsInt32 e.v.2)
    (hcount : Countable true (l.map EdgePair.unweighted)) :
    ∃ (n : Nat) (g : Graph n), AllLoad true l ⟨n, g⟩ ∧ ∃ label : Fin n → Fin n,
      (∀ (T : Nat) [NeZero T] (neighborRounds : Nat) (comp₀ : Comp n),
        (afforest g T neighborRounds).Correct comp₀ fun _ comp => comp = label) ∧
      (∀ (T : Nat) [NeZero T] (s₀ : SvMem n),
        (shiloachVishkin g T).Correct s₀ fun _ s => s.comp = label) ∧
      (∀ (source : Fin n) (p : Port) (T : Nat) [NeZero T] (alpha beta maxBuIters : Int), 1 ≤ alpha → 1 ≤ beta →
        ∀ s₀, (dobfs p T g source alpha beta maxBuIters).Correct s₀ fun _ s =>
          ∀ v, 0 ≤ s.parent v ↔ label v = label source) ∧
      ∀ (source : Fin n) (T : Nat) [NeZero T] (s₀ : BcMem n g.numEdgesDirected), s₀.Prepared →
        (pbfs T g source).Correct s₀ fun _ s => ∀ v, s.pathCounts v ≠ 0 ↔ label v = label source := by
  have hn := maxNodeID_unweighted_lt fun e he => (hl e he).1
  obtain ⟨edges, -, hel⟩ := edges_of_max (l.map EdgePair.unweighted)
  have hbuilt : BuiltFrom true _ (builtGraph true edges hn) := builtGraph_builtFrom hn hel rfl
  have hg := hbuilt.transposed
  have hsymm : ∀ u v, (builtGraph true edges hn).Edge u v → (builtGraph true edges hn).Edge v u :=
    fun _ _ => hg.symm hbuilt.directed
  have hafforest (T : Nat) [NeZero T] (rounds : Nat) (comp₀ : Comp _) :=
    afforest_solo (builtGraph true edges hn) hg (Nat.succ_pos _) T rounds comp₀
  obtain ⟨⟨⟩, label, hreturns⟩ := (hafforest 1 0 id).correct.returns .refl
  have hlabel : Labels (builtGraph true edges hn) label := (hafforest 1 0 id).correct.result _ _ hreturns
  have hunique {comp : Fin _ → Fin _} (h : Labels (builtGraph true edges hn) comp) : comp = label :=
    funext fun v => (h v).unique (hlabel v)
  have hreach (source v : Fin _) : Relation.ReflTransGen (builtGraph true edges hn).Edge source v ↔
      label v = label source := by
    rw [← Graph.weak_iff_reachable hsymm, ← hlabel.eq_iff, eq_comm]
  refine ⟨_, _, allLoad hl hcount hbuilt, label, fun T _ rounds comp₀ => ?_, fun T _ s₀ => ?_,
    fun source p T _ alpha beta maxBuIters halpha hbeta s₀ => ?_, fun source T _ s₀ h₀ => ?_⟩
  · exact (hafforest T rounds comp₀).correct.mono fun _ _ h => hunique h
  · exact (shiloachVishkin_solo _ T s₀).correct.mono fun _ _ h => hunique h
  · have hterm : Terminating (builtGraph true edges hn) source alpha beta maxBuIters :=
      terminating_of_pos halpha hbeta maxBuIters
    apply ((dobfs_solo p hg hbuilt.graphOf.outDegree_lt hterm s₀).mono ?_).correct
    rintro _ s ⟨htree, -⟩ v
    rw [← hreach source v]
    exact htree.nonneg_iff v
  · apply ((pbfs_solo hbuilt.graphOf.simpleCsr rfl h₀.counts h₀.index h₀.sharedIn h₀.start h₀.stop
      h₀.succ).mono ?_).correct
    rintro _ s ⟨-, hcounts, -⟩ v
    rw [hcounts v, Nat.cast_ne_zero, numPaths_ne_zero_iff, hreach]

theorem searches_components_agree_pair :
    let l : List (EdgePair Nat (Nat × Int)) := [⟨0, 1, 1⟩, ⟨2, 2, 1⟩]
    ∃ (n : Nat) (g : Graph n), AllLoad true l ⟨n, g⟩ ∧ ∃ label : Fin n → Fin n,
      (∀ (T : Nat) [NeZero T] (neighborRounds : Nat) (comp₀ : Comp n),
        (afforest g T neighborRounds).Correct comp₀ fun _ comp => comp = label) ∧
      (∀ (T : Nat) [NeZero T] (s₀ : SvMem n),
        (shiloachVishkin g T).Correct s₀ fun _ s => s.comp = label) ∧
      (∀ (source : Fin n) (p : Port) (T : Nat) [NeZero T] (alpha beta maxBuIters : Int), 1 ≤ alpha → 1 ≤ beta →
        ∀ s₀, (dobfs p T g source alpha beta maxBuIters).Correct s₀ fun _ s =>
          ∀ v, 0 ≤ s.parent v ↔ label v = label source) ∧
      ∀ (source : Fin n) (T : Nat) [NeZero T] (s₀ : BcMem n g.numEdgesDirected), s₀.Prepared →
        (pbfs T g source).Correct s₀ fun _ s => ∀ v, s.pathCounts v ≠ 0 ↔ label v = label source := by
  apply searches_components_agree
  · unfold IsInt32
    decide
  · exact countable_of_length (by decide)

end Gapbs
