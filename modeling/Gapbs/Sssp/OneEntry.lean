import Gapbs.Sssp.Frontier

/-!
# Bins without duplicates

When all weights are multiples of `delta`, as they are for the default of 1, the distances in a bin are all
the same: a vertex that is put into it has been lowered to this distance, which happens once.  No bin holds
a vertex twice then, and the frontier has room for every bin.
-/

namespace Gapbs

open Conc Prog ShortestPath

variable {n T : Nat} {g : WGraph n} {source : Fin n} {delta : Int} {room : Nat}

/-- All weights are multiples of `delta`. -/
def WGraph.Multiples (g : WGraph n) (delta : Int) : Prop := ∀ u, ∀ wn ∈ g.outNeigh u, delta ∣ wn.w

instance (g : WGraph n) (delta : Int) : Decidable (g.Multiples delta) :=
  inferInstanceAs (Decidable (∀ u, ∀ wn ∈ g.outNeigh u, delta ∣ wn.w))

theorem WGraph.multiples_one (g : WGraph n) : g.Multiples 1 := fun _ _ _ => Int.one_dvd _

theorem mul_binOf_of_dvd {x : Int} (hx : 0 ≤ x) (hdelta : 1 ≤ delta) (hdvd : delta ∣ x) :
    delta * binOf delta x = x := by
  have hquot : 0 ≤ x / delta := Int.ediv_nonneg hx (by omega)
  rw [binOf, Int.toNat_of_nonneg hquot, Int.mul_ediv_cancel' hdvd]

/-! ## The vertices that edges lead to -/

/-- The vertices with an edge to them. -/
def WGraph.targets (g : WGraph n) : Finset (Fin n) :=
  Finset.univ.filter fun v => ∃ u, ∃ wn ∈ g.outNeigh u, wn.v = v

theorem WGraph.mem_targets {v : Fin n} : v ∈ g.targets ↔ ∃ u, ∃ wn ∈ g.outNeigh u, wn.v = v :=
  Finset.mem_filter.trans (and_iff_right (Finset.mem_univ v))

theorem WGraph.card_targets_le (g : WGraph n) : g.targets.card ≤ g.out.neighbors.length := by
  have hsub : g.targets ⊆ (g.out.neighbors.map NodeWeight.v).toFinset := by
    intro v hv
    obtain ⟨u, wn, hwn, rfl⟩ := mem_targets.mp hv
    have hmem : wn ∈ g.out.neighbors := List.mem_of_mem_drop (List.mem_of_mem_take hwn)
    exact List.mem_toFinset.mpr (List.mem_map_of_mem hmem)
  calc g.targets.card ≤ (g.out.neighbors.map NodeWeight.v).toFinset.card := Finset.card_le_card hsub
    _ ≤ (g.out.neighbors.map NodeWeight.v).length := List.toFinset_card_le _
    _ = g.out.neighbors.length := List.length_map ..

/-! ## The weights of paths -/

theorem WGraph.Multiples.dvd_weight (hmul : g.Multiples delta) {v : Fin n} {x : Nat}
    (h : IsPathWeight g.Edge source v x) : delta ∣ x := by
  apply h.of_closed (C := fun _ k => delta ∣ (k : Int)) (dvd_zero delta)
  intro u v k w hk hw
  rw [Int.natCast_add]
  exact Int.dvd_add hk (hmul u _ hw)

/-- A bin has one weight of the paths to a vertex, and none of a vertex without an edge to it. -/
theorem WGraph.Multiples.binsFit (hmul : g.Multiples delta) (hdelta : 1 ≤ delta) :
    g.BinsFit source delta g.targets.card := by
  intro j
  have hvertex (v : Fin n) : (g.binWeights source delta j v).ncard ≤ if v ∈ g.targets then 1 else 0 := by
    split
    · rw [Set.ncard_le_one (g.finite_binWeights source delta j v)]
      have hbin {x : Nat} (hx : x ∈ g.binWeights source delta j v) : delta * j = x := by
        obtain ⟨-, -, hpath, rfl⟩ := hx
        exact mul_binOf_of_dvd (Int.natCast_nonneg x) hdelta (hmul.dvd_weight hpath)
      intro x hx y hy
      exact Int.natCast_inj.mp ((hbin hx).symm.trans (hbin hy))
    · next hv =>
      have hempty : g.binWeights source delta j v = ∅ := by
        apply Set.eq_empty_of_forall_notMem
        rintro x ⟨hne, -, hpath, -⟩
        obtain ⟨u, w, hw⟩ := hpath.exists_edge hne
        exact hv (mem_targets.mpr ⟨u, _, hw, rfl⟩)
      rw [hempty, Set.ncard_empty]
  calc ∑ v, (g.binWeights source delta j v).ncard
      ≤ ∑ v, if v ∈ g.targets then 1 else 0 := Finset.sum_le_sum fun v _ => hvertex v
    _ = g.targets.card := by rw [Finset.sum_ite_mem, Finset.univ_inter, Finset.card_eq_sum_ones]

theorem deltaStepIn_solo [NeZero T] (hg : g.WeightsOk) (hdelta : 1 ≤ delta) (hmul : g.Multiples delta)
    (hpos : 0 < room) (hroom : g.targets.card ≤ room) (s₀ : DeltaMem T n) :
    Solo (deltaStepIn room g source delta T) s₀.atCall fun r _ =>
      ∀ v, r v = (cappedDistance g.Edge source kDistInf v : Int) :=
  deltaStepIn_fits_solo hg hdelta hpos ((hmul.binsFit hdelta).mono hroom) s₀

/-- With weights that are multiples of `delta` the frontier never runs out of room, and `DeltaStep` returns
the distances, for every team and every interleaving. -/
theorem deltaStep_multiples {n T : Nat} [NeZero T] (g : WGraph n) (hg : g.WeightsOk)
    (hedges : g.out.neighbors.length = g.numEdgesDirected) (hpos : 0 < g.numEdgesDirected)
    (source : Fin n) (delta : Int) (hdelta : 1 ≤ delta) (hmul : g.Multiples delta) (s₀ : DeltaMem T n) :
    (deltaStep g source delta T).Correct s₀.atCall fun r _ =>
      ∀ v, r v = (cappedDistance g.Edge source kDistInf v : Int) :=
  (deltaStepIn_solo hg hdelta hmul hpos (g.card_targets_le.trans hedges.le) s₀).correct

theorem deltaStep_multiples_lowered :
    (deltaStep loweredGraph 0 1 3).Correct (DeltaMem.begun 1 : DeltaMem 3 7).atCall fun r _ =>
      ∀ v, r v = (cappedDistance loweredGraph.Edge 0 kDistInf v : Int) :=
  deltaStep_multiples loweredGraph (by decide) rfl (by decide) 0 1 le_rfl loweredGraph.multiples_one _

end Gapbs
