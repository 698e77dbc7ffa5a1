import Gapbs.Bfs.Dobfs

/-!
# The ports agree

Which vertex becomes the parent of another depends on the schedule, and so does the order of the
queue.  The steps of a traversal do not: they are functions of the levels of the graph, and hence the
same in every port, for every team and in every interleaving.
-/

namespace Gapbs

open Conc HopDistance

variable {n : Nat} {g : Graph n} {source : Fin n}

theorem Sweeps.unique {beta maxBuIters old iters : Int} {k k₁ k₂ : Nat}
    {log₁ log₂ : List (StepRecord n)} (h₁ : Sweeps g source beta maxBuIters k old iters log₁ k₁)
    (h₂ : Sweeps g source beta maxBuIters k old iters log₂ k₂) : log₁ = log₂ ∧ k₁ = k₂ := by
  induction h₁ generalizing log₂ k₂ with
  | last h =>
    cases h₂ with
    | last _ => exact ⟨rfl, rfl⟩
    | again h' _ => rw [h] at h'; simp at h'
  | again h _ ih =>
    cases h₂ with
    | last h' => rw [h] at h'; simp at h'
    | again _ hrest =>
      obtain ⟨rfl, rfl⟩ := ih hrest
      exact ⟨rfl, rfl⟩

theorem Traversal.unique {alpha beta maxBuIters edges scout : Int} {k : Nat}
    {log₁ log₂ : List (StepRecord n)}
    (h₁ : Traversal g source alpha beta maxBuIters k edges scout log₁)
    (h₂ : Traversal g source alpha beta maxBuIters k edges scout log₂) : log₁ = log₂ := by
  induction h₁ generalizing log₂ with
  | done h =>
    cases h₂ with
    | done _ => rfl
    | topDown h' _ _ => exact absurd h h'
    | bottomUp h' _ _ _ => exact absurd h h'
  | topDown h hscout _ ih =>
    cases h₂ with
    | done h' => exact absurd h' h
    | topDown _ _ hrest => rw [ih hrest]
    | bottomUp _ hscout' _ _ => exact absurd hscout' hscout
  | bottomUp h hscout hsweeps _ ih =>
    cases h₂ with
    | done h' => exact absurd h' h
    | topDown _ hscout' _ => exact absurd hscout hscout'
    | bottomUp _ _ hsweeps' hrest =>
      obtain ⟨rfl, rfl⟩ := hsweeps.unique hsweeps'
      rw [ih hrest]

/-- `parent[v]` names `u`. -/
def NamesParent (parent : Fin n → Int) (v u : Fin n) : Prop := parent v = (u.val : Int)

/-- A vertex that cannot be reached has no depth. -/
theorem IsBfsTree.not_depth {parent : Fin n → Int} (h : IsBfsTree g source parent) {v : Fin n}
    (hv : ¬ Relation.ReflTransGen g.Edge source v) (k : Nat) :
    ¬ Depth (NamesParent parent) source v k := by
  have hpar := (h.unreached v).mpr hv
  intro hd
  cases hd with
  | root => exact hv .refl
  | child _ hu _ =>
    rw [NamesParent] at hu
    omega

/-- Two breadth-first trees of one source have the same vertices at the same depths. -/
theorem IsBfsTree.agree {parent parent' : Fin n → Int} (h : IsBfsTree g source parent)
    (h' : IsBfsTree g source parent') (v : Fin n) :
    (parent v = -1 ↔ parent' v = -1) ∧ ∀ k,
      Depth (NamesParent parent) source v k ↔ Depth (NamesParent parent') source v k := by
  have huniq (parent : Fin n → Int) (v u u' : Fin n) (hu : NamesParent parent v u)
      (hu' : NamesParent parent v u') : u = u' := by
    rw [NamesParent] at hu hu'
    omega
  refine ⟨(h.unreached v).trans (h'.unreached v).symm, fun k => ?_⟩
  by_cases hr : Relation.ReflTransGen g.Edge source v
  · exact (h.tree.depth_iff (huniq parent) hr).trans (h'.tree.depth_iff (huniq parent') hr).symm
  · exact iff_of_false (h.not_depth hr k) (h'.not_depth hr k)

/-- Two runs of `DOBFS`, in any ports, with any teams and in any interleavings: both end, with the
same steps and with arrays that differ in the choice of parents only. -/
theorem dobfs_agree {n : Nat} (g : Graph n) (hg : g.Transposed) (hdeg : ∀ v, g.outDegree v < 2 ^ 31)
    (source : Fin n) (alpha beta : Int) (halpha : 1 ≤ alpha) (hbeta : 1 ≤ beta) (maxBuIters : Int)
    (p p' : Port) (T T' : Nat) [NeZero T] [NeZero T'] (s₀ s₀' : BfsMem n) :
    (dobfs p T g source alpha beta maxBuIters).Correct s₀ fun log s =>
      (dobfs p' T' g source alpha beta maxBuIters).Correct s₀' fun log' s' =>
        log = log' ∧ ∀ v, (s.parent v = -1 ↔ s'.parent v = -1) ∧ ∀ k,
          Depth (NamesParent s.parent) source v k ↔ Depth (NamesParent s'.parent) source v k := by
  have hterm : Terminating g source alpha beta maxBuIters := terminating_of_pos halpha hbeta maxBuIters
  apply (Solo.mono (dobfs_solo p hg hdeg hterm s₀) _).correct
  rintro log s ⟨htree, hlog⟩
  apply (Solo.mono (dobfs_solo p' hg hdeg hterm s₀') _).correct
  rintro log' s' ⟨htree', hlog'⟩
  exact ⟨hlog.unique hlog', htree.agree htree'⟩

theorem dobfs_agree_pair :
    (dobfs .openMP 3 pairGraph 1 15 18 1).Correct (blankMem 2) fun log s =>
      (dobfs .caladan 2 pairGraph 1 15 18 1).Correct (blankMem 2) fun log' s' =>
        log = log' ∧ ∀ v, (s.parent v = -1 ↔ s'.parent v = -1) ∧ ∀ k,
          Depth (NamesParent s.parent) 1 v k ↔ Depth (NamesParent s'.parent) 1 v k :=
  dobfs_agree pairGraph (by decide) (by decide) 1 15 18 (by decide) (by decide) 1 .openMP .caladan
    3 2 (blankMem 2) (blankMem 2)

end Gapbs
