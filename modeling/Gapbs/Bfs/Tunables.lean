import Gapbs.Bfs.Ports
import Gapbs.Conc.Throughout

/-!
# Which tunables let a traversal end

`main` passes `GAPBS_BFS_ALPHA`, `GAPBS_BFS_BETA` and `GAPBS_BFS_MAX_BU` on as they are.  With an alpha
of 0 the main loop divides by zero; a bottom-up phase divides by a beta of 0, and without a limit to its
steps it does not end when beta is negative and no larger than the number of vertices.  `Terminating`
is exactly what excludes these runs.
-/

namespace Gapbs

open Conc HopDistance

variable {n : Nat} {g : Graph n} {source : Fin n} {k k' : Nat}

/-! ## Phases that come to their end -/

/-- Without a limit and with a quotient below zero the bottom-up loop does not stop. -/
theorem buAgain_ne_stop {beta iters awake old : Int} (hbeta : ¬ (0 < beta ∨ beta < -n))
    (hawake : 0 ≤ awake) : buAgain n beta 0 iters awake old ≠ some false := by
  intro hstop
  simp only [buAgain, true_or, if_true] at hstop
  split at hstop
  · cases hstop
  · split at hstop
    · cases hstop
    · next hzero =>
      have hdiv : ¬ 0 ≤ Int.tdiv n beta := fun hnonneg => hbeta ((tdiv_nonneg_iff hzero).mp hnonneg)
      rw [Option.some.injEq, decide_eq_false_iff_not] at hstop
      omega

section

variable {beta maxBuIters old iters : Int} {log : List (StepRecord n)}

theorem Sweeps.bounded (h : Sweeps g source beta maxBuIters k old iters log k') :
    maxBuIters ≠ 0 ∨ 0 < beta ∨ beta < -n := by
  induction h with
  | last hstop =>
    by_contra hnot
    obtain ⟨hmax, hbeta⟩ := not_or.mp hnot
    rw [not_not.mp hmax] at hstop
    exact buAgain_ne_stop hbeta (Int.natCast_nonneg _) hstop
  | again _ _ ih => exact ih

/-- Before the limit is reached a division by zero is avoided only by levels that do not shrink. -/
theorem Sweeps.defined (hzero : beta = 0) (h : Sweeps g source beta maxBuIters k old iters log k') :
    old = (level g.Edge source k).card → 0 ≤ iters → ∀ j : Nat, iters + (j + 1) < maxBuIters →
      (level g.Edge source (k + j)).card ≤ (level g.Edge source (k + (j + 1))).card := by
  induction h with
  | last hstop =>
    intro _ _ j hj
    rw [buAgain, if_pos (.inr (by omega)), if_pos hzero] at hstop
    split at hstop <;> cases hstop
  | @again k k' old iters log hagain _ ih =>
    intro hold hiters j hj
    rw [buAgain, if_pos (.inr (by omega)), if_pos hzero] at hagain
    split at hagain
    · next hle =>
      cases j with
      | zero =>
        rw [hold] at hle
        exact_mod_cast hle
      | succ j =>
        have hstep := ih rfl (by omega) j (by push_cast at hj; omega)
        rwa [show k + 1 + j = k + (j + 1) by omega, show k + 1 + (j + 1) = k + (j + 1 + 1) by omega]
          at hstep
    · cases hagain

theorem Sweeps.phaseEnds
    (h : Sweeps g source beta maxBuIters k (level g.Edge source k).card 0 log k') :
    PhaseEnds g source beta maxBuIters k :=
  ⟨h.bounded, fun hzero j hj => h.defined hzero rfl le_rfl j (by omega)⟩

end

/-! ## Runs that return -/

section Returns

variable {T : Nat} [NeZero T] {alpha beta maxBuIters edges scout : Int} {log : List (StepRecord n)}
  {s : BfsMem n}

/-- What is said of the runs that return, whether or not there are others. -/
abbrev Returning {α : Type} (p : Prog (BfsMem n) α) (s : BfsMem n) (Q : α → BfsMem n → Prop) : Prop :=
  Throughout True (fun _ _ => True) p s Q

theorem buLoop_returns (p : Port) (hg : g.Transposed) (hdeg : ∀ v, g.outDegree v < 2 ^ 31)
    (h : SweepAt g source k s) :
    Returning (buLoop p T g beta maxBuIters (level g.Edge source k).card log) s fun _ _ =>
      PhaseEnds g source beta maxBuIters k := by
  apply Throughout.iter (fun _ => trivial) (fun x s =>
    ∃ j, Sweeping g source beta maxBuIters k log x.1 x.2.1 x.2.2 j s) ⟨0, sweeping_start h⟩
  rintro ⟨old, iters, log₁⟩ s₁ ⟨j, hs₁⟩
  apply Throughout.bind
  apply (Throughout.of_solo (observe_buStep_solo p hg hdeg hs₁.sweepAt)).mono
  rintro _ s₂ ⟨rfl, hswept⟩
  apply Throughout.store_bind trivial
  cases hagain : buAgain n beta maxBuIters (iters + 1) (level g.Edge source (k + j + 1)).card old with
  | none => exact Throughout.fail trivial
  | some again =>
    cases again with
    | true => exact Throughout.ret ⟨j + 1, hs₁.again hswept hagain⟩
    | false =>
      obtain ⟨recs, -, hsweeps⟩ := hs₁.last hagain
      exact Throughout.ret hsweeps.phaseEnds

/-- A phase that does not come to its end is not left. -/
theorem buPhase_returns (p : Port) (hg : g.Transposed) (hdeg : ∀ v, g.outDegree v < 2 ^ 31)
    (hends : ¬ PhaseEnds g source beta maxBuIters k) (h : AtLevel g source k s) {α : Type}
    {rest : List (StepRecord n) → Prog (BfsMem n) α} {Q : α → BfsMem n → Prop} :
    Returning (do
        queueToBitmap p T
        let awakeCount ← .load fun s => (s.queue.size : Int)
        .store fun s => { s with queue := s.queue.slideWindow }
        let log ← buLoop p T g beta maxBuIters awakeCount log
        rest log) s Q := by
  obtain ⟨old, w, hq, hnodup, hold, hw⟩ := h.queue
  apply Throughout.bind
  apply (Throughout.of_solo (queueToBitmap_solo p (hq.holdsWindow hnodup))).mono
  rintro _ s₁ ⟨hrest, hbits⟩
  have hsweep := h.sweepAt hq hnodup hold hw hrest hbits
  have hsize : (s₁.queue.size : Int) = (level g.Edge source k).card := by
    rw [hrest]
    exact hq.size_eq hnodup hw
  apply Throughout.load_bind trivial
  apply Throughout.store_bind trivial
  rw [hsize]
  apply Throughout.bind
  apply (buLoop_returns p hg hdeg hsweep).mono
  exact fun _ _ hphase => absurd hphase hends

theorem dobfsTurn_returns (p : Port) (hg : g.Transposed) (hdeg : ∀ v, g.outDegree v < 2 ^ 31)
    (h : Traversing g source alpha beta maxBuIters edges scout log k s) :
    Returning (dobfsTurn p T g alpha beta maxBuIters edges scout log) s fun r s' => match r with
      | .inl x => alpha ≠ 0 ∧ ∃ k', Traversing g source alpha beta maxBuIters x.1 x.2.1 x.2.2 k' s'
      | .inr log => (alpha ≠ 0 ∨ level g.Edge source k = ∅) ∧
          Traversal g source alpha beta maxBuIters 0 g.numEdgesDirected (g.outDegree source) log := by
  by_cases hk : level g.Edge source k = ∅
  · apply Throughout.load_bind trivial
    rw [if_pos (h.atLevel.empty_iff.mpr hk)]
    have hlog := h.log [] (.done hk)
    rw [List.append_nil] at hlog
    exact Throughout.ret ⟨.inr hk, hlog⟩
  · have hempty : ¬ s.queue.empty = true := fun he => hk (h.atLevel.empty_iff.mp he)
    by_cases halpha : alpha = 0
    · apply Throughout.load_bind trivial
      rw [if_neg hempty, if_pos halpha]
      exact Throughout.fail trivial
    · by_cases hends : Int.tdiv edges alpha < scout → PhaseEnds g source beta maxBuIters k
      · apply (Throughout.of_solo (dobfsTurn_solo p hg hdeg halpha (fun _ => hends) h)).mono
        rintro (x | log') s' hx
        · exact ⟨halpha, hx.1⟩
        · obtain ⟨k', -, -, hlog⟩ := hx
          exact ⟨.inl halpha, hlog⟩
      · obtain ⟨hscout, hphase⟩ := Classical.not_imp.mp hends
        apply Throughout.load_bind trivial
        rw [if_neg hempty, if_neg halpha, if_pos hscout]
        exact buPhase_returns p hg hdeg hphase h.atLevel

theorem dobfs_returns (p : Port) (hg : g.Transposed) (hdeg : ∀ v, g.outDegree v < 2 ^ 31)
    (s₀ : BfsMem n) :
    Returning (dobfs p T g source alpha beta maxBuIters) s₀ fun log _ => alpha ≠ 0 ∧
      Traversal g source alpha beta maxBuIters 0 g.numEdgesDirected (g.outDegree source) log := by
  apply Throughout.bind
  apply (Throughout.of_solo (initParent_solo p g s₀)).mono
  rintro _ s₁ rfl
  apply Throughout.store_bind trivial
  apply Throughout.store_bind trivial
  refine Throughout.storeAt_bind (congrArg (Option.map _) (pushBack_new source)) trivial ?_
  apply Throughout.store_bind trivial
  apply Throughout.store_bind trivial
  apply Throughout.store_bind trivial
  apply Throughout.bind
  let Inv (x : Int × Int × List (StepRecord n)) (s : BfsMem n) : Prop :=
    ∃ k, (alpha ≠ 0 ∨ k = 0) ∧ Traversing g source alpha beta maxBuIters x.1 x.2.1 x.2.2 k s
  apply Throughout.iter (fun _ => trivial) Inv
    ⟨0, .inr rfl, atLevel_zero rfl (queueAt_source source) rfl, .start, fun _ h => h⟩
  rintro ⟨edges, scout, log⟩ s ⟨k, hk, hs⟩
  apply (dobfsTurn_returns p hg hdeg hs).mono
  rintro (x | log') s' h
  · obtain ⟨halpha, k', hs'⟩ := h
    exact ⟨k', .inl halpha, hs'⟩
  · obtain ⟨hend, hlog⟩ := h
    apply Throughout.bind
    apply (Throughout.of_solo (cleanupParent_solo p s')).mono
    intro _ _ _
    refine Throughout.ret ⟨?_, hlog⟩
    -- level 0 is not empty, so there has been a turn
    rcases hend with halpha | hempty
    · exact halpha
    · rcases hk with halpha | rfl
      · exact halpha
      · exact absurd (hempty ▸ mem_level_zero.mpr rfl) (Finset.notMem_empty source)

end Returns

/-! ## The exact condition -/

section

variable {alpha beta maxBuIters edges scout : Int} {log : List (StepRecord n)}

/-- The rest of a traversal, from a point to which its main loop comes. -/
theorem LoopHead.traversal (h : LoopHead g source alpha beta maxBuIters k edges scout)
    (ht : Traversal g source alpha beta maxBuIters 0 g.numEdgesDirected (g.outDegree source) log) :
    ∃ log', Traversal g source alpha beta maxBuIters k edges scout log' := by
  induction h with
  | start => exact ⟨log, ht⟩
  | topDown _ hk hscout ih =>
    obtain ⟨log', hlog'⟩ := ih
    cases hlog' with
    | done hempty => exact absurd hempty hk
    | topDown _ _ hrest => exact ⟨_, hrest⟩
    | bottomUp _ hscout' _ _ => exact absurd hscout' hscout
  | bottomUp _ hk hscout hsweeps ih =>
    obtain ⟨log', hlog'⟩ := ih
    cases hlog' with
    | done hempty => exact absurd hempty hk
    | topDown _ hscout' _ => exact absurd hscout hscout'
    | bottomUp _ _ hsweeps' hrest =>
      obtain ⟨-, rfl⟩ := hsweeps.unique hsweeps'
      exact ⟨_, hrest⟩

theorem Traversal.terminating (halpha : alpha ≠ 0)
    (ht : Traversal g source alpha beta maxBuIters 0 g.numEdgesDirected (g.outDegree source) log) :
    Terminating g source alpha beta maxBuIters := by
  refine ⟨halpha, fun k edges scout hhead hk hscout => ?_⟩
  obtain ⟨log', hlog'⟩ := hhead.traversal ht
  cases hlog' with
  | done hempty => exact absurd hempty hk
  | topDown _ hscout' _ => exact absurd hscout hscout'
  | bottomUp _ _ hsweeps _ => exact hsweeps.phaseEnds

/-- A traversal that ends has had the tunables for it. -/
theorem terminating_of_correct (p : Port) {T : Nat} [NeZero T] (hg : g.Transposed)
    (hdeg : ∀ v, g.outDegree v < 2 ^ 31) {s₀ : BfsMem n}
    (h : (dobfs p T g source alpha beta maxBuIters).Correct s₀ fun _ _ => True) :
    Terminating g source alpha beta maxBuIters := by
  obtain ⟨log, s, hr⟩ := h.returns .refl
  obtain ⟨halpha, ht⟩ := (dobfs_returns (T := T) p hg hdeg s₀).result log s hr
  exact ht.terminating halpha

end

/-- In all ports, for every team and every setting of the tunables: no interleaving divides by zero and
none is infinite if and only if alpha is not 0 and every bottom-up phase that the levels of the graph
lead to comes to its end. -/
theorem dobfs_terminates_iff {n : Nat} (g : Graph n) (hg : g.Transposed)
    (hdeg : ∀ v, g.outDegree v < 2 ^ 31) (source : Fin n) (p : Port) (T : Nat) [NeZero T]
    (alpha beta maxBuIters : Int) (s₀ : BfsMem n) :
    (dobfs p T g source alpha beta maxBuIters).Correct s₀ (fun _ _ => True) ↔
      Terminating g source alpha beta maxBuIters :=
  ⟨terminating_of_correct p hg hdeg,
    fun hterm => ((dobfs_solo p hg hdeg hterm s₀).mono fun _ _ _ => trivial).correct⟩

theorem dobfs_terminates_iff_pair :
    (dobfs .pthread 2 pairGraph 0 15 0 1).Correct (blankMem 2) (fun _ _ => True) ↔
      Terminating pairGraph 0 15 0 1 :=
  dobfs_terminates_iff pairGraph (by decide) (by decide) 0 .pthread 2 15 0 1 (blankMem 2)

/-- With an alpha of 0 the first turn divides by zero; with a beta of -1 and no limit the first bottom-up
phase does not end, and with a beta of 0 it divides by zero. -/
theorem dobfs_not_terminating :
    ¬ (dobfs .pthread 1 pairGraph 0 0 18 0).Correct (blankMem 2) (fun _ _ => True) ∧
      ¬ (dobfs .pthread 1 pairGraph 0 15 (-1) 0).Correct (blankMem 2) (fun _ _ => True) ∧
      ¬ (dobfs .pthread 1 pairGraph 0 15 0 0).Correct (blankMem 2) (fun _ _ => True) := by
  have hsource : level pairGraph.Edge 0 0 ≠ ∅ := Finset.singleton_ne_empty 0
  have hfirst {beta : Int} (h : Terminating pairGraph 0 15 beta 0) : PhaseEnds pairGraph 0 beta 0 0 :=
    h.phases 0 _ _ .start hsource (by decide)
  refine ⟨fun h => ?_, fun h => ?_, fun h => ?_⟩
  · exact (terminating_of_correct .pthread (by decide) (by decide) h).alpha_ne rfl
  · have hbounded := (hfirst (terminating_of_correct .pthread (by decide) (by decide) h)).bounded
    omega
  · have hbounded := (hfirst (terminating_of_correct .pthread (by decide) (by decide) h)).bounded
    omega

end Gapbs
