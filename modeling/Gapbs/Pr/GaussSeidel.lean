import Gapbs.Pr.Jacobi

/-!
# `PageRankPullGS`

A sweep replaces scores and contributions while other vertices are still reading them.  Whatever the
order, every read sees a contribution from before or after its only update in the sweep, and that is
enough to bound the residual of the new scores by the total change of the scores.
-/

namespace Gapbs

open Conc RankFlow

variable {n : ℕ}

/-- `outgoing_contrib[v]`; an update of this sweep that some thread has already made may not be
visible to another thread yet. -/
def readContrib (before : Fin n → Option ℚ) (v : Fin n) : Prog (PrMem n) ℚ := do
  let visible ← .pick true
  .loadAt fun m => if visible then m.outgoingContrib v else before v

/-- One iteration; it returns the error. -/
def gaussSeidelSweep (T : ℕ) [NeZero T] (g : Graph n) (kDamp : ℚ) : Prog (PrMem n) ℚ := do
  let before ← .load PrMem.outgoingContrib
  .parallelSum T n fun u error => do
    let total ← incomingTotal g (readContrib before) u
    let error ← updateScore kDamp u total error
    writeContrib g u
    return error

/-- The kernel; it returns whether it left the loop because the error was small. -/
def pageRankPullGS (T : ℕ) [NeZero T] (g : Graph n) (kDamp : ℚ) (maxIters : ℕ) (epsilon : ℚ) :
    Prog (PrMem n) Bool := do
  fillScores T n
  .parallelFor T n fun v => .store fun m => m.setContrib v (quotient (initScore n) (g.outDegree v))
  let run ← .forBreak (List.range maxIters) () fun _ _ => do
    let error ← gaussSeidelSweep T g kDamp
    if error < epsilon then
      return .inr ()
    return .inl ()
  match run with
  | .inl _ => return false
  | .inr _ => return true

/-- Between two sweeps the contributions are those of the scores. -/
def Fresh (g : Graph n) (m : PrMem n) : Prop :=
  ∀ v, m.outgoingContrib v = quotient (m.scores v) (g.outDegree v)

/-- What the update of `j` may do to the memory: it changes the score and the contribution of `j`, the
latter only once, and not to a quotient by zero if `j` has an outgoing edge. -/
structure UpdateStep (g : Graph n) (s : PrMem n) (j : Fin n) (m m' : PrMem n) : Prop where
  scores : ∀ k, k ≠ j → m'.scores k = m.scores k
  contrib : ∀ k, k ≠ j → m'.outgoingContrib k = m.outgoingContrib k
  once : m'.outgoingContrib j = m.outgoingContrib j ∨ m.outgoingContrib j = s.outgoingContrib j
  defined : g.outDegree j ≠ 0 → m.outgoingContrib j ≠ none → m'.outgoingContrib j ≠ none

/-- What a read of this sweep may see. -/
def Seen (s : PrMem n) (v : Fin n) (c : ℚ) (m : PrMem n) : Prop :=
  s.outgoingContrib v = some c ∨ m.outgoingContrib v = some c

/-- No contribution that may be read is a quotient by zero. -/
def Readable (g : Graph n) (m : PrMem n) : Prop := ∀ v, g.outDegree v ≠ 0 → m.outgoingContrib v ≠ none

section Sweep

variable {g : Graph n} {s m m' : PrMem n} {j v : Fin n} {c : ℚ}

theorem Seen.step (h : Seen s v c m) (hstep : UpdateStep g s j m m') : Seen s v c m' := by
  rcases h with hold | hnow
  · exact .inl hold
  by_cases hvj : v = j
  · subst hvj
    rcases hstep.once with hsame | hold
    · exact .inr (hsame.trans hnow)
    · exact .inl (hold.symm.trans hnow)
  · exact .inr ((hstep.contrib v hvj).trans hnow)

theorem Readable.step (h : Readable g m) (hstep : UpdateStep g s j m m') : Readable g m' := by
  intro v hv
  by_cases hvj : v = j
  · subst hvj
    exact hstep.defined hv (h v hv)
  · rw [hstep.contrib v hvj]
    exact h v hv

theorem Fresh.readable (h : Fresh g m) : Readable g m := by
  intro v hv
  rw [h v, quotient, if_neg hv]
  exact Option.some_ne_none _

theorem updateStep_setScore (g : Graph n) (s m : PrMem n) (u : Fin n) (x : ℚ) :
    UpdateStep g s u m (m.setScore u x) :=
  ⟨fun _ hk => m.setScore_of_ne hk x, fun _ _ => rfl, .inl rfl, fun _ h => h⟩

theorem updateStep_setContrib {u : Fin n} (hold : m.outgoingContrib u = s.outgoingContrib u) (x : ℚ) :
    UpdateStep g s u m (m.setContrib u (quotient x (g.outDegree u))) := by
  refine ⟨fun _ _ => rfl, fun _ hk => m.setContrib_of_ne hk _, .inr hold, fun hdeg _ => ?_⟩
  rw [PrMem.setContrib_self, quotient, if_neg hdeg]
  exact Option.some_ne_none _

/-- The score of `u` was computed from these reads. -/
def ReadsOf (g : Graph n) (s : PrMem n) (u : Fin n) (reads : List ℚ) (m : PrMem n) : Prop :=
  List.Forall₂ (fun v c => Seen s v c m) (g.inNeigh u) reads

theorem ReadsOf.step {u : Fin n} {reads : List ℚ} (h : ReadsOf g s u reads m)
    (hstep : UpdateStep g s j m m') : ReadsOf g s u reads m' :=
  List.Forall₂.imp (fun _ _ hseen => hseen.step hstep) h

/-- What the update of `u` has done, when it has changed the score by `x`. -/
structure Updated (g : Graph n) (kDamp : ℚ) (s : PrMem n) (u : Fin n) (x : ℚ) (m : PrMem n) : Prop where
  change : x = |m.scores u - s.scores u|
  contrib : m.outgoingContrib u = quotient (m.scores u) (g.outDegree u)
  reads : ∃ reads, ReadsOf g s u reads m ∧ m.scores u = baseScore kDamp n + kDamp * reads.sum

theorem Updated.other {kDamp x : ℚ} {u : Fin n} (hj : u ≠ j) (h : Updated g kDamp s u x m)
    (hstep : UpdateStep g s j m m') : Updated g kDamp s u x m' := by
  have hscore := hstep.scores u hj
  obtain ⟨reads, hreads, hsum⟩ := h.reads
  refine ⟨?_, ?_, reads, hreads.step hstep, hscore.trans hsum⟩
  · rw [hscore]
    exact h.change
  · rw [hstep.contrib u hj, hscore]
    exact h.contrib

/-! ## One update -/

/-- What holds while `u` is read and updated, apart from its own score and contribution. -/
def Reading (g : Graph n) (s : PrMem n) (u : Fin n) (reads : List ℚ) (score : ℚ) (m : PrMem n) : Prop :=
  Readable g m ∧ m.outgoingContrib u = s.outgoingContrib u ∧ m.scores u = score ∧ ReadsOf g s u reads m

theorem Reading.other {u : Fin n} {reads : List ℚ} {score : ℚ} (hj : j ≠ u)
    (h : Reading g s u reads score m) (hstep : UpdateStep g s j m m') : Reading g s u reads score m' :=
  ⟨h.1.step hstep, (hstep.contrib u hj.symm).trans h.2.1, (hstep.scores u hj.symm).trans h.2.2.1,
    h.2.2.2.step hstep⟩

theorem readContrib_wp (hg : g.TransposedEdges) (hs : Readable g s) {u : Fin n} (hv : v ∈ g.inNeigh u)
    {I : PrMem n → Prop} (hI : ∀ m, I m → Readable g m)
    (hother : ∀ j, j ≠ u → ∀ m m', I m → UpdateStep g s j m m' → I m') {σ : PrMem n × Unit} (hσ : I σ.1) :
    WP (fun σ τ => ∃ j, j ≠ u ∧ UpdateStep g s j σ.1 τ.1) (fun _ _ => False)
      (fun c τ => I τ.1 ∧ Seen s v c τ.1) (readContrib s.outgoingContrib v) σ := by
  have hdeg : g.outDegree v ≠ 0 := by
    rw [← g.length_outNeigh]
    exact (List.length_pos_of_mem (hg.edge hv)).ne'
  have hread (c : ℚ) : ∀ j, j ≠ u → ∀ m m', I m ∧ Seen s v c m → UpdateStep g s j m m' →
      I m' ∧ Seen s v c m' := fun j hj m m' h hstep => ⟨hother j hj m m' h.1 hstep, h.2.step hstep⟩
  apply WP.pick_bind
  intro visible
  apply WP.op (P := fun σ => I σ.1) hσ (stable_others hother) fun c => stable_others (hread c)
  intro m _ hm
  cases visible with
  -- the newest contribution: that of before the sweep or of its only update
  | true =>
    obtain ⟨c, hc⟩ := Option.ne_none_iff_exists'.mp (hI m hm v hdeg)
    exact ⟨c, m, (), by simp [hc], .inl rfl, hm, .inr hc⟩
  | false =>
    obtain ⟨c, hc⟩ := Option.ne_none_iff_exists'.mp (hs v hdeg)
    exact ⟨c, m, (), by simp [hc], .inl rfl, hm, .inl hc⟩

theorem writeContrib_wp {kDamp score : ℚ} {u : Fin n} {reads : List ℚ}
    (hscore : score = baseScore kDamp n + kDamp * reads.sum) {σ : PrMem n × Unit}
    (hσ : Reading g s u reads score σ.1) :
    WP (fun σ τ => ∃ j, j ≠ u ∧ UpdateStep g s j σ.1 τ.1) (fun σ τ => UpdateStep g s u σ.1 τ.1)
      (fun _ τ => Updated g kDamp s u |score - s.scores u| τ.1) (writeContrib g u) σ := by
  have hother : ∀ j, j ≠ u → ∀ m m', Reading g s u reads score m → UpdateStep g s j m m' →
      Reading g s u reads score m' := fun j hj m m' h hstep => h.other hj hstep
  have hdone : ∀ j, j ≠ u → ∀ m m', Updated g kDamp s u |score - s.scores u| m →
      UpdateStep g s j m m' → Updated g kDamp s u |score - s.scores u| m' :=
    fun j hj m m' h hstep => h.other hj.symm hstep
  apply WP.load_bind (P := fun σ => Reading g s u reads score σ.1) hσ (stable_others hother)
  intro m _ hm
  have hnow : m.scores u = score := hm.2.2.1
  rw [hnow]
  apply WP.store (P := fun σ => Reading g s u reads score σ.1) hm (stable_others hother)
    fun _ => stable_others hdone
  rintro m _ ⟨-, hold, hnow, hreads⟩
  -- this is the only change of the contribution, so what was read of it before is the old one
  have hstep : UpdateStep g s u m (m.setContrib u (quotient score (g.outDegree u))) :=
    updateStep_setContrib hold score
  refine ⟨(), .inr hstep, ?_, ?_, reads, hreads.step hstep, hnow.trans hscore⟩
  · exact congrArg (|· - s.scores u|) hnow.symm
  · exact (m.setContrib_self u _).trans (congrArg (quotient · _) hnow.symm)

theorem update_wp (hg : g.TransposedEdges) (hs : Readable g s) (kDamp : ℚ) (u : Fin n) (error : ℚ)
    (hm : Readable g m) (hscore : m.scores u = s.scores u)
    (hcontrib : m.outgoingContrib u = s.outgoingContrib u) :
    WP (Γ := Unit) (fun σ τ => ∃ j, j ≠ u ∧ UpdateStep g s j σ.1 τ.1)
      (fun σ τ => UpdateStep g s u σ.1 τ.1)
      (fun y σ => ∃ x, y = error + x ∧ Updated g kDamp s u x σ.1)
      ((incomingTotal g (readContrib s.outgoingContrib) u).bind fun total =>
        (updateScore kDamp u total error).bind fun error =>
          (writeContrib g u).bind fun _ => .ret error) (m, ()) := by
  -- while `u` sums up, the others leave its own score and contribution alone
  let Idle (m : PrMem n) : Prop :=
    Readable g m ∧ m.outgoingContrib u = s.outgoingContrib u ∧ m.scores u = s.scores u
  have hidle : ∀ j, j ≠ u → ∀ m m', Idle m → UpdateStep g s j m m' → Idle m' := fun j hj m m' h hstep =>
    ⟨h.1.step hstep, (hstep.contrib u hj.symm).trans h.2.1, (hstep.scores u hj.symm).trans h.2.2⟩
  have hother (reads : List ℚ) (score : ℚ) : ∀ j, j ≠ u → ∀ m m', Reading g s u reads score m →
      UpdateStep g s j m m' → Reading g s u reads score m' := fun j hj m m' h hstep => h.other hj hstep
  apply WP.bind
  apply (incomingTotal_wp (fun σ => Idle σ.1) (fun v c σ => Seen s v c σ.1) ⟨hm, hcontrib, hscore⟩
    (stable_others hidle) (fun v c σ τ _ h ⟨_, _, hstep⟩ => h.step hstep)
    fun v σ hv hσ => readContrib_wp hg hs hv (fun m h => h.1) hidle hσ).mono
  rintro total ⟨m, ⟨⟩⟩ ⟨⟨hm, hcontrib, hscore⟩, reads, rfl, hreads⟩
  generalize hnew : baseScore kDamp n + kDamp * reads.sum = new
  apply WP.bind
  apply (updateScore_wp (fun σ => Reading g s u reads (s.scores u) σ.1) (fun σ => Reading g s u reads new σ.1)
    ⟨hm, hcontrib, hscore, hreads⟩ (stable_others (hother _ _)) (stable_others (hother _ _))
    (fun _ h => h.2.2.1) (fun _ h => h.2.2.1.trans hnew.symm) ?_).mono
  · rintro y σ ⟨rfl, hσ⟩
    apply WP.bind
    apply (writeContrib_wp hnew.symm hσ).mono
    intro _ τ hτ
    refine WP.ret ⟨_, by rw [hnew], hτ⟩ ?_
    rintro σ τ ⟨x, hx, hupdated⟩ ⟨j, hj, hstep⟩
    exact ⟨x, hx, hupdated.other hj.symm hstep⟩
  · rintro m _ ⟨hm, hcontrib, -, hreads⟩
    rw [hnew]
    have hstep := updateStep_setScore g s m u new
    exact ⟨(), hstep, hm.step hstep, hcontrib, m.setScore_self u new, hreads.step hstep⟩

/-! ## A sweep and a run -/

/-- What a sweep does, in terms of the scores before and after it: it computes every score from a
mixture of old and new contributions. -/
structure Swept (g : Graph n) (kDamp : ℚ) (s m : PrMem n) : Prop where
  fresh : Fresh g m
  reads : ∀ u, ∃ reads, List.Forall₂ (fun v c => c = contrib g s.scores v ∨ c = contrib g m.scores v)
    (g.inNeigh u) reads ∧ m.scores u = baseScore kDamp n + kDamp * reads.sum

theorem Fresh.eq_contrib (h : Fresh g m) (hg : g.TransposedEdges) {u : Fin n} (hv : v ∈ g.inNeigh u)
    (hc : m.outgoingContrib v = some c) : c = contrib g m.scores v := by
  rw [h v, quotient_of_edge (hg.edge hv)] at hc
  exact (Option.some_inj.mp hc).symm

theorem gaussSeidelSweep_solo {T : ℕ} [NeZero T] (hg : g.TransposedEdges) (kDamp : ℚ) (hs : Fresh g s) :
    Solo (gaussSeidelSweep T g kDamp) s fun error m =>
      Swept g kDamp s m ∧ error = change s.scores m.scores := by
  have hsep (val : Fin n → ℚ) : Separate (UpdateStep g s) (Readable g)
      (fun u m => m.scores u = s.scores u ∧ m.outgoingContrib u = s.outgoingContrib u)
      fun u => Updated g kDamp s u (val u) := by
    refine ⟨fun _ _ _ h hstep => h.step hstep, ?_, fun u j _ _ hj _ h hstep => h.other hj hstep⟩
    exact fun u j _ _ hj _ h hstep => ⟨(hstep.scores u hj).trans h.1, (hstep.contrib u hj).trans h.2⟩
  apply Solo.load_bind
  apply (Solo.parallelSum (UpdateStep g s) (Readable g) _ hsep hs.readable (fun _ => ⟨rfl, rfl⟩)
    fun u error m hm hpre => update_wp hg hs.readable kDamp u error hm hpre.1 hpre.2).mono
  rintro error m ⟨val, herror, -, hpost⟩
  have hfresh : Fresh g m := fun u => (hpost u).contrib
  refine ⟨⟨hfresh, fun u => ?_⟩, herror.trans ?_⟩
  · obtain ⟨reads, hreads, hscore⟩ := (hpost u).reads
    -- every vertex that is read has an outgoing edge, so that its quotient is a contribution
    have hedges := (List.forall₂_and_left (g.inNeigh u) reads).mpr ⟨fun v hv => hv, hreads⟩
    refine ⟨reads, List.Forall₂.imp ?_ hedges, hscore⟩
    rintro v c ⟨hv, hc⟩
    exact hc.imp (hs.eq_contrib hg hv) (hfresh.eq_contrib hg hv)
  · exact Finset.sum_congr rfl fun u _ => (hpost u).change

/-- A sweep is a mixture in the sense of the library. -/
theorem Swept.mixes {kDamp : ℚ} (h : Swept g kDamp s m) :
    ∃ reads, Mixes (fun u => g.outNeigh u) (fun v => g.inNeigh v) (fun _ => baseScore kDamp n) kDamp
      s.scores m.scores reads := by
  choose reads hreads hscore using h.reads
  exact ⟨reads, hreads, hscore⟩

/-- The residual of the new scores is smaller than the change that the sweep has measured. -/
theorem Swept.residual_le {kDamp : ℚ} (hg : g.TransposedEdges) (hpos : 0 < kDamp)
    (h : Swept g kDamp s m) :
    change m.scores (nextScores g kDamp m.scores) ≤ kDamp * change s.scores m.scores := by
  obtain ⟨reads, hmixes⟩ := h.mixes
  exact hmixes.residual_le_change hg hpos.le

theorem initContribs_solo {T : ℕ} [NeZero T] (hs : ∀ v, s.scores v = initScore n) :
    Solo (.parallelFor T n fun v => .store fun m =>
      m.setContrib v (quotient (initScore n) (g.outDegree v))) s fun _ m =>
      m.scores = s.scores ∧ Fresh g m := by
  have hfill := Solo.parallelFor_store_rest (T := T) (s := s) (fun v m => m.setContrib v _)
    PrMem.outgoingContrib PrMem.scores (fun v => quotient (initScore n) (g.outDegree v))
    (fun v m => m.setContrib_self v _) (fun _ _ m hk => m.setContrib_of_ne hk _) fun _ _ => rfl
  apply hfill.mono
  rintro - m ⟨hscores, hcontrib⟩
  refine ⟨hscores, fun v => ?_⟩
  rw [hcontrib v, hscores, hs v]

end Sweep

/-- A run that leaves its loop because of the error returns scores that the verifier accepts, and no
run reads a quotient by zero. -/
theorem pageRankPullGS_correct (T : ℕ) [NeZero T] (g : Graph n) (hg : g.TransposedEdges) (kDamp : ℚ)
    (hpos : 0 < kDamp) (hlt : kDamp < 1) (maxIters : ℕ) (epsilon : ℚ) (s : PrMem n) :
    (pageRankPullGS T g kDamp maxIters epsilon).Correct s fun converged m =>
      converged = true → prVerifier g kDamp m.scores epsilon = some true := by
  apply Solo.correct
  apply Solo.bind
  apply (fillScores_solo s).mono
  intro _ m hm
  apply Solo.bind
  apply (initContribs_solo hm).mono
  rintro _ m ⟨-, hm⟩
  apply Solo.bind
  apply (Solo.forBreak (fun _ _ m => Fresh g m)
    (fun _ m => prVerifier g kDamp m.scores epsilon = some true) hm ?_).mono
  · rintro (_ | _) m h
    · exact Solo.ret nofun
    · exact Solo.ret fun _ => h
  · intro pre i post _ m _ hm
    apply Solo.bind
    apply (gaussSeidelSweep_solo hg kDamp hm).mono
    rintro error m' ⟨hswept, rfl⟩
    split
    · next herror =>
      apply Solo.ret
      rw [prVerifier_eq_change hg, Option.some_inj, decide_eq_true_iff]
      calc change m'.scores (nextScores g kDamp m'.scores)
          ≤ kDamp * change m.scores m'.scores := hswept.residual_le hg hpos
        _ ≤ change m.scores m'.scores := mul_le_of_le_one_left (change_nonneg _ _) hlt.le
        _ < epsilon := herror
    · exact Solo.ret hswept.fresh

theorem pageRankPullGS_correct_dangling :
    (pageRankPullGS 2 danglingGraph (17 / 20) 20 (1 / 10000)).Correct ⟨fun _ => 0, fun _ => none⟩
      fun converged m => converged = true →
        prVerifier danglingGraph (17 / 20) m.scores (1 / 10000) = some true :=
  pageRankPullGS_correct 2 danglingGraph (by decide) (17 / 20) (by norm_num) (by norm_num) 20 (1 / 10000) _

end Gapbs
