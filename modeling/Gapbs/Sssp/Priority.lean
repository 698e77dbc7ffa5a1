import Gapbs.Sssp.DeltaTurn

/-!
# The shortest-path kernel

Whatever the threads do in between, `DeltaStep` returns the distances; and from index to index it settles
them in order.
-/

namespace Gapbs

open Conc Prog Function ShortestPath

section

variable {n T : Nat} {g : WGraph n} {source : Fin n} {delta : Int}

/-- Where no bin is left, no edge lowers a distance any more. -/
theorem Ready.relaxed {bound iter : Nat} {s : DeltaMem T n}
    (h : Ready g source delta bound iter kMaxBin s) (hdelta : 1 ≤ delta) (u : Fin n) (wn : NodeWeight n)
    (hwn : wn ∈ g.outNeigh u) : s.dist wn.v ≤ s.dist u + wn.w := by
  rcases h.cover u wn hwn with hrelaxed | ⟨t, hbin⟩ | ⟨hindex, -⟩
  · exact hrelaxed
  · obtain ⟨hlt, hlow⟩ := h.bins t _ (List.ne_nil_of_mem hbin)
    have hmax := le_kMaxBin hdelta hlow
    omega
  · have hrange := h.sound.range u
    have hmax := le_kMaxBin hdelta ((mul_binOf_le hdelta hrange.1).trans hrange.2)
    omega

/-- The memory in front of the first turn. -/
def DeltaMem.begun (source : Fin n) : DeltaMem T n where
  dist := update (fun _ => kDistInf) source 0
  frontier := update (fun _ => none) 0 source
  sharedIndexes := ![0, kMaxBin]
  frontierTails := ![1, 0]
  localBins _ := []
  iter := some 0

theorem DeltaMem.begun_dist : (begun source : DeltaMem T n).dist source = 0 := by
  simp [begun]

theorem DeltaMem.begun_frontier : (begun source : DeltaMem T n).frontier 0 = some source := by
  simp [begun]

theorem ready_begun (hg : g.WeightsOk) :
    Ready g source delta (n * kDistInf) 0 0 (DeltaMem.begun source : DeltaMem T n) where
  iter := rfl
  sound := ⟨DeltaMem.begun_dist, start_range source, start_walk source⟩
  index := rfl
  next := rfl
  tail := rfl
  low := .inr (by simp)
  bins t j hj := absurd rfl hj
  frontier x hx := by
    obtain rfl : x = 0 := Nat.lt_one_iff.mp hx
    exact ⟨source, DeltaMem.begun_frontier⟩
  cover u wn hwn := by
    by_cases hu : u = source
    · subst hu
      refine .inr (.inr ⟨?_, 0, Nat.one_pos, DeltaMem.begun_frontier⟩)
      rw [DeltaMem.begun_dist, binOf]
      simp
    · exact .inl (start_relaxed hg hu hwn)
  count := by
    have hpotential : (DeltaMem.begun source : DeltaMem T n).potential ≤ n * kDistInf := by
      have hle := Finset.sum_le_card_nsmul Finset.univ
        (fun v => ((DeltaMem.begun source : DeltaMem T n).dist v).toNat) kDistInf fun v _ =>
          Int.toNat_le.mpr (start_range source v).2
      rwa [Finset.card_univ, Fintype.card_fin, smul_eq_mul] at hle
    have hempty : ∑ t, binEntries ((DeltaMem.begun source : DeltaMem T n).localBins t) = 0 :=
      Finset.sum_eq_zero fun t _ => rfl
    omega

theorem deltaStepIn_within [NeZero T] {room : Nat} (hg : g.WeightsOk) (hdelta : 1 ≤ delta)
    (hroom : n * kDistInf ≤ room) (s₀ : DeltaMem T n) :
    Within (PriorityStep delta) (deltaStepIn room g source delta T) s₀.atCall fun r s =>
      r = s.dist ∧ ∀ v, r v = cappedDistance g.Edge source kDistInf v := by
  have houtside {s s' : DeltaMem T n} (hs : s.iter = none) (hs' : s'.iter = none) : PriorityStep delta s s' :=
    .of_outside hs fun iter hi => by
      rw [hs'] at hi
      cases hi
  have hpos : 0 < room := by
    have hn := source.pos
    have hcap : n * 1 ≤ n * kDistInf := Nat.mul_le_mul_left n (by decide)
    omega
  apply Within.store_bind (houtside rfl rfl)
  apply Within.store_bind (houtside rfl rfl)
  apply Within.store_bind (houtside rfl rfl)
  apply Within.store_bind (houtside rfl rfl)
  apply Within.store_bind (houtside rfl rfl)
  refine Within.storeAt_bind (if_pos hpos) (houtside rfl rfl) ?_
  have hready : Ready g source delta (n * kDistInf) 0 0 (DeltaMem.begun source : DeltaMem T n) := ready_begun hg
  apply Within.store_bind (.of_outside rfl (hready.leads (Nat.zero_le _)))
  apply Within.iter_bind (fun _ s => ∃ i k, Ready g source delta (n * kDistInf) i k s) (fun _ s => s.left)
    ⟨0, 0, hready⟩
  rintro ⟨⟩ s ⟨i, k, hs⟩
  apply (hs.deltaTurn_within hg hdelta hroom).mono
  rintro (⟨⟩ | ⟨⟩) s'
  · rintro ⟨⟨j, hs'⟩, hlt⟩
    exact ⟨⟨i + 1, j, hs'⟩, hlt⟩
  · rintro ⟨rfl, rfl⟩
    have hlabels := eq_cappedDistance hs.sound.root hs.sound.range hs.sound.walk (hs.relaxed hdelta)
    exact Within.load ⟨rfl, hlabels⟩

end

/-- `DeltaStep` returns the distances, cut off at `kDistInf`, if its frontier is large enough. -/
theorem deltaStepIn_correct {n T : Nat} [NeZero T] (g : WGraph n) (hg : g.WeightsOk) (source : Fin n)
    (delta : Int) (hdelta : 1 ≤ delta) (room : Nat) (hroom : n * kDistInf ≤ room) (s₀ : DeltaMem T n) :
    (deltaStepIn room g source delta T).Correct s₀.atCall fun r _ =>
      ∀ v, r v = (cappedDistance g.Edge source kDistInf v : Int) :=
  ((deltaStepIn_within hg hdelta hroom s₀).mono fun _ _ h => h.2).solo.correct

theorem deltaStepIn_correct_edge :
    (deltaStepIn (2 * kDistInf) edgeGraph 0 3 2).Correct (DeltaMem.begun 1 : DeltaMem 2 2).atCall fun r _ =>
      ∀ v, r v = (cappedDistance edgeGraph.Edge 0 kDistInf v : Int) :=
  deltaStepIn_correct edgeGraph (by decide) 0 3 (by decide) _ le_rfl _

/-! ## The order of the bins -/

section

variable {n T : Nat}

/-- The threads work on index `k`. -/
def DeltaMem.Processing (k : Nat) (s : DeltaMem T n) : Prop :=
  ∃ iter, s.iter = some iter ∧ s.sharedIndexes (parity iter) = k ∧ k ≠ kMaxBin

/-- From the moment on at which index `k` is worked on, the indexes are not below `k`, and the distances
below `delta * k` are final. -/
structure SettlesInOrder (delta : Int) (p : Prog (DeltaMem T n) (Fin n → Int)) (s₀ : DeltaMem T n) :
    Prop where
  indexes : ∀ q s k q' s' k', Reach (p, s₀) (q, s) → s.Processing k → Reach (q, s) (q', s') →
    s'.Processing k' → k ≤ k'
  settled : ∀ q s k q' s', Reach (p, s₀) (q, s) → s.Processing k → Reach (q, s) (q', s') →
    ∀ v, s.dist v < delta * k → s'.dist v = s.dist v
  writes : ∀ q s k q' s' q'' s'', Reach (p, s₀) (q, s) → s.Processing k → Reach (q, s) (q', s') →
    Step q' s' q'' s'' → ∀ v, s''.dist v ≠ s'.dist v → delta * k ≤ s''.dist v
  result : ∀ q s k r s', Reach (p, s₀) (q, s) → s.Processing k → Reach (q, s) (.ret r, s') →
    ∀ v, s.dist v < delta * k → r v = s.dist v

theorem DeltaMem.Processing.eq_least {k : Nat} {s : DeltaMem T n} (h : s.Processing k) (hleads : s.Leads) :
    k = s.least := by
  obtain ⟨iter, hiter, hindex, hne⟩ := h
  rcases hleads iter hiter with heq | hmax
  · rw [← hindex, heq]
  · exact absurd (hindex.symm.trans hmax) hne

theorem DeltaMem.Processing.inside {k : Nat} {s : DeltaMem T n} (h : s.Processing k) : s.iter.isSome := by
  obtain ⟨iter, hiter, -⟩ := h
  rw [hiter]
  rfl

/-- What holds from the moment on at which index `k` is worked on, when the distances are `dist`. -/
structure SettledBelow (delta : Int) (k : Nat) (dist : Fin n → Int) (s : DeltaMem T n) : Prop where
  leads : s.Leads
  inside : s.iter.isSome
  index : k ≤ s.least
  settled : ∀ v, dist v < delta * k → s.dist v = dist v

theorem SettledBelow.mul_le {delta : Int} (hdelta : 1 ≤ delta) {k : Nat} {dist : Fin n → Int} {s : DeltaMem T n}
    (h : SettledBelow delta k dist s) : delta * k ≤ delta * s.least :=
  Int.mul_le_mul_of_nonneg_left (Int.ofNat_le.mpr h.index) (by omega)

theorem SettledBelow.step {delta : Int} (hdelta : 1 ≤ delta) {k : Nat} {dist : Fin n → Int} {s s' : DeltaMem T n}
    (hstep : PriorityStep delta s s') (h : SettledBelow delta k dist s) : SettledBelow delta k dist s' := by
  refine ⟨hstep.leads h.leads, hstep.iter h.inside, h.index.trans (hstep.least h.inside h.leads), fun v hv => ?_⟩
  have hold := h.settled v hv
  rcases hstep.dist h.inside h.leads v with heq | ⟨hlt, hge⟩
  · exact heq.trans hold
  · have hle := h.mul_le hdelta
    omega

/-- What keeps the priorities in every step settles the distances in order. -/
theorem SettlesInOrder.of_throughout {delta : Int} (hdelta : 1 ≤ delta)
    {p : Prog (DeltaMem T n) (Fin n → Int)} {s₀ : DeltaMem T n} (hstart : s₀.Leads)
    (h : Throughout False (PriorityStep delta) p s₀ fun r s => r = s.dist) :
    SettlesInOrder delta p s₀ := by
  have hleads {q : Prog (DeltaMem T n) (Fin n → Int)} {s : DeltaMem T n} (hr : Reach (p, s₀) (q, s)) :
      s.Leads := h.invariant (fun _ _ hstep => hstep.leads) hstart hr
  have hsettled {q q' : Prog (DeltaMem T n) (Fin n → Int)} {s s' : DeltaMem T n} {k : Nat}
      (hr : Reach (p, s₀) (q, s)) (hk : s.Processing k) (hr' : Reach (q, s) (q', s')) :
      SettledBelow delta k s.dist s' := by
    have hnow : SettledBelow delta k s.dist s :=
      ⟨hleads hr, hk.inside, (hk.eq_least (hleads hr)).le, fun _ _ => rfl⟩
    exact (h.rest hr).invariant (fun _ _ hstep => SettledBelow.step hdelta hstep) hnow hr'
  refine ⟨fun q s k q' s' k' hr hk hr' hk' => ?_, fun q s k q' s' hr hk hr' => ?_,
    fun q s k q' s' q'' s'' hr hk hr' hs v hne => ?_, fun q s k r s' hr hk hr' v hv => ?_⟩
  · have hlater := hsettled hr hk hr'
    exact hlater.index.trans (hk'.eq_least hlater.leads).ge
  · exact (hsettled hr hk hr').settled
  · have hlater := hsettled hr hk hr'
    rcases (h.acts q' s' q'' s'' (hr.trans hr') hs).dist hlater.inside hlater.leads v with heq | ⟨-, hge⟩
    · exact absurd heq hne
    · exact (hlater.mul_le hdelta).trans hge
  · rw [h.result r s' (hr.trans hr')]
    exact (hsettled hr hk hr').settled v hv

end

/-- The indexes that `DeltaStep` works on do not decrease, and what is below the index is settled. -/
theorem deltaStepIn_settlesInOrder {n T : Nat} [NeZero T] (g : WGraph n) (hg : g.WeightsOk)
    (source : Fin n) (delta : Int) (hdelta : 1 ≤ delta) (room : Nat) (hroom : n * kDistInf ≤ room)
    (s₀ : DeltaMem T n) : SettlesInOrder delta (deltaStepIn room g source delta T) s₀.atCall := by
  apply SettlesInOrder.of_throughout hdelta fun _ hi => by cases hi
  apply Throughout.of_within (PriorityStep.refl delta)
  exact (deltaStepIn_within hg hdelta hroom s₀).mono fun _ _ h => h.1

theorem deltaStepIn_settlesInOrder_edge :
    SettlesInOrder 3 (deltaStepIn (2 * kDistInf) edgeGraph 0 3 2) (DeltaMem.begun 1 : DeltaMem 2 2).atCall ∧
      ∃ q s, Reach (deltaStepIn (2 * kDistInf) edgeGraph 0 3 2, (DeltaMem.begun 1 : DeltaMem 2 2).atCall) (q, s) ∧
        s.Processing 2 := by
  refine ⟨deltaStepIn_settlesInOrder edgeGraph (by decide) 0 3 (by decide) _ le_rfl _, ?_⟩
  exact ⟨_, _, reach_run 46 _ _, 1, by decide +kernel, by decide +kernel, by decide⟩

end Gapbs
