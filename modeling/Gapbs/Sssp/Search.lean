import Gapbs.Sssp.Relax

/-!
# A turn up to the first barrier

Every thread keeps the invariant of the turn through its part of the frontier, the rounds on its own bin and
its vote.
-/

namespace Gapbs

open Conc Function ShortestPath

variable {n T : Nat}

namespace Turn

variable {K : Turn T n} {t : Fin T} {D : Set (Fin n × NodeWeight n)} {p : Nat} {bins : List (List (Fin n))}

/-! ## One edge -/

/-- A thread that has read the distance `x` of the source of an edge; the target is not beyond `y`. -/
structure Attempts (K : Turn T n) (t : Fin T) (D : Set (Fin n × NodeWeight n)) (p : Nat)
    (bins : List (List (Fin n))) (u : Fin n) (wn : NodeWeight n) (x y : Int)
    (σ : DeltaMem T n × (Fin T → Hand n)) : Prop where
  inv : K.Searching σ
  owed : (σ.2 t).owed = none
  reading : (σ.2 t).reading = some (u, wn, x)
  due : (σ.2 t).due ⊆ D
  fresh : σ.1.potential < p ∨ σ.1.potential ≤ p ∧ σ.1.localBins t = bins
  le : σ.1.dist wn.v ≤ y

/-- A thread that has lowered the distance of `v` to `x` and has not yet put it into a bin. -/
structure Owes (K : Turn T n) (t : Fin T) (D : Set (Fin n × NodeWeight n)) (p : Nat) (v : Fin n) (x : Int)
    (σ : DeltaMem T n × (Fin T → Hand n)) : Prop where
  inv : K.Searching σ
  owed : (σ.2 t).owed = some (v, x)
  reading : (σ.2 t).reading = none
  due : (σ.2 t).due ⊆ D
  fresh : σ.1.potential < p
  low : K.floor ≤ σ.1.dist v

theorem Attempts.stable (u : Fin n) (wn : NodeWeight n) (x y : Int) :
    Stable (Rely K.Acts t) (K.Attempts t D p bins u wn x y) := by
  intro σ τ h ⟨r, hr, hact⟩
  have hhand := hact.hand t hr.symm
  have hle := hact.potential_le
  refine ⟨hact.keeps h.inv, hhand ▸ h.owed, hhand ▸ h.reading, hhand ▸ h.due, ?_, (hact.dist_le _).trans h.le⟩
  rw [hact.bins t hr.symm]
  exact h.fresh.imp (hle.trans_lt ·) fun hfresh => ⟨hle.trans hfresh.1, hfresh.2⟩

theorem Owes.stable (v : Fin n) (x : Int) : Stable (Rely K.Acts t) (K.Owes t D p v x) := by
  intro σ τ h ⟨r, hr, hact⟩
  have hhand := hact.hand t hr.symm
  exact ⟨hact.keeps h.inv, hhand ▸ h.owed, hhand ▸ h.reading, hhand ▸ h.due,
    hact.potential_le.trans_lt h.fresh, hact.floor_le h.low⟩

theorem Attempts.mono {u : Fin n} {wn : NodeWeight n} {x y z : Int} {σ : DeltaMem T n × (Fin T → Hand n)}
    (h : K.Attempts t D p bins u wn x y σ) (hz : σ.1.dist wn.v ≤ z) : K.Attempts t D p bins u wn x z σ :=
  { h with le := hz }

/-- A step of the thread that leaves all distances and bins as they are. -/
theorem Acts.of_hand {s : DeltaMem T n} {γ : Fin T → Hand n} {hand : Hand n}
    (h : K.Searching (s, update γ t hand)) : K.Acts t (s, γ) (s, update γ t hand) :=
  ⟨fun _ => h, fun _ hu => update_of_ne hu _ _, fun _ _ => rfl, fun _ => .inl rfl, le_rfl⟩

/-- The compare-and-swap succeeds. -/
theorem Attempts.lower {s : DeltaMem T n} {γ : Fin T → Hand n} {u : Fin n} {wn : NodeWeight n} {x y : Int}
    (h : K.Attempts t D p bins u wn x y (s, γ)) (hwn : wn ∈ K.g.outNeigh u) (hfloor : K.floor ≤ x)
    (hwalk : x = kDistInf ∨ Walk K.g.Edge K.source u x.toNat) (hlt : x + wn.w < s.dist wn.v) :
    K.Acts t (s, γ) (s.setDist wn.v (x + wn.w), update γ t ⟨(γ t).due, none, some (wn.v, x + wn.w)⟩) ∧
      K.Owes t D p wn.v (x + wn.w)
        (s.setDist wn.v (x + wn.w), update γ t ⟨(γ t).due, none, some (wn.v, x + wn.w)⟩) := by
  obtain ⟨hw, -⟩ := K.weights u wn hwn
  have hnonneg : 0 ≤ x := K.floor_nonneg.trans hfloor
  have hrange := h.inv.sound.range wn.v
  change 0 ≤ s.dist wn.v ∧ s.dist wn.v ≤ kDistInf at hrange
  have hsum : (x + wn.w).toNat = x.toNat + wn.w.toNat := Int.toNat_add hnonneg hw
  have hwalk' : Walk K.g.Edge K.source wn.v (x + wn.w).toNat := by
    rcases hwalk with hinf | hwalk
    · omega
    · have hE : K.g.Edge u wn.v wn.w.toNat := by
        show ⟨wn.v, (wn.w.toNat : Int)⟩ ∈ K.g.outNeigh u
        rwa [Int.toNat_of_nonneg hw]
      exact hsum ▸ hwalk.snoc hE
  have hread (u' : Fin n) (wn' : NodeWeight n) (y' : Int) (hreading : (γ t).reading = some (u', wn', y')) :
      wn'.v = wn.v ∧ x + wn.w = y' + wn'.w ∧ 0 ≤ wn'.w := by
    rw [h.reading] at hreading
    obtain ⟨rfl, hrest⟩ := Prod.mk.inj (Option.some.inj hreading)
    obtain ⟨rfl, rfl⟩ := Prod.mk.inj hrest
    exact ⟨rfl, rfl, hw⟩
  have hpotential : (s.setDist wn.v (x + wn.w)).potential < s.potential := sum_toNat_update_lt (by omega) hlt
  have hinv := h.inv.lower h.owed hread (by omega) hlt hwalk'
  have hself : update γ t ⟨(γ t).due, none, some (wn.v, x + wn.w)⟩ t = _ := update_self ..
  have hdist : (s.setDist wn.v (x + wn.w)).dist wn.v = x + wn.w := update_self ..
  refine ⟨⟨fun _ => hinv, fun _ hu => update_of_ne hu _ _, fun _ _ => rfl, fun v => ?_, le_rfl⟩,
    hinv, congrArg Hand.owed hself, congrArg Hand.reading hself, (congrArg Hand.due hself).le.trans h.due,
    ?_, ?_⟩
  · by_cases hv : v = wn.v
    · subst hv
      refine .inr ⟨hdist.trans_lt hlt, ?_⟩
      show _ ≤ (s.setDist wn.v (x + wn.w)).dist wn.v
      omega
    · exact .inl (update_of_ne hv _ _)
  · rcases h.fresh with hfresh | ⟨hfresh, -⟩
    · exact hpotential.trans hfresh
    · exact hpotential.trans_le hfresh
  · show _ ≤ (s.setDist wn.v (x + wn.w)).dist wn.v
    omega

/-- The vertex is put into its bin. -/
theorem Owes.push {s : DeltaMem T n} {γ : Fin T → Hand n} {v : Fin n} {x : Int}
    (h : K.Owes t D p v x (s, γ)) (bins : List (List (Fin n))) (hfloor : K.floor ≤ x) (hx : x ≤ kDistInf) :
    K.Acts t (s, γ) (s.setBins t (pushBin (s.localBins t) (binOf K.delta x) v),
        update γ t ⟨(γ t).due, (γ t).reading, none⟩) ∧
      K.Idle t D p bins (s.setBins t (pushBin (s.localBins t) (binOf K.delta x) v),
        update γ t ⟨(γ t).due, (γ t).reading, none⟩) := by
  have hinv := h.inv.push h.owed hfloor hx h.low
  have hself : update γ t ⟨(γ t).due, (γ t).reading, none⟩ t = _ := update_self ..
  refine ⟨⟨fun _ => hinv, fun _ hu => update_of_ne hu _ _, fun _ hu => update_of_ne hu _ _,
    fun _ => .inl rfl, le_rfl⟩, hinv, congrArg Hand.owed hself, fun u wn y hreading => ?_,
    (congrArg Hand.due hself).le.trans h.due, .inl h.fresh⟩
  have hnone : (γ t).reading = none := h.reading
  cases (hreading.symm.trans (congrArg Hand.reading hself)).trans hnone

/-- A turn of the loop around the compare-and-swap. -/
theorem attempt_wp {u : Fin n} {wn : NodeWeight n} {x y : Int} {σ : DeltaMem T n × (Fin T → Hand n)}
    (hwn : wn ∈ K.g.outNeigh u) (hfloor : K.floor ≤ x)
    (hwalk : x = kDistInf ∨ Walk K.g.Edge K.source u x.toNat) (h : K.Attempts t D p bins u wn x y σ) :
    WP (Rely K.Acts t) (K.Acts t) (fun r τ => match r with
      | .inl z => K.Attempts t D p bins u wn x z τ ∧ z.toNat < y.toNat
      | .inr _ => K.Idle t D p bins τ) (attempt t K.delta wn.v (x + wn.w) y) σ := by
  obtain ⟨hw, -⟩ := K.weights u wn hwn
  have hnonneg : 0 ≤ x := K.floor_nonneg.trans hfloor
  have hstable (r : Int ⊕ Unit) : Stable (Rely K.Acts t) fun τ => match r with
      | .inl z => K.Attempts t D p bins u wn x z τ ∧ z.toNat < y.toNat
      | .inr _ => K.Idle t D p bins τ := by
    cases r with
    | inl z => exact (Attempts.stable u wn x z).and fun _ _ hlt _ => hlt
    | inr _ => exact Idle.stable t D p bins
  unfold attempt
  by_cases hlt : x + wn.w < y
  · rw [if_pos hlt]
    apply WP.op_bind (P := K.Attempts t D p bins u wn x y) h (Attempts.stable u wn x y)
    intro s γ hs
    by_cases heq : s.dist wn.v = y
    · have hrange := hs.inv.sound.range wn.v
      change 0 ≤ s.dist wn.v ∧ s.dist wn.v ≤ kDistInf at hrange
      -- the exchange succeeds: the thread owes an entry of the bin until it has pushed it
      obtain ⟨hact, howes⟩ := hs.lower hwn hfloor hwalk (heq ▸ hlt)
      refine ⟨true, _, _, if_pos heq, .inr hact, ?_⟩
      apply WP.loadAt_bind (P := K.Owes t D p wn.v (x + wn.w)) howes (Owes.stable _ _)
      intro s γ hs
      refine ⟨(x + wn.w) / K.delta, divWeight_eq K.one_le (by omega), ?_⟩
      rw [toSizeT_div K.one_le ⟨by omega, by omega⟩]
      apply WP.store_bind (P := K.Owes t D p wn.v (x + wn.w)) hs (Owes.stable _ _)
      intro s γ hs
      obtain ⟨hact, hidle⟩ := hs.push bins (by omega) (by omega)
      exact ⟨_, .inr hact, WP.ret hidle (hstable (.inr ()))⟩
    · refine ⟨false, s, γ, if_neg heq, .inl rfl, ?_⟩
      -- another thread has lowered the distance since it was read, so the next attempt starts lower
      have hbelow : K.Attempts t D p bins u wn x (y - 1) (s, γ) := by
        have hle := hs.le
        change s.dist wn.v ≤ y at hle
        apply hs.mono
        show s.dist wn.v ≤ y - 1
        omega
      apply WP.load_bind (P := K.Attempts t D p bins u wn x (y - 1)) hbelow (Attempts.stable u wn x _)
      intro s γ hs
      have hle := hs.le
      have hrange := hs.inv.sound.range wn.v
      change s.dist wn.v ≤ y - 1 at hle
      change 0 ≤ s.dist wn.v ∧ s.dist wn.v ≤ kDistInf at hrange
      exact WP.ret ⟨hs.mono le_rfl, by omega⟩ (hstable (.inl _))
  · rw [if_neg hlt]
    refine WP.ret ⟨h.inv, h.owed, fun u' wn' y' hreading => ?_, h.due, h.fresh⟩ (hstable (.inr ()))
    rw [h.reading] at hreading
    obtain ⟨rfl, hrest⟩ := Prod.mk.inj (Option.some.inj hreading)
    obtain ⟨rfl, rfl⟩ := Prod.mk.inj hrest
    have hle := h.le
    omega

/-! ## The edges of a vertex -/

theorem Idle.mono {D' : Set (Fin n × NodeWeight n)} {σ : DeltaMem T n × (Fin T → Hand n)}
    (h : K.Idle t D p bins σ) (hD : ∀ e ∈ D, e.2 ∈ K.g.outNeigh e.1 → e ∈ D') : K.Idle t D' p bins σ :=
  { h with due := fun e he => hD e (h.due he) (h.inv.due t e he) }

/-- The thread reads the distance of the source of an edge. -/
theorem Idle.start {s : DeltaMem T n} {γ : Fin T → Hand n} {u : Fin n} (wn : NodeWeight n) {y : Int}
    (h : K.Idle t D p bins (s, γ)) (hy : s.dist wn.v ≤ y) :
    K.Acts t (s, γ) (s, update γ t ⟨(γ t).due \ {(u, wn)}, some (u, wn, s.dist u), none⟩) ∧
      K.Attempts t (D \ {(u, wn)}) p bins u wn (s.dist u) y
        (s, update γ t ⟨(γ t).due \ {(u, wn)}, some (u, wn, s.dist u), none⟩) := by
  have hinv := h.inv.read u wn h.owed h.read
  have hself : update γ t ⟨(γ t).due \ {(u, wn)}, some (u, wn, s.dist u), none⟩ t = _ := update_self ..
  refine ⟨.of_hand hinv, hinv, congrArg Hand.owed hself, congrArg Hand.reading hself, ?_, h.fresh, hy⟩
  exact (congrArg Hand.due hself).le.trans (Set.sdiff_subset_sdiff_left h.due)

theorem relaxEdges_wp {W : Set (Fin n)} {u : Fin n} {σ : DeltaMem T n × (Fin T → Hand n)}
    (h : K.Idle t { e | e.1 ∈ W ∨ e.1 = u } p bins σ) (hu : K.floor ≤ σ.1.dist u) :
    WP (Rely K.Acts t) (K.Acts t) (fun _ τ => K.Idle t { e | e.1 ∈ W } p bins τ)
      (relaxEdges K.g t K.delta u) σ := by
  -- the edges behind the loop index are done
  let Left (pre : List (NodeWeight n)) : Set (Fin n × NodeWeight n) :=
    { e | e.1 ∈ W ∨ e.1 = u ∧ e.2 ∉ pre }
  let Inv (pre : List (NodeWeight n)) (_ : Unit) (τ : DeltaMem T n × (Fin T → Hand n)) : Prop :=
    K.Idle t (Left pre) p bins τ ∧ K.floor ≤ τ.1.dist u
  have hstable (pre : List (NodeWeight n)) (x : Unit) : Stable (Rely K.Acts t) (Inv pre x) :=
    (Idle.stable t _ p bins).and (stable_floor t u)
  have hstart : Inv [] () σ := by
    refine ⟨h.mono fun e he _ => ?_, hu⟩
    rcases he with hW | heq
    · exact .inl hW
    · exact .inr ⟨heq, List.not_mem_nil⟩
  apply (WP.forEach Inv hstart hstable ?_).mono
  · rintro _ τ ⟨hidle, -⟩
    apply hidle.mono
    rintro e (hW | ⟨heq, hnot⟩) hmem
    · exact hW
    · exact absurd (heq ▸ hmem) hnot
  · rintro pre wn post ⟨⟩ τ hsplit hτ
    have hwn : wn ∈ K.g.outNeigh u := by
      rw [hsplit]
      simp
    apply WP.load_bind (P := Inv pre ()) hτ (hstable pre ())
    rintro s γ ⟨hidle, hlow⟩
    let Seen (σ : DeltaMem T n × (Fin T → Hand n)) : Prop := Inv pre () σ ∧ σ.1.dist wn.v ≤ s.dist wn.v
    have hseen : Stable (Rely K.Acts t) Seen :=
      (hstable pre ()).and fun _ _ hle ⟨_, _, hact⟩ => (hact.dist_le wn.v).trans hle
    apply WP.op_bind (P := Seen) ⟨⟨hidle, hlow⟩, le_rfl⟩ hseen
    rintro s' γ ⟨⟨hidle, hlow⟩, hle⟩
    obtain ⟨hact, hattempts⟩ := hidle.start wn (u := u) hle
    have hadd := addWeight_eq (hidle.inv.sound.range u) (K.weights u wn hwn)
    refine ⟨s'.dist u + wn.w, s', _, congrArg (Option.map _) hadd, .inr hact, ?_⟩
    have hloop := WP.iter (G := K.Acts t) (Q := fun _ => K.Idle t (Left pre \ {(u, wn)}) p bins)
      (fun z => K.Attempts t (Left pre \ {(u, wn)}) p bins u wn (s'.dist u) z) (fun z _ => z.toNat)
      hattempts (Attempts.stable u wn _) (fun _ => Idle.stable t _ p bins) (fun _ _ _ _ _ => le_rfl)
      fun z τ hz => (attempt_wp hwn hlow (hidle.inv.sound.walk u) hz).mono fun r τ' hr => by
        cases r <;> exact hr
    apply (hloop.frame (P := fun σ => K.floor ≤ σ.1.dist u) hlow (stable_floor t u) ?_).mono
    · rintro _ υ ⟨hidle, hlow⟩
      refine ⟨hidle.mono ?_, hlow⟩
      rintro e ⟨hW | ⟨heq, hnot⟩, hne⟩ _
      · exact .inl hW
      · refine .inr ⟨heq, fun hmem => ?_⟩
        rcases List.mem_append.mp hmem with hpre | hlast
        · exact hnot hpre
        · exact hne (Prod.ext heq (List.mem_singleton.mp hlast))
    · exact fun _ _ hlow hact => hact.floor_le hlow

/-! ## The frontier -/

/-- The edges that are due at the positions of `work` behind `pre`: entries whose distance is below the floor
are out of date. -/
def dueAt (K : Turn T n) {tail : Nat} (work pre : List (Fin tail)) : Set (Fin n × NodeWeight n) :=
  { e | ∃ i ∈ work, i ∉ pre ∧ K.start.frontier i = some e.1 ∧ K.floor ≤ K.start.dist e.1 }

theorem searchFrontier_wp {tail : Nat} {work : List (Fin tail)} {σ : DeltaMem T n × (Fin T → Hand n)}
    (hfrontier : ∀ i < tail, ∃ u, K.start.frontier i = some u) (h : K.Idle t (K.dueAt work []) p bins σ) :
    WP (Rely K.Acts t) (K.Acts t) (fun _ τ => K.Idle t ∅ p bins τ)
      (searchFrontier K.g t K.delta K.curr work) σ := by
  have hstable (pre : List (Fin tail)) (x : Unit) :
      Stable (Rely K.Acts t) (K.Idle t (K.dueAt work pre) p bins) :=
    Idle.stable t _ p bins
  apply (WP.forEach (fun pre _ => K.Idle t (K.dueAt work pre) p bins) h hstable ?_).mono
  · intro _ τ hτ
    apply hτ.mono
    rintro e ⟨i, hi, hnot, -⟩ _
    exact absurd hi hnot
  · rintro pre i post ⟨⟩ τ - hτ
    apply WP.loadAt_bind (P := K.Idle t (K.dueAt work pre) p bins) hτ (hstable pre ())
    intro s γ hs
    obtain ⟨u, hu⟩ := hfrontier i i.isLt
    refine ⟨u, (congrFun hs.inv.frontier i).trans hu, ?_⟩
    apply WP.load_bind (P := K.Idle t (K.dueAt work pre) p bins) hs (hstable pre ())
    intro s γ hs
    -- in this turn a distance is written to be at least as large as the floor
    let Seen (σ : DeltaMem T n × (Fin T → Hand n)) : Prop :=
      K.Idle t (K.dueAt work pre) p bins σ ∧ (K.floor ≤ s.dist u → K.floor ≤ σ.1.dist u)
    have hseen : Stable (Rely K.Acts t) Seen :=
      (hstable pre ()).and fun _ _ hlow ⟨_, _, hact⟩ hle => hact.floor_le (hlow hle)
    have hold : ¬ K.floor ≤ s.dist u → ¬ K.floor ≤ K.start.dist u := by
      intro hlt hle
      rcases hs.inv.kept u with heq | hle'
      · exact hlt (heq ▸ hle)
      · exact hlt hle'
    apply WP.loadAt_bind (P := Seen) ⟨hs, id⟩ hseen
    rintro s' γ ⟨hidle, hlow⟩
    refine ⟨K.floor, ?_, ?_⟩
    · rw [show s'.sharedIndexes K.curr = K.index from hidle.inv.index]
      exact mulWeight_eq K.one_le K.low
    · by_cases hle : K.floor ≤ s.dist u
      · rw [if_pos hle]
        have hmono : K.Idle t { e | e.1 ∈ { v | ∃ j ∈ work, j ∉ pre ++ [i] ∧ K.start.frontier j = some v ∧
            K.floor ≤ K.start.dist v } ∨ e.1 = u } p bins (s', γ) := by
          apply hidle.mono
          rintro e ⟨j, hj, hnot, hentry, hdist⟩ _
          by_cases hij : j = i
          · subst hij
            exact .inr (Option.some.inj (hentry.symm.trans hu))
          · refine .inl ⟨j, hj, fun hmem => ?_, hentry, hdist⟩
            rcases List.mem_append.mp hmem with hpre | hlast
            · exact hnot hpre
            · exact hij (List.mem_singleton.mp hlast)
        exact relaxEdges_wp hmono (hlow hle)
      · rw [if_neg hle]
        refine WP.ret (hidle.mono ?_) (hstable _ ())
        rintro e ⟨j, hj, hnot, hentry, hdist⟩ _
        refine ⟨j, hj, fun hmem => ?_, hentry, hdist⟩
        rcases List.mem_append.mp hmem with hpre | hlast
        · exact hnot hpre
        · rw [List.mem_singleton.mp hlast, hu] at hentry
          obtain rfl := Option.some.inj hentry
          exact hold hle hdist

/-! ## The thread's own bin -/

/-- The thread takes its bin, which has entries only if a distance has been lowered. -/
theorem Idle.take {s : DeltaMem T n} {γ : Fin T → Hand n} (h : K.Idle t ∅ p bins (s, γ))
    (hbins : binAt bins K.index = []) (hne : binAt (s.localBins t) K.index ≠ []) :
    let s' := s.setBins t (clearBin (s.localBins t) K.index)
    let γ' := update γ t
      ⟨{ e | e.1 ∈ binAt (s.localBins t) K.index ∧ e.2 ∈ K.g.outNeigh e.1 }, none, none⟩
    K.Acts t (s, γ) (s', γ') ∧ s.potential < p ∧
      K.Idle t { e | e.1 ∈ binAt (s.localBins t) K.index } s.potential (s'.localBins t) (s', γ') := by
  intro s' γ'
  have hdue : (γ t).due = ∅ := Set.subset_empty_iff.mp h.due
  have hinv := h.inv.take h.owed h.read hdue
  have hself : γ' t = _ := update_self ..
  have hlower : s.potential < p := by
    rcases h.fresh with hlt | ⟨-, heq⟩
    · exact hlt
    · change s.localBins t = bins at heq
      rw [heq] at hne
      exact absurd hbins hne
  refine ⟨⟨fun _ => hinv, fun _ hu => update_of_ne hu _ _, fun _ hu => update_of_ne hu _ _,
    fun _ => .inl rfl, le_rfl⟩, hlower, hinv, congrArg Hand.owed hself, fun u wn x hreading => ?_,
    ?_, .inr ⟨le_rfl, rfl⟩⟩
  · cases hreading.symm.trans (congrArg Hand.reading hself)
  · intro e he
    have hmem := (congrArg Hand.due hself) ▸ he
    exact hmem.1

/-- A round on the entries that have been taken. -/
theorem round_wp {bin : List (Fin n)} {q : Nat} {bins' : List (List (Fin n))}
    {σ : DeltaMem T n × (Fin T → Hand n)} (hlow : ∀ u ∈ bin, K.floor ≤ σ.1.dist u)
    (h : K.Idle t { e | e.1 ∈ bin } q bins' σ) :
    WP (Rely K.Acts t) (K.Acts t) (fun _ τ => K.Idle t ∅ q bins' τ)
      (.forEach bin () fun u _ => relaxEdges K.g t K.delta u) σ := by
  -- the entries behind the loop index are left
  let Inv (pre : List (Fin n)) (_ : Unit) (τ : DeltaMem T n × (Fin T → Hand n)) : Prop :=
    K.Idle t { e | ∃ post, bin = pre ++ post ∧ e.1 ∈ post } q bins' τ ∧ ∀ u ∈ bin, K.floor ≤ τ.1.dist u
  have hfloor : Stable (Rely K.Acts t) fun τ => ∀ u ∈ bin, K.floor ≤ τ.1.dist u :=
    fun _ _ hσ ⟨_, _, hact⟩ u hu => hact.floor_le (hσ u hu)
  have hstart : Inv [] () σ := ⟨h.mono fun e he _ => ⟨bin, rfl, he⟩, hlow⟩
  apply (WP.forEach Inv hstart (fun _ _ => (Idle.stable t _ _ _).and hfloor) ?_).mono
  · rintro _ τ ⟨hidle, -⟩
    apply hidle.mono
    rintro e ⟨post, hsplit, hmem⟩ _
    rw [List.self_eq_append_right.mp hsplit] at hmem
    cases hmem
  · rintro pre u post ⟨⟩ τ hsplit ⟨hidle, hlow⟩
    have hu : u ∈ bin := by
      rw [hsplit]
      simp
    have hmono : K.Idle t { e | e.1 ∈ { v | v ∈ post } ∨ e.1 = u } q bins' τ := by
      apply hidle.mono
      rintro e ⟨post', hsplit', hmem⟩ _
      obtain rfl := List.append_cancel_left (hsplit'.symm.trans hsplit)
      rcases List.mem_cons.mp hmem with heq | hmem
      · exact .inr heq
      · exact .inl hmem
    apply ((relaxEdges_wp hmono (hlow u hu)).frame hlow hfloor ?_).mono
    · rintro _ υ ⟨hidle, hlow⟩
      refine ⟨hidle.mono fun e he _ => ⟨post, ?_, he⟩, hlow⟩
      rw [hsplit, List.append_assoc]
      rfl
    · exact fun _ _ hσ hact v hv => hact.floor_le (hσ v hv)

/-- A thread that has left the loop over its own bin: the bin is empty or too long to be fused. -/
structure Fused (K : Turn T n) (t : Fin T) (p : Nat) (bins : List (List (Fin n)))
    (σ : DeltaMem T n × (Fin T → Hand n)) : Prop where
  idle : K.Idle t ∅ p bins σ
  full : binAt (σ.1.localBins t) K.index = [] ∨
    kBinSizeThreshold ≤ (binAt (σ.1.localBins t) K.index).length

theorem Fused.stable (t : Fin T) (p : Nat) (bins : List (List (Fin n))) :
    Stable (Rely K.Acts t) (K.Fused t p bins) := by
  intro σ τ h hR
  refine ⟨Idle.stable t ∅ p bins σ τ h.idle hR, ?_⟩
  obtain ⟨u, hu, hact⟩ := hR
  rw [hact.bins t hu.symm]
  exact h.full

/-- Rounds go on while there are entries; a round without new ones is the last. -/
theorem fuseBins_wp {σ : DeltaMem T n × (Fin T → Hand n)} (hbins : binAt bins K.index = [])
    (h : K.Idle t ∅ p bins σ) :
    WP (Rely K.Acts t) (K.Acts t) (fun _ τ => K.Fused t p bins τ) (fuseBins K.g t K.delta K.curr) σ := by
  have hstable : Stable (Rely K.Acts t) (K.Idle t ∅ p bins) := Idle.stable t ∅ p bins
  apply WP.iter (W := ℕ ×ₗ ℕ) (fun _ => K.Idle t ∅ p bins)
    (fun _ σ => toLex (σ.1.potential, (binAt (σ.1.localBins t) K.index).length)) h (fun _ => hstable)
    (fun _ => Fused.stable t p bins)
  · rintro _ σ τ - ⟨u, hu, hact⟩
    rw [Prod.Lex.toLex_le_toLex, hact.bins t hu.symm]
    rcases hact.potential_le.lt_or_eq with hlt | heq
    · exact .inl hlt
    · exact .inr ⟨heq, le_rfl⟩
  · rintro ⟨⟩ τ hτ
    -- what the measure is compared with
    let Known (σ : DeltaMem T n × (Fin T → Hand n)) : Prop :=
      K.Idle t ∅ p bins σ ∧ σ.1.potential ≤ τ.1.potential ∧ σ.1.localBins t = τ.1.localBins t
    have hknown : Stable (Rely K.Acts t) Known := by
      rintro σ υ ⟨hidle, hle, hsame⟩ hR
      refine ⟨hstable σ υ hidle hR, ?_⟩
      obtain ⟨u, hu, hact⟩ := hR
      exact ⟨hact.potential_le.trans hle, (hact.bins t hu.symm).trans hsame⟩
    apply WP.load_bind (P := Known) ⟨hτ, le_rfl, rfl⟩ hknown
    rintro s γ hs
    rw [show s.sharedIndexes K.curr = K.index from hs.1.inv.index]
    apply WP.load_bind (P := Known) hs hknown
    rintro s γ hs
    rw [show s.localBins t = τ.1.localBins t from hs.2.2]
    by_cases hround : K.index < (τ.1.localBins t).length ∧ binAt (τ.1.localBins t) K.index ≠ [] ∧
        (binAt (τ.1.localBins t) K.index).length < kBinSizeThreshold
    · rw [if_pos hround]
      apply WP.store_bind (P := Known) hs hknown
      rintro s γ ⟨hidle, hle, hsame⟩
      change s.localBins t = τ.1.localBins t at hsame
      rw [← hsame] at hround ⊢
      obtain ⟨hact, hlower, htaken⟩ := hidle.take hbins hround.2.1
      refine ⟨_, .inr hact, WP.bind ?_⟩
      have hlow : ∀ u ∈ binAt (s.localBins t) K.index, K.floor ≤ s.dist u := hidle.inv.own t
      apply ((round_wp hlow htaken).frame (P := fun σ => σ.1.potential < p) hlower ?_ ?_).mono
      · rintro _ υ ⟨hdone, hυ⟩
        refine WP.ret ⟨⟨hdone.inv, hdone.owed, hdone.read, hdone.due, .inl hυ⟩, ?_⟩ ?_
        · rw [Prod.Lex.toLex_lt_toLex]
          change s.potential ≤ _ at hle
          rcases hdone.fresh with hlt | ⟨hle', hsame'⟩
          · exact .inl (hlt.trans_le hle)
          · rcases (hle'.trans hle).lt_or_eq with hlt | heq
            · exact .inl hlt
            · -- nothing has been lowered, so that nothing has been put into the bin
              refine .inr ⟨heq, ?_⟩
              have hempty : binAt (υ.1.localBins t) K.index = [] := by
                rw [hsame']
                show binAt (update s.localBins t _ t) K.index = []
                rw [update_self, binAt_clearBin, if_pos rfl]
              show (binAt (υ.1.localBins t) K.index).length < _
              rw [hempty]
              exact List.length_pos_of_ne_nil (hsame ▸ hround.2.1)
        · rintro σ υ' ⟨hidle, hlt⟩ hR
          refine ⟨hstable σ υ' hidle hR, ?_⟩
          obtain ⟨u, hu, hact⟩ := hR
          refine lt_of_le_of_lt ?_ hlt
          rw [Prod.Lex.toLex_le_toLex, hact.bins t hu.symm]
          rcases hact.potential_le.lt_or_eq with hlt | heq
          · exact .inl hlt
          · exact .inr ⟨heq, le_rfl⟩
      · exact fun _ _ hσ ⟨_, _, hact⟩ => hact.potential_le.trans_lt hσ
      · exact fun _ _ hσ hact => hact.potential_le.trans_lt hσ
    · rw [if_neg hround]
      refine WP.ret ⟨hs.1, ?_⟩ (Fused.stable t p bins)
      rw [show s.localBins t = τ.1.localBins t from hs.2.2]
      by_cases hne : binAt (τ.1.localBins t) K.index = []
      · exact .inl hne
      · exact .inr (Nat.le_of_not_lt fun hlt => hround ⟨lt_of_binAt_ne hne, hne, hlt⟩)

/-! ## The vote -/

/-- The thread has no bin below the next index. -/
structure HasVoted (K : Turn T n) (t : Fin T) (σ : DeltaMem T n × (Fin T → Hand n)) : Prop where
  fused : K.Fused t K.start.potential (K.start.localBins t) σ
  least : ∀ j, binAt (σ.1.localBins t) j ≠ [] → σ.1.sharedIndexes K.next ≤ j

theorem HasVoted.stable (t : Fin T) : Stable (Rely K.Acts t) (K.HasVoted t) := by
  intro σ τ h hR
  refine ⟨Fused.stable t _ _ σ τ h.fused hR, ?_⟩
  obtain ⟨u, hu, hact⟩ := hR
  rw [hact.bins t hu.symm]
  exact fun j hj => hact.vote.trans (h.least j hj)

theorem vote_wp {σ : DeltaMem T n × (Fin T → Hand n)} (hbins : binAt (K.start.localBins t) K.index = [])
    (h : K.Fused t K.start.potential (K.start.localBins t) σ) :
    WP (Rely K.Acts t) (K.Acts t) (fun _ τ => K.HasVoted t τ) (vote t K.curr K.next) σ := by
  have hstable : Stable (Rely K.Acts t) (K.Fused t K.start.potential (K.start.localBins t)) :=
    Fused.stable t _ _
  apply WP.load_bind (P := K.Fused t K.start.potential (K.start.localBins t)) h hstable
  intro s γ hs
  rw [show s.sharedIndexes K.curr = K.index from hs.idle.inv.index]
  apply WP.load_bind (P := K.Fused t K.start.potential (K.start.localBins t)) hs hstable
  intro s γ hs
  cases hfirst : firstBin (s.localBins t) K.index with
  | none =>
    refine WP.ret ⟨hs, fun j hj => ?_⟩ (HasVoted.stable t)
    exact absurd (firstBin_eq_none hfirst (hs.idle.inv.bins t j hj).1) hj
  | some i =>
    obtain ⟨-, hne, hleast⟩ := firstBin_eq_some hfirst
    let Seen (σ : DeltaMem T n × (Fin T → Hand n)) : Prop :=
      K.Fused t K.start.potential (K.start.localBins t) σ ∧ σ.1.localBins t = s.localBins t
    have hseen : Stable (Rely K.Acts t) Seen := by
      rintro σ τ ⟨hfused, hsame⟩ hR
      refine ⟨hstable σ τ hfused hR, ?_⟩
      obtain ⟨u, hu, hact⟩ := hR
      exact (hact.bins t hu.symm).trans hsame
    apply WP.store (P := Seen) ⟨hs, rfl⟩ hseen fun _ => HasVoted.stable t
    rintro s' γ ⟨⟨hidle, hfull⟩, hsame⟩
    change s'.localBins t = s.localBins t at hsame
    rw [← hsame] at hne hleast
    have hvoted : K.Voted s' i := by
      obtain ⟨hindex, hlow⟩ := hidle.inv.bins t i hne
      refine .inr ⟨hindex, hlow, fun heq => ?_⟩
      rcases hidle.fresh with hlt | ⟨-, hfresh⟩
      · exact hlt
      · change s'.localBins t = _ at hfresh
        rw [hfresh, heq] at hne
        exact absurd hbins hne
    have hinv := hidle.inv.vote hvoted
    have hself : (s'.setIndex K.next (min (s'.sharedIndexes K.next) i)).sharedIndexes K.next =
        min (s'.sharedIndexes K.next) i := update_self ..
    refine ⟨γ, .inr ⟨fun _ => hinv, fun _ _ => rfl, fun _ _ => rfl, fun _ => .inl rfl, ?_⟩, ⟨⟨hinv, hidle.owed,
      hidle.read, hidle.due, hidle.fresh⟩, hfull⟩, fun j hj => ?_⟩
    · rw [hself]
      exact min_le_left _ _
    · rw [hself]
      exact (min_le_right _ _).trans (hleast j (hidle.inv.bins t j hj).1 hj)

/-- All that a thread does up to the first barrier. -/
theorem searchPhase_wp {tail : Nat} {work : List (Fin tail)} {σ : DeltaMem T n × (Fin T → Hand n)}
    (hfrontier : ∀ i < tail, ∃ u, K.start.frontier i = some u)
    (hbins : binAt (K.start.localBins t) K.index = [])
    (h : K.Idle t (K.dueAt work []) K.start.potential (K.start.localBins t) σ) :
    WP (Rely K.Acts t) (K.Acts t) (fun stay τ => stay = true ∧ K.HasVoted t τ)
      (searchPhase K.g K.delta K.curr K.next t work) σ := by
  apply WP.load_bind (P := K.Idle t (K.dueAt work []) K.start.potential (K.start.localBins t)) h
    (Idle.stable t _ _ _)
  intro s γ hs
  have hindex : K.index ≠ kMaxBin := by
    have hle := le_of_mul_le K.one_le K.low
    rw [kDistInf] at hle
    rw [kMaxBin]
    omega
  rw [show s.sharedIndexes K.curr = K.index from hs.inv.index, if_neg hindex]
  apply WP.bind
  apply (searchFrontier_wp hfrontier hs).mono
  intro _ τ hτ
  apply WP.bind
  apply (fuseBins_wp hbins hτ).mono
  intro _ υ hυ
  apply WP.bind
  apply (vote_wp hbins hυ).mono
  intro _ φ hφ
  exact WP.ret ⟨rfl, hφ⟩ fun σ τ hσ hR => ⟨hσ.1, HasVoted.stable t σ τ hσ.2 hR⟩

end Turn

end Gapbs
