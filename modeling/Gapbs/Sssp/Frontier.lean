import Gapbs.Conc.Protocol
import Gapbs.Sssp.Priority
import Mathlib.Data.Set.Card

/-!
# The room in the frontier

The frontier has an entry for every directed edge.  A vertex is put into a bin whenever its distance is
lowered, and it stays there when it is lowered again: a bin can have more entries than the graph has edges.
The distances of a vertex are weights of paths from the source, and it gets none of them twice, so that the
frontier has room where not too many weights of paths belong into one bin.
-/

namespace Gapbs

open Conc Prog Function ShortestPath

variable {n T : Nat} {g : WGraph n} {source : Fin n} {delta : Int}

/-! ## The weights of paths -/

/-- The weights of the paths from the source to another vertex `v` that belong into bin `j`. -/
def WGraph.binWeights (g : WGraph n) (source : Fin n) (delta : Int) (j : Nat) (v : Fin n) : Set Nat :=
  {x | v ≠ source ∧ x < kDistInf ∧ IsPathWeight g.Edge source v x ∧ binOf delta x = j}

/-- No bin has more than `room` weights of paths, over all vertices. -/
def WGraph.BinsFit (g : WGraph n) (source : Fin n) (delta : Int) (room : Nat) : Prop :=
  ∀ j, ∑ v, (g.binWeights source delta j v).ncard ≤ room

theorem WGraph.finite_binWeights (g : WGraph n) (source : Fin n) (delta : Int) (j : Nat) (v : Fin n) :
    (g.binWeights source delta j v).Finite :=
  (Set.finite_Iio kDistInf).subset fun _ hx => hx.2.1

theorem WGraph.BinsFit.mono {room room' : Nat} (h : g.BinsFit source delta room) (hle : room ≤ room') :
    g.BinsFit source delta room' :=
  fun j => (h j).trans hle

/-- The number of the entries of a list, over all vertices. -/
theorem length_eq_sum_count (l : List (Fin n)) : l.length = ∑ v, l.count v := by
  have hcount := Multiset.sum_count_eq_card (s := Finset.univ) (m := (l : Multiset (Fin n)))
    fun v _ => Finset.mem_univ v
  simp only [Multiset.coe_count, Multiset.coe_card] at hcount
  exact hcount.symm

def DeltaMem.label (s : DeltaMem T n) (v : Fin n) : Nat := (s.dist v).toNat

/-- The distances are those of the vertices that have not been found, or weights of paths above whose parts
no distance is. -/
structure Tracing (g : WGraph n) (source : Fin n) (s : DeltaMem T n) : Prop where
  root : s.dist source = 0
  range : ∀ v, 0 ≤ s.dist v ∧ s.dist v ≤ kDistInf
  traced : ∀ v, s.dist v = kDistInf ∨ Traced g.Edge source s.label v (s.label v)

/-- A path and an edge lead to `v` with weight `x`. -/
def Offers (g : WGraph n) (source : Fin n) (s : DeltaMem T n) (v : Fin n) (x : Nat) : Prop :=
  ∃ u k w, Traced g.Edge source s.label u k ∧ g.Edge u v w ∧ x = k + w

/-- What a thread is about to do. -/
inductive Plan (n : Nat) where
  | none
  /-- a distance has been computed -/
  | offer (v : Fin n) (x : Nat)
  /-- the vertex has got the distance, but no entry yet -/
  | owe (v : Fin n) (x : Nat)

namespace Plan

/-- There is nothing to be put into a bin. -/
def Idle (plan : Plan n) : Prop := ∀ v x, plan ≠ .owe v x

/-- The entries of `v` in bin `j` that are still to be made. -/
def owed (delta : Int) (v : Fin n) (j : Nat) : Plan n → Nat
  | none => 0
  | offer _ _ => 0
  | owe w x => if w = v ∧ binOf delta x = j then 1 else 0

theorem idle_none : (none : Plan n).Idle := fun _ _ h => by cases h

theorem idle_offer (v : Fin n) (x : Nat) : (offer v x).Idle := fun _ _ h => by cases h

end Plan

/-- A distance is computed and lowered, and then, before anything else, the vertex is put into the bin. -/
inductive PushStep (g : WGraph n) (source : Fin n) (delta : Int) (t : Fin T) :
    Plan n → DeltaMem T n → DeltaMem T n → Plan n → Prop
  | offer {plan : Plan n} {s : DeltaMem T n} {v : Fin n} {x : Nat} (hidle : plan.Idle)
      (hoffer : Offers g source s v x) : PushStep g source delta t plan s s (.offer v x)
  | lower {s : DeltaMem T n} {v : Fin n} {x : Nat} (hlt : x < s.dist v) :
      PushStep g source delta t (.offer v x) s (s.setDist v x) (.owe v x)
  | push {s : DeltaMem T n} {v : Fin n} {x : Nat} : PushStep g source delta t (.owe v x) s
      (s.setBins t (pushBin (s.localBins t) (binOf delta x) v)) .none
  | clear {plan : Plan n} {s : DeltaMem T n} (hidle : plan.Idle) (j : Nat) :
      PushStep g source delta t plan s (s.setBins t (clearBin (s.localBins t) j)) plan
  | vote {plan : Plan n} {s : DeltaMem T n} (hidle : plan.Idle) (c : Fin 2) (k : Nat) :
      PushStep g source delta t plan s (s.setIndex c k) plan

section

variable {t : Fin T}

theorem follows_attempt (hdelta : 1 ≤ delta) {v : Fin n} {newDist : Int} {plan : Plan n}
    (hplan : (∃ x : Nat, newDist = x ∧ plan = .offer v x) ∨ plan.Idle ∧ kDistInf ≤ newDist) (oldDist : Int) :
    Follows (Tracing g source) (PushStep g source delta t) (attempt t delta v newDist oldDist) plan
      fun r plan' => match r with
        | .inl _ => plan' = plan
        | .inr _ => plan'.Idle := by
  have hidle : plan.Idle := by
    rcases hplan with ⟨x, -, rfl⟩ | ⟨hidle, -⟩
    · exact Plan.idle_offer v x
    · exact hidle
  unfold attempt
  split
  · next hlt =>
    apply Follows.op_bind
    intro s swapped s' hs hf
    by_cases heq : s.dist v = oldDist
    · rw [if_pos heq] at hf
      obtain ⟨rfl, rfl⟩ := Prod.mk.inj (Option.some.inj hf)
      have hle := (hs.range v).2
      -- a distance from kDistInf on is not below any that is kept, so the swap fails for it
      rcases hplan with ⟨x, rfl, rfl⟩ | ⟨-, hinf⟩
      · refine ⟨.owe v x, .inr (.lower (heq ▸ hlt)), ?_⟩
        apply Follows.loadAt_bind
        intro s destBin _ hbin
        rw [divWeight_eq hdelta (Int.natCast_nonneg x)] at hbin
        obtain rfl := Option.some.inj hbin
        rw [toSizeT_div hdelta ⟨Int.natCast_nonneg x, by omega⟩]
        apply Follows.store_bind
        intro s _
        exact ⟨.none, .push, Plan.idle_none⟩
      · omega
    · rw [if_neg heq] at hf
      obtain ⟨rfl, rfl⟩ := Prod.mk.inj (Option.some.inj hf)
      refine ⟨plan, .inl rfl, ?_⟩
      exact Follows.load_bind fun _ _ => rfl
  · exact hidle

theorem follows_relaxEdges (hg : g.WeightsOk) (hdelta : 1 ≤ delta) (u : Fin n) {plan : Plan n}
    (hplan : plan.Idle) : Follows (Tracing g source) (PushStep g source delta t) (relaxEdges g t delta u) plan
      fun _ plan' => plan'.Idle := by
  apply Follows.forEach Plan.Idle hplan
  intro wn hwn _ plan hidle
  apply Follows.load_bind
  intro s₀ _
  apply Follows.observe_bind
  intro s newDist hs hnew
  have hw := hg u wn hwn
  have hrange := hs.range u
  rw [addWeight_eq hrange hw] at hnew
  obtain rfl := Option.some.inj hnew
  have htry (plan' : Plan n)
      (h : (∃ x : Nat, s.dist u + wn.w = x ∧ plan' = .offer wn.v x) ∨ plan'.Idle ∧ kDistInf ≤ s.dist u + wn.w) :
      Follows (Tracing g source) (PushStep g source delta t)
        (.iter (attempt t delta wn.v (s.dist u + wn.w)) (s₀.dist wn.v)) plan' fun _ δ => δ.Idle := by
    apply Follows.iter (fun _ δ => δ = plan') rfl
    rintro oldDist _ rfl
    apply (follows_attempt hdelta h oldDist).mono
    rintro (z | _) δ hδ
    · exact hδ
    · exact hδ
  rcases hs.traced u with hinf | htraced
  · exact ⟨plan, .inl rfl, htry plan (.inr ⟨hidle, by omega⟩)⟩
  · have hedge : g.Edge u wn.v wn.w.toNat := by
      unfold WGraph.Edge
      rwa [Int.toNat_of_nonneg hw.1]
    have hsum : s.dist u + wn.w = ((s.label u + wn.w.toNat : Nat) : Int) := by
      unfold DeltaMem.label
      omega
    exact ⟨_, .inr (.offer hidle ⟨u, _, _, htraced, hedge, rfl⟩), htry _ (.inl ⟨_, hsum, rfl⟩)⟩

/-- Up to the first barrier a thread puts vertices into its bins as it lowers their distances. -/
theorem follows_searchPhase (hg : g.WeightsOk) (hdelta : 1 ≤ delta) (curr next : Fin 2) {tail : Nat}
    (work : List (Fin tail)) {plan : Plan n} (hplan : plan.Idle) :
    Follows (Tracing g source) (PushStep g source delta t) (searchPhase g delta curr next t work) plan
      fun _ plan' => plan'.Idle := by
  have hrelax (u : Fin n) {plan : Plan n} (hidle : plan.Idle) :
      Follows (Tracing g source) (PushStep g source delta t) (relaxEdges g t delta u) plan
        fun _ plan' => plan'.Idle := follows_relaxEdges hg hdelta u hidle
  unfold searchPhase
  apply Follows.load_bind
  intro s₀ _
  split
  · exact hplan
  apply Follows.bind
  have hfrontier : Follows (Tracing g source) (PushStep g source delta t) (searchFrontier g t delta curr work)
      plan fun _ plan' => plan'.Idle := by
    apply Follows.forEach Plan.Idle hplan
    intro i _ _ plan hidle
    apply Follows.loadAt_bind
    intro _ u _ _
    apply Follows.load_bind
    intro _ _
    apply Follows.loadAt_bind
    intro _ bound _ _
    split
    · exact hrelax u hidle
    · exact hidle
  apply hfrontier.mono
  intro _ plan hidle
  apply Follows.bind
  have hfuse : Follows (Tracing g source) (PushStep g source delta t) (fuseBins g t delta curr) plan
      fun _ plan' => plan'.Idle := by
    apply Follows.iter (fun _ plan => plan.Idle) hidle
    intro _ plan hidle
    apply Follows.load_bind
    intro _ _
    apply Follows.load_bind
    intro _ _
    dsimp only
    split
    · apply Follows.store_bind
      intro s _
      refine ⟨plan, .clear hidle _, ?_⟩
      apply Follows.bind
      exact (Follows.forEach Plan.Idle hidle fun u _ _ _ => hrelax u).mono fun _ _ h => h
    · exact hidle
  apply hfuse.mono
  intro _ plan hidle
  apply Follows.bind
  have hvote : Follows (Tracing g source) (PushStep g source delta t) (vote t curr next) plan
      fun _ plan' => plan'.Idle := by
    apply Follows.load_bind
    intro _ _
    apply Follows.load_bind
    intro s _
    split
    · exact hidle
    · exact Follows.store fun s _ => ⟨plan, .vote hidle _ _, hidle⟩
  exact hvote.mono fun _ _ h => h

end

/-! ## What the threads keep -/

/-- The entries of `v` in bin `j` that thread `t` has made or is about to make. -/
def entriesOf (delta : Int) (s : DeltaMem T n) (γ : Fin T → Plan n) (v : Fin n) (j : Nat) (t : Fin T) : Nat :=
  (binAt (s.localBins t) j).count v + (γ t).owed delta v j

/-- The weights in bin `j` that are not below the distance. -/
def usedWeights (g : WGraph n) (source : Fin n) (delta : Int) (s : DeltaMem T n) (v : Fin n) (j : Nat) :
    Set Nat :=
  {x | x ∈ g.binWeights source delta j v ∧ s.label v ≤ x}

/-- A bin holds a vertex at most once for each weight of a path that the distance has reached. -/
structure Entries (g : WGraph n) (source : Fin n) (delta : Int) (s : DeltaMem T n) (γ : Fin T → Plan n) :
    Prop where
  tracing : Tracing g source s
  offers : ∀ t v x, γ t = .offer v x → Offers g source s v x
  count : ∀ v j, ∑ t, entriesOf delta s γ v j t ≤ (usedWeights g source delta s v j).ncard

theorem Offers.mono {s s' : DeltaMem T n} {v : Fin n} {x : Nat} (h : Offers g source s v x)
    (hle : ∀ v, s'.label v ≤ s.label v) : Offers g source s' v x := by
  obtain ⟨u, k, w, htraced, hrest⟩ := h
  exact ⟨u, k, w, htraced.mono hle, hrest⟩

namespace Entries

variable {s s' : DeltaMem T n} {γ γ' : Fin T → Plan n}

/-- No entry is made. -/
theorem of_le (h : Entries g source delta s γ) (hdist : s'.dist = s.dist)
    (hoffers : ∀ t v x, γ' t = .offer v x → Offers g source s v x)
    (hle : ∀ v j t, entriesOf delta s' γ' v j t ≤ entriesOf delta s γ v j t) :
    Entries g source delta s' γ' := by
  have hlabel : s'.label = s.label := by
    unfold DeltaMem.label
    rw [hdist]
  have hused (v : Fin n) (j : Nat) : usedWeights g source delta s' v j = usedWeights g source delta s v j := by
    unfold usedWeights
    rw [hlabel]
  refine ⟨⟨hdist ▸ h.tracing.root, hdist ▸ h.tracing.range, ?_⟩,
    fun t v x ht => (hoffers t v x ht).mono fun _ => hlabel ▸ le_rfl, fun v j => ?_⟩
  · rw [hdist, hlabel]
    exact h.tracing.traced
  · rw [hused]
    exact (Finset.sum_le_sum fun t _ => hle v j t).trans (h.count v j)

/-- The entries when only thread `t` has changed its part. -/
theorem sum_entriesOf {t : Fin T} (hother : ∀ u, u ≠ t → s'.localBins u = s.localBins u ∧ γ' u = γ u)
    (v : Fin n) (j : Nat) : ∑ u, entriesOf delta s' γ' v j u + entriesOf delta s γ v j t =
      ∑ u, entriesOf delta s γ v j u + entriesOf delta s' γ' v j t := by
  rw [← Finset.add_sum_erase _ _ (Finset.mem_univ t),
    ← Finset.add_sum_erase (f := entriesOf delta s γ v j) _ (Finset.mem_univ t)]
  have hrest : ∑ u ∈ Finset.univ.erase t, entriesOf delta s' γ' v j u =
      ∑ u ∈ Finset.univ.erase t, entriesOf delta s γ v j u := by
    apply Finset.sum_congr rfl
    intro u hu
    obtain ⟨hbins, hplan⟩ := hother u (Finset.ne_of_mem_erase hu)
    unfold entriesOf
    rw [hbins, hplan]
  omega

/-- The new distance is the weight of a path, and one that the vertex has not had. -/
theorem lower (h : Entries g source delta s γ) {t : Fin T} {v : Fin n} {x : Nat} (hplan : γ t = .offer v x)
    (hlt : x < s.dist v) : Entries g source delta (s.setDist v x) (update γ t (.owe v x)) := by
  let s' := s.setDist v x
  have hother {y : Fin n} (hy : y ≠ v) : s'.dist y = s.dist y := update_of_ne hy _ _
  have hself : s'.dist v = x := update_self ..
  have hlabel : s'.label v = x := by
    unfold DeltaMem.label
    omega
  have hlower : x < s.label v := by
    unfold DeltaMem.label
    omega
  have hle (y : Fin n) : s'.label y ≤ s.label y := by
    by_cases hy : y = v
    · subst hy
      omega
    · exact (congrArg Int.toNat (hother hy)).le
  have htraced : Traced g.Edge source s'.label v x := by
    obtain ⟨u, k, w, htraced, hedge, rfl⟩ := h.offers t v x hplan
    exact htraced.snoc hedge hlower hle hlabel
  have hroot : v ≠ source := by
    rintro rfl
    have hzero := h.tracing.root
    omega
  have hrange := (h.tracing.range v).2
  refine ⟨⟨(hother hroot.symm).trans h.tracing.root, fun y => ?_, fun y => ?_⟩, fun t' v' x' ht' => ?_,
    fun v' j => ?_⟩
  · by_cases hy : y = v
    · subst hy
      rw [hself]
      omega
    · rw [hother hy]
      exact h.tracing.range y
  · by_cases hy : y = v
    · subst hy
      right
      rwa [hlabel]
    · have hsame : s'.label y = s.label y := congrArg Int.toNat (hother hy)
      rw [hother hy, hsame]
      exact (h.tracing.traced y).imp_right fun hy => hy.mono hle
  · by_cases ht : t' = t
    · subst ht
      rw [update_self] at ht'
      cases ht'
    · rw [update_of_ne ht] at ht'
      exact (h.offers t' v' x' ht').mono hle
  · have hchange : ∑ u, entriesOf delta s' (update γ t (.owe v x)) v' j u + entriesOf delta s γ v' j t =
        ∑ u, entriesOf delta s γ v' j u + entriesOf delta s' (update γ t (.owe v x)) v' j t :=
      sum_entriesOf (fun u hu => ⟨rfl, update_of_ne hu _ _⟩) v' j
    have hold : entriesOf delta s γ v' j t = (binAt (s.localBins t) j).count v' := by
      rw [entriesOf, hplan]
      rfl
    have hnew : entriesOf delta s' (update γ t (.owe v x)) v' j t =
        (binAt (s.localBins t) j).count v' + if v = v' ∧ binOf delta x = j then 1 else 0 := by
      rw [entriesOf, update_self]
      rfl
    have hfinite : (usedWeights g source delta s' v' j).Finite :=
      (g.finite_binWeights source delta j v').subset fun _ hy => hy.1
    have hsub : usedWeights g source delta s v' j ⊆ usedWeights g source delta s' v' j :=
      fun y hy => ⟨hy.1, (hle v').trans hy.2⟩
    have hcount := h.count v' j
    split at hnew
    · next heq =>
      -- the entry that is owed now is paid for by the weight that has come within reach
      obtain ⟨rfl, hbin⟩ := heq
      have hmem : x ∈ usedWeights g source delta s' v j :=
        ⟨⟨hroot, by omega, htraced.weight, hbin⟩, hlabel.le⟩
      have hnot : x ∉ usedWeights g source delta s v j := fun hx => Nat.not_le.mpr hlower hx.2
      have hcard := Set.ncard_le_ncard (Set.insert_subset hmem hsub) hfinite
      rw [Set.ncard_insert_of_notMem hnot (hfinite.subset hsub)] at hcard
      show ∑ u, entriesOf delta s' (update γ t (.owe v x)) v j u ≤ (usedWeights g source delta s' v j).ncard
      omega
    · have hcard := Set.ncard_le_ncard hsub hfinite
      show ∑ u, entriesOf delta s' (update γ t (.owe v x)) v' j u ≤ (usedWeights g source delta s' v' j).ncard
      omega

/-- An entry that was owed has been made. -/
theorem push (h : Entries g source delta s γ) {t : Fin T} {v : Fin n} {x : Nat} (hplan : γ t = .owe v x) :
    Entries g source delta (s.setBins t (pushBin (s.localBins t) (binOf delta x) v)) (update γ t .none) := by
  refine h.of_le rfl (fun t' v' x' ht' => ?_) fun v' j u => ?_
  · by_cases ht : t' = t
    · subst ht
      rw [update_self] at ht'
      cases ht'
    · rw [update_of_ne ht] at ht'
      exact h.offers t' v' x' ht'
  by_cases hu : u = t
  · subst hu
    have hbins : (s.setBins u (pushBin (s.localBins u) (binOf delta x) v)).localBins u =
        pushBin (s.localBins u) (binOf delta x) v := update_self ..
    unfold entriesOf
    rw [hbins, binAt_pushBin, update_self, hplan]
    simp only [Plan.owed]
    by_cases hj : j = binOf delta x
    · subst hj
      rw [if_pos rfl, List.count_append, List.count_singleton]
      by_cases hv : v = v'
      · simp [hv]
      · simp [hv]
    · rw [if_neg hj, if_neg fun heq => hj heq.2.symm]
  · have hbins : (s.setBins t (pushBin (s.localBins t) (binOf delta x) v)).localBins u = s.localBins u :=
      update_of_ne hu _ _
    unfold entriesOf
    rw [hbins, update_of_ne hu]

theorem step (h : Entries g source delta s γ) {t : Fin T} {plan : Plan n}
    (hstep : PushStep g source delta t (γ t) s s' plan) : Entries g source delta s' (update γ t plan) := by
  generalize hγ : γ t = plan₀ at hstep
  cases hstep with
  | @offer _ _ v x hidle hoffer =>
    refine h.of_le rfl (fun t' v' x' ht' => ?_) fun v' j u => ?_
    · by_cases ht : t' = t
      · subst ht
        rw [update_self] at ht'
        obtain ⟨rfl, rfl⟩ := Plan.offer.inj ht'
        exact hoffer
      · rw [update_of_ne ht] at ht'
        exact h.offers t' v' x' ht'
    · by_cases hu : u = t
      · subst hu
        unfold entriesOf
        rw [update_self]
        exact Nat.add_le_add_left (Nat.zero_le _) _
      · unfold entriesOf
        rw [update_of_ne hu]
  | lower hlt => exact h.lower hγ hlt
  | push => exact h.push hγ
  | clear hidle j =>
    rw [← hγ, update_eq_self]
    refine h.of_le rfl h.offers fun v i u => ?_
    have hbins : (binAt ((s.setBins t (clearBin (s.localBins t) j)).localBins u) i).count v ≤
        (binAt (s.localBins u) i).count v := by
      by_cases hu : u = t
      · subst hu
        rw [show (s.setBins u (clearBin (s.localBins u) j)).localBins u = clearBin (s.localBins u) j from
          update_self .., binAt_clearBin]
        split
        · exact Nat.zero_le _
        · exact le_rfl
      · rw [show (s.setBins t (clearBin (s.localBins t) j)).localBins u = s.localBins u from
          update_of_ne hu _ _]
    exact Nat.add_le_add_right hbins _
  | vote hidle c k =>
    rw [← hγ, update_eq_self]
    exact h.of_le rfl h.offers fun _ _ _ => le_rfl

/-- A bin has no more entries, over all threads, than weights of paths belong into it. -/
theorem length_le (h : Entries g source delta s γ) (j : Nat) :
    ∑ t, (binAt (s.localBins t) j).length ≤ ∑ v, (g.binWeights source delta j v).ncard := by
  have hvertex (v : Fin n) : ∑ t, (binAt (s.localBins t) j).count v ≤ (g.binWeights source delta j v).ncard :=
    calc ∑ t, (binAt (s.localBins t) j).count v
        ≤ ∑ t, entriesOf delta s γ v j t := Finset.sum_le_sum fun t _ => Nat.le_add_right _ _
      _ ≤ (usedWeights g source delta s v j).ncard := h.count v j
      _ ≤ (g.binWeights source delta j v).ncard :=
          Set.ncard_le_ncard (fun _ hx => hx.1) (g.finite_binWeights source delta j v)
  calc ∑ t, (binAt (s.localBins t) j).length
      = ∑ t, ∑ v, (binAt (s.localBins t) j).count v := Finset.sum_congr rfl fun t _ => length_eq_sum_count _
    _ = ∑ v, ∑ t, (binAt (s.localBins t) j).count v := Finset.sum_comm
    _ ≤ ∑ v, (g.binWeights source delta j v).ncard := Finset.sum_le_sum fun v _ => hvertex v

/-- The threads keep their promises by the first barrier. -/
theorem search (h : Entries g source delta s γ) (hidle : ∀ t, (γ t).Idle) (hg : g.WeightsOk)
    (hdelta : 1 ≤ delta) (curr next : Fin 2) {tail : Nat} (work : Fin T → List (Fin tail)) {stay : Fin T → Bool}
    (hr : Reach (.fork fun t => searchPhase g delta curr next t (work t), s) (.ret stay, s')) :
    ∃ γ', Entries g source delta s' γ' ∧ ∀ t, (γ' t).Idle :=
  Follows.fork (Entries g source delta) (fun _ _ h => h.tracing) (fun _ _ _ _ _ h hact => h.step hact) h
    (fun t => follows_searchPhase hg hdelta curr next (work t) (hidle t)) hr

end Entries

/-! ## The turns -/

section

variable {bound iter index room : Nat} {s : DeltaMem T n}

/-- In front of a turn every entry stands for the weight of a path. -/
structure ReadyToFit (g : WGraph n) (source : Fin n) (delta : Int) (bound iter index : Nat)
    (s : DeltaMem T n) : Prop where
  ready : Ready g source delta bound iter index s
  entries : Entries g source delta s fun _ => .none

/-- A turn, with a frontier that has room for all weights of one bin. -/
theorem ReadyToFit.deltaTurn_solo [NeZero T] (h : ReadyToFit g source delta bound iter index s)
    (hg : g.WeightsOk) (hdelta : 1 ≤ delta) (hroom : g.BinsFit source delta room) :
    Solo (deltaTurn g delta room T) s fun r s' => match r with
      | .inl _ => (∃ j, ReadyToFit g source delta bound (iter + 1) j s') ∧ s'.left < s.left
      | .inr _ => s' = s ∧ index = kMaxBin := by
  have hready := h.ready
  apply Solo.loadAt_bind hready.iter
  apply Solo.load_bind
  apply Solo.pick_bind
  intro sched
  apply Solo.bind
  rcases hready.low with rfl | hlow
  · apply (hready.leave_within sched.work).solo.mono
    rintro stay s' ⟨hstay, rfl⟩
    have hleave : ¬ ∀ t, stay t = true := fun hall => Bool.noConfusion ((hstay 0).symm.trans (hall 0))
    rw [if_neg hleave, if_pos hstay]
    exact Solo.ret ⟨rfl, rfl⟩
  · let K := hready.turn hg hdelta hlow
    apply ((hready.search_within hg hdelta hlow sched).solo.and_result fun _ _ hr =>
      h.entries.search (fun _ => Plan.idle_none) hg hdelta _ _ sched.work hr).mono
    rintro stay s₁ ⟨⟨hstay, γ, hs₁, hvoted⟩, plans, hentries, -⟩
    rw [if_pos hstay]
    apply Solo.pick_bind
    intro single
    apply Solo.bind
    have hfits := (hentries.length_le (s₁.sharedIndexes K.next)).trans (hroom _)
    apply (hs₁.copy_within hready.tail hready.iter hfits single).solo.mono
    rintro - s₂ ⟨δ, hcopying, hcopied⟩
    let s₃ : DeltaMem T n := { s₂ with iter := some (iter + 1) }
    have hready' : Ready g source delta bound (iter + 1) (s₁.sharedIndexes K.next) s₃ :=
      hs₁.ready hvoted hready.tail hcopying hcopied
    have hentries' : Entries g source delta s₃ fun _ => .none := by
      have hdist : s₂.dist = s₁.dist := hcopying.dist
      refine hentries.of_le hdist (fun _ _ _ heq => by cases heq) fun v j t => ?_
      -- a bin is as it was, or it has been copied
      have hbins : binAt (s₂.localBins t) j = if j = s₁.sharedIndexes K.next then []
          else binAt (s₁.localBins t) j := (hcopied t).bins j
      unfold entriesOf
      rw [show s₃.localBins t = s₂.localBins t from rfl, hbins]
      split
      · exact Nat.zero_le _
      · exact Nat.le_add_right _ _
    apply Solo.store_bind
    refine Solo.ret ⟨⟨_, hready', hentries'⟩, ?_⟩
    show s₃.left < s.left
    have hnext := hs₁.index_le_kMaxBin
    have hpotential : s₃.potential = s₁.potential := hcopying.potential
    unfold DeltaMem.left
    rw [hready'.least hnext, hready.least (le_kMaxBin hdelta hlow).le, hpotential]
    exact hs₁.progress (hvoted 0)

theorem entries_begun : Entries g source delta (DeltaMem.begun source : DeltaMem T n) fun _ => .none := by
  have hnone (v : Fin n) (j : Nat) :
      ∑ t, entriesOf delta (DeltaMem.begun source : DeltaMem T n) (fun _ => .none) v j t = 0 :=
    Finset.sum_eq_zero fun t _ => rfl
  have hlabel : (DeltaMem.begun source : DeltaMem T n).label source = 0 := by
    rw [DeltaMem.label, DeltaMem.begun_dist]
    rfl
  refine ⟨⟨DeltaMem.begun_dist, start_range source, fun v => ?_⟩, fun _ _ _ heq => (by cases heq),
    fun v j => (hnone v j).le.trans (Nat.zero_le _)⟩
  by_cases hv : v = source
  · subst hv
    right
    rw [hlabel]
    exact .start hlabel
  · left
    show update (fun _ => (kDistInf : Int)) source 0 v = kDistInf
    exact update_of_ne hv _ _

theorem deltaStepIn_fits_solo [NeZero T] (hg : g.WeightsOk) (hdelta : 1 ≤ delta) (hpos : 0 < room)
    (hroom : g.BinsFit source delta room) (s₀ : DeltaMem T n) :
    Solo (deltaStepIn room g source delta T) s₀.atCall fun r _ =>
      ∀ v, r v = (cappedDistance g.Edge source kDistInf v : Int) := by
  apply Solo.store_bind
  apply Solo.store_bind
  apply Solo.store_bind
  apply Solo.store_bind
  apply Solo.store_bind
  refine Solo.storeAt_bind (if_pos hpos) ?_
  have hstart : ReadyToFit g source delta (n * kDistInf) 0 0 (DeltaMem.begun source : DeltaMem T n) :=
    ⟨ready_begun hg, entries_begun⟩
  apply Solo.store_bind
  apply Solo.iter_bind (fun _ s => ∃ i k, ReadyToFit g source delta (n * kDistInf) i k s) (fun _ s => s.left)
    ⟨0, 0, hstart⟩
  rintro ⟨⟩ s ⟨i, k, hs⟩
  apply (hs.deltaTurn_solo hg hdelta hroom).mono
  rintro (⟨⟩ | ⟨⟩) s'
  · rintro ⟨⟨j, hs'⟩, hlt⟩
    exact ⟨⟨i + 1, j, hs'⟩, hlt⟩
  · rintro ⟨rfl, rfl⟩
    have h := hs.ready
    exact Solo.op rfl (eq_cappedDistance h.sound.root h.sound.range h.sound.walk (h.relaxed hdelta))

end

/-- A vertex with four edges of weight 100, whose distance from the source is first 5 and then 2. -/
def loweredGraph : WGraph 7 :=
  .ofDirected
    { index := ![0, 2, 6, 7, 7, 7, 7, 7]
      neighbors := [⟨1, 5⟩, ⟨2, 1⟩, ⟨3, 100⟩, ⟨4, 100⟩, ⟨5, 100⟩, ⟨6, 100⟩, ⟨1, 1⟩]
      index_zero := rfl
      index_mono := by decide
      index_last := rfl }
    { index := ![0, 0, 2, 3, 4, 5, 6, 7]
      neighbors := [⟨0, 5⟩, ⟨2, 1⟩, ⟨0, 1⟩, ⟨1, 100⟩, ⟨1, 100⟩, ⟨1, 100⟩, ⟨1, 100⟩]
      index_zero := rfl
      index_mono := by decide
      index_last := rfl } (by decide)

end Gapbs
