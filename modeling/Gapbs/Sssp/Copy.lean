import Gapbs.Sssp.DeltaStep

/-!
# A turn between the barriers

The threads claim disjoint parts of the frontier and copy their bins of the next index there, while one of
them resets the buffers of the turn that is over.
-/

namespace Gapbs

open Conc Function

variable {n T : Nat}

/-- The turn between the barriers: the buffers and the memory at the first barrier. -/
structure CopyTurn (T n : Nat) where
  curr : Fin 2
  next : Fin 2
  ne : curr ≠ next
  single : Fin T
  start : DeltaMem T n
  tail : start.frontierTails next = 0

namespace CopyTurn

variable (K : CopyTurn T n)

/-- The index that has been voted for. -/
def index : Nat := K.start.sharedIndexes K.next

/-- What thread `t` has to copy. -/
def bin (t : Fin T) : List (Fin n) := binAt (K.start.localBins t) K.index

/-- The parts of the frontier that have been claimed, by their first positions. -/
structure Copying (σ : DeltaMem T n × (Fin T → Option Nat)) : Prop where
  dist : σ.1.dist = K.start.dist
  iter : σ.1.iter = K.start.iter
  index : σ.1.sharedIndexes K.next = K.index
  curr : σ.1.sharedIndexes K.curr = K.start.sharedIndexes K.curr ∨ σ.1.sharedIndexes K.curr = kMaxBin
  apart : ∀ t u a b, σ.2 t = some a → σ.2 u = some b → t ≠ u →
    a + (K.bin t).length ≤ b ∨ b + (K.bin u).length ≤ a
  below : ∀ t a, σ.2 t = some a → a + (K.bin t).length ≤ σ.1.frontierTails K.next
  covered : ∀ i < σ.1.frontierTails K.next, ∃ t a, σ.2 t = some a ∧ a ≤ i ∧ i < a + (K.bin t).length
  total : σ.1.frontierTails K.next = ∑ t, if (σ.2 t).isSome then (K.bin t).length else 0

/-- What thread `t` may do between the barriers. -/
structure Acts (t : Fin T) (σ τ : DeltaMem T n × (Fin T → Option Nat)) : Prop where
  keeps : K.Copying σ → K.Copying τ
  claims : ∀ u, u ≠ t → τ.2 u = σ.2 u
  bins : ∀ u, u ≠ t → τ.1.localBins u = σ.1.localBins u
  frontier : ∀ i, τ.1.frontier i = σ.1.frontier i ∨
    ∃ a, τ.2 t = some a ∧ a ≤ i ∧ i < a + (K.bin t).length
  curr : τ.1.sharedIndexes K.curr = σ.1.sharedIndexes K.curr ∨ τ.1.sharedIndexes K.curr = kMaxBin
  reset : t ≠ K.single → τ.1.sharedIndexes K.curr = σ.1.sharedIndexes K.curr ∧
    τ.1.frontierTails K.curr = σ.1.frontierTails K.curr

/-- A thread that has reset the buffers, if this is up to it. -/
structure Begun (t : Fin T) (σ : DeltaMem T n × (Fin T → Option Nat)) : Prop where
  inv : K.Copying σ
  reset : t = K.single → σ.1.sharedIndexes K.curr = kMaxBin ∧ σ.1.frontierTails K.curr = 0

/-- A thread that has claimed the positions from `a` up, of which the first `k` are written. -/
structure Claimed (t : Fin T) (a k : Nat) (σ : DeltaMem T n × (Fin T → Option Nat)) : Prop where
  begun : K.Begun t σ
  claim : σ.2 t = some a
  bins : σ.1.localBins t = K.start.localBins t
  written : ∀ i < k, ∀ x, (K.bin t)[i]? = some x → σ.1.frontier (a + i) = some x

/-- A thread in front of the second barrier. -/
structure Copied (t : Fin T) (σ : DeltaMem T n × (Fin T → Option Nat)) : Prop where
  begun : K.Begun t σ
  bins : ∀ j, binAt (σ.1.localBins t) j = if j = K.index then [] else binAt (K.start.localBins t) j
  entries : binEntries (σ.1.localBins t) ≤ binEntries (K.start.localBins t)
  written : K.bin t = [] ∨
    ∃ a, σ.2 t = some a ∧ ∀ i x, (K.bin t)[i]? = some x → σ.1.frontier (a + i) = some x

variable {K} {t : Fin T}

/-! ## Interference -/

theorem Begun.stable (t : Fin T) : Stable (Rely K.Acts t) (K.Begun t) := by
  rintro σ τ h ⟨u, hu, hact⟩
  refine ⟨hact.keeps h.inv, fun ht => ?_⟩
  obtain ⟨hindex, htail⟩ := hact.reset fun heq => hu (heq.trans ht.symm)
  rw [hindex, htail]
  exact h.reset ht

/-- Others do not write to the part of a thread. -/
theorem Acts.frontier_eq {σ τ : DeltaMem T n × (Fin T → Option Nat)} {u : Fin T} (h : K.Acts u σ τ)
    (hut : u ≠ t) (hσ : K.Copying σ) {a i : Nat} (ha : σ.2 t = some a) {x : Fin n}
    (hx : (K.bin t)[i]? = some x) : τ.1.frontier (a + i) = σ.1.frontier (a + i) := by
  have hi := (List.getElem?_eq_some_iff.mp hx).1
  rcases h.frontier (a + i) with heq | ⟨b, hb, hle, hlt⟩
  · exact heq
  · have ha' : τ.2 t = some a := (h.claims t hut.symm).trans ha
    have hapart := (h.keeps hσ).apart t u a b ha' hb hut.symm
    omega

theorem Claimed.stable (t : Fin T) (a k : Nat) : Stable (Rely K.Acts t) (K.Claimed t a k) := by
  intro σ τ h hR
  have hbegun := Begun.stable t σ τ h.begun hR
  obtain ⟨u, hu, hact⟩ := hR
  refine ⟨hbegun, (hact.claims t hu.symm).trans h.claim, (hact.bins t hu.symm).trans h.bins, fun i hi x hx => ?_⟩
  rw [hact.frontier_eq hu h.begun.inv h.claim hx]
  exact h.written i hi x hx

theorem Copied.stable (t : Fin T) : Stable (Rely K.Acts t) (K.Copied t) := by
  intro σ τ h hR
  have hbegun := Begun.stable t σ τ h.begun hR
  obtain ⟨u, hu, hact⟩ := hR
  have hbins := hact.bins t hu.symm
  refine ⟨hbegun, hbins ▸ h.bins, hbins ▸ h.entries, h.written.imp_right ?_⟩
  rintro ⟨a, ha, hwritten⟩
  refine ⟨a, (hact.claims t hu.symm).trans ha, fun i x hx => ?_⟩
  rw [hact.frontier_eq hu h.begun.inv ha hx]
  exact hwritten i x hx

/-! ## The steps of a thread -/

/-- A thread that has not claimed anything. -/
structure Waiting (K : CopyTurn T n) (t : Fin T) (σ : DeltaMem T n × (Fin T → Option Nat)) : Prop where
  inv : K.Copying σ
  claim : σ.2 t = none
  bins : σ.1.localBins t = K.start.localBins t

theorem Waiting.stable (t : Fin T) : Stable (Rely K.Acts t) (K.Waiting t) := by
  rintro σ τ h ⟨u, hu, hact⟩
  exact ⟨hact.keeps h.inv, (hact.claims t hu.symm).trans h.claim, (hact.bins t hu.symm).trans h.bins⟩

/-- Nothing but the buffers of the turn that is over changes. -/
theorem Waiting.reset {s : DeltaMem T n} {δ : Fin T → Option Nat} (h : K.Waiting K.single (s, δ))
    (s' : DeltaMem T n)
    (hframe : s' = { s with sharedIndexes := s'.sharedIndexes, frontierTails := s'.frontierTails })
    (hindex : s'.sharedIndexes K.next = s.sharedIndexes K.next)
    (hcurr : s'.sharedIndexes K.curr = s.sharedIndexes K.curr ∨ s'.sharedIndexes K.curr = kMaxBin)
    (htail : s'.frontierTails K.next = s.frontierTails K.next) :
    K.Acts K.single (s, δ) (s', δ) ∧ K.Waiting K.single (s', δ) := by
  have hkeeps (hσ : K.Copying (s, δ)) : K.Copying (s', δ) := by
    refine ⟨?_, ?_, hindex.trans hσ.index, ?_, hσ.apart, ?_, ?_, htail.trans hσ.total⟩
    · rw [hframe]
      exact hσ.dist
    · rw [hframe]
      exact hσ.iter
    · rcases hcurr with heq | hmax
      · exact hσ.curr.imp heq.trans heq.trans
      · exact .inr hmax
    · exact fun t a ha => (hσ.below t a ha).trans htail.ge
    · exact fun i hi => hσ.covered i (hi.trans_eq htail)
  refine ⟨⟨hkeeps, fun _ _ => rfl, fun u _ => ?_, fun i => .inl ?_, hcurr, fun hne => absurd rfl hne⟩,
    hkeeps h.inv, h.claim, ?_⟩
  · rw [hframe]
  · rw [hframe]
  · rw [hframe]
    exact h.bins

theorem reset_wp {σ : DeltaMem T n × (Fin T → Option Nat)} (h : K.Waiting t σ) :
    WP (Rely K.Acts t) (K.Acts t) (fun _ τ => K.Waiting t τ ∧ K.Begun t τ) (reset K.curr K.single t) σ := by
  have hstable (_ : Unit) : Stable (Rely K.Acts t) fun τ => K.Waiting t τ ∧ K.Begun t τ :=
    (Waiting.stable t).and (Begun.stable t)
  unfold Gapbs.reset
  by_cases ht : t = K.single
  · subst ht
    rw [if_pos rfl]
    let Half (τ : DeltaMem T n × (Fin T → Option Nat)) : Prop :=
      K.Waiting K.single τ ∧ τ.1.sharedIndexes K.curr = kMaxBin
    have hhalf : Stable (Rely K.Acts K.single) Half := by
      rintro σ τ ⟨hwaiting, hmax⟩ hR
      refine ⟨Waiting.stable _ σ τ hwaiting hR, ?_⟩
      obtain ⟨u, hu, hact⟩ := hR
      exact (hact.reset hu).1.trans hmax
    apply WP.store_bind (P := K.Waiting K.single) h (Waiting.stable _)
    intro s δ hs
    have hself : (s.setIndex K.curr kMaxBin).sharedIndexes K.curr = kMaxBin := update_self ..
    obtain ⟨hact, hwaiting⟩ := hs.reset (s.setIndex K.curr kMaxBin) rfl
      (update_of_ne K.ne.symm _ _) (.inr hself) rfl
    refine ⟨δ, .inr hact, ?_⟩
    apply WP.store (P := Half) ⟨hwaiting, hself⟩ hhalf hstable
    rintro s δ ⟨hs, hmax⟩
    obtain ⟨hact, hwaiting⟩ := hs.reset (s.setTail K.curr 0) rfl rfl (.inl rfl)
      (update_of_ne K.ne.symm _ _)
    exact ⟨δ, .inr hact, hwaiting, hwaiting.inv, fun _ => ⟨hmax, update_self ..⟩⟩
  · rw [if_neg ht]
    exact WP.ret ⟨h, h.inv, fun heq => absurd heq ht⟩ (hstable ())

/-- A part behind all others is claimed. -/
theorem Copying.claim {s : DeltaMem T n} {δ : Fin T → Option Nat} (h : K.Copying (s, δ)) (ht : δ t = none) :
    K.Copying (s.setTail K.next (s.frontierTails K.next + (K.bin t).length),
      update δ t (some (s.frontierTails K.next))) := by
  let tail := s.frontierTails K.next
  have htail : (s.setTail K.next (tail + (K.bin t).length)).frontierTails K.next = tail + (K.bin t).length :=
    update_self ..
  have hclaim {u : Fin T} {a : Nat} (hu : update δ t (some tail) u = some a) :
      u = t ∧ a = tail ∨ u ≠ t ∧ δ u = some a ∧ a + (K.bin u).length ≤ tail := by
    by_cases hut : u = t
    · subst hut
      rw [update_self] at hu
      exact .inl ⟨rfl, (Option.some.inj hu).symm⟩
    · rw [update_of_ne hut] at hu
      exact .inr ⟨hut, hu, h.below u a hu⟩
  refine ⟨h.dist, h.iter, h.index, h.curr, ?_, ?_, ?_, ?_⟩
  · intro u v a b hu hv huv
    rcases hclaim hu with ⟨rfl, rfl⟩ | ⟨hut, hu, hle⟩
    · rcases hclaim hv with ⟨rfl, -⟩ | ⟨-, -, hle⟩
      · exact absurd rfl huv
      · exact .inr hle
    · rcases hclaim hv with ⟨rfl, rfl⟩ | ⟨-, hv, -⟩
      · exact .inl hle
      · exact h.apart u v a b hu hv huv
  · intro u a hu
    show a + (K.bin u).length ≤ (s.setTail K.next (tail + (K.bin t).length)).frontierTails K.next
    rw [htail]
    rcases hclaim hu with ⟨rfl, rfl⟩ | ⟨-, -, hle⟩
    · exact le_rfl
    · exact hle.trans (Nat.le_add_right _ _)
  · intro i hi
    change i < (s.setTail K.next (tail + (K.bin t).length)).frontierTails K.next at hi
    rw [htail] at hi
    rcases Nat.lt_or_ge i tail with hlt | hge
    · obtain ⟨u, a, hu, hle, hi⟩ := h.covered i hlt
      have hut : u ≠ t := fun heq => by
        subst heq
        cases ht.symm.trans hu
      exact ⟨u, a, (update_of_ne hut _ _).trans hu, hle, hi⟩
    · exact ⟨t, tail, update_self .., hge, hi⟩
  · refine htail.trans (Eq.symm ?_)
    rw [show tail = _ from h.total]
    apply sum_eq_add_of_cell t
    · simp [ht]
    · intro u hu
      simp only [update_of_ne hu]

theorem Waiting.claim_step {s : DeltaMem T n} {δ : Fin T → Option Nat} (h : K.Waiting t (s, δ))
    (hbegun : K.Begun t (s, δ)) :
    let s' := s.setTail K.next (s.frontierTails K.next + (K.bin t).length)
    let δ' := update δ t (some (s.frontierTails K.next))
    K.Acts t (s, δ) (s', δ') ∧ K.Claimed t (s.frontierTails K.next) 0 (s', δ') := by
  intro s' δ'
  have hinv : K.Copying (s', δ') := h.inv.claim h.claim
  have hcurr : s'.frontierTails K.curr = s.frontierTails K.curr := update_of_ne K.ne _ _
  refine ⟨⟨fun _ => hinv, fun _ hu => update_of_ne hu _ _, fun _ _ => rfl, fun _ => .inl rfl,
    .inl rfl, fun _ => ⟨rfl, hcurr⟩⟩, ⟨hinv, fun ht => ?_⟩, update_self .., h.bins,
    fun i hi => absurd hi (Nat.not_lt_zero i)⟩
  obtain ⟨hindex, htail⟩ := hbegun.reset ht
  exact ⟨hindex, hcurr.trans htail⟩

/-- The claimed parts are within the buffer if it has room for all entries. -/
theorem Claimed.lt_room {a k i room : Nat} {σ : DeltaMem T n × (Fin T → Option Nat)} (h : K.Claimed t a k σ)
    (hroom : ∑ t, (K.bin t).length ≤ room) (hi : i < (K.bin t).length) : a + i < room := by
  have hbelow := h.begun.inv.below t a h.claim
  have htotal : σ.1.frontierTails K.next ≤ ∑ t, (K.bin t).length := by
    rw [h.begun.inv.total]
    apply Finset.sum_le_sum
    intro u _
    split
    · exact le_rfl
    · exact Nat.zero_le _
  omega

/-- The next entry is written. -/
theorem Claimed.write {s : DeltaMem T n} {δ : Fin T → Option Nat} {a k : Nat} (h : K.Claimed t a k (s, δ))
    {x : Fin n} (hx : (K.bin t)[k]? = some x) :
    let s' := { s with frontier := update s.frontier (a + k) x }
    K.Acts t (s, δ) (s', δ) ∧ K.Claimed t a (k + 1) (s', δ) := by
  intro s'
  have hk := (List.getElem?_eq_some_iff.mp hx).1
  have hkeeps (hσ : K.Copying (s, δ)) : K.Copying (s', δ) := { hσ with }
  refine ⟨⟨hkeeps, fun _ _ => rfl, fun _ _ => rfl, fun i => ?_, .inl rfl, fun _ => ⟨rfl, rfl⟩⟩,
    ⟨hkeeps h.begun.inv, h.begun.reset⟩, h.claim, h.bins, fun i hi y hy => ?_⟩
  · by_cases hi : i = a + k
    · exact .inr ⟨a, h.claim, by omega, by omega⟩
    · exact .inl (update_of_ne hi _ _)
  · show update s.frontier (a + k) _ (a + i) = some y
    by_cases hik : i = k
    · rw [hik, update_self, ← hx, ← hik, hy]
    · rw [update_of_ne (by omega)]
      exact h.written i (by omega) y hy

theorem copyBin_wp {room : Nat} {σ : DeltaMem T n × (Fin T → Option Nat)}
    (hroom : ∑ t, (K.bin t).length ≤ room) (h : K.Waiting t σ ∧ K.Begun t σ) :
    WP (Rely K.Acts t) (K.Acts t) (fun _ τ => K.Copied t τ) (copyBin room K.next t) σ := by
  have hstable : Stable (Rely K.Acts t) fun τ => K.Waiting t τ ∧ K.Begun t τ :=
    (Waiting.stable t).and (Begun.stable t)
  apply WP.load_bind (P := fun τ => K.Waiting t τ ∧ K.Begun t τ) h hstable
  intro s δ hs
  rw [show s.sharedIndexes K.next = K.index from hs.1.inv.index]
  apply WP.load_bind (P := fun τ => K.Waiting t τ ∧ K.Begun t τ) hs hstable
  intro s δ hs
  rw [show s.localBins t = K.start.localBins t from hs.1.bins]
  by_cases hlt : K.index < (K.start.localBins t).length
  · rw [if_pos hlt]
    show WP _ _ _ ((Prog.op fun s : DeltaMem T n => some (s.frontierTails K.next, s.setTail K.next
      (s.frontierTails K.next + (K.bin t).length))).bind _) _
    apply WP.op_bind (P := fun τ => K.Waiting t τ ∧ K.Begun t τ) hs hstable
    rintro s δ ⟨hwaiting, hbegun⟩
    obtain ⟨hact, hclaimed⟩ := hwaiting.claim_step hbegun
    refine ⟨s.frontierTails K.next, _, _, rfl, .inr hact, ?_⟩
    generalize s.frontierTails K.next = a at hclaimed
    apply WP.bind
    apply (WP.forEach (fun pre (_ : Unit) => K.Claimed t a pre.length) hclaimed
      (fun pre _ => Claimed.stable t a pre.length) ?_).mono
    · intro _ τ hτ
      -- all positions have been written
      have hlength : ((K.bin t).zipIdx a).length = (K.bin t).length := List.length_zipIdx
      rw [show binAt (K.start.localBins t) K.index = K.bin t from rfl, hlength] at hτ
      apply WP.store (P := K.Claimed t a (K.bin t).length) hτ (Claimed.stable t a _) fun _ => Copied.stable t
      intro s δ hs
      have hkeeps (hσ : K.Copying (s, δ)) :
          K.Copying (s.setBins t (clearBin (s.localBins t) K.index), δ) := { hσ with }
      have hself : (s.setBins t (clearBin (s.localBins t) K.index)).localBins t =
          clearBin (K.start.localBins t) K.index := by
        rw [← show s.localBins t = K.start.localBins t from hs.bins]
        exact update_self ..
      refine ⟨δ, .inr ⟨hkeeps, fun _ _ => rfl, fun _ hu => update_of_ne hu _ _, fun _ => .inl rfl,
        .inl rfl, fun _ => ⟨rfl, rfl⟩⟩, ⟨hkeeps hs.begun.inv, hs.begun.reset⟩, fun j => ?_, ?_,
        .inr ⟨a, hs.claim, fun i x hx => ?_⟩⟩
      · rw [hself, binAt_clearBin]
      · have hclear := binEntries_clearBin (K.start.localBins t) K.index
        rw [hself]
        omega
      · exact hs.written i (List.getElem?_eq_some_iff.mp hx).1 x hx
    · rintro pre x post ⟨⟩ τ hsplit hτ
      have hx : ((K.bin t).zipIdx a)[pre.length]? = some x := by
        rw [show (K.bin t).zipIdx a = pre ++ x :: post from hsplit]
        simp
      rw [List.getElem?_zipIdx] at hx
      obtain ⟨u, hu, rfl⟩ := Option.map_eq_some_iff.mp hx
      apply WP.storeAt (P := K.Claimed t a pre.length) hτ (Claimed.stable t a _) fun _ => Claimed.stable t a _
      intro s δ hs
      have hroom' := hs.lt_room hroom (List.getElem?_eq_some_iff.mp hu).1
      obtain ⟨hact, hwritten⟩ := hs.write hu
      refine ⟨_, δ, if_pos hroom', .inr hact, ?_⟩
      rw [List.length_append]
      exact hwritten
  · rw [if_neg hlt]
    have hempty : K.bin t = [] := by
      by_contra hne
      exact hlt (lt_of_binAt_ne hne)
    have hbins : s.localBins t = K.start.localBins t := hs.1.bins
    refine WP.ret ⟨hs.2, fun j => ?_, ?_, .inl hempty⟩ (Copied.stable t)
    · show binAt (s.localBins t) j = _
      rw [hbins]
      split
      · next heq => exact heq ▸ hempty
      · rfl
    · show binEntries (s.localBins t) ≤ _
      rw [hbins]

theorem copyPhase_wp {room : Nat} {σ : DeltaMem T n × (Fin T → Option Nat)}
    (hroom : ∑ t, (K.bin t).length ≤ room) (h : K.Waiting t σ) :
    WP (Rely K.Acts t) (K.Acts t) (fun _ τ => K.Copied t τ) (copyPhase room K.curr K.next K.single t) σ := by
  apply WP.bind
  apply (reset_wp h).mono
  exact fun _ τ hτ => copyBin_wp hroom hτ

end CopyTurn

end Gapbs
