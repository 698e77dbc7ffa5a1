import Gapbs.Conc.Throughout
import Gapbs.Sssp.Copy
import Gapbs.Sssp.Search

/-!
# The turns of the shortest-path kernel

The parts of a turn are put together: no step writes a distance below the index that is worked on, the index
does not decrease, and the last turn leaves no edge that could lower a distance.
-/

namespace Gapbs

open Conc Function ShortestPath

variable {n T : Nat}

/-! ## The order of the indexes -/

open VertexFacts in
/-- The lower of the two shared indexes. -/
def DeltaMem.least (s : DeltaMem T n) : Nat := min (s.sharedIndexes 0) (s.sharedIndexes 1)

/-- Inside the parallel region the shared index of the turn is the lower one, unless it has been reset. -/
def DeltaMem.Leads (s : DeltaMem T n) : Prop :=
  ∀ iter, s.iter = some iter →
    s.sharedIndexes (parity iter) = s.least ∨ s.sharedIndexes (parity iter) = kMaxBin

/-- A step that keeps the priorities: no distance below the least index is written. -/
structure PriorityStep (delta : Int) (s s' : DeltaMem T n) : Prop where
  leads : s.Leads → s'.Leads
  iter : s.iter.isSome → s'.iter.isSome
  least : s.iter.isSome → s.Leads → s.least ≤ s'.least
  dist : s.iter.isSome → s.Leads → ∀ v,
    s'.dist v = s.dist v ∨ s'.dist v < s.dist v ∧ delta * s.least ≤ s'.dist v

theorem PriorityStep.refl (delta : Int) (s : DeltaMem T n) : PriorityStep delta s s :=
  ⟨id, id, fun _ _ => le_rfl, fun _ _ _ => .inl rfl⟩

theorem PriorityStep.of_outside {delta : Int} {s s' : DeltaMem T n} (hs : s.iter = none) (hs' : s'.Leads) :
    PriorityStep delta s s' := by
  have hnot : ¬ s.iter.isSome := by simp [hs]
  exact ⟨fun _ => hs', fun h => absurd h hnot, fun h => absurd h hnot, fun h => absurd h hnot⟩

theorem DeltaMem.least_eq (s : DeltaMem T n) (iter : Nat) :
    s.least = min (s.sharedIndexes (parity iter)) (s.sharedIndexes (parity (iter + 1))) := by
  have hne := parity_ne iter
  unfold least
  generalize parity iter = c at hne
  generalize parity (iter + 1) = d at hne
  obtain ⟨rfl, rfl⟩ | ⟨rfl, rfl⟩ : c = 0 ∧ d = 1 ∨ c = 1 ∧ d = 0 := by omega
  · rfl
  · exact min_comm _ _

namespace Turn

variable {K : Turn T n} {t : Fin T}

theorem Searching.index_le {σ : DeltaMem T n × (Fin T → Hand n)} (h : K.Searching σ) :
    K.index ≤ σ.1.sharedIndexes K.next := by
  rcases h.voted with hnone | ⟨hle, -⟩
  · have hle := le_of_mul_le K.one_le K.low
    rw [kDistInf] at hle
    rw [hnone, kMaxBin]
    omega
  · exact hle

theorem Searching.least {σ : DeltaMem T n × (Fin T → Hand n)} (h : K.Searching σ) : σ.1.least = K.index := by
  have hle := h.index_le
  rw [σ.1.least_eq K.iter]
  change min (σ.1.sharedIndexes K.curr) (σ.1.sharedIndexes K.next) = K.index
  rw [h.index]
  exact min_eq_left hle

/-- In front of the first barrier, priorities are kept. -/
theorem Acts.priority {σ τ : DeltaMem T n × (Fin T → Hand n)} (hiter : K.start.iter = some K.iter)
    (h : K.Acts t σ τ) (hσ : K.Searching σ) : PriorityStep K.delta σ.1 τ.1 := by
  have hτ := h.keeps hσ
  refine ⟨fun _ iter hi => .inl ?_, fun hi => ?_, fun _ _ => ?_, fun _ _ v => ?_⟩
  · rw [hτ.iter, hiter] at hi
    obtain rfl := Option.some.inj hi
    exact hτ.index.trans hτ.least.symm
  · rw [hτ.iter, hiter]
    rfl
  · rw [hσ.least, hτ.least]
  · rw [hσ.least]
    exact h.dist v

end Turn

namespace CopyTurn

variable {K : CopyTurn T n} {t : Fin T}

/-- Between the barriers no distance is written. -/
theorem Acts.priority {σ τ : DeltaMem T n × (Fin T → Option Nat)} {delta : Int} {iter : Nat}
    (hiter : K.start.iter = some iter) (hcurr : K.curr = parity iter) (hnext : K.next = parity (iter + 1))
    (hle : K.start.sharedIndexes K.curr ≤ K.index) (hmax : K.index ≤ kMaxBin) (h : K.Acts t σ τ)
    (hσ : K.Copying σ) : PriorityStep delta σ.1 τ.1 := by
  have hτ := h.keeps hσ
  have hleast (σ : DeltaMem T n × (Fin T → Option Nat)) (hσ : K.Copying σ) :
      σ.1.least = min (σ.1.sharedIndexes K.curr) K.index := by
    rw [σ.1.least_eq iter, ← hcurr, ← hnext, hσ.index]
  refine ⟨fun _ i hi => ?_, fun _ => ?_, fun _ _ => ?_, fun _ _ v => .inl ?_⟩
  · rw [hτ.iter, hiter] at hi
    obtain rfl := Option.some.inj hi
    rw [hleast τ hτ, ← hcurr]
    rcases hτ.curr with heq | heq
    · left
      rw [heq, min_eq_left hle]
    · exact .inr heq
  · rw [hτ.iter, hiter]
    rfl
  · rw [hleast σ hσ, hleast τ hτ]
    rcases h.curr with heq | heq
    · rw [heq]
    · rw [heq]
      exact (min_le_right _ _).trans (le_min hmax le_rfl)
  · rw [hτ.dist, hσ.dist]

end CopyTurn

/-! ## In front of a turn -/

/-- The memory in front of turn `i`, which works on index `k`: an edge that could lower a distance starts at
an entry of the frontier or of a bin behind it. -/
structure Ready (g : WGraph n) (source : Fin n) (delta : Int) (bound i k : Nat) (s : DeltaMem T n) :
    Prop where
  iter : s.iter = some i
  sound : s.Sound g source
  index : s.sharedIndexes (parity i) = k
  next : s.sharedIndexes (parity (i + 1)) = kMaxBin
  tail : s.frontierTails (parity (i + 1)) = 0
  low : k = kMaxBin ∨ delta * k ≤ kDistInf
  bins : ∀ t j, binAt (s.localBins t) j ≠ [] → k < j ∧ delta * j ≤ kDistInf
  frontier : ∀ x < s.frontierTails (parity i), ∃ u, s.frontier x = some u
  cover : ∀ u, ∀ wn ∈ g.outNeigh u, s.dist wn.v ≤ s.dist u + wn.w ∨
    (∃ t, u ∈ binAt (s.localBins t) (binOf delta (s.dist u))) ∨
    binOf delta (s.dist u) = k ∧ ∃ x < s.frontierTails (parity i), s.frontier x = some u
  count : ∑ t, binEntries (s.localBins t) + s.potential ≤ bound

section

variable {g : WGraph n} {source : Fin n} {delta : Int} {bound iter index : Nat} {s : DeltaMem T n}

theorem le_kMaxBin (hdelta : 1 ≤ delta) {k : Nat} (h : delta * k ≤ kDistInf) : k < kMaxBin := by
  have hle := le_of_mul_le hdelta h
  rw [kDistInf] at hle
  rw [kMaxBin]
  omega

namespace Ready

/-- The turn that follows. -/
def turn (_ : Ready g source delta bound iter index s) (hg : g.WeightsOk) (hdelta : 1 ≤ delta)
    (hlow : delta * index ≤ kDistInf) : Turn T n :=
  ⟨g, source, delta, iter, index, s, bound, hg, hdelta, hlow⟩

theorem binAt_index (h : Ready g source delta bound iter index s) (t : Fin T) :
    binAt (s.localBins t) index = [] := by
  by_contra hne
  exact lt_irrefl _ (h.bins t index hne).1

variable (h : Ready g source delta bound iter index s) (hg : g.WeightsOk) (hdelta : 1 ≤ delta)
  (hlow : delta * index ≤ kDistInf) (sched : Schedule T (s.frontierTails (parity iter)))

/-- At the start the threads have promised to look at the edges of their frontier entries. -/
def hands (t : Fin T) : Hand n :=
  ⟨{ e | e ∈ (h.turn hg hdelta hlow).dueAt (sched.work t) [] ∧ e.2 ∈ g.outNeigh e.1 }, none, none⟩

theorem searching : (h.turn hg hdelta hlow).Searching (s, h.hands hg hdelta hlow sched) where
  sound := h.sound
  frontier := rfl
  tails := rfl
  iter := rfl
  index := h.index
  voted := .inl h.next
  kept _ := .inl rfl
  bins t j hj := ⟨(h.bins t j hj).1.le, (h.bins t j hj).2⟩
  own t u hu := by
    change u ∈ binAt (s.localBins t) index at hu
    rw [h.binAt_index] at hu
    cases hu
  cover u wn hwn := by
    rcases h.cover u wn hwn with hrelaxed | ⟨t, hbin⟩ | ⟨hindex, i, hi, hentry⟩
    · exact .inl hrelaxed
    · exact .inr ⟨t, .inl hbin⟩
    · obtain ⟨t, ht⟩ := sched.exists_mem ⟨i, hi⟩
      have hfloor : delta * index ≤ s.dist u := hindex ▸ mul_binOf_le hdelta (h.sound.range u).1
      exact .inr ⟨t, .inr (.inl ⟨⟨⟨i, hi⟩, ht, List.not_mem_nil, hentry, hfloor⟩, hwn⟩)⟩
  due _ _ he := he.2
  count := h.count

theorem idle (t : Fin T) : (h.turn hg hdelta hlow).Idle t ((h.turn hg hdelta hlow).dueAt (sched.work t) [])
    s.potential (s.localBins t) (s, h.hands hg hdelta hlow sched) :=
  ⟨h.searching hg hdelta hlow sched, rfl, nofun, fun _ he => he.1, .inr ⟨le_rfl, rfl⟩⟩

/-- Up to the first barrier. -/
theorem search_within :
    Within (PriorityStep delta)
      (.fork fun t => searchPhase g delta (parity iter) (parity (iter + 1)) t (sched.work t)) s fun stay s' =>
        (∀ t, stay t = true) ∧ ∃ γ, (h.turn hg hdelta hlow).Searching (s', γ) ∧
          ∀ t, (h.turn hg hdelta hlow).HasVoted t (s', γ) := by
  let K := h.turn hg hdelta hlow
  have hfork := Within.fork (PriorityStep.refl delta) K.Acts (fun t stay τ => stay = true ∧ K.HasVoted t τ)
    K.Searching (h.hands hg hdelta hlow sched) (h.searching hg hdelta hlow sched)
    (fun t => Turn.searchPhase_wp (K := K) h.frontier (h.binAt_index t) (h.idle hg hdelta hlow sched t))
    fun t σ τ hσ hact => ⟨hact.keeps hσ, hact.priority h.iter hσ⟩
  apply hfork.mono
  rintro stay s' ⟨γ, hinv, hposts⟩
  exact ⟨fun t => (hposts t).1, γ, hinv, fun t => (hposts t).2⟩

end Ready

end

/-! ## Between the barriers -/

section

variable {K : Turn T n} {σ : DeltaMem T n × (Fin T → Hand n)}

/-- The second half of the turn. -/
def Turn.Searching.copyTurn (h : K.Searching σ) (htail : K.start.frontierTails K.next = 0) (single : Fin T) :
    CopyTurn T n :=
  ⟨K.curr, K.next, K.ne, single, σ.1, h.tails ▸ htail⟩

theorem Turn.Searching.entries_le (h : K.Searching σ) :
    ∑ t, binEntries (σ.1.localBins t) + σ.1.potential ≤ K.bound := by
  have hle : ∑ t, binEntries (σ.1.localBins t) ≤ allEntries σ :=
    Finset.sum_le_sum fun t _ => Nat.le_add_right _ _
  have hcount := h.count
  omega

theorem Turn.Searching.index_le_kMaxBin (h : K.Searching σ) : σ.1.sharedIndexes K.next ≤ kMaxBin := by
  rcases h.voted with hnone | ⟨-, hlow, -⟩
  · exact hnone.le
  · exact (le_kMaxBin K.one_le hlow).le

theorem Turn.Searching.length_le (h : K.Searching σ) (j : Nat) :
    ∑ t, (binAt (σ.1.localBins t) j).length ≤ K.bound := by
  have hle : ∑ t, (binAt (σ.1.localBins t) j).length ≤ ∑ t, binEntries (σ.1.localBins t) :=
    Finset.sum_le_sum fun t _ => length_binAt_le _ _
  have hentries := h.entries_le
  omega

/-- The frontier has to have room for the bins of the next index. -/
theorem Turn.Searching.copy_within {room : Nat} (h : K.Searching σ)
    (htail : K.start.frontierTails K.next = 0) (hiter : K.start.iter = some K.iter)
    (hroom : ∑ t, (binAt (σ.1.localBins t) (σ.1.sharedIndexes K.next)).length ≤ room) (single : Fin T) :
    Within (PriorityStep K.delta) (.fork fun t => copyPhase room K.curr K.next single t) σ.1 fun _ s' =>
      ∃ δ, (h.copyTurn htail single).Copying (s', δ) ∧ ∀ t, (h.copyTurn htail single).Copied t (s', δ) := by
  let L := h.copyTurn htail single
  have hempty : σ.1.frontierTails L.next = 0 := L.tail
  have hstart : L.Copying (σ.1, fun _ => none) := by
    refine ⟨rfl, rfl, rfl, .inl rfl, nofun, nofun, fun i hi => ?_, ?_⟩
    · change i < σ.1.frontierTails L.next at hi
      omega
    · simpa using hempty
  have hindex : L.start.sharedIndexes L.curr ≤ L.index := h.index.trans_le h.index_le
  have hiter' : L.start.iter = some K.iter := h.iter.trans hiter
  apply (Within.fork (PriorityStep.refl K.delta) L.Acts (fun t _ τ => L.Copied t τ) L.Copying (fun _ => none)
    hstart (fun t => CopyTurn.copyPhase_wp hroom ⟨hstart, rfl, rfl⟩) ?_)
  intro t τ υ hτ hact
  exact ⟨hact.keeps hτ, hact.priority hiter' rfl rfl hindex h.index_le_kMaxBin hτ⟩

theorem CopyTurn.Copying.potential {L : CopyTurn T n} {τ : DeltaMem T n × (Fin T → Option Nat)}
    (h : L.Copying τ) : τ.1.potential = L.start.potential := by
  unfold DeltaMem.potential
  rw [h.dist]

/-- The parts that the threads have copied are the frontier of the next turn. -/
theorem CopyTurn.frontier_mem {L : CopyTurn T n} {τ : DeltaMem T n × (Fin T → Option Nat)}
    (hcopied : ∀ t, L.Copied t τ) {t : Fin T} {u : Fin n} (hu : u ∈ L.bin t) :
    ∃ x < τ.1.frontierTails L.next, τ.1.frontier x = some u := by
  obtain ⟨i, hi⟩ := List.mem_iff_getElem?.mp hu
  rcases (hcopied t).written with hnil | ⟨a, ha, hwritten⟩
  · rw [hnil] at hu
    cases hu
  · have hlt := (List.getElem?_eq_some_iff.mp hi).1
    have hbelow := (hcopied t).begun.inv.below t a ha
    exact ⟨a + i, by omega, hwritten i u hi⟩

theorem CopyTurn.exists_frontier {L : CopyTurn T n} {τ : DeltaMem T n × (Fin T → Option Nat)}
    (hcopying : L.Copying τ) (hcopied : ∀ t, L.Copied t τ) {x : Nat} (hx : x < τ.1.frontierTails L.next) :
    ∃ u, τ.1.frontier x = some u := by
  obtain ⟨t, a, ha, hle, hlt⟩ := hcopying.covered x hx
  rcases (hcopied t).written with hnil | ⟨b, hb, hwritten⟩
  · rw [hnil] at hlt
    exact absurd hlt (Nat.not_lt.mpr hle)
  · obtain rfl := Option.some.inj (ha.symm.trans hb)
    have hi : x - a < (L.bin t).length := by omega
    refine ⟨(L.bin t)[x - a], ?_⟩
    have hentry := hwritten (x - a) _ (List.getElem?_eq_getElem hi)
    rwa [Nat.add_sub_cancel' hle] at hentry

theorem parity_add_two (iter : Nat) : parity (iter + 2) = parity iter := by
  apply Fin.ext
  show (iter + 2) % 2 = iter % 2
  omega

/-- The turn has lowered a distance, or the next index is a later one. -/
theorem Turn.Searching.progress (h : K.Searching σ) {t : Fin T} (hvoted : K.HasVoted t σ) :
    toLex (σ.1.potential, kMaxBin - σ.1.sharedIndexes K.next) <
      toLex (K.start.potential, kMaxBin - K.index) := by
  have hindex := le_kMaxBin K.one_le K.low
  have hle : σ.1.potential ≤ K.start.potential := by
    rcases hvoted.fused.idle.fresh with hlt | ⟨hle, -⟩
    · exact hlt.le
    · exact hle
  rw [Prod.Lex.toLex_lt_toLex]
  rcases h.voted with hnone | ⟨hge, -, hsame⟩
  · omega
  · -- the same index once more: some thread has put a vertex into this bin again
    by_cases heq : σ.1.sharedIndexes K.next = K.index
    · exact .inl (hsame heq)
    · omega

/-- Behind the second barrier everything is ready for the next turn. -/
theorem Turn.Searching.ready (h : K.Searching σ) (hvoted : ∀ t, K.HasVoted t σ)
    (htail : K.start.frontierTails K.next = 0) {single : Fin T} {τ : DeltaMem T n × (Fin T → Option Nat)}
    (hcopying : (h.copyTurn htail single).Copying τ) (hcopied : ∀ t, (h.copyTurn htail single).Copied t τ) :
    Ready K.g K.source K.delta K.bound (K.iter + 1) (σ.1.sharedIndexes K.next)
      { τ.1 with iter := some (K.iter + 1) } where
  iter := rfl
  sound := h.sound.of_dist hcopying.dist
  index := hcopying.index
  next := by
    rw [parity_add_two]
    exact ((hcopied single).begun.reset rfl).1
  tail := by
    rw [parity_add_two]
    exact ((hcopied single).begun.reset rfl).2
  low := h.voted.imp_right fun hindex => hindex.2.1
  bins t j hj := by
    change binAt (τ.1.localBins t) j ≠ [] at hj
    rw [(hcopied t).bins] at hj
    split at hj
    · exact absurd rfl hj
    · next hne => exact ⟨lt_of_le_of_ne ((hvoted t).least j hj) (Ne.symm hne), (h.bins t j hj).2⟩
  frontier x hx := CopyTurn.exists_frontier hcopying hcopied hx
  cover u wn hwn := by
    have hdist : τ.1.dist = σ.1.dist := hcopying.dist
    show τ.1.dist wn.v ≤ τ.1.dist u + wn.w ∨
      (∃ t, u ∈ binAt (τ.1.localBins t) (binOf K.delta (τ.1.dist u))) ∨
      binOf K.delta (τ.1.dist u) = σ.1.sharedIndexes K.next ∧
        ∃ x < τ.1.frontierTails K.next, τ.1.frontier x = some u
    rw [hdist]
    -- behind the barrier no edge is due, read or owed any more; the entry may have been copied
    rcases h.cover u wn hwn with hrelaxed | ⟨t, hbin | hdue | hreading | howed⟩
    · exact .inl hrelaxed
    · by_cases hindex : binOf K.delta (σ.1.dist u) = σ.1.sharedIndexes K.next
      · rw [hindex] at hbin
        exact .inr (.inr ⟨hindex, CopyTurn.frontier_mem hcopied hbin⟩)
      · refine .inr (.inl ⟨t, ?_⟩)
        rw [(hcopied t).bins]
        split
        · next heq => exact absurd heq hindex
        · exact hbin
    · exact ((hvoted t).fused.idle.due hdue).elim
    · exact .inl ((hvoted t).fused.idle.read u wn _ hreading)
    · rw [(hvoted t).fused.idle.owed] at howed
      cases howed
  count := by
    have hentries : ∑ t, binEntries (τ.1.localBins t) ≤ ∑ t, binEntries (σ.1.localBins t) :=
      Finset.sum_le_sum fun t _ => (hcopied t).entries
    have hpotential : τ.1.potential = σ.1.potential := hcopying.potential
    have hcount := h.entries_le
    show ∑ t, binEntries (τ.1.localBins t) + τ.1.potential ≤ K.bound
    omega

end

/-! ## The whole turn -/

/-- What is left to do: a turn lowers a distance, or it goes on to a later index. -/
def DeltaMem.left (s : DeltaMem T n) : ℕ ×ₗ ℕ := toLex (s.potential, kMaxBin - s.least)

section

variable {g : WGraph n} {source : Fin n} {delta : Int} {bound iter index : Nat} {s : DeltaMem T n}

theorem Ready.least (h : Ready g source delta bound iter index s) (hindex : index ≤ kMaxBin) :
    s.least = index := by
  rw [s.least_eq iter, h.index, h.next]
  exact min_eq_left hindex

theorem Ready.leads (h : Ready g source delta bound iter index s) (hindex : index ≤ kMaxBin) : s.Leads := by
  intro i hi
  obtain rfl := Option.some.inj (h.iter.symm.trans hi)
  exact .inl (h.index.trans (h.least hindex).symm)

/-- The threads leave the loop when no index has been voted for. -/
theorem Ready.leave_within (h : Ready g source delta bound iter kMaxBin s)
    (work : Fin T → List (Fin (s.frontierTails (parity iter)))) :
    Within (PriorityStep delta)
      (.fork fun t => searchPhase g delta (parity iter) (parity (iter + 1)) t (work t)) s fun stay s' =>
        (∀ t, stay t = false) ∧ s' = s := by
  -- the threads do nothing but read the index
  let Still (_ : Fin T) (_ _ : DeltaMem T n × Unit) : Prop := False
  have hstable (t : Fin T) (P : DeltaMem T n × Unit → Prop) : Stable (Rely Still t) P := by
    rintro σ τ - ⟨_, _, hact⟩
    exact hact.elim
  have hthread (t : Fin T) : WP (Rely Still t) (Still t) (fun stay τ => stay = false ∧ τ.1 = s)
      (searchPhase g delta (parity iter) (parity (iter + 1)) t (work t)) (s, ()) := by
    apply WP.load_bind (P := fun τ => τ.1 = s) rfl (hstable t _)
    rintro s' ⟨⟩ hs'
    obtain rfl : s' = s := hs'
    rw [show s'.sharedIndexes (parity iter) = kMaxBin from h.index, if_pos rfl]
    exact WP.ret ⟨rfl, rfl⟩ (hstable t _)
  have hfork := Within.fork (PriorityStep.refl delta) Still (fun _ stay τ => stay = false ∧ τ.1 = s)
    (fun τ => τ.1 = s) () rfl hthread fun _ _ _ _ => False.elim
  apply hfork.mono
  rintro stay s' ⟨⟨⟩, hs', hposts⟩
  exact ⟨fun t => (hposts t).1, hs'⟩

variable [NeZero T]

/-- A turn goes on to the next index, or it finds that nothing is left to do. -/
theorem Ready.deltaTurn_within {room : Nat} (h : Ready g source delta bound iter index s) (hg : g.WeightsOk)
    (hdelta : 1 ≤ delta) (hroom : bound ≤ room) :
    Within (PriorityStep delta) (deltaTurn g delta room T) s fun r s' => match r with
      | .inl _ => (∃ j, Ready g source delta bound (iter + 1) j s') ∧ s'.left < s.left
      | .inr _ => s' = s ∧ index = kMaxBin := by
  apply Within.loadAt_bind h.iter
  apply Within.load_bind
  apply Within.pick_bind
  intro sched
  apply Within.bind
  rcases h.low with rfl | hlow
  · apply (h.leave_within sched.work).mono
    rintro stay s' ⟨hstay, rfl⟩
    have hleave : ¬ ∀ t, stay t = true := fun hall => Bool.noConfusion ((hstay 0).symm.trans (hall 0))
    rw [if_neg hleave, if_pos hstay]
    exact Within.ret ⟨rfl, rfl⟩
  · let K := h.turn hg hdelta hlow
    apply (h.search_within hg hdelta hlow sched).mono
    rintro stay s₁ ⟨hstay, γ, hs₁, hvoted⟩
    rw [if_pos hstay]
    apply Within.pick_bind
    intro single
    apply Within.bind
    apply (hs₁.copy_within h.tail h.iter ((hs₁.length_le _).trans hroom) single).mono
    rintro - s₂ ⟨δ, hcopying, hcopied⟩
    let s₃ : DeltaMem T n := { s₂ with iter := some (iter + 1) }
    have hready : Ready g source delta bound (iter + 1) (s₁.sharedIndexes K.next) s₃ :=
      hs₁.ready hvoted h.tail hcopying hcopied
    have hnext := hs₁.index_le_kMaxBin
    apply Within.store_bind
    · exact ⟨fun _ => hready.leads hnext, fun _ => rfl, fun _ _ => le_rfl, fun _ _ _ => .inl rfl⟩
    · refine Within.ret ⟨⟨_, hready⟩, ?_⟩
      show s₃.left < s.left
      have hpotential : s₃.potential = s₁.potential := hcopying.potential
      unfold DeltaMem.left
      rw [hready.least hnext, h.least (le_kMaxBin hdelta hlow).le, hpotential]
      exact hs₁.progress (hvoted 0)

end

end Gapbs
