import Mathlib.Algebra.BigOperators.Ring.List
import Mathlib.Data.Rat.Cast.Defs
import Gapbs.Bc.Slots
import Gapbs.Bfs.TopDown

/-!
# One round of `PBFS`

The threads race for the vertices without a depth; whoever wins appends the vertex to the queue.  Every
edge to the next level is marked in `succ` and counted in `path_counts`, by the thread that has it in
hand and whoever has claimed its target.
-/

namespace Gapbs

open Conc Function

variable {n m T len : Nat}

/-- What the threads have pushed, and the targets that have been counted from each position of the
window. -/
structure RoundGhost (T n len : Nat) where
  buffer : QueueBuffer.Ghost T (Fin n)
  counted : Fin len → List (Fin n)

def RoundGhost.bufferLens : Lens (RoundGhost T n len) (QueueBuffer.Ghost T (Fin n)) where
  get γ := γ.buffer
  set b γ := { γ with buffer := b }
  get_set _ _ := rfl
  set_get _ := rfl
  set_set _ _ _ := rfl

/-- The queue with its ghost state. -/
abbrev bufferView : Lens (BcMem n m × RoundGhost T n len)
    (SlidingQueue (Fin n) n × QueueBuffer.Ghost T (Fin n)) :=
  BcMem.queueLens.prod RoundGhost.bufferLens

namespace BcMem

@[simp] theorem depths_setDepth_self (s : BcMem n m) (v : Fin n) (d : Int) :
    (s.setDepth v d).depths v = d := update_self ..

theorem depths_setDepth_of_ne (s : BcMem n m) {u v : Fin n} (h : u ≠ v) (d : Int) :
    (s.setDepth v d).depths u = s.depths u := update_of_ne h ..

@[simp] theorem pathCounts_addPaths_self (s : BcMem n m) (v : Fin n) (count : ℚ) :
    (s.addPaths v count).pathCounts v = s.pathCounts v + count := update_self ..

theorem pathCounts_addPaths_of_ne (s : BcMem n m) {u v : Fin n} (h : u ≠ v) (count : ℚ) :
    (s.addPaths v count).pathCounts u = s.pathCounts u := update_of_ne h ..

end BcMem

section Round

variable (g : Graph n) (w : List (Fin n)) (depth : Int) (s₀ : BcMem n m)

/-- The positions of the edges from the window to the vertices that have no depth at the start. -/
def NewSlot (pos : Nat) : Prop := ∃ u ∈ w, ∃ v, (v, pos) ∈ g.outSlots u ∧ s₀.depths v = -1

/-- A vertex is claimed at most once and only if it had no depth; the counts have grown by what has been
counted, and the marks by edges to the next level. -/
structure Expands (σ : BcMem n m × RoundGhost T n w.length) : Prop where
  rest : σ.1 = { s₀ with depths := σ.1.depths, pathCounts := σ.1.pathCounts, succ := σ.1.succ,
                         queue := σ.1.queue }
  kept : QueueBuffer.Kept s₀.queue.sharedIn s₀.queue σ.1.queue
  claimed : ∀ t v, v ∈ σ.2.buffer.pushed t →
    s₀.depths v = -1 ∧ (∃ u ∈ w, g.Edge u v) ∧ σ.1.depths v = depth
  unclaimed : ∀ v, (∀ t, v ∉ σ.2.buffer.pushed t) → σ.1.depths v = s₀.depths v
  nodup : ∀ t, (σ.2.buffer.pushed t).Nodup
  apart : ∀ t u v, v ∈ σ.2.buffer.pushed t → v ∈ σ.2.buffer.pushed u → t = u
  counts : ∀ v, σ.1.pathCounts v =
    s₀.pathCounts v + ∑ i, ((σ.2.counted i).count v : ℚ) * s₀.pathCounts w[i]
  fresh : ∀ i, ∀ v ∈ σ.2.counted i, s₀.depths v = -1
  marked : ∀ pos : Fin m, σ.1.succ.getBit pos = true →
    s₀.succ.getBit pos = true ∨ NewSlot g w s₀ pos
  grown : Bitmap.Grows s₀.succ σ.1.succ

/-- What thread `t` may do in a round: it counts at the positions that are its own. -/
structure ExpandStep (sched : Schedule T w.length) (t : Fin T)
    (σ τ : BcMem n m × RoundGhost T n w.length) : Prop where
  expands : Expands g w depth s₀ σ → Expands g w depth s₀ τ
  queue : QueueBuffer.QueueStep s₀.queue.sharedIn t (bufferView.get σ) (bufferView.get τ)
  seen : ∀ v, σ.1.depths v ≠ -1 → τ.1.depths v ≠ -1
  counted : ∀ i, i ∉ sched.work t → τ.2.counted i = σ.2.counted i
  grows : Bitmap.Grows σ.1.succ τ.1.succ

/-- What a thread carries along: what has been counted at its positions, the vertices that it has found
to have a depth, and the positions that it has marked. -/
structure Counting (sched : Schedule T w.length) (t : Fin T) (cells : Fin w.length → List (Fin n))
    (seen : Set (Fin n)) (marks : Set Nat) (σ : BcMem n m × RoundGhost T n w.length) : Prop where
  expands : Expands g w depth s₀ σ
  counted : ∀ i ∈ sched.work t, σ.2.counted i = cells i
  seen : ∀ v ∈ seen, σ.1.depths v ≠ -1
  marks : ∀ pos : Fin m, pos.val ∈ marks → σ.1.succ.getBit pos = true

/-- A thread between two edges. -/
structure AtEdge (sched : Schedule T w.length) (t : Fin T) (lqueue : List (Fin n))
    (cells : Fin w.length → List (Fin n)) (seen : Set (Fin n)) (marks : Set Nat)
    (σ : BcMem n m × RoundGhost T n w.length) : Prop where
  counting : Counting g w depth s₀ sched t cells seen marks σ
  pending : QueueBuffer.Pending s₀.queue.sharedIn t lqueue (bufferView.get σ)
  size : lqueue.length ≤ QueueBuffer.defaultSize

variable {g w depth s₀}

/-- There is room in the queue for all that can be claimed. -/
theorem Expands.room {σ : BcMem n m × RoundGhost T n w.length} (h : Expands g w depth s₀ σ)
    (hroom : s₀.queue.sharedIn + (Finset.univ.filter fun v => s₀.depths v = -1).card ≤ n) :
    s₀.queue.sharedIn + ∑ t, (σ.2.buffer.pushed t).length ≤ n :=
  (Nat.add_le_add_left (QueueBuffer.sum_pushed_le h.nodup h.apart fun t v hv => by
    simpa using (h.claimed t v hv).1) _).trans hroom

/-- A vertex without a depth has not been claimed. -/
theorem Expands.free (hdepth : depth ≠ -1) {σ : BcMem n m × RoundGhost T n w.length}
    (h : Expands g w depth s₀ σ) {v : Fin n} (hv : σ.1.depths v = -1) :
    (∀ t, v ∉ σ.2.buffer.pushed t) ∧ s₀.depths v = -1 := by
  have hnot (t : Fin T) : v ∉ σ.2.buffer.pushed t := fun ht =>
    hdepth ((h.claimed t v ht).2.2.symm.trans hv)
  exact ⟨hnot, (h.unclaimed v hnot).symm.trans hv⟩

/-- The vertices with the new depth are those that had none. -/
theorem Expands.depth_iff (hold : ∀ v, s₀.depths v ≠ depth)
    {σ : BcMem n m × RoundGhost T n w.length} (h : Expands g w depth s₀ σ) {v : Fin n}
    (hv : σ.1.depths v ≠ -1) : σ.1.depths v = depth ↔ s₀.depths v = -1 := by
  by_cases hex : ∃ t, v ∈ σ.2.buffer.pushed t
  · obtain ⟨t, ht⟩ := hex
    obtain ⟨hnone, -, hd⟩ := h.claimed t v ht
    exact iff_of_true hd hnone
  · have hsame := h.unclaimed v (not_exists.mp hex)
    rw [hsame] at hv ⊢
    exact iff_of_false (hold v) hv

/-! ## The steps of a thread -/

/-- A push of the buffer or a flush changes neither the depths nor the counts. -/
theorem Expands.setQueue {s : BcMem n m} {γ : RoundGhost T n w.length} (h : Expands g w depth s₀ (s, γ))
    {q : SlidingQueue (Fin n) n} {δ : QueueBuffer.Ghost T (Fin n)}
    (hkept : QueueBuffer.Kept s₀.queue.sharedIn s.queue q) (hpushed : δ.pushed = γ.buffer.pushed) :
    Expands g w depth s₀ (bufferView.set (q, δ) (s, γ)) := by
  refine ⟨?_, h.kept.trans hkept, ?_, ?_, ?_, ?_, h.counts, h.fresh, h.marked, h.grown⟩
  · have hrest := h.rest
    change s = _ at hrest
    show { s with queue := q } = { s₀ with depths := s.depths, pathCounts := s.pathCounts,
                                           succ := s.succ, queue := q }
    rw [hrest]
  · exact hpushed ▸ h.claimed
  · exact hpushed ▸ h.unclaimed
  · exact hpushed ▸ h.nodup
  · exact hpushed ▸ h.apart

theorem Expands.claim (hdepth : depth ≠ -1) {t : Fin T} {u v : Fin n} {s : BcMem n m}
    {γ : RoundGhost T n w.length} (h : Expands g w depth s₀ (s, γ)) (hv : s.depths v = -1)
    (hu : u ∈ w) (hE : g.Edge u v) :
    Expands g w depth s₀
      (s.setDepth v depth, { γ with buffer := QueueBuffer.pushGhost t v γ.buffer }) := by
  obtain ⟨hnot, hnone⟩ := h.free hdepth hv
  refine ⟨?_, h.kept, ?_, ?_, ?_, ?_, h.counts, h.fresh, h.marked, h.grown⟩
  · have hrest := h.rest
    change s = _ at hrest
    show { s with depths := _ } = { s₀ with depths := _, pathCounts := s.pathCounts, succ := s.succ,
                                            queue := s.queue }
    rw [hrest]
    rfl
  · intro r x hx
    rcases QueueBuffer.mem_pushGhost.mp hx with hx | ⟨-, rfl⟩
    · have hxv : x ≠ v := fun heq => hnot r (heq ▸ hx)
      obtain ⟨hneg, hin, hd⟩ := h.claimed r x hx
      exact ⟨hneg, hin, (s.depths_setDepth_of_ne hxv _).trans hd⟩
    · exact ⟨hnone, ⟨u, hu, hE⟩, s.depths_setDepth_self x _⟩
  · intro x hx
    have hxv : x ≠ v := fun heq => hx t (QueueBuffer.mem_pushGhost.mpr (.inr ⟨rfl, heq⟩))
    refine (s.depths_setDepth_of_ne hxv _).trans (h.unclaimed x fun r hr => ?_)
    exact hx r (QueueBuffer.mem_pushGhost.mpr (.inl hr))
  · exact QueueBuffer.pushGhost_nodup h.nodup (hnot t)
  · exact QueueBuffer.pushGhost_apart h.apart hnot

theorem Expands.mark {s : BcMem n m} {γ : RoundGhost T n w.length} (h : Expands g w depth s₀ (s, γ))
    {pos : Fin m} (hpos : NewSlot g w s₀ pos) :
    Expands g w depth s₀ ({ s with succ := s.succ.insert pos }, γ) := by
  refine ⟨?_, h.kept, h.claimed, h.unclaimed, h.nodup, h.apart, h.counts, h.fresh, fun p hp => ?_,
    fun k j hk => Bitmap.grows_insert _ _ k j (h.grown k j hk)⟩
  · have hrest := h.rest
    change s = _ at hrest
    show { s with succ := s.succ.insert pos } =
      { s₀ with depths := s.depths, pathCounts := s.pathCounts, succ := _, queue := s.queue }
    rw [hrest]
  · rw [Bitmap.getBit_insert, Bool.or_eq_true, decide_eq_true_eq] at hp
    rcases hp with rfl | hp
    · exact .inr hpos
    · exact h.marked p hp

/-- The ghost state after the target `v` has been counted from position `i`. -/
def countGhost (i : Fin len) (v : Fin n) (γ : RoundGhost T n len) : RoundGhost T n len :=
  { γ with counted := update γ.counted i (γ.counted i ++ [v]) }

theorem Expands.count {s : BcMem n m} {γ : RoundGhost T n w.length} (h : Expands g w depth s₀ (s, γ))
    {i : Fin w.length} {v : Fin n} (hv : s₀.depths v = -1) :
    Expands g w depth s₀ (s.addPaths v (s₀.pathCounts w[i]), countGhost i v γ) := by
  refine ⟨?_, h.kept, h.claimed, h.unclaimed, h.nodup, h.apart, fun x => ?_, fun j x hx => ?_,
    h.marked, h.grown⟩
  · have hrest := h.rest
    change s = _ at hrest
    show { s with pathCounts := _ } = { s₀ with depths := s.depths, pathCounts := _, succ := s.succ,
                                                queue := s.queue }
    rw [hrest]
    rfl
  · have hcounts := h.counts x
    change s.pathCounts x = _ at hcounts
    have hother (j : Fin w.length) (hj : j ≠ i) : (countGhost i v γ).counted j = γ.counted j :=
      update_of_ne hj _ _
    have hself : (countGhost i v γ).counted i = γ.counted i ++ [v] := update_self ..
    by_cases hxv : x = v
    · subst hxv
      show (s.addPaths x _).pathCounts x = _
      have hsum := sum_eq_add_of_cell (M := ℚ) i (s₀.pathCounts w[i])
        (f := fun j => ((γ.counted j).count x : ℚ) * s₀.pathCounts w[j])
        (g := fun j => (((countGhost i x γ).counted j).count x : ℚ) * s₀.pathCounts w[j])
        (by simp only [hself, List.count_append, List.count_singleton_self, Nat.cast_add,
              Nat.cast_one, add_mul, one_mul])
        (fun j hj => by simp only [hother j hj])
      rw [s.pathCounts_addPaths_self, hcounts, add_assoc]
      exact congrArg (s₀.pathCounts x + ·) hsum.symm
    · show (s.addPaths v _).pathCounts x = _
      rw [s.pathCounts_addPaths_of_ne hxv, hcounts]
      congr 1
      apply Finset.sum_congr rfl
      intro j _
      by_cases hj : j = i
      · subst hj
        rw [hself, List.count_append, List.count_singleton, if_neg (by simpa using Ne.symm hxv),
          Nat.add_zero]
      · rw [hother j hj]
  · by_cases hj : j = i
    · subst hj
      change x ∈ update γ.counted j (γ.counted j ++ [v]) j at hx
      rw [update_self, List.mem_append, List.mem_singleton] at hx
      rcases hx with hx | rfl
      · exact h.fresh j x hx
      · exact hv
    · change x ∈ update γ.counted i _ j at hx
      rw [update_of_ne hj] at hx
      exact h.fresh j x hx

/-- The counts of the vertices that had a depth do not change. -/
theorem Expands.count_old {σ : BcMem n m × RoundGhost T n w.length} (h : Expands g w depth s₀ σ)
    {u : Fin n} (hu : s₀.depths u ≠ -1) : σ.1.pathCounts u = s₀.pathCounts u := by
  rw [h.counts u]
  have hzero (i : Fin w.length) (_ : i ∈ Finset.univ) :
      ((σ.2.counted i).count u : ℚ) * s₀.pathCounts w[i] = 0 := by
    rw [List.count_eq_zero.mpr fun hmem => hu (h.fresh i u hmem), Nat.cast_zero, zero_mul]
  rw [Finset.sum_eq_zero hzero, add_zero]

section Thread

variable {sched : Schedule T w.length} {t : Fin T} {cells : Fin w.length → List (Fin n)}
  {seen : Set (Fin n)} {marks : Set Nat} {lqueue : List (Fin n)}

theorem Counting.stable (sched : Schedule T w.length) (t : Fin T)
    (cells : Fin w.length → List (Fin n)) (seen : Set (Fin n)) (marks : Set Nat) :
    Stable (Rely (ExpandStep g w depth s₀ sched) t)
      (Counting (m := m) g w depth s₀ sched t cells seen marks) := by
  intro σ τ hσ ⟨u, hu, hstep⟩
  refine ⟨hstep.expands hσ.expands, fun i hi => ?_, fun v hv => hstep.seen v (hσ.seen v hv),
    fun pos hpos => hstep.grows.getBit (hσ.marks pos hpos)⟩
  rw [hstep.counted i fun hiu => hu (sched.eq_of_mem hiu hi)]
  exact hσ.counted i hi

theorem AtEdge.stable (sched : Schedule T w.length) (t : Fin T) (lqueue : List (Fin n))
    (cells : Fin w.length → List (Fin n)) (seen : Set (Fin n)) (marks : Set Nat) :
    Stable (Rely (ExpandStep g w depth s₀ sched) t)
      (AtEdge (m := m) g w depth s₀ sched t lqueue cells seen marks) := by
  intro σ τ hσ hR
  refine ⟨Counting.stable sched t cells seen marks σ τ hσ.counting hR, ?_, hσ.size⟩
  obtain ⟨u, hu, hstep⟩ := hR
  exact QueueBuffer.Owed.stable _ t lqueue 0 0 _ _ hσ.pending ⟨u, hu, hstep.queue⟩

/-- Operations on the thread's buffer. -/
theorem roundBuffer_wp {α : Type} {op : Prog (SlidingQueue (Fin n) n) α}
    {Q : α → SlidingQueue (Fin n) n × QueueBuffer.Ghost T (Fin n) → Prop}
    {σ : BcMem n m × RoundGhost T n w.length}
    (h : WP (Rely (QueueBuffer.QueueStep s₀.queue.sharedIn) t)
      (QueueBuffer.FlushStep s₀.queue.sharedIn t) Q op (bufferView.get σ))
    (hσ : Counting g w depth s₀ sched t cells seen marks σ) :
    WP (Rely (ExpandStep g w depth s₀ sched) t) (ExpandStep g w depth s₀ sched t)
      (fun r τ => Q r (bufferView.get τ) ∧ Counting g w depth s₀ sched t cells seen marks τ)
      (op.zoom BcMem.queueLens) σ := by
  apply WP.zoom BcMem.queueLens RoundGhost.bufferLens h hσ (Counting.stable sched t cells seen marks)
  · exact fun σ τ _ ⟨u, hu, hstep⟩ => .inr ⟨u, hu, hstep.queue⟩
  · rintro ⟨s, γ⟩ ⟨q, δ⟩ hσ ⟨hstep, hpushed⟩
    have hexpands (h : Expands g w depth s₀ (s, γ)) :
        Expands g w depth s₀ (bufferView.set (q, δ) (s, γ)) := h.setQueue hstep.kept hpushed
    refine ⟨⟨hexpands, ?_, fun _ hv => hv, fun _ _ => rfl, fun _ _ hk => hk⟩, hexpands hσ.expands,
      hσ.counted, hσ.seen, hσ.marks⟩
    rw [bufferView.get_set]
    exact hstep

/-- A compare-and-swap that succeeds. -/
theorem AtEdge.claim (hdepth : depth ≠ -1)
    (hroom : s₀.queue.sharedIn + (Finset.univ.filter fun v => s₀.depths v = -1).card ≤ n)
    {u v : Fin n} {s : BcMem n m} {γ : RoundGhost T n w.length}
    (h : AtEdge g w depth s₀ sched t lqueue cells seen marks (s, γ)) (hv : s.depths v = -1)
    (hu : u ∈ w) (hE : g.Edge u v) :
    let τ := (s.setDepth v depth, { γ with buffer := QueueBuffer.pushGhost t v γ.buffer })
    ExpandStep g w depth s₀ sched t (s, γ) τ ∧
      Counting g w depth s₀ sched t cells (insert v seen) marks τ ∧
      QueueBuffer.Pending s₀.queue.sharedIn t (lqueue ++ [v]) (bufferView.get τ) := by
  intro τ
  have hexpands : Expands g w depth s₀ τ := h.counting.expands.claim hdepth hv hu hE
  have hseen (x : Fin n) (hx : s.depths x ≠ -1) : (s.setDepth v depth).depths x ≠ -1 := by
    have hxv : x ≠ v := fun heq => hx (heq ▸ hv)
    rwa [s.depths_setDepth_of_ne hxv]
  obtain ⟨hqueue, hpending⟩ := QueueBuffer.push_step h.pending (hexpands.room hroom)
  refine ⟨⟨fun _ => hexpands, hqueue, hseen, fun _ _ => rfl, fun _ _ hk => hk⟩,
    ⟨hexpands, h.counting.counted, ?_, h.counting.marks⟩, hpending⟩
  rintro x (rfl | hx)
  · show (s.setDepth x depth).depths x ≠ -1
    rwa [s.depths_setDepth_self]
  · exact hseen x (h.counting.seen x hx)

theorem AtEdge.seeing {σ : BcMem n m × RoundGhost T n w.length}
    (h : AtEdge g w depth s₀ sched t lqueue cells seen marks σ) {v : Fin n} (hv : σ.1.depths v ≠ -1) :
    AtEdge g w depth s₀ sched t lqueue cells (insert v seen) marks σ := by
  refine ⟨⟨h.counting.expands, h.counting.counted, ?_, h.counting.marks⟩, h.pending, h.size⟩
  rintro x (rfl | hx)
  · exact hv
  · exact h.counting.seen x hx

/-- Afterwards the vertex has a depth, from this thread or from another one. -/
theorem claimVertex_wp (hdepth : depth ≠ -1)
    (hroom : s₀.queue.sharedIn + (Finset.univ.filter fun v => s₀.depths v = -1).card ≤ n)
    {u v : Fin n} (hu : u ∈ w) (hE : g.Edge u v) {σ : BcMem n m × RoundGhost T n w.length}
    (h : AtEdge g w depth s₀ sched t lqueue cells seen marks σ) :
    WP (Rely (ExpandStep g w depth s₀ sched) t) (ExpandStep g w depth s₀ sched t)
      (fun l τ => AtEdge g w depth s₀ sched t l cells (insert v seen) marks τ)
      (claimVertex depth v lqueue) σ := by
  apply WP.load_bind (P := AtEdge g w depth s₀ sched t lqueue cells seen marks) h
    (AtEdge.stable sched t _ _ _ _)
  intro s γ hs
  by_cases hnone : s.depths v = -1
  · rw [if_pos hnone]
    apply WP.op_bind (P := AtEdge g w depth s₀ sched t lqueue cells seen marks) hs
      (AtEdge.stable sched t _ _ _ _)
    intro s₁ γ₁ hs₁
    by_cases hv : s₁.depths v = -1
    · obtain ⟨hstep, hcounting, hpending⟩ := hs₁.claim hdepth hroom hv hu hE
      refine ⟨true, _, _, if_pos hv, .inr hstep, ?_⟩
      have hpush := QueueBuffer.pushBack_wp (by decide) hs₁.size hpending
      apply (roundBuffer_wp hpush hcounting).mono
      rintro l τ ⟨⟨hl, hsize⟩, hτ⟩
      rw [List.append_nil] at hl
      exact ⟨hτ, hl, hsize⟩
    · exact ⟨false, s₁, γ₁, if_neg hv, .inl rfl, WP.ret (hs₁.seeing hv) (AtEdge.stable sched t _ _ _ _)⟩
  · rw [if_neg hnone]
    exact WP.ret (hs.seeing hnone) (AtEdge.stable sched t _ _ _ _)

/-- The bit stays set, whatever the others mark. -/
theorem setSucc_wp {pos : Nat} (hpos : pos < m) (hnew : NewSlot g w s₀ pos)
    {σ : BcMem n m × RoundGhost T n w.length}
    (h : AtEdge g w depth s₀ sched t lqueue cells seen marks σ) :
    WP (Rely (ExpandStep g w depth s₀ sched) t) (ExpandStep g w depth s₀ sched t)
      (fun _ τ => AtEdge g w depth s₀ sched t lqueue cells seen (insert pos marks) τ)
      (setSucc pos) σ := by
  rw [setSucc, dif_pos hpos]
  apply (WP.zoom BcMem.succLens (.unit : Lens (RoundGhost T n w.length) Unit)
    (P := AtEdge g w depth s₀ sched t lqueue cells seen marks)
    (Bitmap.setBitAtomic_wp ⟨pos, hpos⟩ σ.1.succ) h (AtEdge.stable sched t _ _ _ _) ?_ ?_).mono
  · rintro _ τ ⟨hbit, hτ⟩
    refine ⟨⟨hτ.counting.expands, hτ.counting.counted, hτ.counting.seen, ?_⟩, hτ.pending, hτ.size⟩
    rintro p (hp | hp)
    · obtain rfl : p = ⟨pos, hpos⟩ := Fin.ext hp
      exact hbit
    · exact hτ.counting.marks p hp
  · exact fun σ τ _ ⟨u, hu, hstep⟩ => .inr hstep.grows
  · rintro ⟨s, γ⟩ ⟨b, _⟩ hs hb
    change b = s.succ.insert ⟨pos, hpos⟩ at hb
    subst hb
    have hexpands (h : Expands g w depth s₀ (s, γ)) :
        Expands g w depth s₀ ({ s with succ := s.succ.insert ⟨pos, hpos⟩ }, γ) := h.mark hnew
    refine ⟨⟨hexpands, .refl _ _ _, fun _ hv => hv, fun _ _ => rfl, Bitmap.grows_insert _ _⟩,
      ⟨hexpands hs.counting.expands, hs.counting.counted, hs.counting.seen, fun p hp => ?_⟩,
      hs.pending, hs.size⟩
    exact (Bitmap.grows_insert s.succ _).getBit (hs.counting.marks p hp)

open scoped Classical in
/-- An edge to a vertex that had no depth is marked and counted; nothing happens at the others. -/
theorem countPath_wp (hold : ∀ v, s₀.depths v ≠ depth) {i : Fin w.length} (hi : i ∈ sched.work t)
    (hsource : s₀.depths w[i] ≠ -1) {v : Fin n} {pos : Nat} (hpos : pos < m)
    (hslot : (v, pos) ∈ g.outSlots w[i]) (hseen : v ∈ seen)
    {σ : BcMem n m × RoundGhost T n w.length}
    (h : AtEdge g w depth s₀ sched t lqueue cells seen marks σ) :
    WP (Rely (ExpandStep g w depth s₀ sched) t) (ExpandStep g w depth s₀ sched t)
      (fun _ τ => if s₀.depths v = -1 then
          AtEdge g w depth s₀ sched t lqueue (update cells i (cells i ++ [v])) seen
            (insert pos marks) τ
        else AtEdge g w depth s₀ sched t lqueue cells seen marks τ) (countPath depth w[i] v pos) σ := by
  apply WP.load_bind (P := AtEdge g w depth s₀ sched t lqueue cells seen marks) h
    (AtEdge.stable sched t _ _ _ _)
  intro s γ hs
  have hiff : s.depths v = depth ↔ s₀.depths v = -1 :=
    hs.counting.expands.depth_iff hold (hs.counting.seen v hseen)
  by_cases hv : s₀.depths v = -1
  · simp only [if_pos (hiff.mpr hv), if_pos hv]
    have hnew : NewSlot g w s₀ pos := ⟨w[i], List.getElem_mem i.isLt, v, hslot, hv⟩
    apply WP.bind
    apply (setSucc_wp hpos hnew hs).mono
    intro _ σ₁ hσ₁
    apply WP.load_bind (P := AtEdge g w depth s₀ sched t lqueue cells seen (insert pos marks)) hσ₁
      (AtEdge.stable sched t _ _ _ _)
    intro s₁ γ₁ hs₁
    have hcount : s₁.pathCounts w[i] = s₀.pathCounts w[i] := hs₁.counting.expands.count_old hsource
    rw [hcount]
    apply WP.store (P := AtEdge g w depth s₀ sched t lqueue cells seen (insert pos marks)) hs₁
      (AtEdge.stable sched t _ _ _ _) fun _ => AtEdge.stable sched t _ _ _ _
    intro s₂ γ₂ hs₂
    have hexpands (h : Expands g w depth s₀ (s₂, γ₂)) :
        Expands g w depth s₀ (s₂.addPaths v (s₀.pathCounts w[i]), countGhost i v γ₂) := h.count hv
    refine ⟨countGhost i v γ₂, .inr ⟨hexpands, .refl _ _ _, fun _ hx => hx, fun j hj => ?_,
      fun _ _ hk => hk⟩, ⟨hexpands hs₂.counting.expands, fun j hj => ?_, hs₂.counting.seen,
      hs₂.counting.marks⟩, hs₂.pending, hs₂.size⟩
    · have hji : j ≠ i := by
        rintro rfl
        exact hj hi
      exact update_of_ne hji _ _
    · show update γ₂.counted i (γ₂.counted i ++ [v]) j = _
      have hcell : γ₂.counted i = cells i := hs₂.counting.counted i hi
      by_cases hji : j = i
      · subst hji
        rw [update_self, update_self, hcell]
      · rw [update_of_ne hji, update_of_ne hji]
        exact hs₂.counting.counted j hj
  · simp only [if_neg (fun heq => hv (hiff.mp heq)), if_neg hv]
    exact WP.ret hs (AtEdge.stable sched t _ _ _ _)

/-! ## A whole round -/

variable (g s₀) in
/-- The targets of `u` that had no depth. -/
def newTargets (u : Fin n) : List (Fin n) := (g.outNeigh u).filter fun v => s₀.depths v = -1

variable (g s₀) in
/-- The positions of the edges from `u` to these. -/
def newSlotsOf (u : Fin n) : Set Nat := { pos | ∃ v, (v, pos) ∈ g.outSlots u ∧ s₀.depths v = -1 }

/-- The loop over the neighbours of the vertex at position `i`. -/
theorem expandVertex_wp (hdepth : depth ≠ -1) (hold : ∀ v, s₀.depths v ≠ depth)
    (hroom : s₀.queue.sharedIn + (Finset.univ.filter fun v => s₀.depths v = -1).card ≤ n)
    {i : Fin w.length} (hi : i ∈ sched.work t) (hsource : s₀.depths w[i] ≠ -1)
    (hpos : ∀ v pos, (v, pos) ∈ g.outSlots w[i] → pos < m) (hcells : cells i = [])
    {σ : BcMem n m × RoundGhost T n w.length}
    (h : AtEdge g w depth s₀ sched t lqueue cells seen marks σ) :
    WP (Rely (ExpandStep g w depth s₀ sched) t) (ExpandStep g w depth s₀ sched t)
      (fun l τ => AtEdge g w depth s₀ sched t l (update cells i (newTargets g s₀ w[i]))
        (seen ∪ { v | g.Edge w[i] v }) (marks ∪ newSlotsOf g s₀ w[i]) τ)
      (expandVertex g depth w[i] lqueue) σ := by
  -- what has been done for the edges of `pre`
  let new (e : Fin n × Nat) : Bool := s₀.depths e.1 = -1
  let Inv (pre : List (Fin n × Nat)) (l : List (Fin n))
      (τ : BcMem n m × RoundGhost T n w.length) : Prop :=
    AtEdge g w depth s₀ sched t l (update cells i ((pre.filter new).map Prod.fst))
      (seen ∪ { v | v ∈ pre.map Prod.fst }) (marks ∪ { p | p ∈ (pre.filter new).map Prod.snd }) τ
  have hstart : Inv [] lqueue σ := by
    have hupdate : update cells i [] = cells := by
      rw [← hcells]
      exact update_eq_self i cells
    have hseen : seen ∪ { v | v ∈ ([] : List (Fin n)) } = seen := by simp
    have hmarks : marks ∪ { p | p ∈ ([] : List Nat) } = marks := by simp
    show AtEdge g w depth s₀ sched t lqueue (update cells i []) (seen ∪ { v | v ∈ [] })
      (marks ∪ { p | p ∈ [] }) σ
    rw [hupdate, hseen, hmarks]
    exact h
  apply (WP.forEach Inv hstart (fun _ _ => AtEdge.stable sched t _ _ _ _) ?_).mono
  · intro l τ hτ
    have hcells : ((g.outSlots w[i]).filter new).map Prod.fst = newTargets g s₀ w[i] := by
      rw [newTargets, ← map_fst_outSlots w[i], List.filter_map]
      rfl
    have hmarks : { p | p ∈ ((g.outSlots w[i]).filter new).map Prod.snd } = newSlotsOf g s₀ w[i] := by
      ext p
      simp only [newSlotsOf, new, Set.mem_ofPred_eq, List.mem_map, List.mem_filter, Prod.exists,
        decide_eq_true_eq, exists_eq_right]
    change AtEdge g w depth s₀ sched t l (update cells i (((g.outSlots w[i]).filter new).map Prod.fst))
      (seen ∪ { v | v ∈ (g.outSlots w[i]).map Prod.fst })
      (marks ∪ { p | p ∈ ((g.outSlots w[i]).filter new).map Prod.snd }) τ at hτ
    rw [hcells, hmarks, map_fst_outSlots] at hτ
    exact hτ
  · rintro pre ⟨v, pos⟩ post l τ hsplit hτ
    have hslot : (v, pos) ∈ g.outSlots w[i] := by
      rw [hsplit]
      simp
    have hE : g.Edge w[i] v := edge_of_mem_outSlots hslot
    have hseen : seen ∪ { x | x ∈ (pre ++ [(v, pos)]).map Prod.fst } =
        insert v (seen ∪ { x | x ∈ pre.map Prod.fst }) := by
      ext x
      simp only [List.map_append, List.map_singleton, Set.mem_union, Set.mem_ofPred_eq,
        List.mem_append, List.mem_singleton, Set.mem_insert_iff]
      tauto
    apply WP.bind
    apply (claimVertex_wp hdepth hroom (List.getElem_mem i.isLt) hE hτ).mono
    intro l₁ τ₁ hτ₁
    apply WP.bind
    apply (countPath_wp hold hi hsource (hpos v pos hslot) hslot (Set.mem_insert _ _) hτ₁).mono
    intro _ τ₂ hτ₂
    apply WP.ret (Q := Inv (pre ++ [(v, pos)])) _ (AtEdge.stable sched t _ _ _ _)
    show AtEdge g w depth s₀ sched t l₁ _ _ _ τ₂
    rw [hseen, List.filter_append]
    by_cases hv : s₀.depths v = -1
    · have hnew : [(v, pos)].filter new = [(v, pos)] := List.filter_cons_of_pos (by simp [new, hv])
      have hmarks : marks ∪ { p | p ∈ (pre.filter new ++ [(v, pos)]).map Prod.snd } =
          insert pos (marks ∪ { p | p ∈ (pre.filter new).map Prod.snd }) := by
        ext p
        simp only [List.map_append, List.map_singleton, Set.mem_union, Set.mem_ofPred_eq,
          List.mem_append, List.mem_singleton, Set.mem_insert_iff]
        tauto
      rw [if_pos hv, update_self, update_idem] at hτ₂
      rw [hnew, hmarks, List.map_append]
      exact hτ₂
    · have hnew : [(v, pos)].filter new = [] := List.filter_cons_of_neg (by simp [new, hv])
      rw [if_neg hv] at hτ₂
      rw [hnew, List.append_nil]
      exact hτ₂

variable (g w s₀) in
/-- What has been counted when the positions `work` are done. -/
def cellsOf (work : List (Fin w.length)) (i : Fin w.length) : List (Fin n) :=
  if i ∈ work then newTargets g s₀ w[i] else []

variable (g w s₀) in
/-- What has been marked then. -/
def marksOf (work : List (Fin w.length)) : Set Nat := { pos | ∃ i ∈ work, pos ∈ newSlotsOf g s₀ w[i] }

theorem cellsOf_append {pre : List (Fin w.length)} {i : Fin w.length} :
    cellsOf g w s₀ (pre ++ [i]) = update (cellsOf g w s₀ pre) i (newTargets g s₀ w[i]) := by
  funext j
  by_cases hj : j = i
  · subst hj
    rw [update_self, cellsOf, if_pos (by simp)]
  · rw [update_of_ne hj, cellsOf, cellsOf]
    simp [hj]

theorem marksOf_append {pre : List (Fin w.length)} {i : Fin w.length} :
    marksOf g w s₀ (pre ++ [i]) = marksOf g w s₀ pre ∪ newSlotsOf g s₀ w[i] := by
  ext pos
  simp only [marksOf, Set.mem_union, Set.mem_ofPred_eq, List.mem_append, List.mem_singleton,
    or_and_right, exists_or, exists_eq_left]

theorem outOf_append {pre : List (Fin w.length)} {i : Fin w.length} :
    outOf g w (pre ++ [i]) = outOf g w pre ∪ { v | g.Edge w[i] v } := by
  ext v
  simp only [outOf, Set.mem_union, Set.mem_ofPred_eq, List.mem_append, List.mem_singleton,
    or_and_right, exists_or, exists_eq_left, List.get_eq_getElem, Fin.getElem_fin]

theorem pbfsWorker_wp (hdepth : depth ≠ -1) (hold : ∀ v, s₀.depths v ≠ depth)
    (hroom : s₀.queue.sharedIn + (Finset.univ.filter fun v => s₀.depths v = -1).card ≤ n)
    (hw : s₀.queue.HoldsWindow w) (hsource : ∀ u ∈ w, s₀.depths u ≠ -1)
    (hpos : ∀ u v pos, (v, pos) ∈ g.outSlots u → pos < m) {σ : BcMem n m × RoundGhost T n w.length}
    (h : AtEdge g w depth s₀ sched t [] (fun _ => []) ∅ ∅ σ) :
    WP (Rely (ExpandStep g w depth s₀ sched) t) (ExpandStep g w depth s₀ sched t)
      (fun _ τ => AtEdge g w depth s₀ sched t [] (cellsOf g w s₀ (sched.work t))
        (outOf g w (sched.work t)) (marksOf g w s₀ (sched.work t)) τ)
      (pbfsWorker g depth w.length (sched.work t)) σ := by
  let Inv (pre : List (Fin w.length)) (l : List (Fin n))
      (τ : BcMem n m × RoundGhost T n w.length) : Prop :=
    AtEdge g w depth s₀ sched t l (cellsOf g w s₀ pre) (outOf g w pre) (marksOf g w s₀ pre) τ
  have hstart : Inv [] [] σ := by
    have hcells : cellsOf g w s₀ [] = fun _ => [] := funext fun i => if_neg (by simp)
    have hseen : outOf g w [] = ∅ := by simp [outOf]
    have hmarks : marksOf g w s₀ [] = ∅ := by simp [marksOf]
    show AtEdge g w depth s₀ sched t [] _ _ _ σ
    rw [hcells, hseen, hmarks]
    exact h
  apply WP.bind
  apply (WP.forEach Inv hstart (fun _ _ => AtEdge.stable sched t _ _ _ _) ?_).mono
  · -- the final flush
    intro l τ hτ
    have hpending := hτ.pending
    rw [← List.append_nil l] at hpending
    apply (roundBuffer_wp (QueueBuffer.flush_wp hpending) hτ.counting).mono
    rintro _ υ ⟨hflush, hcounting⟩
    exact ⟨hcounting, hflush, Nat.zero_le _⟩
  · intro pre i post l τ hsplit hτ
    have hi : i ∈ sched.work t := by simp [hsplit]
    have hnotin : i ∉ pre := by
      have hnodup := sched.work_nodup t
      rw [hsplit, List.nodup_append] at hnodup
      exact fun hmem => hnodup.2.2 i hmem i (by simp) rfl
    apply WP.loadAt_bind (P := Inv pre l) hτ (AtEdge.stable sched t _ _ _ _)
    intro s γ hs
    refine ⟨w[i], hw.kept hs.counting.expands.kept i _ (List.getElem?_eq_getElem i.isLt), ?_⟩
    apply (expandVertex_wp hdepth hold hroom hi (hsource _ (List.getElem_mem i.isLt)) (hpos w[i])
      (if_neg hnotin) hs).mono
    intro l₁ τ₁ hτ₁
    show AtEdge g w depth s₀ sched t l₁ (cellsOf g w s₀ (pre ++ [i])) _ _ τ₁
    rw [cellsOf_append, marksOf_append, outOf_append]
    exact hτ₁

end Thread

/-- What a round has done: `l` lists the vertices that got the depth. -/
structure RoundDone (g : Graph n) (w l : List (Fin n)) (depth : Int) (s s' : BcMem n m) : Prop where
  rest : s' = { s with depths := s'.depths, pathCounts := s'.pathCounts, succ := s'.succ,
                       queue := s'.queue }
  nodup : l.Nodup
  mem : ∀ v, v ∈ l ↔ s.depths v = -1 ∧ ∃ u ∈ w, g.Edge u v
  depths : ∀ v, s'.depths v = if v ∈ l then depth else s.depths v
  counts : ∀ v, s'.pathCounts v = s.pathCounts v +
    if s.depths v = -1 then (w.map fun u => ((g.outNeigh u).count v : ℚ) * s.pathCounts u).sum else 0
  marks : ∀ pos : Fin m, s'.succ.getBit pos = true ↔
    s.succ.getBit pos = true ∨ NewSlot g w s pos
  sharedIn : s'.queue.sharedIn = s.queue.sharedIn + l.length
  kept : QueueBuffer.Kept s.queue.sharedIn s.queue s'.queue
  slots : ∀ k x, l[k]? = some x → s'.queue.shared (s.queue.sharedIn + k) = some x

theorem count_newTargets {u v : Fin n} : (newTargets g s₀ u).count v =
    if s₀.depths v = -1 then (g.outNeigh u).count v else 0 := by
  rw [newTargets]
  by_cases hv : s₀.depths v = -1
  · rw [if_pos hv, List.count_filter (by simpa using hv)]
  · rw [if_neg hv, List.count_eq_zero]
    simp [hv]

/-- The parallel part of a round. -/
theorem pbfsWorkers_solo [NeZero T] (hdepth : depth ≠ -1) (hold : ∀ v, s₀.depths v ≠ depth)
    (hroom : s₀.queue.sharedIn + (Finset.univ.filter fun v => s₀.depths v = -1).card ≤ n)
    (hw : s₀.queue.HoldsWindow w) (hsource : ∀ u ∈ w, s₀.depths u ≠ -1)
    (hpos : ∀ u v pos, (v, pos) ∈ g.outSlots u → pos < m) (sched : Schedule T w.length) :
    Solo (.fork fun t => pbfsWorker g depth w.length (sched.work t)) s₀ fun _ s' =>
      ∃ l, RoundDone g w l depth s₀ s' := by
  let σ : BcMem n m × RoundGhost T n w.length := (s₀, ⟨⟨[], fun _ => []⟩, fun _ => []⟩)
  have hexpands : Expands g w depth s₀ σ :=
    ⟨rfl, .refl _ _, fun _ _ hv => by simp [σ] at hv, fun _ _ => rfl, fun _ => List.nodup_nil,
      fun _ _ _ hv _ => by simp [σ] at hv, fun _ => by simp [σ], fun _ _ hv => by simp [σ] at hv,
      fun _ hp => .inl hp, fun _ _ hk => hk⟩
  have hstart (t : Fin T) : AtEdge g w depth s₀ sched t [] (fun _ => []) ∅ ∅ σ :=
    ⟨⟨hexpands, fun _ _ => rfl, fun _ hv => absurd hv (Set.notMem_empty _),
      fun _ hp => absurd hp (Set.notMem_empty _)⟩,
      QueueBuffer.pending_start rfl (hexpands.room hroom) t, Nat.zero_le _⟩
  apply (Solo.fork (ExpandStep g w depth s₀ sched) _ _
    fun t => pbfsWorker_wp hdepth hold hroom hw hsource hpos (hstart t)).mono
  rintro _ s' ⟨γ, h⟩
  have hend : Expands g w depth s₀ (s', γ) := (h 0).counting.expands
  obtain ⟨l, hl, hin, -, hslots⟩ := QueueBuffer.Pending.filled fun t => (h t).pending
  change l.Perm (List.ofFn γ.buffer.pushed).flatten at hl
  have hpushed (v : Fin n) : v ∈ l ↔ ∃ t, v ∈ γ.buffer.pushed t :=
    hl.mem_iff.trans QueueBuffer.mem_flatten_ofFn
  have hmem (v : Fin n) : v ∈ l ↔ s₀.depths v = -1 ∧ ∃ u ∈ w, g.Edge u v := by
    constructor
    · intro hv
      obtain ⟨t, ht⟩ := (hpushed v).mp hv
      exact ⟨(hend.claimed t v ht).1, (hend.claimed t v ht).2.1⟩
    · -- every out-neighbour of the window has been looked at by some thread
      rintro ⟨hnone, u, hu, hE⟩
      obtain ⟨i, hi, rfl⟩ := List.getElem_of_mem hu
      obtain ⟨t, ht⟩ := sched.exists_mem ⟨i, hi⟩
      have hseen := (h t).counting.seen v ⟨⟨i, hi⟩, ht, hE⟩
      by_contra hnot
      have hsame := hend.unclaimed v fun t ht => hnot ((hpushed v).mpr ⟨t, ht⟩)
      exact hseen (hsame.trans hnone)
  have hcounted : γ.counted = fun i => newTargets g s₀ w[i] := by
    funext i
    obtain ⟨t, ht⟩ := sched.exists_mem i
    exact ((h t).counting.counted i ht).trans (if_pos ht)
  refine ⟨l, hend.rest, hl.nodup_iff.mpr (QueueBuffer.flatten_nodup hend.nodup hend.apart), hmem,
    fun v => ?_, fun v => ?_, fun pos => ⟨hend.marked pos, ?_⟩, hin, hend.kept, hslots⟩
  · split_ifs with hv
    · obtain ⟨t, ht⟩ := (hpushed v).mp hv
      exact (hend.claimed t v ht).2.2
    · exact hend.unclaimed v fun t ht => hv ((hpushed v).mpr ⟨t, ht⟩)
  · refine (hend.counts v).trans (congrArg (s₀.pathCounts v + ·) ?_)
    show ∑ i, ((γ.counted i).count v : ℚ) * s₀.pathCounts w[i] = _
    rw [hcounted]
    simp only [count_newTargets]
    by_cases hv : s₀.depths v = -1
    · simp only [if_pos hv]
      rw [← List.sum_ofFn, ← List.ofFn_getElem_eq_map]
      rfl
    · simp [hv]
  · rintro (hp | ⟨u, hu, v, hslot, hv⟩)
    · exact hend.grown.getBit hp
    · obtain ⟨i, hi, rfl⟩ := List.getElem_of_mem hu
      obtain ⟨t, ht⟩ := sched.exists_mem ⟨i, hi⟩
      exact (h t).counting.marks pos ⟨⟨i, hi⟩, ht, v, hslot, hv⟩

end Round

end Gapbs
