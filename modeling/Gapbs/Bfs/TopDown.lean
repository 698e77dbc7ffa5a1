import Gapbs.Bfs.Frontier

/-!
# The top-down step

`TDStep` follows the out-edges of the frontier.  Threads race for the vertices that have not been
visited; the compare-and-swap that replaces a negative entry of `parent` decides who appends the
vertex to the queue, and the value it replaces is added to the thread's scout count.
-/

namespace Gapbs

open Conc Function

variable {n T : Nat}

/-- `compare_and_swap(parent[v], old_val, new_val)` -/
def casParent (v : Fin n) (oldVal newVal : Int) : Prog (BfsMem n) Bool :=
  .op fun s => if s.parent v = oldVal then some (true, s.setParent v newVal) else some (false, s)

/-- The body of the loop over the out-neighbours; `acc` is the thread's buffer and its scout count. -/
def tdVisit (u v : Fin n) (acc : List (Fin n) × Int) : Prog (BfsMem n) (List (Fin n) × Int) := do
  let currVal ← .load fun s => s.parent v
  if currVal < 0 then
    let swapped ← casParent v currVal u
    if swapped then
      let lqueue ← (QueueBuffer.pushBack QueueBuffer.defaultSize acc.1 v).zoom BfsMem.queueLens
      -- the negation of the smallest `NodeID` overflows
      if currVal = -2 ^ 31 then .fail else return (lqueue, acc.2 + -currVal)
    else return acc
  else return acc

def tdStepWorker (g : Graph n) (len : Nat) (work : List (Fin len)) : Prog (BfsMem n) Int := do
  let acc ← .forEach work ([], 0) fun i acc => do
    let u ← .loadAt fun s => s.queue.window i
    .forEach (g.outNeigh u) acc fun v acc => tdVisit u v acc
  (QueueBuffer.flush acc.1).zoom BfsMem.queueLens
  return acc.2

def tdStep (p : Port) (T : Nat) [NeZero T] (g : Graph n) : Prog (BfsMem n) Int := do
  let len ← .load fun s => s.queue.size
  let scoutParts ← p.share T len (tdStepWorker g len)
  return ∑ t, scoutParts t

/-! ## What the threads do to the memory -/

open VertexFacts in
/-- The vertices that a top-down step from the window `w` appends. -/
def discovered (g : Graph n) (w : List (Fin n)) (s : BfsMem n) : Finset (Fin n) :=
  Finset.univ.filter fun v => s.parent v < 0 ∧ ∃ u ∈ w, g.Edge u v

theorem mem_discovered {g : Graph n} {w : List (Fin n)} {s : BfsMem n} {v : Fin n} :
    v ∈ discovered g w s ↔ s.parent v < 0 ∧ ∃ u ∈ w, g.Edge u v := by simp [discovered]

theorem card_discovered_le (g : Graph n) (w : List (Fin n)) (s : BfsMem n) :
    (discovered g w s).card ≤ (Finset.univ.filter fun v => s.parent v < 0).card := by
  apply Finset.card_le_card
  intro v hv
  exact Finset.mem_filter.mpr ⟨Finset.mem_univ v, (mem_discovered.mp hv).1⟩

section Step

variable (g : Graph n) (w : List (Fin n)) (s₀ : BfsMem n)

/-- A vertex is claimed at most once and only if it had not been visited; its entry then names a
vertex of the window, and the entries of all others are as they were. -/
structure Claims (σ : BfsMem n × QueueBuffer.Ghost T (Fin n)) : Prop where
  rest : σ.1 = { s₀ with parent := σ.1.parent, queue := σ.1.queue }
  kept : QueueBuffer.Kept s₀.queue.sharedIn s₀.queue σ.1.queue
  claimed : ∀ t v, v ∈ σ.2.pushed t →
    s₀.parent v < 0 ∧ ∃ u ∈ w, g.Edge u v ∧ σ.1.parent v = (u.val : Int)
  unclaimed : ∀ v, (∀ t, v ∉ σ.2.pushed t) → σ.1.parent v = s₀.parent v
  nodup : ∀ t, (σ.2.pushed t).Nodup
  apart : ∀ t u v, v ∈ σ.2.pushed t → v ∈ σ.2.pushed u → t = u

/-- What thread `t` may do in a top-down step. -/
structure VisitStep (t : Fin T) (σ τ : BfsMem n × QueueBuffer.Ghost T (Fin n)) : Prop where
  claims : Claims g w s₀ σ → Claims g w s₀ τ
  queue : QueueBuffer.QueueStep s₀.queue.sharedIn t (queueView.get σ) (queueView.get τ)
  visited : ∀ v, 0 ≤ σ.1.parent v → 0 ≤ τ.1.parent v

/-- What a thread carries along: its scout count belongs to the vertices that it has claimed, and
the vertices of `done` have been visited. -/
structure Carries (t : Fin T) (scout : Int) (done : Set (Fin n))
    (σ : BfsMem n × QueueBuffer.Ghost T (Fin n)) : Prop where
  claims : Claims g w s₀ σ
  scout : scout = ((σ.2.pushed t).map fun v => -s₀.parent v).sum
  done : ∀ v ∈ done, 0 ≤ σ.1.parent v

/-- A thread between two visits. -/
structure Visiting (t : Fin T) (acc : List (Fin n) × Int) (done : Set (Fin n))
    (σ : BfsMem n × QueueBuffer.Ghost T (Fin n)) : Prop where
  carries : Carries g w s₀ t acc.2 done σ
  pending : QueueBuffer.Pending s₀.queue.sharedIn t acc.1 (queueView.get σ)
  size : acc.1.length ≤ QueueBuffer.defaultSize

variable {g w s₀}

/-- There is room in the queue for all that can be claimed. -/
theorem Claims.room {σ : BfsMem n × QueueBuffer.Ghost T (Fin n)} (h : Claims g w s₀ σ)
    (hroom : s₀.queue.sharedIn + (discovered g w s₀).card ≤ n) :
    s₀.queue.sharedIn + ∑ t, (σ.2.pushed t).length ≤ n := by
  have hle := QueueBuffer.sum_pushed_le h.nodup h.apart
    (P := discovered g w s₀) fun t v hv => by
      obtain ⟨hneg, u, hu, hE, -⟩ := h.claimed t v hv
      exact mem_discovered.mpr ⟨hneg, u, hu, hE⟩
  omega

/-- An entry that is still negative has not changed. -/
theorem Claims.eq_of_neg {σ : BfsMem n × QueueBuffer.Ghost T (Fin n)} (h : Claims g w s₀ σ)
    {v : Fin n} (hv : σ.1.parent v < 0) :
    (∀ t, v ∉ σ.2.pushed t) ∧ σ.1.parent v = s₀.parent v := by
  have hnot (t : Fin T) : v ∉ σ.2.pushed t := fun ht => by
    obtain ⟨-, u, -, -, hu⟩ := h.claimed t v ht
    omega
  exact ⟨hnot, h.unclaimed v hnot⟩

theorem Carries.stable (t : Fin T) (scout : Int) (done : Set (Fin n)) :
    Stable (Rely (VisitStep g w s₀) t) (Carries g w s₀ t scout done) := by
  intro σ τ hσ ⟨u, hu, hstep⟩
  have hpushed : τ.2.pushed t = σ.2.pushed t := hstep.queue.pushed t hu.symm
  exact ⟨hstep.claims hσ.claims, hpushed ▸ hσ.scout, fun v hv => hstep.visited v (hσ.done v hv)⟩

theorem Visiting.stable (t : Fin T) (acc : List (Fin n) × Int) (done : Set (Fin n)) :
    Stable (Rely (VisitStep g w s₀) t) (Visiting g w s₀ t acc done) := by
  intro σ τ hσ hR
  refine ⟨Carries.stable t acc.2 done σ τ hσ.carries hR, ?_, hσ.size⟩
  obtain ⟨u, hu, hstep⟩ := hR
  exact QueueBuffer.Owed.stable _ t acc.1 0 0 _ _ hσ.pending ⟨u, hu, hstep.queue⟩

/-- Operations on the thread's buffer. -/
theorem buffer_wp {α : Type} {t : Fin T} {op : Prog (SlidingQueue (Fin n) n) α}
    {Q : α → SlidingQueue (Fin n) n × QueueBuffer.Ghost T (Fin n) → Prop} {scout : Int}
    {done : Set (Fin n)} {σ : BfsMem n × QueueBuffer.Ghost T (Fin n)}
    (h : WP (Rely (QueueBuffer.QueueStep s₀.queue.sharedIn) t)
      (QueueBuffer.FlushStep s₀.queue.sharedIn t) Q op (queueView.get σ))
    (hσ : Carries g w s₀ t scout done σ) :
    WP (Rely (VisitStep g w s₀) t) (VisitStep g w s₀ t)
      (fun r τ => Q r (queueView.get τ) ∧ Carries g w s₀ t scout done τ)
      (op.zoom BfsMem.queueLens) σ := by
  apply WP.zoom BfsMem.queueLens .id h hσ (Carries.stable t scout done)
  · exact fun σ τ _ ⟨u, hu, hstep⟩ => .inr ⟨u, hu, hstep.queue⟩
  · rintro ⟨s, γ⟩ ⟨q, δ⟩ hσ ⟨hstep, hpushed⟩
    change δ.pushed = γ.pushed at hpushed
    have hclaims (h : Claims g w s₀ (s, γ)) : Claims g w s₀ (queueView.set (q, δ) (s, γ)) := by
      refine ⟨?_, h.kept.trans hstep.kept, ?_, ?_, ?_, ?_⟩
      · show { s with queue := q } = { s₀ with parent := s.parent, queue := q }
        rw [show s = _ from h.rest]
      · exact hpushed ▸ h.claimed
      · exact hpushed ▸ h.unclaimed
      · exact hpushed ▸ h.nodup
      · exact hpushed ▸ h.apart
    refine ⟨⟨hclaims, ?_, fun _ hv => hv⟩, hclaims hσ.claims, ?_, hσ.done⟩
    · rw [queueView.get_set]
      exact hstep
    · show scout = ((δ.pushed t).map _).sum
      rw [hpushed]
      exact hσ.scout

theorem Claims.claim {t : Fin T} {u v : Fin n} {s : BfsMem n} {γ : QueueBuffer.Ghost T (Fin n)}
    (h : Claims g w s₀ (s, γ)) (hv : s.parent v < 0) (hu : u ∈ w) (hE : g.Edge u v) :
    Claims g w s₀ (s.setParent v u, QueueBuffer.pushGhost t v γ) := by
  obtain ⟨hnot, hsame⟩ := h.eq_of_neg hv
  refine ⟨?_, h.kept, ?_, ?_, ?_, ?_⟩
  · show { s with parent := _ } = { s₀ with parent := _, queue := s.queue }
    rw [show s = _ from h.rest]
    rfl
  · intro r x hx
    rcases QueueBuffer.mem_pushGhost.mp hx with hx | ⟨-, rfl⟩
    · have hxv : x ≠ v := fun heq => hnot r (heq ▸ hx)
      obtain ⟨hneg, y, hy, hyx, hpar⟩ := h.claimed r x hx
      exact ⟨hneg, y, hy, hyx, (s.parent_setParent_of_ne hxv _).trans hpar⟩
    · exact ⟨hsame ▸ hv, u, hu, hE, s.parent_setParent_self x _⟩
  · intro x hx
    have hxv : x ≠ v := fun heq => hx t (QueueBuffer.mem_pushGhost.mpr (.inr ⟨rfl, heq⟩))
    refine (s.parent_setParent_of_ne hxv _).trans (h.unclaimed x fun r hr => ?_)
    exact hx r (QueueBuffer.mem_pushGhost.mpr (.inl hr))
  · exact QueueBuffer.pushGhost_nodup h.nodup (hnot t)
  · exact QueueBuffer.pushGhost_apart h.apart hnot

/-- A compare-and-swap that succeeds. -/
theorem claim_visit {t : Fin T} {u v : Fin n} {acc : List (Fin n) × Int} {done : Set (Fin n)}
    {s : BfsMem n} {γ : QueueBuffer.Ghost T (Fin n)}
    (hroom : s₀.queue.sharedIn + (discovered g w s₀).card ≤ n)
    (h : Visiting g w s₀ t acc done (s, γ)) (hv : s.parent v < 0) (hu : u ∈ w) (hE : g.Edge u v) :
    VisitStep g w s₀ t (s, γ) (s.setParent v u, QueueBuffer.pushGhost t v γ) ∧
      Carries g w s₀ t (acc.2 + -s₀.parent v) (insert v done)
        (s.setParent v u, QueueBuffer.pushGhost t v γ) ∧
      QueueBuffer.Pending s₀.queue.sharedIn t (acc.1 ++ [v])
        (queueView.get (s.setParent v u, QueueBuffer.pushGhost t v γ)) := by
  have hclaims : Claims g w s₀ (s.setParent v u, QueueBuffer.pushGhost t v γ) :=
    h.carries.claims.claim hv hu hE
  have hself : (QueueBuffer.pushGhost t v γ).pushed t = γ.pushed t ++ [v] := update_self ..
  have hvisited (x : Fin n) (hx : 0 ≤ s.parent x) : 0 ≤ (s.setParent v u).parent x := by
    have hxv : x ≠ v := fun heq => by
      subst heq
      omega
    rwa [s.parent_setParent_of_ne hxv]
  obtain ⟨hqueue, hpending⟩ := QueueBuffer.push_step h.pending (hclaims.room hroom)
  refine ⟨⟨fun _ => hclaims, hqueue, hvisited⟩, ⟨hclaims, ?_, ?_⟩, hpending⟩
  · show _ = (((QueueBuffer.pushGhost t v γ).pushed t).map fun v => -s₀.parent v).sum
    rw [hself, List.map_append, List.sum_append, h.carries.scout]
    simp
  · rintro x (rfl | hx)
    · show (0 : Int) ≤ (s.setParent x u).parent x
      rw [s.parent_setParent_self]
      exact Int.natCast_nonneg _
    · exact hvisited x (h.carries.done x hx)

/-- One neighbour: afterwards it has been visited, by this thread or by another one. -/
theorem tdVisit_wp {t : Fin T} {u v : Fin n} {acc : List (Fin n) × Int} {done : Set (Fin n)}
    {σ : BfsMem n × QueueBuffer.Ghost T (Fin n)} (hmin : ∀ v ∈ discovered g w s₀, -2 ^ 31 < s₀.parent v)
    (hroom : s₀.queue.sharedIn + (discovered g w s₀).card ≤ n)
    (hu : u ∈ w) (hE : g.Edge u v) (h : Visiting g w s₀ t acc done σ) :
    WP (Rely (VisitStep g w s₀) t) (VisitStep g w s₀ t)
      (fun acc τ => Visiting g w s₀ t acc (insert v done) τ) (tdVisit u v acc) σ := by
  have hdone {acc : List (Fin n) × Int} {τ : BfsMem n × QueueBuffer.Ghost T (Fin n)}
      (hτ : Visiting g w s₀ t acc done τ) (hv : 0 ≤ τ.1.parent v) :
      Visiting g w s₀ t acc (insert v done) τ := by
    refine ⟨⟨hτ.carries.claims, hτ.carries.scout, ?_⟩, hτ.pending, hτ.size⟩
    rintro x (rfl | hx)
    · exact hv
    · exact hτ.carries.done x hx
  apply WP.load_bind (P := Visiting g w s₀ t acc done) h (Visiting.stable t acc done)
  intro s γ hs
  by_cases hneg : s.parent v < 0
  · rw [if_pos hneg, (hs.carries.claims.eq_of_neg hneg).2]
    apply WP.op_bind (P := Visiting g w s₀ t acc done) hs (Visiting.stable t acc done)
    intro s₁ γ₁ hs₁
    by_cases heq : s₁.parent v = s₀.parent v
    · have hneg₁ : s₁.parent v < 0 := by
        rw [heq, ← (hs.carries.claims.eq_of_neg hneg).2]
        exact hneg
      obtain ⟨hstep, hcarries, hpending⟩ := claim_visit hroom hs₁ hneg₁ hu hE
      refine ⟨true, _, _, if_pos heq, .inr hstep, ?_⟩
      apply WP.bind
      have hpush := QueueBuffer.pushBack_wp (by decide) hs₁.size hpending
      apply (buffer_wp hpush hcarries).mono
      rintro lqueue τ ⟨⟨hlq, hsize⟩, hτ⟩
      rw [List.append_nil] at hlq
      have hfound : v ∈ discovered g w s₀ := mem_discovered.mpr ⟨heq ▸ hneg₁, u, hu, hE⟩
      rw [if_neg (hmin v hfound).ne']
      exact WP.ret ⟨hτ, hlq, hsize⟩ (Visiting.stable t _ _)
    · refine ⟨false, s₁, γ₁, if_neg heq, .inl rfl, WP.ret (hdone hs₁ ?_) (Visiting.stable t _ _)⟩
      by_contra hlt
      exact heq (hs₁.carries.claims.eq_of_neg (not_le.mp hlt)).2
  · rw [if_neg hneg]
    exact WP.ret (hdone hs (not_lt.mp hneg)) (Visiting.stable t _ _)

/-- The out-neighbours of the window's vertices at the positions `work`. -/
def outOf (g : Graph n) (w : List (Fin n)) (work : List (Fin w.length)) : Set (Fin n) :=
  { v | ∃ i ∈ work, g.Edge (w.get i) v }

theorem tdStepWorker_wp {t : Fin T} {work : List (Fin w.length)}
    {σ : BfsMem n × QueueBuffer.Ghost T (Fin n)} (hw : s₀.queue.HoldsWindow w)
    (hmin : ∀ v ∈ discovered g w s₀, -2 ^ 31 < s₀.parent v)
    (hroom : s₀.queue.sharedIn + (discovered g w s₀).card ≤ n)
    (h : Visiting g w s₀ t ([], 0) ∅ σ) :
    WP (Rely (VisitStep g w s₀) t) (VisitStep g w s₀ t)
      (fun scout τ => Visiting g w s₀ t ([], scout) (outOf g w work) τ)
      (tdStepWorker g w.length work) σ := by
  apply WP.bind
  let Inv (pre : List (Fin w.length)) (acc : List (Fin n) × Int)
      (τ : BfsMem n × QueueBuffer.Ghost T (Fin n)) : Prop :=
    Visiting g w s₀ t acc (outOf g w pre) τ
  have hstart : Inv [] ([], 0) σ := by
    refine ⟨⟨h.carries.claims, h.carries.scout, ?_⟩, h.pending, h.size⟩
    rintro v ⟨i, hi, -⟩
    simp at hi
  apply (WP.forEach Inv hstart (fun _ _ => Visiting.stable t _ _) ?_).mono
  · -- the final flush
    intro acc τ hτ
    apply WP.bind
    have hpending := hτ.pending
    rw [← List.append_nil acc.1] at hpending
    apply (buffer_wp (QueueBuffer.flush_wp hpending) hτ.carries).mono
    rintro _ υ ⟨hflush, hcarries⟩
    exact WP.ret ⟨hcarries, hflush, Nat.zero_le _⟩ (Visiting.stable t _ _)
  · intro pre i post acc τ _ hτ
    apply WP.loadAt_bind (P := Inv pre acc) hτ (Visiting.stable t _ _)
    intro s γ hs
    refine ⟨w[i], ?_, ?_⟩
    · exact hw.kept hs.carries.claims.kept i _ (List.getElem?_eq_getElem i.isLt)
    · let Nbrs (pre' : List (Fin n)) (acc : List (Fin n) × Int)
          (τ : BfsMem n × QueueBuffer.Ghost T (Fin n)) : Prop :=
        Visiting g w s₀ t acc (outOf g w pre ∪ { v | v ∈ pre' }) τ
      have hnone : outOf g w pre ∪ { v | v ∈ ([] : List (Fin n)) } = outOf g w pre := by simp
      have hbegin : Nbrs [] acc (s, γ) := by
        show Visiting g w s₀ t acc (outOf g w pre ∪ { v | v ∈ ([] : List (Fin n)) }) (s, γ)
        rw [hnone]
        exact hs
      apply (WP.forEach Nbrs hbegin (fun _ _ => Visiting.stable t _ _) ?_).mono
      · intro acc υ hυ
        have hall : outOf g w pre ∪ { v | v ∈ g.outNeigh w[i] } = outOf g w (pre ++ [i]) := by
          ext v
          simp only [outOf, Set.mem_union, Set.mem_ofPred_eq, List.mem_append, List.mem_singleton,
            Graph.Edge, or_and_right, exists_or, exists_eq_left, List.get_eq_getElem, Fin.getElem_fin]
        show Visiting g w s₀ t acc (outOf g w (pre ++ [i])) υ
        rw [← hall]
        exact hυ
      · intro pre' v post' acc υ hsplit hυ
        have hE : g.Edge w[i] v := by
          show v ∈ g.outNeigh w[i]
          rw [hsplit]
          simp
        apply (tdVisit_wp hmin hroom (List.getElem_mem i.isLt) hE hυ).mono
        intro acc τ hτ
        have hinsert : outOf g w pre ∪ { x | x ∈ pre' ++ [v] } =
            insert v (outOf g w pre ∪ { x | x ∈ pre' }) := by
          ext x
          simp only [Set.mem_union, Set.mem_ofPred_eq, List.mem_append, List.mem_singleton,
            Set.mem_insert_iff]
          tauto
        show Visiting g w s₀ t acc _ τ
        rw [hinsert]
        exact hτ

/-- What a top-down step has done: `l` lists the vertices that it has visited. -/
structure TopDown (g : Graph n) (w l : List (Fin n)) (s s' : BfsMem n) : Prop where
  nodup : l.Nodup
  mem : ∀ v, v ∈ l ↔ s.parent v < 0 ∧ ∃ u ∈ w, g.Edge u v
  parent : ∀ v ∈ l, ∃ u ∈ w, g.Edge u v ∧ s'.parent v = (u.val : Int)
  other : ∀ v, v ∉ l → s'.parent v = s.parent v
  appended : Appended l { s with parent := s'.parent } s'

/-- The scout counts of the threads add up to that of the vertices claimed. -/
theorem sum_scout {pushed : Fin T → List (Fin n)} {l : List (Fin n)}
    (hl : l.Perm (List.ofFn pushed).flatten) (f : Fin n → Int) :
    ∑ t, ((pushed t).map f).sum = (l.map f).sum := by
  rw [(hl.map f).sum_eq, List.map_flatten, List.sum_flatten, List.map_map, List.map_ofFn,
    List.sum_ofFn]
  rfl

/-- Nothing has been claimed at the start. -/
theorem claims_start (g : Graph n) (w : List (Fin n)) (s : BfsMem n) :
    Claims g w s (s, (⟨[], fun _ => []⟩ : QueueBuffer.Ghost T (Fin n))) :=
  ⟨rfl, .refl _ _, fun _ _ hv => (List.not_mem_nil hv).elim, fun _ _ => rfl, fun _ => List.nodup_nil,
    fun _ _ _ hv _ => (List.not_mem_nil hv).elim⟩

/-- One thread of a top-down step. -/
theorem tdStep_thread {s : BfsMem n} (hw : s.queue.HoldsWindow w) (hmin : ∀ v ∈ discovered g w s, -2 ^ 31 < s.parent v)
    (hroom : s.queue.sharedIn + (discovered g w s).card ≤ n)
    (sched : Schedule T w.length) (t : Fin T) :
    WP (Rely (VisitStep g w s) t) (VisitStep g w s t)
      (fun scout τ => Visiting g w s t ([], scout) (outOf g w (sched.work t)) τ)
      (tdStepWorker g w.length (sched.work t)) (s, ⟨[], fun _ => []⟩) := by
  have hclaims := claims_start (T := T) g w s
  apply tdStepWorker_wp hw hmin hroom
  refine ⟨⟨hclaims, rfl, fun v hv => absurd hv (Set.notMem_empty v)⟩, ?_, Nat.zero_le _⟩
  exact QueueBuffer.pending_start rfl (hclaims.room hroom) t

theorem tdStep_solo (p : Port) {T : Nat} [NeZero T] (g : Graph n) {s : BfsMem n} {w : List (Fin n)}
    (hw : s.queue.HoldsWindow w) (hmin : ∀ v ∈ discovered g w s, -2 ^ 31 < s.parent v)
    (hroom : s.queue.sharedIn + (discovered g w s).card ≤ n) :
    Solo (tdStep p T g) s fun scout s' => ∃ l, TopDown g w l s s' ∧
      scout = (l.map fun v => -s.parent v).sum := by
  apply Solo.load_bind
  rw [hw.size]
  apply Solo.bind
  apply p.share_solo
  intro sched
  apply (Solo.fork (VisitStep g w s) _ ⟨[], fun _ => []⟩
    fun t => tdStep_thread hw hmin hroom sched t).mono
  rintro parts s' ⟨γ, h⟩
  have hend : Claims g w s (s', γ) := (h 0).carries.claims
  obtain ⟨l, hl, hin, -, hslots⟩ := QueueBuffer.Pending.filled fun t => (h t).pending
  change l.Perm (List.ofFn γ.pushed).flatten at hl
  have hmem (v : Fin n) : v ∈ l ↔ ∃ t, v ∈ γ.pushed t := hl.mem_iff.trans QueueBuffer.mem_flatten_ofFn
  apply Solo.ret
  have hnodup := hl.nodup_iff.mpr (QueueBuffer.flatten_nodup hend.nodup hend.apart)
  refine ⟨l, ⟨hnodup, fun v => ⟨?_, ?_⟩, ?_, ?_, ?_⟩, ?_⟩
  · intro hv
    obtain ⟨t, ht⟩ := (hmem v).mp hv
    obtain ⟨hneg, u, hu, hE, -⟩ := hend.claimed t v ht
    exact ⟨hneg, u, hu, hE⟩
  · -- every out-neighbour of the window has been looked at by some thread
    rintro ⟨hneg, u, hu, hE⟩
    obtain ⟨i, hi, rfl⟩ := List.getElem_of_mem hu
    obtain ⟨t, ht⟩ := sched.exists_mem ⟨i, hi⟩
    have hvisited := (h t).carries.done v ⟨⟨i, hi⟩, ht, hE⟩
    by_contra hnot
    have hsame := hend.unclaimed v fun t ht => hnot ((hmem v).mpr ⟨t, ht⟩)
    change s'.parent v = s.parent v at hsame
    change 0 ≤ s'.parent v at hvisited
    omega
  · intro v hv
    obtain ⟨t, ht⟩ := (hmem v).mp hv
    exact (hend.claimed t v ht).2
  · exact fun v hv => hend.unclaimed v fun t ht => hv ((hmem v).mpr ⟨t, ht⟩)
  · exact ⟨hend.rest, hin, hend.kept, hslots⟩
  · rw [← sum_scout hl]
    exact Finset.sum_congr rfl fun t _ => (h t).carries.scout

end Step

end Gapbs
