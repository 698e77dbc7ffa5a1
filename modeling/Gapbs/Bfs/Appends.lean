import Gapbs.Bfs.Dobfs

/-!
# What a traversal appends to the queue

The array of the queue has a slot for every vertex and is never used again.  That is enough because no
vertex is appended twice: a top-down step appends the vertices that it visits, `BitmapToQueue` those
that the last bottom-up step has visited, and all that the queue holds has been visited before.
Nothing here depends on the order in which the vertices are reached.
-/

namespace Gapbs

open Conc Function

variable {n : Nat}

/-! ## Single steps -/

/-- What a step may do to the queue: elements stay where they are, and none comes in twice. -/
structure QueueAct (s t : BfsMem n) : Prop where
  once : s.queue.Once → t.queue.Once
  kept : s.queue.Once → ∀ k x, s.queue.shared k = some x → t.queue.shared k = some x

theorem QueueAct.of_eq {s t : BfsMem n} (h : t.queue = s.queue) : QueueAct s t := by
  constructor
  · rw [h]
    exact id
  · rw [h]
    exact fun _ _ _ hk => hk

theorem QueueAct.refl (s : BfsMem n) : QueueAct s s := .of_eq rfl

theorem queueAct_slideWindow (s : BfsMem n) : QueueAct s { s with queue := s.queue.slideWindow } :=
  ⟨fun h => ⟨h.room, h.used, h.inj⟩, fun _ _ _ hk => hk⟩

/-- The steps that leave the queue alone. -/
def SameQueue (s t : BfsMem n) : Prop := t.queue = s.queue

theorem throughout_of_sameQueue {E : Prop} {α : Type} {p : Prog (BfsMem n) α} {s : BfsMem n}
    {Q : α → BfsMem n → Prop} (hp : Keeps SameQueue p) (h : Solo p s Q) :
    Throughout E QueueAct p s Q :=
  (Keeps.throughout (A := SameQueue) (fun _ => rfl) hp h).weaken fun _ _ hsame => .of_eq hsame

theorem sameQueue_load {α : Type} (get : BfsMem n → α) : Keeps SameQueue (.load get) :=
  Keeps.load fun _ => rfl

theorem initParent_sameQueue (p : Port) (T : Nat) [NeZero T] (g : Graph n) :
    Keeps SameQueue (initParent p T g) := by
  refine Keeps.bind (p.share_keeps fun work => ?_) fun _ => trivial
  exact Keeps.forEach _ _ fun v _ => Keeps.store fun _ => rfl

theorem cleanupParent_sameQueue (p : Port) (T : Nat) [NeZero T] :
    Keeps SameQueue (cleanupParent (n := n) p T) := by
  refine Keeps.bind (p.share_keeps fun work => Keeps.forEach _ _ fun v _ => ?_) fun _ => trivial
  refine Keeps.bind (sameQueue_load _) fun val => ?_
  split
  · exact Keeps.store fun _ => rfl
  · trivial

theorem queueToBitmap_sameQueue (p : Port) (T : Nat) [NeZero T] :
    Keeps SameQueue (queueToBitmap (n := n) p T) := by
  refine Keeps.bind (sameQueue_load _) fun len => ?_
  refine Keeps.bind (p.share_keeps fun work => Keeps.forEach _ _ fun i _ => ?_) fun _ => trivial
  exact Keeps.bind (Keeps.loadAt fun _ => rfl) fun u => Keeps.zoom BfsMem.frontLens fun _ _ => rfl

theorem buVertex_sameQueue (g : Graph n) (u : Fin n) (awakeCount : Int) :
    Keeps SameQueue (buVertex g u awakeCount) := by
  refine Keeps.bind (sameQueue_load _) fun val => ?_
  split
  · refine Keeps.bind (Keeps.forBreak _ _ fun v _ => ?_) fun r => ?_
    · refine Keeps.bind (sameQueue_load _) fun bit => ?_
      split
      · refine Keeps.bind (Keeps.store fun _ => rfl) fun _ => ?_
        exact Keeps.bind (Keeps.zoom BfsMem.currLens fun _ _ => rfl) fun _ => trivial
      · trivial
    · cases r <;> trivial
  · trivial

theorem buStep_sameQueue (p : Port) (T : Nat) [NeZero T] (g : Graph n) :
    Keeps SameQueue (buStep p T g) := by
  refine Keeps.bind (Keeps.store fun _ => rfl) fun _ => Keeps.bind ?_ fun _ => trivial
  exact p.claim_keeps (fun _ _ => rfl) fun start x => Keeps.forEach _ _ fun u y => buVertex_sameQueue g u y

/-! ## The two regions that append -/

/-- In a top-down step the threads append what they have visited. -/
theorem tdStep_throughout {T : Nat} [NeZero T] (g : Graph n) {E : Prop} {s : BfsMem n}
    {w : List (Fin n)} (hw : s.queue.HoldsWindow w)
    (hmin : ∀ v ∈ discovered g w s, -2 ^ 31 < s.parent v)
    (hroom : s.queue.sharedIn + (discovered g w s).card ≤ n)
    (honce : s.queue.Once) (hvisited : ∀ k x, s.queue.shared k = some x → 0 ≤ s.parent x) :
    Throughout E QueueAct (tdStep .pthread T g) s fun scout s' => ∃ l, TopDown g w l s s' ∧
      s'.queue.Once ∧ scout = (l.map fun v => -s.parent v).sum := by
  let J (σ : BfsMem n × QueueBuffer.Ghost T (Fin n)) : Prop :=
    Claims g w s σ ∧ QueueBuffer.Filling s.queue.sharedIn s.queue (queueView.get σ)
  have hJ : J (s, ⟨[], fun _ => []⟩) := by
    refine ⟨claims_start g w s, ⟨rfl, fun _ => List.nil_prefix, ?_⟩, .refl _ _, fun m x hm => ?_⟩
    · exact (claims_start (T := T) g w s).room hroom
    · have hlt := honce.used _ x hm
      omega
  have hact (t : Fin T) (σ τ : BfsMem n × QueueBuffer.Ghost T (Fin n)) (hσ : J σ)
      (hstep : VisitStep g w s t σ τ) : J τ ∧ QueueAct σ.1 τ.1 := by
    have hclaims := hstep.claims hσ.1
    have hfilling := hstep.queue.filling hσ.2
    refine ⟨⟨hclaims, hfilling⟩, fun _ => ?_, fun _ k x hk => hstep.queue.keeps_written hσ.2 hk⟩
    apply hfilling.once honce hclaims.nodup hclaims.apart
    intro u x hx k hk
    exact absurd (hclaims.claimed u x hx).1 (not_lt.mpr (hvisited k x hk))
  have hregion : Throughout E QueueAct (tdStep .pthread T g) s fun _ _ => True := by
    apply Throughout.load_bind (.refl s)
    rw [hw.size]
    apply Throughout.bind
    rw [Port.share_pthread]
    apply (Throughout.fork QueueAct.refl (VisitStep g w s) _ J ⟨[], fun _ => []⟩ hJ
      (fun t => tdStep_thread hw hmin hroom _ t) hact).mono
    exact fun _ _ _ => Throughout.ret trivial
  apply ((hregion.and_solo (tdStep_solo .pthread g hw hmin hroom)).and_invariant
    (fun _ _ hA h => hA.once h) honce).mono
  rintro scout s' ⟨⟨-, l, hl, hscout⟩, honce'⟩
  exact ⟨l, hl, honce', hscout⟩

/-- `BitmapToQueue` appends vertices that the queue does not hold. -/
theorem bitmapToQueue_throughout {T : Nat} [NeZero T] {E : Prop} {s : BfsMem n} {bits : List (Fin n)}
    (hbits : bits.Nodup) (hmem : ∀ v, v ∈ bits ↔ s.front.getBit v = true)
    (hroom : s.queue.sharedIn + bits.length ≤ n) (honce : s.queue.Once)
    (hfresh : ∀ k x, s.queue.shared k = some x → s.front.getBit x = false) :
    Throughout E QueueAct (bitmapToQueue .pthread T) s fun _ s' => s'.queue.Once ∧
      ∃ l s₁, l.Perm bits ∧ Appended l s s₁ ∧ s' = { s₁ with queue := s₁.queue.slideWindow } := by
  let sched := Schedule.static T n
  have hflat := perm_bitsOf sched hbits hmem
  have hnodup : (List.ofFn (bitsOf sched s)).flatten.Nodup := hflat.nodup_iff.mpr hbits
  rw [List.nodup_flatten, List.pairwise_ofFn] at hnodup
  have hapart (t u : Fin T) (x : Fin n) (ht : x ∈ bitsOf sched s t) (hu : x ∈ bitsOf sched s u) :
      t = u := by
    rcases lt_trichotomy t u with hlt | rfl | hlt
    · exact (hnodup.2 hlt ht hu).elim
    · rfl
    · exact (hnodup.2 hlt hu ht).elim
  have htotal : ∑ t, (bitsOf sched s t).length = bits.length := by
    rw [← hflat.length_eq, QueueBuffer.length_flatten_ofFn]
  let J (σ : BfsMem n × QueueBuffer.Ghost T (Fin n)) : Prop :=
    σ.2.pushed = bitsOf sched s ∧ QueueBuffer.Filling s.queue.sharedIn s.queue (queueView.get σ)
  have hJ : J (s, ⟨[], bitsOf sched s⟩) := by
    refine ⟨rfl, ⟨rfl, fun _ => List.nil_prefix, ?_⟩, .refl _ _, fun m x hm => ?_⟩
    · show s.queue.sharedIn + ∑ t, (bitsOf sched s t).length ≤ n
      rwa [htotal]
    · have hlt := honce.used _ x hm
      omega
  have hact (t : Fin T) (σ τ : BfsMem n × QueueBuffer.Ghost T (Fin n)) (hσ : J σ)
      (hstep : AppendStep s.queue.sharedIn t σ τ) : J τ ∧ QueueAct σ.1 τ.1 := by
    have hfilling := hstep.1.filling hσ.2
    have hpushed : τ.2.pushed = bitsOf sched s := hstep.2.pushed.trans hσ.1
    refine ⟨⟨hpushed, hfilling⟩, fun _ => ?_, fun _ k x hk => hstep.1.keeps_written hσ.2 hk⟩
    apply hfilling.once honce
    · intro u
      show (τ.2.pushed u).Nodup
      rw [hpushed]
      exact hnodup.1 _ ((List.mem_ofFn' _ _).mpr ⟨u, rfl⟩)
    · show ∀ t u x, x ∈ τ.2.pushed t → x ∈ τ.2.pushed u → t = u
      rw [hpushed]
      exact hapart
    · intro u x hx k hk
      change x ∈ τ.2.pushed u at hx
      rw [hpushed] at hx
      have hbit := (List.mem_filter.mp hx).2
      rw [hfresh k x hk] at hbit
      exact Bool.false_ne_true hbit
  have hregion : Throughout E QueueAct (bitmapToQueue .pthread T) s fun _ _ => True := by
    apply Throughout.bind
    rw [Port.share_pthread]
    apply (Throughout.fork QueueAct.refl (AppendStep s.queue.sharedIn) _ J ⟨[], bitsOf sched s⟩ hJ
      (fun t => pushBits_thread sched hbits hmem hroom t) hact).mono
    intro _ s₁ _
    exact Throughout.store (queueAct_slideWindow s₁) trivial
  apply ((hregion.and_solo (bitmapToQueue_solo .pthread hbits hmem hroom)).and_invariant
    (fun _ _ hA h => hA.once h) honce).mono
  rintro _ s' ⟨⟨-, happ⟩, honce'⟩
  exact ⟨honce', happ⟩

/-! ## What the queue holds has been visited -/

/-- The queue holds `old` and its window `w`, each vertex once, and all of them have been visited; the
entries of the others are those that `InitParent` has written. -/
structure Queued (g : Graph n) (old w : List (Fin n)) (s : BfsMem n) : Prop where
  unvisited : ∀ v, s.parent v < 0 → s.parent v = initParentOf g v
  once : s.queue.Once
  queue : QueueAt old w s.queue
  nodup : (old ++ w).Nodup
  nonneg : ∀ v ∈ old ++ w, 0 ≤ s.parent v

namespace Queued

variable {g : Graph n} {old w l : List (Fin n)} {s s' : BfsMem n}

theorem gt_min (hdeg : ∀ v, g.outDegree v < 2 ^ 31) (h : Queued g old w s) (v : Fin n) :
    -2 ^ 31 < s.parent v := by
  by_cases hv : s.parent v < 0
  · have hlt := hdeg v
    rw [h.unvisited v hv, initParentOf_eq hlt]
    omega
  · omega

theorem mem_of_shared (h : Queued g old w s) {k : Nat} {x : Fin n} (hk : s.queue.shared k = some x) :
    x ∈ old ++ w := by
  have hlt := h.once.used k x hk
  rw [h.queue.sharedIn, ← List.length_append] at hlt
  have hslot := h.queue.slots k _ (List.getElem?_eq_getElem hlt)
  obtain rfl := Option.some.inj (hslot.symm.trans hk)
  exact List.getElem_mem hlt

theorem visited_of_shared (h : Queued g old w s) (k : Nat) (x : Fin n)
    (hk : s.queue.shared k = some x) : 0 ≤ s.parent x :=
  h.nonneg x (h.mem_of_shared hk)

theorem room (h : Queued g old w s) : s.queue.sharedIn + (discovered g w s).card ≤ n := by
  refine (Nat.add_le_add_left (card_discovered_le g w s) _).trans ?_
  rw [h.queue.sharedIn, ← List.length_append]
  exact room_of_nonneg h.nodup h.nonneg

/-- The queue and the parents are all that counts. -/
theorem congr (h : Queued g old w s) (hparent : s'.parent = s.parent) (hqueue : s'.queue = s.queue) :
    Queued g old w s' := by
  refine ⟨?_, ?_, ?_, h.nodup, ?_⟩
  · rw [hparent]
    exact h.unvisited
  · rw [hqueue]
    exact h.once
  · rw [hqueue]
    exact h.queue
  · rw [hparent]
    exact h.nonneg

theorem slide (h : Queued g old w s) :
    Queued g (old ++ w) [] { s with queue := s.queue.slideWindow } := by
  refine ⟨h.unvisited, (queueAct_slideWindow s).once h.once, h.queue.slide, ?_, ?_⟩
  · rw [List.append_nil]
    exact h.nodup
  · rw [List.append_nil]
    exact h.nonneg

theorem topDown (h : Queued g old w s) (hstep : TopDown g w l s s') (honce : s'.queue.Once) :
    Queued g (old ++ w) l { s' with queue := s'.queue.slideWindow } := by
  have hmono (v : Fin n) (hv : 0 ≤ s.parent v) : 0 ≤ s'.parent v := by
    have hnot : v ∉ l := fun hvl => not_lt.mpr hv ((hstep.mem v).mp hvl).1
    rwa [hstep.other v hnot]
  have hnew (v : Fin n) (hv : v ∈ l) : 0 ≤ s'.parent v := by
    obtain ⟨u, -, -, hu⟩ := hstep.parent v hv
    rw [hu]
    exact Int.natCast_nonneg _
  refine ⟨fun v hv => ?_, (queueAct_slideWindow s').once honce, ?_, ?_, fun v hv => ?_⟩
  · change s'.parent v < 0 at hv
    have hnot : v ∉ l := fun hvl => not_lt.mpr (hnew v hvl) hv
    rw [hstep.other v hnot] at hv
    exact (hstep.other v hnot).trans (h.unvisited v hv)
  · exact QueueAt.append (s := { s with parent := s'.parent }) h.queue hstep.appended
  · apply h.nodup.append hstep.nodup
    exact fun v hv hvl => not_lt.mpr (h.nonneg v hv) ((hstep.mem v).mp hvl).1
  · rcases List.mem_append.mp hv with hv | hv
    · exact hmono v (h.nonneg v hv)
    · exact hnew v hv

/-- A bottom-up step marks vertices that had not been visited and are not in the queue. -/
theorem bottomUp (h : Queued g old w s) (hstep : BottomUp g s s') :
    Queued g old w { s' with front := s'.curr, curr := s'.front } ∧
      ∀ v, s'.curr.getBit v = true → v ∉ old ++ w ∧ 0 ≤ s'.parent v := by
  have hold {v : Fin n} (hv : 0 ≤ s.parent v) : awakener g s v = none := by
    rw [awakener, if_neg (not_lt.mpr hv)]
  have hsame {v : Fin n} (hv : awakener g s v = none) : s'.parent v = s.parent v := by
    rw [hstep.parent, hv]
    rfl
  have hnew {u v : Fin n} (hv : awakener g s v = some u) : 0 ≤ s'.parent v := by
    rw [hstep.parent, hv]
    exact Int.natCast_nonneg _
  refine ⟨⟨fun v hv => ?_, ?_, ?_, h.nodup, fun v hv => ?_⟩, fun v hv => ?_⟩
  · change s'.parent v < 0 at hv
    show s'.parent v = _
    cases hcase : awakener g s v with
    | none =>
      rw [hsame hcase] at hv ⊢
      exact h.unvisited v hv
    | some u => exact absurd hv (not_lt.mpr (hnew hcase))
  · show s'.queue.Once
    rw [hstep.queue]
    exact h.once
  · show QueueAt old w s'.queue
    rw [hstep.queue]
    exact h.queue
  · show 0 ≤ s'.parent v
    rw [hsame (hold (h.nonneg v hv))]
    exact h.nonneg v hv
  · rw [hstep.curr] at hv
    obtain ⟨u, hu⟩ := Option.isSome_iff_exists.mp hv
    refine ⟨fun hq => ?_, hnew hu⟩
    rw [hold (h.nonneg v hq)] at hu
    cases hu

/-- The vertices of the bitmap go into the queue. -/
theorem refill {bits : List (Fin n)} (h : Queued g old [] s) (hbits : bits.Nodup)
    (hmem : ∀ v, v ∈ bits ↔ s.front.getBit v = true)
    (hfront : ∀ v, s.front.getBit v = true → v ∉ old ∧ 0 ≤ s.parent v) (hl : l.Perm bits)
    (happ : Appended l s s') (honce : s'.queue.Once) :
    Queued g old l { s' with queue := s'.queue.slideWindow } := by
  have hparent : s'.parent = s.parent := by rw [happ.rest]
  have hmarked (v : Fin n) (hv : v ∈ l) : v ∉ old ∧ 0 ≤ s.parent v :=
    hfront v ((hmem v).mp (hl.mem_iff.mp hv))
  have hnodup := h.nodup
  rw [List.append_nil] at hnodup
  refine ⟨?_, (queueAct_slideWindow s').once honce, ?_, ?_, fun v hv => ?_⟩
  · show ∀ v, s'.parent v < 0 → s'.parent v = initParentOf g v
    rw [hparent]
    exact h.unvisited
  · have happend := h.queue.append happ
    rwa [List.append_nil] at happend
  · exact hnodup.append (hl.nodup_iff.mpr hbits) fun v hv hvl => (hmarked v hvl).1 hv
  · show 0 ≤ s'.parent v
    rw [hparent]
    rcases List.mem_append.mp hv with hv | hv
    · exact h.nonneg v (List.mem_append_left _ hv)
    · exact (hmarked v hv).2

end Queued

/-! ## The whole run -/

/-- The count of a step belongs to the vertices that it visits. -/
def StepRecord.Counted (g : Graph n) : StepRecord n → Prop
  | .topDown newly scoutCount _ => scoutCount = ∑ v ∈ newly, ((max 1 (g.outDegree v) : Nat) : Int)
  | .bottomUp newly awakeCount => awakeCount = newly.card

/-- The reports so far. -/
def Counted (g : Graph n) (log : List (StepRecord n)) : Prop := ∀ r ∈ log, r.Counted g

theorem Counted.concat {g : Graph n} {log : List (StepRecord n)} {r : StepRecord n}
    (h : Counted g log) (hr : r.Counted g) : Counted g (log ++ [r]) := by
  intro r' hr'
  rcases List.mem_append.mp hr' with hr' | hr'
  · exact h r' hr'
  · rwa [List.mem_singleton.mp hr']

section Run

variable {T : Nat} [NeZero T] {g : Graph n} {old w : List (Fin n)} {s : BfsMem n} {E : Prop}

theorem observe_throughout {step : Prog (BfsMem n) Int} {Q : Int → BfsMem n → Prop}
    (h : Throughout E QueueAct step s Q) :
    Throughout E QueueAct (observe step) s fun r s' =>
      Q r.1 s' ∧ r.2 = visited s'.parent \ visited s.parent := by
  apply Throughout.load_bind (.refl s)
  apply Throughout.bind
  apply h.mono
  intro count s' hQ
  exact Throughout.load_bind (.refl s') (Throughout.ret ⟨hQ, rfl⟩)

/-- The vertices that a top-down step visits. -/
theorem TopDown.visited_sdiff {l : List (Fin n)} {s' : BfsMem n} (h : TopDown g w l s s') :
    visited s'.parent \ visited s.parent = l.toFinset := by
  ext v
  rw [Finset.mem_sdiff, visited, visited, Finset.mem_filter, Finset.mem_filter, List.mem_toFinset]
  constructor
  · rintro ⟨⟨-, hv⟩, hnot⟩
    by_contra hvl
    rw [h.other v hvl] at hv
    exact hnot ⟨Finset.mem_univ v, hv⟩
  · intro hvl
    obtain ⟨u, -, -, hu⟩ := h.parent v hvl
    refine ⟨⟨Finset.mem_univ v, ?_⟩, fun hv => not_lt.mpr hv.2 ((h.mem v).mp hvl).1⟩
    rw [hu]
    exact Int.natCast_nonneg _

/-- The vertices that a bottom-up step visits. -/
theorem BottomUp.visited_sdiff {s' : BfsMem n} (h : BottomUp g s s') :
    visited s'.parent \ visited s.parent = Finset.univ.filter fun u => (awakener g s u).isSome := by
  ext v
  rw [Finset.mem_sdiff, visited, visited, Finset.mem_filter, Finset.mem_filter, Finset.mem_filter,
    h.parent v]
  cases hcase : awakener g s v with
  | none => simp
  | some u =>
    have hneg : s.parent v < 0 := by
      rw [awakener] at hcase
      split at hcase
      · assumption
      · cases hcase
    simp [hneg]

theorem Queued.scout_eq (hdeg : ∀ v, g.outDegree v < 2 ^ 31) (h : Queued g old w s)
    {l : List (Fin n)} {s' : BfsMem n} (hstep : TopDown g w l s s') :
    (l.map fun v => -s.parent v).sum =
      ∑ v ∈ visited s'.parent \ visited s.parent, ((max 1 (g.outDegree v) : Nat) : Int) := by
  rw [hstep.visited_sdiff, ← List.sum_toFinset _ hstep.nodup]
  apply Finset.sum_congr rfl
  intro v hv
  have hneg := ((hstep.mem v).mp (List.mem_toFinset.mp hv)).1
  rw [h.unvisited v hneg, initParentOf_eq (hdeg v), neg_neg]

/-- The bottom-up loop marks vertices that are not in the queue, and nothing else is left marked. -/
theorem buLoop_throughout {beta maxBuIters awakeCount : Int} {log : List (StepRecord n)}
    (hE : beta = 0 → E) (h : Queued g old w s) (hlog : Counted g log) :
    Throughout E QueueAct (buLoop .pthread T g beta maxBuIters awakeCount log) s fun log' s' =>
      Counted g log' ∧ Queued g old w s' ∧
        ∀ v, s'.front.getBit v = true → v ∉ old ++ w ∧ 0 ≤ s'.parent v := by
  apply Throughout.iter QueueAct.refl (fun x s => Counted g x.2.2 ∧ Queued g old w s) ⟨hlog, h⟩
  rintro ⟨oldAwake, iters, log₁⟩ s₁ ⟨hlog₁, hs₁⟩
  apply Throughout.bind
  have hstep := throughout_of_sameQueue (E := E) (buStep_sameQueue .pthread T g)
    (buStep_solo .pthread g s₁)
  apply (observe_throughout hstep).mono
  rintro ⟨awake, newly⟩ s₂ ⟨⟨hbu, hawake⟩, hnewly⟩
  change newly = _ at hnewly
  obtain ⟨hqueued, hmarked⟩ := hs₁.bottomUp hbu
  have hcounted : Counted g (log₁ ++ [.bottomUp newly awake]) := by
    apply hlog₁.concat
    show awake = newly.card
    rw [hnewly, hbu.visited_sdiff]
    exact hawake
  apply Throughout.store_bind (.of_eq rfl)
  cases hagain : buAgain n beta maxBuIters (iters + 1) awake oldAwake with
  | none =>
    -- the division has been reached with a zero
    apply Throughout.fail
    apply hE
    simp only [buAgain] at hagain
    split_ifs at hagain
    assumption
  | some again =>
    cases again with
    | true => exact Throughout.ret ⟨hcounted, hqueued⟩
    | false => exact Throughout.ret ⟨hcounted, hqueued, hmarked⟩

theorem dobfsTurn_throughout (hdeg : ∀ v, g.outDegree v < 2 ^ 31)
    {alpha beta maxBuIters edges scout : Int} {log : List (StepRecord n)}
    (hE : alpha = 0 ∨ beta = 0 → E) (h : Queued g old w s) (hlog : Counted g log) :
    Throughout E QueueAct (dobfsTurn .pthread T g alpha beta maxBuIters edges scout log) s
      fun r s' => match r with
        | .inl x => Counted g x.2.2 ∧ ∃ old w, Queued g old w s'
        | .inr log => Counted g log ∧ ∃ old w, Queued g old w s' := by
  apply Throughout.load_bind (.refl s)
  split
  · exact Throughout.ret ⟨hlog, old, w, h⟩
  · split
    · next halpha => exact Throughout.fail (hE (.inl halpha))
    · split
      · have hwindow := h.queue.holdsWindow h.nodup
        apply Throughout.bind
        apply (throughout_of_sameQueue (queueToBitmap_sameQueue .pthread T)
          (queueToBitmap_solo .pthread hwindow)).mono
        rintro _ s₁ ⟨hrest, -⟩
        have hs₁ : Queued g old w s₁ := h.congr (by rw [hrest]) (by rw [hrest])
        apply Throughout.load_bind (.refl s₁)
        apply Throughout.store_bind (queueAct_slideWindow s₁)
        apply Throughout.bind
        apply (buLoop_throughout (fun hbeta => hE (.inr hbeta)) hs₁.slide hlog).mono
        rintro log' s₂ ⟨hlog', hs₂, hmarked⟩
        rw [List.append_nil] at hmarked
        -- `BitmapToQueue` appends the vertices of the bitmap, none of which has been in the queue
        let bits := (Finset.univ.filter fun v => s₂.front.getBit v = true).toList
        have hmem (v : Fin n) : v ∈ bits ↔ s₂.front.getBit v = true := by
          simp [bits]
        have hbits : bits.Nodup := Finset.nodup_toList _
        have hroom : s₂.queue.sharedIn + bits.length ≤ n := by
          rw [hs₂.queue.sharedIn, List.length_nil, Nat.add_zero, ← List.length_append]
          apply length_le_of_nodup
          exact h.nodup.append hbits fun v hv hvb => (hmarked v ((hmem v).mp hvb)).1 hv
        have hfresh (k : Nat) (x : Fin n) (hk : s₂.queue.shared k = some x) :
            s₂.front.getBit x = false := by
          by_contra hbit
          have hx := hs₂.mem_of_shared hk
          rw [List.append_nil] at hx
          exact (hmarked x (Bool.eq_true_of_not_eq_false hbit)).1 hx
        apply Throughout.bind
        apply (bitmapToQueue_throughout hbits hmem hroom hs₂.once hfresh).mono
        rintro _ _ ⟨honce, l, s₃, hl, happ, rfl⟩
        have honce₃ : s₃.queue.Once := ⟨honce.room, honce.used, honce.inj⟩
        exact Throughout.ret ⟨hlog', old ++ w, l, hs₂.refill hbits hmem hmarked hl happ honce₃⟩
      · apply Throughout.bind
        have hstep := tdStep_throughout (T := T) g (E := E) (h.queue.holdsWindow h.nodup)
          (fun v _ => h.gt_min hdeg v) h.room h.once h.visited_of_shared
        apply (observe_throughout hstep).mono
        rintro ⟨scout', newly⟩ s₁ ⟨⟨l, htd, honce, hscout⟩, hnewly⟩
        apply Throughout.store_bind (queueAct_slideWindow s₁)
        refine Throughout.ret ⟨hlog.concat ?_, old ++ w, l, h.topDown htd honce⟩
        show scout' = _
        change newly = _ at hnewly
        rw [hnewly, ← h.scout_eq hdeg htd]
        exact hscout

/-- The queue when the main loop is entered. -/
theorem queued_source {source : Fin n} (hparent : s.parent = update (initParentOf g) source source.val)
    (hqueue : s.queue = (sourceQueue source).slideWindow) : Queued g [] [source] s := by
  have hslot {k : Nat} {x : Fin n} (hk : s.queue.shared k = some x) : k = 0 := by
    by_contra hne
    rw [hqueue] at hk
    change update (fun _ => none) 0 (some source) k = some x at hk
    rw [update_of_ne hne] at hk
    cases hk
  refine ⟨fun v hv => ?_, ⟨?_, fun k x hk => ?_, fun j k x hj hk => ?_⟩, ?_, List.nodup_singleton source,
    fun v hv => ?_⟩
  · have hne : v ≠ source := by
      rintro rfl
      rw [hparent, update_self] at hv
      omega
    rw [hparent, update_of_ne hne]
  · rw [hqueue]
    exact source.pos
  · rw [hslot hk, hqueue]
    exact Nat.one_pos
  · rw [hslot hj, hslot hk]
  · rw [hqueue]
    exact queueAt_source source
  · rw [List.nil_append, List.mem_singleton] at hv
    rw [hparent, hv, update_self]
    exact Int.natCast_nonneg _

/-- All that `DOBFS` does to its queue, from the moment on that there is one. -/
theorem dobfs_throughout (hdeg : ∀ v, g.outDegree v < 2 ^ 31) (source : Fin n) (alpha beta maxBuIters : Int)
    (s₀ : BfsMem n) :
    Throughout (alpha = 0 ∨ beta = 0) QueueAct (dobfs .pthread T g source alpha beta maxBuIters)
      { s₀ with queue := .new } fun log s => Counted g log ∧
        ∃ old w, QueueAt old w s.queue ∧ (old ++ w).Nodup := by
  apply Throughout.bind
  apply (throughout_of_sameQueue (initParent_sameQueue .pthread T g) (initParent_solo .pthread g _)).mono
  rintro _ s₁ rfl
  apply Throughout.store_bind (.of_eq rfl)
  apply Throughout.store_bind (.of_eq rfl)
  let s₂ : BfsMem n :=
    { s₀ with parent := update (initParentOf g) source source.val, queue := sourceQueue source }
  have hqueued : Queued g [] [source] { s₂ with queue := (sourceQueue source).slideWindow } :=
    queued_source rfl rfl
  have honce : (sourceQueue source).Once := ⟨hqueued.once.room, hqueued.once.used, hqueued.once.inj⟩
  have hact : QueueAct { s₂ with queue := .new } s₂ :=
    ⟨fun _ => honce, fun _ _ _ hk => (Option.some_ne_none _ hk.symm).elim⟩
  refine Throughout.storeAt_bind (t := s₂) (congrArg (Option.map _) (pushBack_new source)) hact ?_
  apply Throughout.store_bind (queueAct_slideWindow s₂)
  apply Throughout.store_bind (.of_eq rfl)
  apply Throughout.store_bind (.of_eq rfl)
  apply Throughout.bind
  apply Throughout.iter QueueAct.refl
    (fun x s => Counted g x.2.2 ∧ ∃ old w, Queued g old w s)
  · exact ⟨fun r hr => (List.not_mem_nil hr).elim, [], [source], hqueued.congr rfl rfl⟩
  · rintro ⟨edges, scout, log⟩ s ⟨hlog, old, w, hs⟩
    apply (dobfsTurn_throughout hdeg id hs hlog).mono
    rintro (x | log') s' h
    · exact h
    · obtain ⟨hlog', old', w', hs'⟩ := h
      apply Throughout.bind
      apply (throughout_of_sameQueue (cleanupParent_sameQueue .pthread T)
        (cleanupParent_solo .pthread s')).mono
      rintro _ _ rfl
      exact Throughout.ret ⟨hlog', old', w', hs'.queue, hs'.nodup⟩

end Run

open Prog in
/-- Every vertex is appended at most once, in every interleaving: two slots never hold the same vertex,
a slot that has been written stays as it is, and in the end the queue has handed out one slot for each
vertex that it holds.  Hence there is always room. -/
theorem dobfs_appends_once {n : Nat} (g : Graph n) (hdeg : ∀ v, g.outDegree v < 2 ^ 31) (source : Fin n)
    (T : Nat) [NeZero T] (alpha beta : Int) (halpha : 1 ≤ alpha) (hbeta : 1 ≤ beta) (maxBuIters : Int)
    (s₀ : BfsMem n) :
    ∀ q t, Reach (dobfs .pthread T g source alpha beta maxBuIters, { s₀ with queue := .new }) (q, t) →
      ¬ Fails q t ∧ t.queue.sharedIn ≤ n ∧
      (∀ k x, t.queue.shared k = some x → k < n) ∧
      (∀ j k x, t.queue.shared j = some x → t.queue.shared k = some x → j = k) ∧
      (∀ q' t', Step q t q' t' → ∀ k x, t.queue.shared k = some x → t'.queue.shared k = some x) ∧
      ∀ log, q = .ret log → ∃ l : List (Fin n), l.Nodup ∧ t.queue.sharedIn = l.length ∧
        ∀ k x, l[k]? = some x → t.queue.shared k = some x := by
  have h := dobfs_throughout (T := T) hdeg source alpha beta maxBuIters s₀
  intro q t hr
  have honce : t.queue.Once := h.invariant (fun _ _ hA hs => hA.once hs) SlidingQueue.once_new hr
  refine ⟨fun hf => ?_, honce.room, fun k x hk => (honce.used k x hk).trans_le honce.room, honce.inj,
    fun q' t' hs => (h.acts q t q' t' hr hs).kept honce, ?_⟩
  · rcases h.safe q t hr hf with hzero | hzero <;> omega
  · rintro log rfl
    obtain ⟨-, old, w, hq, hnodup⟩ := h.result log t hr
    refine ⟨old ++ w, hnodup, ?_, hq.slots⟩
    rw [hq.sharedIn, List.length_append]

theorem dobfs_appends_once_pair :
    ∃ q t, Prog.Reach (dobfs .pthread 2 pairGraph 0 15 18 1, blankMem 2) (q, t) ∧
      ¬ Prog.Fails q t ∧ t.queue.sharedIn ≤ 2 ∧
      (∀ k x, t.queue.shared k = some x → k < 2) ∧
      (∀ j k x, t.queue.shared j = some x → t.queue.shared k = some x → j = k) ∧
      (∀ q' t', Prog.Step q t q' t' → ∀ k x, t.queue.shared k = some x → t'.queue.shared k = some x) ∧
      ∀ log, q = .ret log → ∃ l : List (Fin 2), l.Nodup ∧ t.queue.sharedIn = l.length ∧
        ∀ k x, l[k]? = some x → t.queue.shared k = some x :=
  have hrun := Prog.reach_run 400 (dobfs .pthread 2 pairGraph 0 15 18 1) (blankMem 2)
  ⟨_, _, hrun, dobfs_appends_once pairGraph (by decide) 0 2 15 18 (by decide) (by decide) 1 (blankMem 2)
    _ _ hrun⟩

/-- A top-down step of the pthread program, in every interleaving, when the vertices that it appends do
not have the smallest `NodeID` as entry and find room in the queue; and the scout counts of a
traversal. -/
theorem tdStep_correct {n : Nat} (g : Graph n) (T : Nat) [NeZero T] :
    (∀ (s : BfsMem n) (w : List (Fin n)), s.queue.HoldsWindow w →
      (∀ v ∈ discovered g w s, -2 ^ 31 < s.parent v) →
      s.queue.sharedIn + (discovered g w s).card ≤ n →
      (tdStep .pthread T g).Correct s fun scout s' =>
        ∃ l, TopDown g w l s s' ∧ scout = (l.map fun v => -s.parent v).sum) ∧
    ∀ (source : Fin n) (alpha beta maxBuIters : Int) (s₀ : BfsMem n), (∀ v, g.outDegree v < 2 ^ 31) →
      ∀ log t, Prog.Reach (dobfs .pthread T g source alpha beta maxBuIters, { s₀ with queue := .new })
        (.ret log, t) → ∀ newly scout edges, StepRecord.topDown newly scout edges ∈ log →
          scout = ∑ v ∈ newly, ((max 1 (g.outDegree v) : Nat) : Int) := by
  constructor
  · intro s w hw hmin hroom
    exact (tdStep_solo .pthread g hw hmin hroom).correct
  · intro source alpha beta maxBuIters s₀ hdeg log t hr newly scout edges hmem
    have h := dobfs_throughout (T := T) hdeg source alpha beta maxBuIters s₀
    exact (h.result log t hr).1 _ hmem

open VertexFacts in
/-- A state in which vertex 0 of a pair is the window of the queue and vertex 1 has the entry `val`. -/
def pairWindow (val : Int) (sharedIn : Nat) : BfsMem 2 :=
  { blankMem 2 with
    parent := fun v => if v = 0 then 0 else val
    queue := ⟨fun k => if k = 0 then some 0 else none, sharedIn, 0, 1⟩ }

theorem pairWindow_holdsWindow (val : Int) {sharedIn : Nat} (h : 1 ≤ sharedIn) :
    (pairWindow val sharedIn).queue.HoldsWindow [0] := by
  refine ⟨rfl, h, fun i x hi => ?_⟩
  cases i with
  | zero => simpa [pairWindow, SlidingQueue.window] using hi
  | succ i => simp at hi

theorem tdStep_correct_pair :
    (tdStep .pthread 2 pairGraph).Correct (pairWindow (-1) 1) fun scout s' =>
      ∃ l, TopDown pairGraph [0] l (pairWindow (-1) 1) s' ∧
        scout = (l.map fun v => -(pairWindow (-1) 1).parent v).sum :=
  (tdStep_correct pairGraph 2).1 _ [0] (pairWindow_holdsWindow (-1) (by decide)) (by decide) (by decide)

/-- The negation of the smallest `NodeID` overflows, and a queue without room is written past its
end. -/
theorem tdStep_not_safe :
    (pairWindow (-2 ^ 31) 1).queue.HoldsWindow [0] ∧
      (tdStep .pthread 1 pairGraph).CanFail (pairWindow (-2 ^ 31) 1) ∧
    (pairWindow (-1) 2).queue.HoldsWindow [0] ∧
      (tdStep .pthread 1 pairGraph).CanFail (pairWindow (-1) 2) := by
  refine ⟨pairWindow_holdsWindow _ (by decide), ⟨_, _, Prog.reach_run 12 _ _, ?_⟩,
    pairWindow_holdsWindow _ (by decide), ⟨_, _, Prog.reach_run 12 _ _, ?_⟩⟩
  · exact ⟨0, rfl⟩
  · exact ⟨0, rfl⟩

end Gapbs
