import Gapbs.Sssp.DeltaStep

/-!
# What the threads keep while they relax edges

An edge that could still lower a distance is covered: its source is in the bin of its distance, or some
thread has promised to look at the edge.  A promise that depends on a distance is void when somebody
lowers the distance, who then makes a new one.
-/

namespace Gapbs

open Conc Function ShortestPath

variable {n T : Nat}

/-- Lowering a distance lowers the sum of all. -/
def DeltaMem.potential (s : DeltaMem T n) : Nat := ∑ v, (s.dist v).toNat

/-- A distance is the cut-off or the weight of a walk. -/
structure DeltaMem.Sound (g : WGraph n) (source : Fin n) (s : DeltaMem T n) : Prop where
  root : s.dist source = 0
  range : ∀ v, 0 ≤ s.dist v ∧ s.dist v ≤ kDistInf
  walk : ∀ v, s.dist v = kDistInf ∨ Walk g.Edge source v (s.dist v).toNat

theorem DeltaMem.Sound.of_dist {g : WGraph n} {source : Fin n} {s s' : DeltaMem T n} (h : s.Sound g source)
    (hdist : s'.dist = s.dist) : s'.Sound g source :=
  ⟨hdist ▸ h.root, hdist ▸ h.range, hdist ▸ h.walk⟩

/-- A distance is lowered to that of a walk. -/
theorem DeltaMem.Sound.lower {g : WGraph n} {source : Fin n} {s : DeltaMem T n} (h : s.Sound g source)
    {v : Fin n} {x : Int} (hx : 0 ≤ x) (hlt : x < s.dist v) (hwalk : Walk g.Edge source v x.toNat) :
    (s.setDist v x).Sound g source := by
  have hother {y : Fin n} (hy : y ≠ v) : (s.setDist v x).dist y = s.dist y := update_of_ne hy _ _
  have hself : (s.setDist v x).dist v = x := update_self ..
  constructor
  · have hroot : source ≠ v := fun heq => by
      have hzero := h.root
      rw [heq] at hzero
      omega
    exact (hother hroot).trans h.root
  · intro y
    by_cases hy : y = v
    · rw [hy, hself]
      exact ⟨hx, hlt.le.trans (h.range v).2⟩
    · rw [hother hy]
      exact h.range y
  · intro y
    by_cases hy : y = v
    · subst hy
      rw [hself]
      exact .inr hwalk
    · rw [hother hy]
      exact h.walk y

/-- What a thread has promised: to look at the edges of `due`, and to finish the edge of which it has read
the source's distance; a vertex whose distance it has lowered is owed to a bin. -/
structure Hand (n : Nat) where
  due : Set (Fin n × NodeWeight n)
  reading : Option (Fin n × NodeWeight n × Int)
  owed : Option (Fin n × Int)

/-- The entries of all bins, and those that are owed. -/
def allEntries (σ : DeltaMem T n × (Fin T → Hand n)) : Nat :=
  ∑ t, (binEntries (σ.1.localBins t) + (σ.2 t).owed.toList.length)

/-- The thread answers for the edge while its source is at distance `x`. -/
def Hand.Covers (h : Hand n) (u : Fin n) (wn : NodeWeight n) (x : Int) : Prop :=
  (u, wn) ∈ h.due ∨ h.reading = some (u, wn, x) ∨ h.owed = some (u, x)

/-- A turn of the loop: the graph, the number of the turn, the index that is worked on, the memory at its
start and a bound on the entries that all threads together can make. -/
structure Turn (T n : Nat) where
  g : WGraph n
  source : Fin n
  delta : Int
  iter : Nat
  index : Nat
  start : DeltaMem T n
  bound : Nat
  weights : g.WeightsOk
  one_le : 1 ≤ delta
  low : delta * index ≤ kDistInf

theorem parity_ne (iter : Nat) : parity iter ≠ parity (iter + 1) := by
  intro h
  have hmod : iter % 2 = (iter + 1) % 2 := congrArg Fin.val h
  omega

namespace Turn

variable (K : Turn T n)

/-- The buffers of the turn. -/
def curr : Fin 2 := parity K.iter

def next : Fin 2 := parity (K.iter + 1)

theorem ne : K.curr ≠ K.next := parity_ne K.iter

/-- No distance below it is written in the turn. -/
def floor : Int := K.delta * K.index

/-- The edge lowers no distance, or somebody answers for it. -/
def Covered (σ : DeltaMem T n × (Fin T → Hand n)) (u : Fin n) (wn : NodeWeight n) : Prop :=
  σ.1.dist wn.v ≤ σ.1.dist u + wn.w ∨
    ∃ t, u ∈ binAt (σ.1.localBins t) (binOf K.delta (σ.1.dist u)) ∨ (σ.2 t).Covers u wn (σ.1.dist u)

/-- The next index: none yet, or that of a bin.  It is the same again only if a distance has been lowered. -/
def Voted (s : DeltaMem T n) (j : Nat) : Prop :=
  j = kMaxBin ∨ K.index ≤ j ∧ K.delta * j ≤ kDistInf ∧ (j = K.index → s.potential < K.start.potential)

/-- What holds in front of the first barrier. -/
structure Searching (σ : DeltaMem T n × (Fin T → Hand n)) : Prop where
  sound : σ.1.Sound K.g K.source
  frontier : σ.1.frontier = K.start.frontier
  tails : σ.1.frontierTails = K.start.frontierTails
  iter : σ.1.iter = K.start.iter
  index : σ.1.sharedIndexes K.curr = K.index
  voted : K.Voted σ.1 (σ.1.sharedIndexes K.next)
  kept : ∀ v, σ.1.dist v = K.start.dist v ∨ K.floor ≤ σ.1.dist v
  bins : ∀ t j, binAt (σ.1.localBins t) j ≠ [] → K.index ≤ j ∧ K.delta * j ≤ kDistInf
  own : ∀ t, ∀ u ∈ binAt (σ.1.localBins t) K.index, K.floor ≤ σ.1.dist u
  cover : ∀ u, ∀ wn ∈ K.g.outNeigh u, K.Covered σ u wn
  due : ∀ t, ∀ e ∈ (σ.2 t).due, e.2 ∈ K.g.outNeigh e.1
  count : allEntries σ + σ.1.potential ≤ K.bound

/-- What thread `t` may do in front of the first barrier. -/
structure Acts (t : Fin T) (σ τ : DeltaMem T n × (Fin T → Hand n)) : Prop where
  keeps : K.Searching σ → K.Searching τ
  hand : ∀ u, u ≠ t → τ.2 u = σ.2 u
  bins : ∀ u, u ≠ t → τ.1.localBins u = σ.1.localBins u
  dist : ∀ v, τ.1.dist v = σ.1.dist v ∨ τ.1.dist v < σ.1.dist v ∧ K.floor ≤ τ.1.dist v
  vote : τ.1.sharedIndexes K.next ≤ σ.1.sharedIndexes K.next

/-- A thread between two edges: its promises are in `D`, and unless the potential has fallen below `p`, its
bins are still `bins`. -/
structure Idle (t : Fin T) (D : Set (Fin n × NodeWeight n)) (p : Nat) (bins : List (List (Fin n)))
    (σ : DeltaMem T n × (Fin T → Hand n)) : Prop where
  inv : K.Searching σ
  owed : (σ.2 t).owed = none
  read : ∀ u wn x, (σ.2 t).reading = some (u, wn, x) → σ.1.dist wn.v ≤ x + wn.w
  due : (σ.2 t).due ⊆ D
  fresh : σ.1.potential < p ∨ σ.1.potential ≤ p ∧ σ.1.localBins t = bins

variable {K} {t : Fin T} {s : DeltaMem T n} {γ : Fin T → Hand n}

theorem floor_nonneg (K : Turn T n) : 0 ≤ K.floor :=
  Int.mul_nonneg (Int.le_trans Int.one_nonneg K.one_le) (Int.natCast_nonneg _)

/-! ## Interference -/

theorem Acts.dist_le {σ τ : DeltaMem T n × (Fin T → Hand n)} (h : K.Acts t σ τ) (v : Fin n) :
    τ.1.dist v ≤ σ.1.dist v := by
  rcases h.dist v with heq | hlt
  · exact heq.le
  · exact hlt.1.le

theorem Acts.potential_le {σ τ : DeltaMem T n × (Fin T → Hand n)} (h : K.Acts t σ τ) :
    τ.1.potential ≤ σ.1.potential :=
  Finset.sum_le_sum fun v _ => Int.toNat_le_toNat (h.dist_le v)

/-- A distance that is not below the floor stays there. -/
theorem Acts.floor_le {σ τ : DeltaMem T n × (Fin T → Hand n)} (h : K.Acts t σ τ) {v : Fin n}
    (hv : K.floor ≤ σ.1.dist v) : K.floor ≤ τ.1.dist v := by
  rcases h.dist v with heq | hlt
  · rwa [heq]
  · exact hlt.2

theorem Idle.stable (t : Fin T) (D : Set (Fin n × NodeWeight n)) (p : Nat) (bins : List (List (Fin n))) :
    Stable (Rely K.Acts t) (K.Idle t D p bins) := by
  intro σ τ h ⟨u, hu, hact⟩
  have hhand := hact.hand t hu.symm
  have hle := hact.potential_le
  refine ⟨hact.keeps h.inv, hhand ▸ h.owed, ?_, hhand ▸ h.due, ?_⟩
  · rw [hhand]
    exact fun u wn x hread => (hact.dist_le wn.v).trans (h.read u wn x hread)
  · rw [hact.bins t hu.symm]
    exact h.fresh.imp (hle.trans_lt ·) fun hfresh => ⟨hle.trans hfresh.1, hfresh.2⟩

theorem stable_floor (t : Fin T) (v : Fin n) :
    Stable (Rely K.Acts t) fun σ => K.floor ≤ σ.1.dist v :=
  fun _ _ h ⟨_, _, hact⟩ => hact.floor_le h

/-! ## Steps that keep the invariant -/

/-- The number of entries when one thread has changed its part. -/
theorem allEntries_le {σ τ : DeltaMem T n × (Fin T → Hand n)} {a b : Nat}
    (hother : ∀ u, u ≠ t → τ.1.localBins u = σ.1.localBins u ∧ (τ.2 u).owed = (σ.2 u).owed)
    (ht : binEntries (τ.1.localBins t) + (τ.2 t).owed.toList.length + a ≤
      binEntries (σ.1.localBins t) + (σ.2 t).owed.toList.length + b) :
    allEntries τ + a ≤ allEntries σ + b := by
  unfold allEntries
  rw [← Finset.add_sum_erase _ _ (Finset.mem_univ t),
    ← Finset.add_sum_erase (f := fun u => _ + _) _ (Finset.mem_univ t)]
  have hrest : ∑ u ∈ Finset.univ.erase t, (binEntries (τ.1.localBins u) + (τ.2 u).owed.toList.length) =
      ∑ u ∈ Finset.univ.erase t, (binEntries (σ.1.localBins u) + (σ.2 u).owed.toList.length) := by
    apply Finset.sum_congr rfl
    intro u hu
    obtain ⟨hbins, howed⟩ := hother u (Finset.ne_of_mem_erase hu)
    rw [hbins, howed]
  rw [hrest]
  omega

/-- The edges that are due are edges of their sources. -/
theorem Searching.due_update (h : K.Searching (s, γ)) {hand : Hand n}
    (hhand : ∀ e ∈ hand.due, e.2 ∈ K.g.outNeigh e.1) :
    ∀ r, ∀ e ∈ (update γ t hand r).due, e.2 ∈ K.g.outNeigh e.1 := by
  intro r e he
  by_cases hr : r = t
  · subst hr
    rw [update_self] at he
    exact hhand e he
  · rw [update_of_ne hr] at he
    exact h.due r e he

/-- The thread reads the distance of the source of an edge. -/
theorem Searching.read (h : K.Searching (s, γ)) (u : Fin n) (wn : NodeWeight n) (howed : (γ t).owed = none)
    (hread : ∀ u wn x, (γ t).reading = some (u, wn, x) → s.dist wn.v ≤ x + wn.w) :
    K.Searching (s, update γ t ⟨(γ t).due \ {(u, wn)}, some (u, wn, s.dist u), none⟩) := by
  refine { h with cover := fun x wx hwx => ?_, due := h.due_update fun e he => h.due t e he.1, count := ?_ }
  · rcases h.cover x wx hwx with hle | ⟨r, hbin | hcovers⟩
    · exact .inl hle
    · exact .inr ⟨r, .inl hbin⟩
    · by_cases hr : r = t
      · subst hr
        rcases hcovers with hdue | hreading | howed'
        · -- the edge is the one that is being read, or it is still due
          refine .inr ⟨r, .inr ?_⟩
          show Hand.Covers (update γ r _ r) x wx (s.dist x)
          rw [update_self]
          by_cases hedge : (x, wx) = (u, wn)
          · obtain ⟨rfl, rfl⟩ := Prod.mk.inj hedge
            exact .inr (.inl rfl)
          · exact .inl ⟨hdue, hedge⟩
        · exact .inl (hread x wx _ hreading)
        · rw [howed] at howed'
          cases howed'
      · refine .inr ⟨r, .inr ?_⟩
        show Hand.Covers (update γ t _ r) x wx (s.dist x)
        rwa [update_of_ne hr]
  · have hentries : allEntries (s, update γ t ⟨(γ t).due \ {(u, wn)}, some (u, wn, s.dist u), none⟩) + 0 ≤
        allEntries (s, γ) + 0 := by
      apply allEntries_le (t := t)
      · intro r hr
        exact ⟨rfl, congrArg Hand.owed (update_of_ne hr _ _)⟩
      · simp only [update_self, howed]
        exact le_rfl
    exact (Nat.add_le_add_right hentries _).trans h.count

/-- A compare-and-swap that lowers a distance. -/
theorem Searching.lower (h : K.Searching (s, γ)) {v : Fin n} {x : Int} (howed : (γ t).owed = none)
    (hread : ∀ u wn y, (γ t).reading = some (u, wn, y) → wn.v = v ∧ x = y + wn.w ∧ 0 ≤ wn.w)
    (hfloor : K.floor ≤ x) (hlt : x < s.dist v) (hwalk : Walk K.g.Edge K.source v x.toNat) :
    K.Searching (s.setDist v x, update γ t ⟨(γ t).due, none, some (v, x)⟩) := by
  have hx : 0 ≤ x := K.floor_nonneg.trans hfloor
  let dist := update s.dist v x
  have hself : dist v = x := update_self ..
  have hother {y : Fin n} (hy : y ≠ v) : dist y = s.dist y := update_of_ne hy _ _
  have hle (y : Fin n) : dist y ≤ s.dist y := by
    by_cases hy : y = v
    · rw [hy, hself]
      exact hlt.le
    · rw [hother hy]
  have hpotential : (s.setDist v x).potential < s.potential := sum_toNat_update_lt hx hlt
  refine { h with
    sound := h.sound.lower hx hlt hwalk
    voted := ?_
    kept := fun y => ?_
    own := ?_
    cover := ?_
    due := h.due_update (h.due t)
    count := ?_ }
  · rcases h.voted with hnone | ⟨hindex, hlow, hsame⟩
    · exact .inl hnone
    · exact .inr ⟨hindex, hlow, fun heq => hpotential.trans (hsame heq)⟩
  · show dist y = K.start.dist y ∨ K.floor ≤ dist y
    by_cases hy : y = v
    · rw [hy, hself]
      exact .inr hfloor
    · rw [hother hy]
      exact h.kept y
  · intro r y hy
    show K.floor ≤ dist y
    by_cases hyv : y = v
    · rw [hyv, hself]
      exact hfloor
    · rw [hother hyv]
      exact h.own r y hy
  · intro y wy hwy
    show dist wy.v ≤ dist y + wy.w ∨ ∃ r, y ∈ binAt (s.localBins r) (binOf K.delta (dist y)) ∨
      Hand.Covers (update γ t _ r) y wy (dist y)
    by_cases hy : y = v
    · -- all edges of the vertex are owed
      refine .inr ⟨t, .inr ?_⟩
      rw [update_self, hy, hself]
      exact .inr (.inr rfl)
    · rw [hother hy]
      rcases h.cover y wy hwy with hrelaxed | ⟨r, hbin | hcovers⟩
      · exact .inl ((hle wy.v).trans hrelaxed)
      · exact .inr ⟨r, .inl hbin⟩
      · by_cases hr : r = t
        · subst hr
          rcases hcovers with hdue | hreading | howed'
          · refine .inr ⟨r, .inr ?_⟩
            rw [update_self]
            exact .inl hdue
          · -- the edge that has been read has lowered the distance
            obtain ⟨hv, hsum, -⟩ := hread y wy _ hreading
            rw [hv, hself, hsum]
            exact .inl le_rfl
          · rw [howed] at howed'
            cases howed'
        · refine .inr ⟨r, .inr ?_⟩
          rwa [update_of_ne hr]
  · have hentries : allEntries (s.setDist v x, update γ t ⟨(γ t).due, none, some (v, x)⟩) + 0 ≤
        allEntries (s, γ) + 1 := by
      apply allEntries_le (t := t)
      · intro r hr
        exact ⟨rfl, congrArg Hand.owed (update_of_ne hr _ _)⟩
      · simp only [update_self, howed]
        exact le_rfl
    have hcount := h.count
    change allEntries (s, γ) + s.potential ≤ K.bound at hcount
    show allEntries _ + (s.setDist v x).potential ≤ K.bound
    omega

/-- The vertex that is owed is put into the bin of its new distance. -/
theorem Searching.push (h : K.Searching (s, γ)) {v : Fin n} {x : Int} (howed : (γ t).owed = some (v, x))
    (hfloor : K.floor ≤ x) (hx : x ≤ kDistInf) (hv : K.floor ≤ s.dist v) :
    K.Searching (s.setBins t (pushBin (s.localBins t) (binOf K.delta x) v),
      update γ t ⟨(γ t).due, (γ t).reading, none⟩) := by
  have hnonneg : 0 ≤ x := K.floor_nonneg.trans hfloor
  let bins := update s.localBins t (pushBin (s.localBins t) (binOf K.delta x) v)
  have hbin (r : Fin T) (j : Nat) : binAt (bins r) j =
      if r = t ∧ j = binOf K.delta x then binAt (s.localBins t) j ++ [v] else binAt (s.localBins r) j := by
    by_cases hr : r = t
    · subst hr
      rw [show bins r = _ from update_self .., binAt_pushBin]
      by_cases hj : j = binOf K.delta x
      · simp [hj]
      · simp [hj]
    · rw [show bins r = _ from update_of_ne hr _ _, if_neg fun hand => hr hand.1]
  refine { h with
    sound := h.sound.of_dist rfl
    bins := fun r j hne => ?_
    own := fun r u hu => ?_
    cover := fun y wy hwy => ?_
    due := h.due_update (h.due t)
    count := ?_ }
  · change binAt (bins r) j ≠ [] at hne
    rw [hbin] at hne
    split at hne
    · next hand =>
      rw [hand.2]
      exact ⟨(le_binOf_iff K.one_le hnonneg).mpr hfloor, (mul_binOf_le K.one_le hnonneg).trans hx⟩
    · exact h.bins r j hne
  · change u ∈ binAt (bins r) K.index at hu
    rw [hbin] at hu
    split at hu
    · rcases List.mem_append.mp hu with hu | hu
      · exact h.own t u hu
      · rw [List.mem_singleton.mp hu]
        exact hv
    · exact h.own r u hu
  · show s.dist wy.v ≤ s.dist y + wy.w ∨ ∃ r, y ∈ binAt (bins r) (binOf K.delta (s.dist y)) ∨
      Hand.Covers (update γ t _ r) y wy (s.dist y)
    rcases h.cover y wy hwy with hrelaxed | ⟨r, hold | hcovers⟩
    · exact .inl hrelaxed
    · refine .inr ⟨r, .inl ?_⟩
      rw [hbin]
      split
      · next hand => exact List.mem_append_left _ (hand.1 ▸ hold)
      · exact hold
    · by_cases hr : r = t
      · subst hr
        rcases hcovers with hdue | hreading | howed'
        · refine .inr ⟨r, .inr ?_⟩
          rw [update_self]
          exact .inl hdue
        · refine .inr ⟨r, .inr ?_⟩
          rw [update_self]
          exact .inr (.inl hreading)
        · -- nobody has lowered the distance since
          rw [howed] at howed'
          obtain ⟨rfl, hsame⟩ := Prod.mk.inj (Option.some.inj howed')
          refine .inr ⟨r, .inl ?_⟩
          change x = s.dist v at hsame
          rw [hbin, ← hsame, if_pos ⟨rfl, rfl⟩]
          exact List.mem_append_right _ (List.mem_singleton_self v)
      · refine .inr ⟨r, .inr ?_⟩
        rwa [update_of_ne hr]
  · have hentries : allEntries (s.setBins t (pushBin (s.localBins t) (binOf K.delta x) v),
        update γ t ⟨(γ t).due, (γ t).reading, none⟩) + 0 ≤ allEntries (s, γ) + 0 := by
      apply allEntries_le (t := t)
      · intro r hr
        exact ⟨update_of_ne hr _ _, congrArg Hand.owed (update_of_ne hr _ _)⟩
      · simp only [DeltaMem.setBins, update_self, howed, binEntries_pushBin]
        exact le_rfl
    exact (Nat.add_le_add_right hentries _).trans h.count

/-- The thread takes the vertices of its bin of the index. -/
theorem Searching.take (h : K.Searching (s, γ)) (howed : (γ t).owed = none)
    (hread : ∀ u wn x, (γ t).reading = some (u, wn, x) → s.dist wn.v ≤ x + wn.w) (hdue : (γ t).due = ∅) :
    K.Searching (s.setBins t (clearBin (s.localBins t) K.index),
      update γ t ⟨{ e | e.1 ∈ binAt (s.localBins t) K.index ∧ e.2 ∈ K.g.outNeigh e.1 }, none, none⟩) := by
  let bins := update s.localBins t (clearBin (s.localBins t) K.index)
  have hbin (r : Fin T) (j : Nat) :
      binAt (bins r) j = if r = t ∧ j = K.index then [] else binAt (s.localBins r) j := by
    by_cases hr : r = t
    · subst hr
      rw [show bins r = _ from update_self .., binAt_clearBin]
      simp
    · rw [show bins r = _ from update_of_ne hr _ _, if_neg fun hand => hr hand.1]
  refine { h with
    sound := h.sound.of_dist rfl
    bins := fun r j hne => ?_
    own := fun r u hu => ?_
    cover := fun y wy hwy => ?_
    due := h.due_update fun e he => he.2
    count := ?_ }
  · change binAt (bins r) j ≠ [] at hne
    rw [hbin] at hne
    split at hne
    · exact absurd rfl hne
    · exact h.bins r j hne
  · change u ∈ binAt (bins r) K.index at hu
    rw [hbin] at hu
    split at hu
    · cases hu
    · exact h.own r u hu
  · show s.dist wy.v ≤ s.dist y + wy.w ∨ ∃ r, y ∈ binAt (bins r) (binOf K.delta (s.dist y)) ∨
      Hand.Covers (update γ t _ r) y wy (s.dist y)
    rcases h.cover y wy hwy with hrelaxed | ⟨r, hold | hcovers⟩
    · exact .inl hrelaxed
    · by_cases htaken : r = t ∧ binOf K.delta (s.dist y) = K.index
      · obtain ⟨rfl, hindex⟩ := htaken
        refine .inr ⟨r, .inr ?_⟩
        rw [update_self]
        exact .inl ⟨hindex ▸ hold, hwy⟩
      · refine .inr ⟨r, .inl ?_⟩
        rwa [hbin, if_neg htaken]
    · by_cases hr : r = t
      · subst hr
        rcases hcovers with hdue' | hreading | howed'
        · rw [hdue] at hdue'
          exact absurd hdue' (Set.notMem_empty _)
        · exact .inl (hread y wy _ hreading)
        · rw [howed] at howed'
          cases howed'
      · refine .inr ⟨r, .inr ?_⟩
        rwa [update_of_ne hr]
  · have hentries : allEntries (s.setBins t (clearBin (s.localBins t) K.index),
        update γ t ⟨{ e | e.1 ∈ binAt (s.localBins t) K.index ∧ e.2 ∈ K.g.outNeigh e.1 }, none, none⟩) + 0 ≤
        allEntries (s, γ) + 0 := by
      apply allEntries_le (t := t)
      · intro r hr
        exact ⟨update_of_ne hr _ _, congrArg Hand.owed (update_of_ne hr _ _)⟩
      · have hclear := binEntries_clearBin (s.localBins t) K.index
        simp only [DeltaMem.setBins, update_self, howed]
        omega
    exact (Nat.add_le_add_right hentries _).trans h.count

/-- A vote for the index of a bin. -/
theorem Searching.vote (h : K.Searching (s, γ)) {j : Nat} (hj : K.Voted s j) :
    K.Searching (s.setIndex K.next (min (s.sharedIndexes K.next) j), γ) := by
  refine { h with sound := h.sound.of_dist rfl, index := ?_, voted := ?_ }
  · exact (update_of_ne K.ne _ _).trans h.index
  · show K.Voted s (update s.sharedIndexes K.next _ K.next)
    rw [update_self]
    rcases min_choice (s.sharedIndexes K.next) j with heq | heq
    · rw [heq]
      exact h.voted
    · rwa [heq]

end Turn

end Gapbs
