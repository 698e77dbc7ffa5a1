import Gapbs.Bfs.Memory

/-!
# The two forms of the frontier

`QueueToBitmap` adds the vertices of the queue's window to a bitmap, and `BitmapToQueue` appends the
vertices of a bitmap to the queue.
-/

namespace Gapbs

open Conc Function

variable {n T : Nat}

def queueToBitmap (p : Port) (T : Nat) [NeZero T] : Prog (BfsMem n) Unit := do
  let len ← .load fun s => s.queue.size
  let _ ← p.share T len fun work => .forEach work () fun i _ => do
    let u ← .loadAt fun s => s.queue.window i
    (Bitmap.setBitAtomic u).zoom BfsMem.frontLens
  return ()

/-- The loop of `BitmapToQueueWorker`; it returns the contents of the thread's buffer. -/
def pushBits (work : List (Fin n)) : Prog (BfsMem n) (List (Fin n)) :=
  .forEach work [] fun v lqueue => do
    let bit ← .load fun s => s.front.getBit v
    if bit then (QueueBuffer.pushBack QueueBuffer.defaultSize lqueue v).zoom BfsMem.queueLens
    else return lqueue

def bitmapToQueue (p : Port) (T : Nat) [NeZero T] : Prog (BfsMem n) Unit := do
  let _ ← p.share T n fun work => do
    let lqueue ← pushBits work
    (QueueBuffer.flush lqueue).zoom BfsMem.queueLens
  .store fun s => { s with queue := s.queue.slideWindow }

/-! ## From the queue to the bitmap -/

/-- What setting bits of the vertices `w` in `front` does to the memory. -/
structure AddsBits (w : List (Fin n)) (s s' : BfsMem n) : Prop where
  rest : s' = { s with front := s'.front }
  grows : Bitmap.Grows s.front s'.front
  bits : ∀ v, s'.front.getBit v = true → s.front.getBit v = true ∨ v ∈ w

theorem AddsBits.trans {w : List (Fin n)} {s s' s'' : BfsMem n} (h : AddsBits w s s')
    (h' : AddsBits w s' s'') : AddsBits w s s'' := by
  refine ⟨?_, fun x k hk => h'.grows x k (h.grows x k hk), fun v hv => ?_⟩
  · rw [h'.rest, h.rest]
  · rcases h'.bits v hv with hv | hv
    · exact h.bits v hv
    · exact .inr hv

theorem addsBits_insert {w : List (Fin n)} {u : Fin n} (hu : u ∈ w) (s : BfsMem n) :
    AddsBits w s { s with front := s.front.insert u } := by
  refine ⟨rfl, Bitmap.grows_insert _ _, fun v hv => ?_⟩
  rw [Bitmap.getBit_insert, Bool.or_eq_true, decide_eq_true_eq] at hv
  rcases hv with rfl | hv
  · exact .inr hu
  · exact .inl hv

theorem queueToBitmap_solo (p : Port) {T : Nat} [NeZero T] {s : BfsMem n} {w : List (Fin n)}
    (hw : s.queue.HoldsWindow w) :
    Solo (queueToBitmap p T) s fun _ s' => s' = { s with front := s'.front } ∧
      ∀ v, s'.front.getBit v = true ↔ s.front.getBit v = true ∨ v ∈ w := by
  apply Solo.load_bind
  rw [hw.size]
  apply Solo.bind
  apply p.share_solo
  intro sched
  have hstart : AddsBits w s s := ⟨rfl, fun _ _ hk => hk, fun v hv => .inl hv⟩
  apply (Solo.share_of_action sched (AddsBits w) (AddsBits w s)
    (fun i s' => s'.front.getBit w[i] = true) hstart (fun _ _ h hA => h.trans hA)
    (fun _ _ _ _ hi hA => hA.grows.getBit hi) ?_).mono
  · rintro _ s' ⟨hadds, hpost⟩
    apply Solo.ret
    refine ⟨hadds.rest, fun v => ⟨hadds.bits v, ?_⟩⟩
    rintro (hv | hv)
    · exact hadds.grows.getBit hv
    · obtain ⟨i, hi, rfl⟩ := List.getElem_of_mem hv
      exact hpost ⟨i, hi⟩
  · intro i s₁ hs₁
    let R (σ τ : BfsMem n × Unit) : Prop := AddsBits w σ.1 τ.1
    have hstable : Stable R fun σ => AddsBits w s σ.1 := fun _ _ hσ hR => hσ.trans hR
    apply WP.loadAt_bind (P := fun σ => AddsBits w s σ.1) hs₁ hstable
    intro s₂ _ hs₂
    refine ⟨w[i], ?_, ?_⟩
    · have hrest : s₂ = { s with front := s₂.front } := hs₂.rest
      rw [hrest]
      exact hw.window i _ (List.getElem?_eq_getElem i.isLt)
    · have hset := WP.zoom BfsMem.frontLens (.id : Lens Unit Unit) (σ := (s₂, ())) (R := R) (G := R)
        (P := fun σ => AddsBits w s σ.1) (Bitmap.setBitAtomic_wp w[i] s₂.front) hs₂ hstable ?_ ?_
      · exact hset.mono fun _ τ h => ⟨h.2, h.1⟩
      · exact fun σ τ _ hR => .inr hR.grows
      · rintro ⟨s₃, ⟨⟩⟩ ⟨b, ⟨⟩⟩ hs₃ hb
        change b = s₃.front.insert w[i] at hb
        subst hb
        have hstep : AddsBits w s₃ { s₃ with front := s₃.front.insert w[i] } :=
          addsBits_insert (List.getElem_mem i.isLt) s₃
        exact ⟨hstep, hs₃.trans hstep⟩

/-! ## From the bitmap to the queue -/

/-- A thread's view of the queue and of the ghost state that belongs to it. -/
abbrev queueView : Lens (BfsMem n × QueueBuffer.Ghost T (Fin n))
    (SlidingQueue (Fin n) n × QueueBuffer.Ghost T (Fin n)) :=
  BfsMem.queueLens.prod .id

/-- What appending elements that were determined beforehand leaves as it is. -/
structure OnlyAppends (base : Nat) (σ τ : BfsMem n × QueueBuffer.Ghost T (Fin n)) : Prop where
  rest : τ.1 = { σ.1 with queue := τ.1.queue }
  kept : QueueBuffer.Kept base σ.1.queue τ.1.queue
  pushed : τ.2.pushed = σ.2.pushed

theorem OnlyAppends.trans {base : Nat} {σ τ υ : BfsMem n × QueueBuffer.Ghost T (Fin n)}
    (h : OnlyAppends base σ τ) (h' : OnlyAppends base τ υ) : OnlyAppends base σ υ := by
  refine ⟨?_, h.kept.trans h'.kept, h'.pushed.trans h.pushed⟩
  rw [h'.rest, h.rest]

theorem OnlyAppends.front {base : Nat} {σ τ : BfsMem n × QueueBuffer.Ghost T (Fin n)}
    (h : OnlyAppends base σ τ) : τ.1.front = σ.1.front := by
  rw [h.rest]

/-- What thread `t` does in such a region. -/
def AppendStep (base : Nat) (t : Fin T) (σ τ : BfsMem n × QueueBuffer.Ghost T (Fin n)) : Prop :=
  QueueBuffer.QueueStep base t (queueView.get σ) (queueView.get τ) ∧ OnlyAppends base σ τ

/-- Operations on a queue buffer in a region whose threads only append to the queue. -/
theorem append_wp {α : Type} {base : Nat} {t : Fin T} {op : Prog (SlidingQueue (Fin n) n) α}
    {Q : α → SlidingQueue (Fin n) n × QueueBuffer.Ghost T (Fin n) → Prop}
    {ρ σ : BfsMem n × QueueBuffer.Ghost T (Fin n)}
    (h : WP (Rely (QueueBuffer.QueueStep base) t) (QueueBuffer.FlushStep base t) Q op
      (queueView.get σ)) (hσ : OnlyAppends base ρ σ) :
    WP (Rely (AppendStep base) t) (AppendStep base t)
      (fun r τ => Q r (queueView.get τ) ∧ OnlyAppends base ρ τ) (op.zoom BfsMem.queueLens) σ := by
  apply WP.zoom BfsMem.queueLens .id h hσ
  · exact fun σ τ hσ ⟨_, _, hstep⟩ => hσ.trans hstep.2
  · exact fun σ τ _ ⟨u, hu, hstep⟩ => .inr ⟨u, hu, hstep.1⟩
  · intro σ q hσ hstep
    have honly : OnlyAppends base σ (queueView.set q σ) := ⟨rfl, hstep.1.kept, hstep.2⟩
    refine ⟨⟨?_, honly⟩, hσ.trans honly⟩
    rw [queueView.get_set]
    exact hstep.1

theorem stable_pending {base : Nat} {t : Fin T} {ρ : BfsMem n × QueueBuffer.Ghost T (Fin n)}
    (l : List (Fin n)) : Stable (Rely (AppendStep base) t) fun σ =>
      QueueBuffer.Pending base t l (queueView.get σ) ∧ OnlyAppends base ρ σ := by
  intro σ τ hσ ⟨u, hu, hstep⟩
  exact ⟨QueueBuffer.Owed.stable base t l 0 0 _ _ hσ.1 ⟨u, hu, hstep.1⟩, hσ.2.trans hstep.2⟩

/-- A thread pushes the marked vertices among those it is given. -/
theorem pushBits_wp {base : Nat} {t : Fin T} {work : List (Fin n)}
    {ρ σ : BfsMem n × QueueBuffer.Ghost T (Fin n)}
    (h : QueueBuffer.Pending base t (work.filter ρ.1.front.getBit) (queueView.get σ))
    (hσ : OnlyAppends base ρ σ) :
    WP (Rely (AppendStep base) t) (AppendStep base t)
      (fun l τ => QueueBuffer.Pending base t l (queueView.get τ) ∧ OnlyAppends base ρ τ)
      (pushBits work) σ := by
  let Inv (pre l : List (Fin n)) (τ : BfsMem n × QueueBuffer.Ghost T (Fin n)) : Prop :=
    l.length ≤ QueueBuffer.defaultSize ∧ ∀ post, work = pre ++ post →
      QueueBuffer.Pending base t (l ++ post.filter ρ.1.front.getBit) (queueView.get τ) ∧
        OnlyAppends base ρ τ
  have hstable (pre l : List (Fin n)) : Stable (Rely (AppendStep base) t) (Inv pre l) :=
    fun τ υ hτ hR => ⟨hτ.1, fun post hpost => stable_pending _ τ υ (hτ.2 post hpost) hR⟩
  have hstart : Inv [] [] σ := by
    refine ⟨Nat.zero_le _, ?_⟩
    rintro post rfl
    exact ⟨h, hσ⟩
  apply (WP.forEach Inv hstart hstable ?_).mono
  · rintro l τ ⟨-, hτ⟩
    simpa using hτ [] (by simp)
  · intro pre v post l τ hsplit hτ
    have hpost : work = (pre ++ [v]) ++ post := by simp [hsplit]
    apply WP.load_bind (P := Inv pre l) hτ (hstable pre l)
    rintro s₁ γ ⟨hle, hall⟩
    obtain ⟨hpending, honly⟩ := hall (v :: post) hsplit
    have hfront : s₁.front = ρ.1.front := honly.front
    rw [hfront]
    by_cases hbit : ρ.1.front.getBit v = true
    · rw [if_pos hbit]
      rw [List.filter_cons_of_pos hbit] at hpending
      apply (append_wp (QueueBuffer.pushBack_wp (by decide) hle hpending) honly).mono
      rintro l' υ ⟨⟨hl', hle'⟩, honly'⟩
      refine ⟨hle', fun post' hpost' => ?_⟩
      obtain rfl := List.append_cancel_left (hpost.symm.trans hpost')
      exact ⟨hl', honly'⟩
    · rw [if_neg hbit]
      rw [List.filter_cons_of_neg hbit] at hpending
      refine WP.ret ⟨hle, fun post' hpost' => ?_⟩ (hstable _ _)
      obtain rfl := List.append_cancel_left (hpost.symm.trans hpost')
      exact ⟨hpending, honly⟩

/-- What has been appended to the queue: `l`, in the slots from `sharedIn` on. -/
structure Appended (l : List (Fin n)) (s s' : BfsMem n) : Prop where
  rest : s' = { s with queue := s'.queue }
  sharedIn : s'.queue.sharedIn = s.queue.sharedIn + l.length
  kept : QueueBuffer.Kept s.queue.sharedIn s.queue s'.queue
  slots : ∀ k x, l[k]? = some x → s'.queue.shared (s.queue.sharedIn + k) = some x

/-- What the threads push in `BitmapToQueue`. -/
def bitsOf {T : Nat} (sched : Schedule T n) (s : BfsMem n) (t : Fin T) : List (Fin n) :=
  (sched.work t).filter s.front.getBit

theorem perm_bitsOf {T : Nat} (sched : Schedule T n) {s : BfsMem n} {bits : List (Fin n)}
    (hbits : bits.Nodup) (hmem : ∀ v, v ∈ bits ↔ s.front.getBit v = true) :
    (List.ofFn (bitsOf sched s)).flatten.Perm bits := by
  have hflat : (List.ofFn (bitsOf sched s)).flatten =
      (List.ofFn sched.work).flatten.filter s.front.getBit := by
    rw [List.filter_flatten, List.map_ofFn]
    rfl
  have hnodup : (List.ofFn (bitsOf sched s)).flatten.Nodup := hflat ▸ sched.nodup.filter _
  rw [List.perm_ext_iff_of_nodup hnodup hbits, hflat]
  intro v
  rw [List.mem_filter, sched.exact.mem_iff, hmem]
  exact and_iff_right (List.mem_finRange v)

/-- One thread of the region of `BitmapToQueue`. -/
theorem pushBits_thread {T : Nat} (sched : Schedule T n) {s : BfsMem n} {bits : List (Fin n)}
    (hbits : bits.Nodup) (hmem : ∀ v, v ∈ bits ↔ s.front.getBit v = true)
    (hroom : s.queue.sharedIn + bits.length ≤ n) (t : Fin T) :
    WP (Rely (AppendStep s.queue.sharedIn) t) (AppendStep s.queue.sharedIn t)
      (fun _ τ => QueueBuffer.Pending s.queue.sharedIn t [] (queueView.get τ) ∧
        OnlyAppends s.queue.sharedIn (s, ⟨[], bitsOf sched s⟩) τ)
      ((pushBits (sched.work t)).bind fun lqueue => (QueueBuffer.flush lqueue).zoom BfsMem.queueLens)
      (s, ⟨[], bitsOf sched s⟩) := by
  have htotal : ∑ t, (bitsOf sched s t).length = bits.length := by
    rw [← (perm_bitsOf sched hbits hmem).length_eq, QueueBuffer.length_flatten_ofFn]
  have hpending := QueueBuffer.pending_start (q := s.queue) rfl (htotal ▸ hroom)
  apply WP.bind
  let σ : BfsMem n × QueueBuffer.Ghost T (Fin n) := (s, ⟨[], bitsOf sched s⟩)
  have hstart : OnlyAppends s.queue.sharedIn σ σ := ⟨rfl, .refl _ _, rfl⟩
  have hview : QueueBuffer.Pending s.queue.sharedIn t ((sched.work t).filter σ.1.front.getBit)
      (queueView.get σ) := hpending t
  apply (pushBits_wp hview hstart).mono
  rintro l τ ⟨hτ, honly⟩
  rw [← List.append_nil l] at hτ
  exact append_wp (QueueBuffer.flush_wp hτ) honly

/-- The region of `BitmapToQueue`. -/
theorem pushBits_solo {T : Nat} [NeZero T] (sched : Schedule T n) {s : BfsMem n} {bits : List (Fin n)}
    (hbits : bits.Nodup) (hmem : ∀ v, v ∈ bits ↔ s.front.getBit v = true)
    (hroom : s.queue.sharedIn + bits.length ≤ n) :
    Solo (.fork fun t => do
        let lqueue ← pushBits (sched.work t)
        (QueueBuffer.flush lqueue).zoom BfsMem.queueLens) s
      fun _ s' => ∃ l, l.Perm bits ∧ Appended l s s' := by
  apply (Solo.fork (AppendStep s.queue.sharedIn) _ ⟨[], bitsOf sched s⟩
    fun t => pushBits_thread sched hbits hmem hroom t).mono
  rintro _ s' ⟨γ, h⟩
  have honly := (h 0).2
  obtain ⟨l, hl, hin, -, hslots⟩ := QueueBuffer.Pending.filled fun t => (h t).1
  have hγ : γ.pushed = bitsOf sched s := honly.pushed
  change l.Perm (List.ofFn γ.pushed).flatten at hl
  rw [hγ] at hl
  exact ⟨l, hl.trans (perm_bitsOf sched hbits hmem), honly.rest, hin, honly.kept, hslots⟩

/-- `BitmapToQueue` appends the vertices of the bitmap, each once, and makes them the window. -/
theorem bitmapToQueue_solo (p : Port) {T : Nat} [NeZero T] {s : BfsMem n} {bits : List (Fin n)}
    (hbits : bits.Nodup) (hmem : ∀ v, v ∈ bits ↔ s.front.getBit v = true)
    (hroom : s.queue.sharedIn + bits.length ≤ n) :
    Solo (bitmapToQueue p T) s fun _ s' => ∃ l s₁, l.Perm bits ∧ Appended l s s₁ ∧
      s' = { s₁ with queue := s₁.queue.slideWindow } := by
  apply Solo.bind
  apply p.share_solo
  intro sched
  apply (pushBits_solo sched hbits hmem hroom).mono
  rintro _ s₁ ⟨l, hl, happ⟩
  have hslide := Solo.op (s := s₁) (f := fun s => some ((), { s with queue := s.queue.slideWindow }))
    (Q := fun _ s' => ∃ l s₁, l.Perm bits ∧ Appended l s s₁ ∧
      s' = { s₁ with queue := s₁.queue.slideWindow }) rfl ⟨l, s₁, hl, happ, rfl⟩
  exact hslide

end Gapbs
