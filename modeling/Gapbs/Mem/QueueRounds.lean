import Gapbs.Conc.Throughout
import Gapbs.Mem.SlidingQueue

/-!
# Buffers of one queue, from slide to slide

Any number of `QueueBuffer`s on one `SlidingQueue`.  In every round the buffers are pushed to and
flushed concurrently, each by a thread of its own, and after the round the window is slid.  The buffers
live on: what has not been flushed when the window is slid stays in them for the next round.
-/

namespace Gapbs

open Conc Function

variable {α : Type} {capacity T : Nat}

namespace QueueBuffer

/-- A call of a member function of the buffer. -/
inductive Call (α : Type)
  | pushBack (toAdd : α)
  | flush

/-- The calls on a buffer that holds `localQueue`; it returns the contents in the end. -/
def run (localSize : Nat) (calls : List (Call α)) (localQueue : List α) :
    Prog (SlidingQueue α capacity) (List α) :=
  .forEach calls localQueue fun call localQueue => do
    match call with
    | .pushBack toAdd => pushBack localSize localQueue toAdd
    | .flush =>
      flush localQueue
      return []

/-- One round after the other, each with its own calls on each of the buffers. -/
def rounds (localSize : Fin T → Nat) (calls : List (Fin T → List (Call α))) (buffers : Fin T → List α) :
    Prog (SlidingQueue α capacity) (Fin T → List α) :=
  .forEach calls buffers fun calls buffers => do
    let buffers ← .fork fun t => run (localSize t) (calls t) (buffers t)
    .store SlidingQueue.slideWindow
    return buffers

/-! ## What the calls on one buffer do -/

/-- The elements that are pushed. -/
def pushes (calls : List (Call α)) : List α :=
  calls.filterMap fun
    | .pushBack toAdd => some toAdd
    | .flush => none

/-- What has been flushed, one list for each flush, and what is in the buffer. -/
structure Buffered (α : Type) where
  flushes : List (List α)
  buffer : List α

/-- A push into a full buffer flushes it first. -/
def Buffered.call (localSize : Nat) (b : Buffered α) : Call α → Buffered α
  | .pushBack toAdd =>
    if b.buffer.length = localSize then ⟨b.flushes ++ [b.buffer], [toAdd]⟩
    else ⟨b.flushes, b.buffer ++ [toAdd]⟩
  | .flush => ⟨b.flushes ++ [b.buffer], []⟩

def buffered (localSize : Nat) (calls : List (Call α)) (localQueue : List α) : Buffered α :=
  calls.foldl (Buffered.call localSize) ⟨[], localQueue⟩

theorem buffered_concat (localSize : Nat) (calls : List (Call α)) (call : Call α) (localQueue : List α) :
    buffered localSize (calls ++ [call]) localQueue =
      (buffered localSize calls localQueue).call localSize call := by
  rw [buffered, List.foldl_append]
  rfl

/-- The contents of the buffers after some rounds. -/
def buffersAfter (localSize : Fin T → Nat) (calls : List (Fin T → List (Call α)))
    (buffers : Fin T → List α) : Fin T → List α :=
  calls.foldl (fun buffers calls t => (buffered (localSize t) (calls t) (buffers t)).buffer) buffers

theorem buffersAfter_concat (localSize : Fin T → Nat) (before : List (Fin T → List (Call α)))
    (calls : Fin T → List (Call α)) (buffers : Fin T → List α) :
    buffersAfter localSize (before ++ [calls]) buffers = fun t =>
      (buffered (localSize t) (calls t) (buffersAfter localSize before buffers t)).buffer := by
  rw [buffersAfter, List.foldl_append]
  rfl

/-- The number of all pushes. -/
def totalPushes (calls : List (Fin T → List (Call α))) : Nat :=
  (calls.map fun calls => ∑ t, (pushes (calls t)).length).sum

/-! ## The flushes of a round -/

/-- The ghost state with the flushes of the round, in the order in which they have claimed their
slots. -/
abbrev FlushLog (T : Nat) (α : Type) : Type := Ghost T α × List (Fin T × List α)

/-- The ghost state without them. -/
def view (σ : SlidingQueue α capacity × FlushLog T α) : SlidingQueue α capacity × Ghost T α :=
  (σ.1, σ.2.1)

/-- What a thread does in a round: for every flush it claims slots for the whole buffer at once. -/
structure RoundStep (base : Nat) (t : Fin T) (σ τ : SlidingQueue α capacity × FlushLog T α) : Prop where
  queue : QueueStep base t (view σ) (view τ)
  pushed : τ.2.1.pushed = σ.2.1.pushed
  flushes : ∃ own : List (List α), τ.2.2 = σ.2.2 ++ own.map (fun l => (t, l)) ∧
    τ.2.1.log = σ.2.1.log ++ own.flatten.map fun x => (t, x)

/-- What a thread knows: what it has flushed in this round and what is left to flush. -/
structure Known (base : Nat) (t : Fin T) (rest : List α) (flushes : List (List α))
    (σ : SlidingQueue α capacity × FlushLog T α) : Prop where
  pending : Pending base t rest (view σ)
  flushes : claims t σ.2.2 = flushes

theorem stable_view {base : Nat} {t : Fin T} {P : SlidingQueue α capacity × Ghost T α → Prop}
    (h : Stable (Rely (QueueStep base) t) P) : Stable (Rely (RoundStep base) t) fun σ => P (view σ) :=
  fun σ τ hσ ⟨u, hu, hstep⟩ => h (view σ) (view τ) hσ ⟨u, hu, hstep.queue⟩

theorem stable_flushes (base : Nat) (t : Fin T) (flushes : List (List α)) :
    Stable (Rely (@RoundStep α capacity T base) t) fun σ => claims t σ.2.2 = flushes := by
  rintro σ τ hσ ⟨u, hu, hstep⟩
  obtain ⟨own, hown, -⟩ := hstep.flushes
  rw [hown, claims_append, claims_other hu, List.append_nil, hσ]

theorem Known.stable (base : Nat) (t : Fin T) (rest : List α) (flushes : List (List α)) :
    Stable (Rely (@RoundStep α capacity T base) t) (Known base t rest flushes) :=
  fun σ τ hσ hR => ⟨stable_view (Owed.stable base t _ _ _) σ τ hσ.pending hR,
    stable_flushes base t flushes σ τ hσ.flushes hR⟩

theorem flush_known {base : Nat} {t : Fin T} {localQueue rest : List α} {flushes : List (List α)}
    {σ : SlidingQueue α capacity × FlushLog T α} (h : Known base t (localQueue ++ rest) flushes σ) :
    WP (Rely (RoundStep base) t) (RoundStep base t)
      (fun _ τ => Known base t rest (flushes ++ [localQueue]) τ) (flush localQueue) σ := by
  let Midway (start j : Nat) (τ : SlidingQueue α capacity × FlushLog T α) : Prop :=
    Copying base t localQueue rest start j (view τ) ∧ claims t τ.2.2 = flushes ++ [localQueue]
  have hmidway (start j : Nat) : Stable (Rely (RoundStep base) t) (Midway start j) :=
    (stable_view (Copying.stable base t localQueue rest start j)).and (stable_flushes base t _)
  apply flush_wp_of Midway (Known.stable base t _ _) hmidway (Known.stable base t _ _) _ _
    (fun _ _ hτ => ⟨hτ.1.done, hτ.2⟩) h
  · -- the claim of the slots: the whole buffer is logged as one flush
    rintro q ⟨γ, gs⟩ ⟨hpending, hflushes⟩
    have hgrows : claims t (gs ++ [(t, localQueue)]) = flushes ++ [localQueue] := by
      rw [claims_append, show claims t gs = flushes from hflushes]
      exact congrArg (flushes ++ ·) (claims_own t [localQueue])
    refine ⟨(_, gs ++ [(t, localQueue)]), ⟨(claim_step hpending).1, rfl, [localQueue], rfl, ?_⟩,
      copying_start hpending, hgrows⟩
    rw [List.flatten_singleton]
  · -- the copy of one element into a slot that has been claimed: the log stays as it is
    rintro start j x q ⟨γ, gs⟩ hx ⟨hcopy, hflushes⟩
    obtain ⟨q', hput, hstep, hnext⟩ := hcopy.copy hx
    refine ⟨q', (γ, gs), hput, ⟨hstep, rfl, [], by simp, by simp⟩, hnext, hflushes⟩

theorem run_known {base localSize : Nat} (hsize : 0 < localSize) {t : Fin T} {calls : List (Call α)}
    {localQueue : List α} (hle : localQueue.length ≤ localSize)
    {σ : SlidingQueue α capacity × FlushLog T α} (h : Known base t (localQueue ++ pushes calls) [] σ) :
    WP (Rely (RoundStep base) t) (RoundStep base t)
      (fun l τ => l = (buffered localSize calls localQueue).buffer ∧ l.length ≤ localSize ∧
        Known base t l (buffered localSize calls localQueue).flushes τ)
      (run localSize calls localQueue) σ := by
  let Inv (pre : List (Call α)) (l : List α) (τ : SlidingQueue α capacity × FlushLog T α) : Prop :=
    l = (buffered localSize pre localQueue).buffer ∧ l.length ≤ localSize ∧
      ∀ post, calls = pre ++ post →
        Known base t (l ++ pushes post) (buffered localSize pre localQueue).flushes τ
  have hstable (pre : List (Call α)) (l : List α) : Stable (Rely (RoundStep base) t) (Inv pre l) :=
    fun τ υ hτ hR => ⟨hτ.1, hτ.2.1, fun post hpost => Known.stable base t _ _ τ υ (hτ.2.2 post hpost) hR⟩
  have hstart : Inv [] localQueue σ := by
    refine ⟨rfl, hle, ?_⟩
    rintro post rfl
    exact h
  apply (WP.forEach Inv hstart hstable ?_).mono
  · rintro l τ ⟨hl, hlen, hτ⟩
    have hdone := hτ [] (by simp)
    rw [pushes, List.filterMap_nil, List.append_nil] at hdone
    exact ⟨hl, hlen, hdone⟩
  · rintro pre call post l τ hsplit ⟨rfl, hlen, hτ⟩
    have hknown := hτ (call :: post) hsplit
    -- the calls that are left after this one
    have hnext {l' : List α} {flushes : List (List α)} {υ : SlidingQueue α capacity × FlushLog T α}
        (hcall : (buffered localSize pre localQueue).call localSize call = ⟨flushes, l'⟩)
        (hlen' : l'.length ≤ localSize) (hυ : Known base t (l' ++ pushes post) flushes υ) :
        Inv (pre ++ [call]) l' υ := by
      refine ⟨?_, hlen', fun post' hpost' => ?_⟩
      · rw [buffered_concat, hcall]
      · have hpost : calls = (pre ++ [call]) ++ post := by simp [hsplit]
        obtain rfl := List.append_cancel_left (hpost.symm.trans hpost')
        rwa [buffered_concat, hcall]
    cases call with
    | flush =>
      apply WP.bind
      apply (flush_known hknown).mono
      exact fun _ υ hυ => WP.ret (hnext rfl (Nat.zero_le _) hυ) (hstable _ _)
    | pushBack toAdd =>
      show WP _ _ _ (pushBack localSize _ toAdd) τ
      rcases hlen.eq_or_lt with hfull | hlt
      · -- the full buffer is flushed before the element goes in
        rw [pushBack_of_full hsize hfull]
        apply WP.bind
        apply (flush_known hknown).mono
        exact fun _ υ hυ => WP.ret (hnext (if_pos hfull) hsize hυ) (hstable _ _)
      · rw [pushBack_of_room hlt]
        refine WP.ret (hnext (if_neg hlt.ne) ?_ ?_) (hstable _ _)
        · rw [List.length_append, List.length_singleton]
          exact hlt
        · rw [List.append_assoc]
          exact hknown

/-! ## One round -/

/-- The window, and all that stands before it, stays as it is. -/
structure KeepsWindow (q q' : SlidingQueue α capacity) : Prop where
  start : q'.sharedOutStart = q.sharedOutStart
  stop : q'.sharedOutEnd = q.sharedOutEnd
  slots : ∀ k, k < q.sharedOutEnd → q'.shared k = q.shared k

/-- What holds in the middle of a round that has started with the queue `q₀`. -/
structure Midround (q₀ : SlidingQueue α capacity) (pushed : Fin T → List α)
    (σ : SlidingQueue α capacity × FlushLog T α) : Prop where
  logged : Logged q₀.sharedIn (view σ)
  kept : Kept q₀.sharedIn q₀ σ.1
  pushed : σ.2.1.pushed = pushed
  flushes : σ.2.1.log = σ.2.2.flatMap fun e => e.2.map fun x => (e.1, x)

theorem RoundStep.midround {q₀ : SlidingQueue α capacity} {pushed : Fin T → List α} {t : Fin T}
    {σ τ : SlidingQueue α capacity × FlushLog T α} (h : RoundStep q₀.sharedIn t σ τ)
    (hσ : Midround q₀ pushed σ) : Midround q₀ pushed τ := by
  refine ⟨h.queue.logged hσ.logged, hσ.kept.trans h.queue.kept, h.pushed.trans hσ.pushed, ?_⟩
  obtain ⟨own, hown, hlog⟩ := h.flushes
  rw [hlog, hown, hσ.flushes, List.flatMap_append, List.flatMap_map, List.map_flatten]
  rfl

/-- What a round leaves behind the window: the flushes one after the other, and those of each buffer in
order.  When all buffers are flushed, these are the elements that they held before the round and those
that have been pushed in it. -/
structure RoundResult (localSize : Fin T → Nat) (calls : Fin T → List (Call α)) (buffers : Fin T → List α)
    (q : SlidingQueue α capacity) (flushes : List (Fin T × List α)) (q' : SlidingQueue α capacity) :
    Prop where
  kept : Kept q.sharedIn q q'
  sharedIn : q'.sharedIn = q.sharedIn + (flushes.flatMap Prod.snd).length
  room : q'.sharedIn ≤ capacity
  slots : ∀ k x, (flushes.flatMap Prod.snd)[k]? = some x → q'.shared (q.sharedIn + k) = some x
  flushed : ∀ t, claims t flushes = (buffered (localSize t) (calls t) (buffers t)).flushes
  count : (flushes.flatMap Prod.snd).length +
      ∑ t, (buffered (localSize t) (calls t) (buffers t)).buffer.length =
    ∑ t, (buffers t).length + ∑ t, (pushes (calls t)).length
  perm : (∀ t, (buffered (localSize t) (calls t) (buffers t)).buffer = []) →
    (flushes.flatMap Prod.snd).Perm (List.ofFn fun t => buffers t ++ pushes (calls t)).flatten

theorem map_snd_log {q₀ : SlidingQueue α capacity} {pushed : Fin T → List α}
    {σ : SlidingQueue α capacity × FlushLog T α} (h : Midround q₀ pushed σ) :
    σ.2.1.log.map Prod.snd = σ.2.2.flatMap Prod.snd := by
  rw [h.flushes, List.map_flatMap]
  congr 1
  funext e
  rw [List.map_map]
  exact List.map_id _

variable {localSize : Fin T → Nat} {calls : Fin T → List (Call α)} {buffers : Fin T → List α}
  {q q' : SlidingQueue α capacity}

theorem roundResult_of_known {γ : FlushLog T α}
    (hmid : Midround q (fun t => buffers t ++ pushes (calls t)) (q', γ))
    (hknown : ∀ t, Known q.sharedIn t (buffered (localSize t) (calls t) (buffers t)).buffer
      (buffered (localSize t) (calls t) (buffers t)).flushes (q', γ)) :
    RoundResult localSize calls buffers q γ.2 q' := by
  have hlog := map_snd_log hmid
  have hlength : γ.1.log.length = (γ.2.flatMap Prod.snd).length := by
    rw [← hlog, List.length_map]
  have hpushed (t : Fin T) : claims t γ.1.log ++ (buffered (localSize t) (calls t) (buffers t)).buffer =
      buffers t ++ pushes (calls t) :=
    (hknown t).pending.pushed.trans (congrFun hmid.pushed t)
  refine ⟨hmid.kept, ?_, hmid.logged.sharedIn_le, fun k x hk => ?_, fun t => (hknown t).flushes, ?_,
    fun hempty => ?_⟩
  · rw [← hlength]
    exact hmid.logged.sharedIn
  · exact Pending.slots (fun t => (hknown t).pending) (hlog ▸ hk)
  · -- each buffer has claimed slots for some of its elements and keeps the others
    rw [← hlength, ← sum_length_claims, ← Finset.sum_add_distrib, ← Finset.sum_add_distrib]
    apply Finset.sum_congr rfl
    intro t _
    rw [← List.length_append, hpushed, List.length_append]
  · have hflushed (t : Fin T) : Pending q.sharedIn t [] (view (q', γ)) := by
      have hpending := (hknown t).pending
      rwa [hempty t] at hpending
    have hperm := perm_pushed hflushed
    rwa [show (view (q', γ)).2.pushed = _ from hmid.pushed, show (view (q', γ)).2.log.map Prod.snd = _
      from hlog] at hperm

/-- Buffers never hold more than fits into them. -/
abbrev Fits (localSize : Fin T → Nat) (buffers : Fin T → List α) : Prop :=
  ∀ t, (buffers t).length ≤ localSize t

theorem round_within (hsize : ∀ t, 0 < localSize t) (hfits : Fits localSize buffers)
    (hq : q.sharedOutEnd = q.sharedIn)
    (hroom : q.sharedIn + (∑ t, (buffers t).length + ∑ t, (pushes (calls t)).length) ≤ capacity) :
    Within KeepsWindow (.fork fun t => run (localSize t) (calls t) (buffers t)) q fun r q' =>
      (r = fun t => (buffered (localSize t) (calls t) (buffers t)).buffer) ∧ Fits localSize r ∧
        ∃ flushes, RoundResult localSize calls buffers q flushes q' := by
  let pushed (t : Fin T) : List α := buffers t ++ pushes (calls t)
  have hroom' : q.sharedIn + ∑ t, (pushed t).length ≤ capacity := by
    have hsum : ∑ t, (pushed t).length = ∑ t, (buffers t).length + ∑ t, (pushes (calls t)).length := by
      rw [← Finset.sum_add_distrib]
      exact Finset.sum_congr rfl fun t _ => List.length_append
    rwa [hsum]
  have hmid : Midround q pushed (q, ⟨[], pushed⟩, []) :=
    ⟨⟨rfl, fun _ => List.nil_prefix, hroom'⟩, .refl _ _, rfl, rfl⟩
  have hknown (t : Fin T) : Known q.sharedIn t (pushed t) [] (q, ⟨[], pushed⟩, []) :=
    ⟨pending_start rfl hroom' t, rfl⟩
  apply (Within.fork (fun _ => ⟨rfl, rfl, fun _ _ => rfl⟩) (RoundStep q.sharedIn) _ (Midround q pushed)
    (⟨[], pushed⟩, []) hmid (fun t => run_known (hsize t) (hfits t) (hknown t)) ?_).mono
  · rintro r q' ⟨γ, hmid', hthreads⟩
    obtain rfl : r = fun t => (buffered (localSize t) (calls t) (buffers t)).buffer :=
      funext fun t => (hthreads t).1
    exact ⟨rfl, fun t => (hthreads t).2.1, γ.2, roundResult_of_known hmid' fun t => (hthreads t).2.2⟩
  · -- the slots of the window are among those that were in use before the round
    intro t σ τ hσ hstep
    have hstop : σ.1.sharedOutEnd = q.sharedIn := hσ.kept.stop.trans hq
    exact ⟨hstep.midround hσ, hstep.queue.kept.start, hstep.queue.kept.stop,
      fun k hk => hstep.queue.kept.below k (hstop ▸ hk)⟩

/-- The window is slid after a round. -/
theorem RoundResult.holdsWindow {flushes : List (Fin T × List α)} (hq : q.sharedOutEnd = q.sharedIn)
    (h : RoundResult localSize calls buffers q flushes q') :
    q'.slideWindow.HoldsWindow (flushes.flatMap Prod.snd) := by
  have hstop : q'.sharedOutEnd = q.sharedIn := h.kept.stop.trans hq
  have hin := h.sharedIn
  refine ⟨?_, le_rfl, fun i x hi => ?_⟩
  · show q'.sharedIn - q'.sharedOutEnd = _
    omega
  · have hlt := (List.getElem?_eq_some_iff.mp hi).1
    have hroom := h.room
    show (if q'.sharedOutEnd + i < capacity then q'.shared (q'.sharedOutEnd + i) else none) = some x
    rw [hstop, if_pos (by omega)]
    exact h.slots i x hi

/-! ## Round after round -/

/-- What the slide after the round `calls` makes the window, when the buffers held `left` before the
round and hold `buffers` now. -/
structure NewWindow (localSize : Fin T → Nat) (left : Fin T → List α) (calls : Fin T → List (Call α))
    (flushes : List (Fin T × List α)) (buffers : Fin T → List α) (q : SlidingQueue α capacity) : Prop where
  contents : buffers = fun t => (buffered (localSize t) (calls t) (left t)).buffer
  window : q.HoldsWindow (flushes.flatMap Prod.snd)
  flushed : ∀ t, claims t flushes = (buffered (localSize t) (calls t) (left t)).flushes
  elements : (∀ t, buffers t = []) →
    (flushes.flatMap Prod.snd).Perm (List.ofFn fun t => left t ++ pushes (calls t)).flatten

/-- A step of a run: the window stays, or it is slid. -/
def WindowStep (q q' : SlidingQueue α capacity) : Prop := KeepsWindow q q' ∨ q' = q.slideWindow

theorem KeepsWindow.refl (q : SlidingQueue α capacity) : KeepsWindow q q := ⟨rfl, rfl, fun _ _ => rfl⟩

/-- Between two rounds. -/
structure Between (localSize : Fin T → Nat) (used : Nat) (before : List (Fin T → List (Call α)))
    (buffers : Fin T → List α) (q : SlidingQueue α capacity) : Prop where
  contents : buffers = buffersAfter localSize before fun _ => []
  fits : Fits localSize buffers
  slid : q.sharedOutEnd = q.sharedIn
  count : q.sharedIn + ∑ t, (buffers t).length = used + totalPushes before
  window : ∀ pre calls, before = pre ++ [calls] → ∃ flushes,
    NewWindow localSize (buffersAfter localSize pre fun _ => []) calls flushes buffers q

theorem totalPushes_concat (before : List (Fin T → List (Call α))) (calls : Fin T → List (Call α)) :
    totalPushes (before ++ [calls]) = totalPushes before + ∑ t, (pushes (calls t)).length := by
  simp [totalPushes]

theorem totalPushes_append (before after : List (Fin T → List (Call α))) :
    totalPushes (before ++ after) = totalPushes before + totalPushes after := by
  simp [totalPushes]

/-- A round and the slide after it. -/
theorem Between.round {used : Nat} {before : List (Fin T → List (Call α))}
    (hsize : ∀ t, 0 < localSize t) (h : Between localSize used before buffers q)
    (hroom : used + totalPushes (before ++ [calls]) ≤ capacity) :
    Within WindowStep (do
        let buffers ← .fork fun t => run (localSize t) (calls t) (buffers t)
        .store SlidingQueue.slideWindow
        return buffers) q (Between localSize used (before ++ [calls])) := by
  have hcount := h.count
  rw [totalPushes_concat] at hroom
  have hround := @round_within _ _ _ _ calls _ q hsize h.fits h.slid (by omega)
  apply Within.bind
  apply (WP.weaken hround (fun _ _ hR => hR) fun _ _ hG => .inl hG).mono
  rintro r ⟨q', ⟨⟩⟩ ⟨hr, hfits, flushes, hresult⟩
  -- the slide is the one step of the round that moves the window
  apply Within.store_bind (.inr rfl)
  apply Within.ret
  have hsum := hresult.count
  have hin : q'.sharedIn = _ := hresult.sharedIn
  have hafter := buffersAfter_concat localSize before calls fun _ => []
  rw [← h.contents] at hafter
  refine ⟨hr.trans hafter.symm, hfits, rfl, ?_, fun pre last hsplit => ?_⟩
  · rw [totalPushes_concat, hr]
    show q'.sharedIn + ∑ t, (buffered (localSize t) (calls t) (buffers t)).buffer.length = _
    omega
  · obtain ⟨rfl, hlast⟩ := List.append_inj' hsplit rfl
    obtain rfl := List.singleton_inj.mp hlast
    rw [← h.contents]
    refine ⟨flushes, hr, hresult.holdsWindow h.slid, hresult.flushed, fun hempty => hresult.perm ?_⟩
    exact fun t => (congrFun hr t).symm.trans (hempty t)

theorem rounds_within (hsize : ∀ t, 0 < localSize t) (hq : q.sharedOutEnd = q.sharedIn)
    {all : List (Fin T → List (Call α))} (hroom : q.sharedIn + totalPushes all ≤ capacity) :
    Within WindowStep (rounds localSize all fun _ => []) q (Between localSize q.sharedIn all) := by
  let Inv (pre : List (Fin T → List (Call α))) (buffers : Fin T → List α)
      (σ : SlidingQueue α capacity × Unit) : Prop :=
    Between localSize q.sharedIn pre buffers σ.1
  have hstart : Inv [] (fun _ => []) (q, ()) :=
    ⟨rfl, fun _ => Nat.zero_le _, hq, by simp [totalPushes], fun pre calls hsplit => by simp at hsplit⟩
  apply WP.forEach Inv hstart fun _ _ => stable_false _
  rintro pre calls post buffers ⟨q₁, ⟨⟩⟩ hsplit hinv
  have hall : all = (pre ++ [calls]) ++ post := by simp [hsplit]
  rw [hall, totalPushes_append] at hroom
  exact hinv.round hsize (by omega)

/-- The last of any number of rounds, in every interleaving: the window changes only when it is slid, and
then it is what has been flushed in the round, flush by flush; when every buffer is flushed, that are the
elements pushed since the slide before and those that had been left in the buffers by then. -/
theorem rounds_correct (localSize : Fin T → Nat) (hsize : ∀ t, 0 < localSize t)
    (q : SlidingQueue α capacity) (hq : q.sharedOutEnd = q.sharedIn)
    (before : List (Fin T → List (Call α))) (calls : Fin T → List (Call α))
    (hroom : q.sharedIn + totalPushes (before ++ [calls]) ≤ capacity) :
    ((rounds localSize (before ++ [calls]) fun _ => []).Correct q fun buffers q' => ∃ flushes,
        NewWindow localSize (buffersAfter localSize before fun _ => []) calls flushes buffers q') ∧
      Throughout False WindowStep (rounds localSize (before ++ [calls]) fun _ => []) q fun _ _ => True := by
  have hrun := rounds_within hsize hq hroom
  constructor
  · apply (Solo.correct (Within.solo hrun)).mono
    exact fun buffers q' hbetween => hbetween.window before calls rfl
  · exact (Throughout.of_within (fun q => .inl (.refl q)) hrun).mono fun _ _ _ => trivial

/-- Two buffers, one of which is not flushed before the first slide. -/
theorem rounds_correct_two :
    let before : List (Fin 2 → List (Call Nat)) :=
      [fun t => if t = 0 then [.pushBack 5, .pushBack 6] else [.pushBack 7, .flush]]
    let calls : Fin 2 → List (Call Nat) := fun t => if t = 0 then [.flush] else [.pushBack 8, .flush]
    ((rounds (fun _ => 1) (before ++ [calls]) fun _ => []).Correct (.new : SlidingQueue Nat 4)
        fun buffers q' => ∃ flushes,
          NewWindow (fun _ => 1) (buffersAfter (fun _ => 1) before fun _ => []) calls flushes buffers q') ∧
      Throughout False WindowStep (rounds (fun _ => 1) (before ++ [calls]) fun _ => [])
        (.new : SlidingQueue Nat 4) fun _ _ => True :=
  rounds_correct (fun _ => 1) (by decide) .new rfl _ _ (by decide)

/-- An element that is flushed one slide too late is in the window, but it has been pushed before. -/
theorem rounds_lateFlush :
    ¬ (rounds (fun _ : Fin 1 => 1) ([fun _ => [.pushBack 7]] ++ [fun _ => [.flush]]) fun _ => []).Correct
      (.new : SlidingQueue Nat 1) fun buffers q => (∀ t, buffers t = []) → ∃ w, q.HoldsWindow w ∧
        w.Perm (List.ofFn fun _ : Fin 1 => pushes ([.flush] : List (Call Nat))).flatten := by
  intro h
  have hrun : Within WindowStep
      (rounds (fun _ : Fin 1 => 1) ([fun _ => [.pushBack 7]] ++ [fun _ => [.flush]]) fun _ => [])
      (.new : SlidingQueue Nat 1) (Between (fun _ => 1) 0 _) :=
    rounds_within (by decide) rfl (by decide)
  obtain ⟨buffers, q, hreach⟩ := h.returns .refl
  obtain ⟨flushes, hnew⟩ := (hrun.solo.correct.result buffers q hreach).window _ _ rfl
  have hempty (t : Fin 1) : buffers t = [] := congrFun hnew.contents t
  obtain ⟨w, hw, hperm⟩ := h.result buffers q hreach hempty
  have hone : (flushes.flatMap Prod.snd).length = 1 := (hnew.elements hempty).length_eq
  have hzero : w.length = 0 := hperm.length_eq
  have hsize := hw.size.symm.trans hnew.window.size
  omega

end QueueBuffer

end Gapbs
