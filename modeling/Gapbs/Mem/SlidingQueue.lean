import Mathlib.Algebra.BigOperators.Group.List.Basic
import Mathlib.Algebra.Order.BigOperators.Group.Finset
import Gapbs.Conc.Schedule

/-!
# A queue with thread-local buffers

`SlidingQueue` and `QueueBuffer` of `sliding_queue.h`.  Every thread collects elements in a buffer of
its own; a flush claims as many slots of the shared array by `fetch_and_add` and then copies the
elements one by one.  The window that is being read does not move meanwhile.
-/

namespace Gapbs

open Conc Function

variable {α : Type} {capacity T : Nat}

/-- The queue; `capacity` is the size of the array `shared`, whose slots are `none` until they are
written. -/
structure SlidingQueue (α : Type) (capacity : Nat) where
  shared : Nat → Option α
  sharedIn : Nat
  sharedOutStart : Nat
  sharedOutEnd : Nat

namespace SlidingQueue

/-- An array fresh from the allocator, after `reset`. -/
def new : SlidingQueue α capacity := ⟨fun _ => none, 0, 0, 0⟩

/-- `shared[k] = x` -/
def put (q : SlidingQueue α capacity) (k : Nat) (x : α) : Option (SlidingQueue α capacity) :=
  if k < capacity then some { q with shared := update q.shared k (some x) } else none

def pushBack (q : SlidingQueue α capacity) (x : α) : Option (SlidingQueue α capacity) :=
  (q.put q.sharedIn x).map fun q => { q with sharedIn := q.sharedIn + 1 }

def empty (q : SlidingQueue α capacity) : Bool := q.sharedOutStart = q.sharedOutEnd

def slideWindow (q : SlidingQueue α capacity) : SlidingQueue α capacity :=
  { q with sharedOutStart := q.sharedOutEnd, sharedOutEnd := q.sharedIn }

def size (q : SlidingQueue α capacity) : Nat := q.sharedOutEnd - q.sharedOutStart

/-- `*(begin() + i)`, which must have been written. -/
def window (q : SlidingQueue α capacity) (i : Nat) : Option α :=
  if q.sharedOutStart + i < capacity then q.shared (q.sharedOutStart + i) else none

end SlidingQueue

namespace QueueBuffer

/-- The default of `given_size` -/
def defaultSize : Nat := 16384

/-- `flush()` of a buffer that holds `localQueue`. -/
def flush (localQueue : List α) : Prog (SlidingQueue α capacity) Unit := do
  let copyStart ← .op fun q =>
    some (q.sharedIn, { q with sharedIn := q.sharedIn + localQueue.length })
  let _ ← .forEach localQueue copyStart fun x k => do
    .storeAt fun q => q.put k x
    return k + 1
  return ()

/-- `push_back(to_add)`, which returns the new contents of the buffer; `local_queue` is an array of
`localSize` elements. -/
def pushBack (localSize : Nat) (localQueue : List α) (toAdd : α) :
    Prog (SlidingQueue α capacity) (List α) := do
  let localQueue ← if localQueue.length = localSize then do
      flush localQueue
      pure []
    else pure localQueue
  if localQueue.length < localSize then return localQueue ++ [toAdd] else .fail

/-! ## Who has pushed what -/

/-- What the proofs keep track of: the claimed slots in order, with the thread that has claimed them
and the element it is going to copy there, and all that the threads have pushed. -/
structure Ghost (T : Nat) (α : Type) where
  log : List (Fin T × α)
  pushed : Fin T → List α

/-- The elements for which thread `t` has claimed a slot. -/
def claims (t : Fin T) (log : List (Fin T × α)) : List α := (log.filter fun e => e.1 = t).map Prod.snd

@[simp] theorem claims_append (t : Fin T) (log log' : List (Fin T × α)) :
    claims t (log ++ log') = claims t log ++ claims t log' := by
  simp [claims]

@[simp] theorem claims_own (t : Fin T) (l : List α) : claims t (l.map fun x => (t, x)) = l := by
  simp [claims, List.filter_map, Function.comp_def]

theorem claims_other {t u : Fin T} (h : u ≠ t) (l : List α) : claims t (l.map fun x => (u, x)) = [] := by
  simp [claims, List.filter_map, Function.comp_def, h]

theorem sum_length_claims (log : List (Fin T × α)) : ∑ t, (claims t log).length = log.length := by
  induction log with
  | nil => simp [claims]
  | cons e log ih =>
    have hcons (t : Fin T) : (claims t (e :: log)).length =
        (claims t log).length + if e.1 = t then 1 else 0 := by
      by_cases h : e.1 = t <;> simp [claims, h]
    rw [Finset.sum_congr rfl fun t _ => hcons t, Finset.sum_add_distrib, ih]
    simp

/-- Together the threads have claimed slots for what the log holds. -/
theorem perm_claims (log : List (Fin T × α)) :
    ((List.ofFn fun t => claims t log).flatten).Perm (log.map Prod.snd) := by
  classical
  rw [List.perm_iff_count]
  intro x
  rw [List.count_flatten, List.map_ofFn, List.sum_ofFn]
  simp only [Function.comp_apply]
  induction log with
  | nil => simp [claims]
  | cons e log ih =>
    have hcons (t : Fin T) : (claims t (e :: log)).count x =
        (claims t log).count x + if e.1 = t then (if e.2 = x then 1 else 0) else 0 := by
      by_cases h : e.1 = t
      · by_cases hx : e.2 = x <;> simp [claims, h, hx]
      · simp [claims, h]
    rw [Finset.sum_congr rfl fun t _ => hcons t, Finset.sum_add_distrib, ih, List.map_cons,
      List.count_cons]
    simp

/-- What ties the queue to the log when `base` slots were in use at the start: the claimed slots
follow them, and there is room for all that has been pushed. -/
structure Logged (base : Nat) (σ : SlidingQueue α capacity × Ghost T α) : Prop where
  sharedIn : σ.1.sharedIn = base + σ.2.log.length
  claims : ∀ t, claims t σ.2.log <+: σ.2.pushed t
  room : base + ∑ t, (σ.2.pushed t).length ≤ capacity

theorem Logged.sharedIn_le {base : Nat} {σ : SlidingQueue α capacity × Ghost T α}
    (h : Logged base σ) : σ.1.sharedIn ≤ capacity := by
  have hsum : ∑ t, (QueueBuffer.claims t σ.2.log).length ≤ ∑ t, (σ.2.pushed t).length :=
    Finset.sum_le_sum fun t _ => (h.claims t).length_le
  rw [sum_length_claims] at hsum
  have hin := h.sharedIn
  have hroom := h.room
  omega

/-- What pushes leave as it is: the window and the slots before `base`. -/
structure Kept (base : Nat) (q q' : SlidingQueue α capacity) : Prop where
  start : q'.sharedOutStart = q.sharedOutStart
  stop : q'.sharedOutEnd = q.sharedOutEnd
  below : ∀ k, k < base → q'.shared k = q.shared k

theorem Kept.refl (base : Nat) (q : SlidingQueue α capacity) : Kept base q q :=
  ⟨rfl, rfl, fun _ _ => rfl⟩

theorem Kept.trans {base : Nat} {q q' q'' : SlidingQueue α capacity} (h : Kept base q q')
    (h' : Kept base q' q'') : Kept base q q'' :=
  ⟨h'.start.trans h.start, h'.stop.trans h.stop, fun k hk => (h'.below k hk).trans (h.below k hk)⟩

/-- What thread `t` may do to the queue: claim slots at the end and write those that it has
claimed. -/
structure QueueStep (base : Nat) (t : Fin T) (σ τ : SlidingQueue α capacity × Ghost T α) : Prop where
  logged : Logged base σ → Logged base τ
  kept : Kept base σ.1 τ.1
  pushed : ∀ u, u ≠ t → τ.2.pushed u = σ.2.pushed u
  log : ∃ own : List α, τ.2.log = σ.2.log ++ own.map fun x => (t, x)
  slot : ∀ k u x, u ≠ t → σ.2.log[k]? = some (u, x) → τ.1.shared (base + k) = σ.1.shared (base + k)
  writes : ∀ k, τ.1.shared k = σ.1.shared k ∨
    ∃ m x, k = base + m ∧ τ.2.log[m]? = some (t, x) ∧ τ.1.shared k = some x

/-- What thread `t` knows: the elements `l` are still to be flushed, and all slots that it has
claimed so far are written, except perhaps for those from `lo` up to `hi`. -/
structure Owed (base : Nat) (t : Fin T) (l : List α) (lo hi : Nat)
    (σ : SlidingQueue α capacity × Ghost T α) : Prop where
  logged : Logged base σ
  pushed : claims t σ.2.log ++ l = σ.2.pushed t
  written : ∀ k x, σ.2.log[k]? = some (t, x) → ¬ (lo ≤ base + k ∧ base + k < hi) →
    σ.1.shared (base + k) = some x

/-- All claimed slots are written. -/
abbrev Pending (base : Nat) (t : Fin T) (l : List α) : SlidingQueue α capacity × Ghost T α → Prop :=
  Owed base t l 0 0

theorem QueueStep.log_of_ne {base : Nat} {t u : Fin T} (hut : u ≠ t)
    {σ τ : SlidingQueue α capacity × Ghost T α} (h : QueueStep base u σ τ) {k : Nat} {x : α} :
    τ.2.log[k]? = some (t, x) ↔ σ.2.log[k]? = some (t, x) := by
  obtain ⟨own, hown⟩ := h.log
  rw [hown]
  rcases lt_or_ge k σ.2.log.length with hk | hk
  · rw [List.getElem?_append_left hk]
  · rw [List.getElem?_append_right hk, List.getElem?_eq_none hk, List.getElem?_map]
    cases own[k - σ.2.log.length]? <;> simp [hut]

theorem Owed.stable (base : Nat) (t : Fin T) (l : List α) (lo hi : Nat) :
    Stable (Rely (@QueueStep α capacity T base) t) (Owed base t l lo hi) := by
  apply Stable.rely
  intro u hut σ τ hσ h
  obtain ⟨own, hown⟩ := h.log
  refine ⟨h.logged hσ.logged, ?_, fun k x hk hout => ?_⟩
  · rw [hown, claims_append, claims_other hut, List.append_nil, h.pushed t hut.symm]
    exact hσ.pushed
  · have hk' := (h.log_of_ne hut).mp hk
    rw [h.slot k t x hut.symm hk']
    exact hσ.written k x hk' hout

/-- `localQueue` has been given the slots from the `m`-th claimed one on. -/
def Granted (t : Fin T) (localQueue : List α) (m : Nat) (log : List (Fin T × α)) : Prop :=
  ∀ j x, localQueue[j]? = some x → log[m + j]? = some (t, x)

theorem granted_append (t : Fin T) (localQueue : List α) (log : List (Fin T × α)) :
    Granted t localQueue log.length (log ++ localQueue.map fun x => (t, x)) := by
  intro j x hj
  rw [List.getElem?_append_right (by omega), Nat.add_sub_cancel_left, List.getElem?_map, hj]
  rfl

theorem Granted.append {t : Fin T} {localQueue : List α} {m : Nat} {log : List (Fin T × α)}
    (h : Granted t localQueue m log) (own : List (Fin T × α)) :
    Granted t localQueue m (log ++ own) := by
  intro j x hj
  have hlog := h j x hj
  rw [List.getElem?_append_left (List.getElem?_eq_some_iff.mp hlog).1, hlog]

theorem Granted.stable (base : Nat) (t : Fin T) (localQueue : List α) (m : Nat) :
    Stable (Rely (@QueueStep α capacity T base) t)
      fun σ => Granted t localQueue m σ.2.log := by
  apply Stable.rely
  intro u _ σ τ hσ h
  obtain ⟨own, hown⟩ := h.log
  rw [hown]
  exact hσ.append _

/-- The `fetch_and_add` of a flush. -/
theorem claim_step {base : Nat} {t : Fin T} {localQueue rest : List α}
    {q : SlidingQueue α capacity} {γ : Ghost T α} (h : Pending base t (localQueue ++ rest) (q, γ)) :
    let q' := { q with sharedIn := q.sharedIn + localQueue.length }
    let γ' := { γ with log := γ.log ++ localQueue.map fun x => (t, x) }
    QueueStep base t (q, γ) (q', γ') ∧
      Owed base t rest q.sharedIn (q.sharedIn + localQueue.length) (q', γ') := by
  intro q' γ'
  have hin : q.sharedIn = base + γ.log.length := h.logged.sharedIn
  have hpushed : claims t γ.log ++ (localQueue ++ rest) = γ.pushed t := h.pushed
  have hlogged : Logged base (q', γ') := by
    refine ⟨?_, fun u => ?_, h.logged.room⟩
    · show q.sharedIn + localQueue.length = base + (γ.log ++ localQueue.map _).length
      rw [hin, List.length_append, List.length_map]
      omega
    · show claims u (γ.log ++ localQueue.map _) <+: γ.pushed u
      rw [claims_append]
      by_cases hu : u = t
      · subst hu
        rw [claims_own, ← hpushed, ← List.append_assoc]
        exact List.prefix_append _ _
      · rw [claims_other (Ne.symm hu), List.append_nil]
        exact h.logged.claims u
  refine ⟨⟨fun _ => hlogged, ⟨rfl, rfl, fun _ _ => rfl⟩, fun _ _ => rfl, ⟨localQueue, rfl⟩,
    fun _ _ _ _ _ => rfl, fun _ => .inl rfl⟩, hlogged, ?_, fun k x hk hout => ?_⟩
  · show claims t (γ.log ++ localQueue.map _) ++ rest = γ.pushed t
    rw [claims_append, claims_own, List.append_assoc]
    exact hpushed
  · -- a slot outside the new range has been claimed before
    change (γ.log ++ localQueue.map _)[k]? = some (t, x) at hk
    have hlt := (List.getElem?_eq_some_iff.mp hk).1
    rw [List.length_append, List.length_map] at hlt
    have hold : k < γ.log.length := by omega
    rw [List.getElem?_append_left hold] at hk
    exact h.written k x hk (by omega)

/-- One element is copied. -/
theorem copy_step {base : Nat} {t : Fin T} {localQueue rest : List α} {m j : Nat} {x : α}
    {q : SlidingQueue α capacity} {γ : Ghost T α} (hgrant : Granted t localQueue m γ.log)
    (hx : localQueue[j]? = some x)
    (h : Owed base t rest (base + m + j) (base + m + localQueue.length) (q, γ)) :
    ∃ q', q.put (base + m + j) x = some q' ∧ QueueStep base t (q, γ) (q', γ) ∧
      Owed base t rest (base + m + (j + 1)) (base + m + localQueue.length) (q', γ) := by
  have hslot := hgrant j x hx
  have hlen := (List.getElem?_eq_some_iff.mp hslot).1
  have hroom := h.logged.sharedIn_le
  have hin := h.logged.sharedIn
  have hcap : base + m + j < capacity := by
    change q.sharedIn ≤ capacity at hroom
    change q.sharedIn = base + γ.log.length at hin
    omega
  have hlogged : Logged base ({ q with shared := update q.shared (base + m + j) (some x) }, γ) :=
    ⟨h.logged.sharedIn, h.logged.claims, h.logged.room⟩
  have hother (k : Nat) (hk : k ≠ m + j) :
      update q.shared (base + m + j) (some x) (base + k) = q.shared (base + k) :=
    update_of_ne (by omega) _ _
  refine ⟨_, if_pos hcap, ⟨fun _ => hlogged, ⟨rfl, rfl, fun k hk => ?_⟩, fun _ _ => rfl,
    ⟨[], by simp⟩, fun k u y hut hk => ?_, fun k => ?_⟩, hlogged, h.pushed, fun k y hk hout => ?_⟩
  · exact update_of_ne (by omega) _ _
  · -- the slot belongs to another thread
    apply hother
    rintro rfl
    rw [hslot] at hk
    exact hut (congrArg Prod.fst (Option.some.inj hk)).symm
  · by_cases hkj : k = base + m + j
    · subst hkj
      exact .inr ⟨m + j, x, Nat.add_assoc .., hslot, update_self ..⟩
    · exact .inl (update_of_ne hkj _ _)
  · by_cases hkj : k = m + j
    · subst hkj
      change γ.log[m + j]? = some (t, y) at hk
      have hxy : x = y := congrArg Prod.snd (Option.some.inj (hslot.symm.trans hk))
      show update q.shared (base + m + j) (some x) (base + (m + j)) = some y
      rw [← Nat.add_assoc, update_self, hxy]
    · show update q.shared (base + m + j) (some x) (base + k) = some y
      rw [hother k hkj]
      exact h.written k y hk (by omega)

/-- The shape of a flush: one step that claims slots, and one for each element that is copied. -/
theorem flush_wp_of {Γ : Type} {R G : SlidingQueue α capacity × Γ → SlidingQueue α capacity × Γ → Prop}
    {localQueue : List α} {Pre Post : SlidingQueue α capacity × Γ → Prop}
    (Copying : Nat → Nat → SlidingQueue α capacity × Γ → Prop) (hpre : Stable R Pre)
    (hcopying : ∀ start j, Stable R (Copying start j)) (hpost : Stable R Post)
    (claim : ∀ q γ, Pre (q, γ) → ∃ γ',
      G (q, γ) ({ q with sharedIn := q.sharedIn + localQueue.length }, γ') ∧
        Copying q.sharedIn 0 ({ q with sharedIn := q.sharedIn + localQueue.length }, γ'))
    (copy : ∀ start j x q γ, localQueue[j]? = some x → Copying start j (q, γ) →
      ∃ q' γ', q.put (start + j) x = some q' ∧ G (q, γ) (q', γ') ∧ Copying start (j + 1) (q', γ'))
    (done : ∀ start σ, Copying start localQueue.length σ → Post σ)
    {σ : SlidingQueue α capacity × Γ} (hσ : Pre σ) : WP R G (fun _ τ => Post τ) (flush localQueue) σ := by
  apply WP.op_bind hσ hpre
  intro q γ hq
  obtain ⟨γ', hG, hcopy⟩ := claim q γ hq
  refine ⟨_, _, _, rfl, .inr hG, ?_⟩
  let Inv (pre : List α) (k : Nat) (τ : SlidingQueue α capacity × Γ) : Prop :=
    k = q.sharedIn + pre.length ∧ Copying q.sharedIn pre.length τ
  have hstable (pre : List α) (k : Nat) : Stable R (Inv pre k) :=
    fun σ τ hσ hR => ⟨hσ.1, hcopying _ _ σ τ hσ.2 hR⟩
  apply WP.bind
  apply (WP.forEach Inv ⟨rfl, hcopy⟩ hstable ?_).mono
  · -- nothing is left to copy
    exact fun k τ hτ => WP.ret (done _ τ hτ.2) hpost
  · rintro pre x post k τ hsplit ⟨rfl, hτ⟩
    have hx : localQueue[pre.length]? = some x := by simp [hsplit]
    apply WP.storeAt_bind (P := Inv pre (q.sharedIn + pre.length)) ⟨rfl, hτ⟩ (hstable _ _)
    rintro q₁ γ₁ ⟨-, hq₁⟩
    obtain ⟨q₂, γ₂, hput, hG, hnext⟩ := copy _ _ x q₁ γ₁ hx hq₁
    have hlen : (pre ++ [x]).length = pre.length + 1 := by rw [List.length_append, List.length_singleton]
    refine ⟨q₂, γ₂, hput, .inr hG, WP.ret ⟨?_, hlen ▸ hnext⟩ (hstable _ _)⟩
    rw [hlen]
    rfl

/-- In the middle of a flush: the slots from `start` on are for the buffer, and `j` of them are
written. -/
def Copying (base : Nat) (t : Fin T) (localQueue rest : List α) (start j : Nat)
    (σ : SlidingQueue α capacity × Ghost T α) : Prop :=
  ∃ m, start = base + m ∧ Granted t localQueue m σ.2.log ∧
    Owed base t rest (start + j) (start + localQueue.length) σ

theorem Copying.stable (base : Nat) (t : Fin T) (localQueue rest : List α) (start j : Nat) :
    Stable (Rely (@QueueStep α capacity T base) t) (Copying base t localQueue rest start j) := by
  rintro σ τ ⟨m, hm, hgrant, howed⟩ hR
  exact ⟨m, hm, Granted.stable base t _ _ σ τ hgrant hR, Owed.stable base t _ _ _ σ τ howed hR⟩

theorem copying_start {base : Nat} {t : Fin T} {localQueue rest : List α} {q : SlidingQueue α capacity}
    {γ : Ghost T α} (h : Pending base t (localQueue ++ rest) (q, γ)) :
    let q' : SlidingQueue α capacity := { q with sharedIn := q.sharedIn + localQueue.length }
    Copying base t localQueue rest q.sharedIn 0
      (q', { γ with log := γ.log ++ localQueue.map fun x => (t, x) }) :=
  ⟨γ.log.length, h.logged.sharedIn, granted_append t localQueue γ.log, (claim_step h).2⟩

theorem Copying.copy {base : Nat} {t : Fin T} {localQueue rest : List α} {start j : Nat} {x : α}
    {q : SlidingQueue α capacity} {γ : Ghost T α} (hx : localQueue[j]? = some x)
    (h : Copying base t localQueue rest start j (q, γ)) :
    ∃ q', q.put (start + j) x = some q' ∧ QueueStep base t (q, γ) (q', γ) ∧
      Copying base t localQueue rest start (j + 1) (q', γ) := by
  obtain ⟨m, rfl, hgrant, howed⟩ := h
  obtain ⟨q', hput, hstep, howed'⟩ := copy_step hgrant hx howed
  exact ⟨q', hput, hstep, m, rfl, hgrant, howed'⟩

theorem Copying.done {base : Nat} {t : Fin T} {localQueue rest : List α} {start : Nat}
    {σ : SlidingQueue α capacity × Ghost T α}
    (h : Copying base t localQueue rest start localQueue.length σ) : Pending base t rest σ := by
  obtain ⟨m, -, -, howed⟩ := h
  refine ⟨howed.logged, howed.pushed, fun k x hk _ => howed.written k x hk ?_⟩
  omega

/-- What a flush and a `push_back` may do: the list of what has been pushed is kept by the caller. -/
def FlushStep (base : Nat) (t : Fin T) (σ τ : SlidingQueue α capacity × Ghost T α) : Prop :=
  QueueStep base t σ τ ∧ τ.2.pushed = σ.2.pushed

/-- A flush claims slots for the whole buffer and fills them, whatever the other threads push in the
meantime. -/
theorem flush_wp {base : Nat} {t : Fin T} {localQueue rest : List α}
    {σ : SlidingQueue α capacity × Ghost T α} (h : Pending base t (localQueue ++ rest) σ) :
    WP (Rely (QueueStep base) t) (FlushStep base t) (fun _ τ => Pending base t rest τ)
      (flush localQueue) σ := by
  apply flush_wp_of (Copying base t localQueue rest) (Owed.stable base t _ _ _)
    (Copying.stable base t _ _) (Owed.stable base t _ _ _) _ _ (fun _ _ hτ => hτ.done) h
  · exact fun q γ hq => ⟨_, ⟨(claim_step hq).1, rfl⟩, copying_start hq⟩
  · intro start j x q γ hx hq
    obtain ⟨q', hput, hstep, hnext⟩ := hq.copy hx
    exact ⟨q', γ, hput, ⟨hstep, rfl⟩, hnext⟩

theorem pushBack_of_full {localSize : Nat} (hsize : 0 < localSize) {localQueue : List α}
    (h : localQueue.length = localSize) (toAdd : α) :
    (pushBack localSize localQueue toAdd : Prog (SlidingQueue α capacity) (List α)) =
      (flush localQueue).bind fun _ => .ret [toAdd] := by
  unfold pushBack
  rw [if_pos h, Prog.bind_eq, Prog.bind_eq]
  congr 1
  funext _
  show (if ([] : List α).length < localSize then _ else _) = _
  rw [if_pos (by simpa using hsize)]
  rfl

theorem pushBack_of_room {localSize : Nat} {localQueue : List α} (h : localQueue.length < localSize)
    (toAdd : α) : (pushBack localSize localQueue toAdd : Prog (SlidingQueue α capacity) (List α)) =
      .ret (localQueue ++ [toAdd]) := by
  unfold pushBack
  rw [if_neg h.ne]
  show (if localQueue.length < localSize then _ else _) = _
  rw [if_pos h]
  rfl

theorem pushBack_wp {base localSize : Nat} (hsize : 0 < localSize) {t : Fin T}
    {localQueue rest : List α} {toAdd : α} (hle : localQueue.length ≤ localSize)
    {σ : SlidingQueue α capacity × Ghost T α}
    (h : Pending base t (localQueue ++ toAdd :: rest) σ) :
    WP (Rely (QueueStep base) t) (FlushStep base t)
      (fun l τ => Pending base t (l ++ rest) τ ∧ l.length ≤ localSize)
      (pushBack localSize localQueue toAdd) σ := by
  have hstable (l : List α) : Stable (Rely (@QueueStep α capacity T base) t)
      fun τ => Pending base t (l ++ rest) τ ∧ l.length ≤ localSize :=
    (Owed.stable base t _ 0 0).and fun _ _ hl _ => hl
  rcases hle.eq_or_lt with hfull | hlt
  · rw [pushBack_of_full hsize hfull]
    apply WP.bind
    apply WP.mono (flush_wp h)
    exact fun _ τ hτ => WP.ret ⟨hτ, hsize⟩ (hstable [toAdd])
  · rw [pushBack_of_room hlt]
    refine WP.ret ⟨?_, ?_⟩ (hstable (localQueue ++ [toAdd]))
    · rwa [List.append_assoc]
    · rw [List.length_append, List.length_singleton]
      exact hlt

/-- At the start nothing has been claimed. -/
theorem pending_start {base : Nat} {q : SlidingQueue α capacity} (hin : q.sharedIn = base)
    {pushed : Fin T → List α} (hroom : base + ∑ t, (pushed t).length ≤ capacity) (t : Fin T) :
    Pending base t (pushed t) (q, ⟨[], pushed⟩) :=
  ⟨⟨hin, fun _ => List.nil_prefix, hroom⟩, rfl, fun _ _ hk _ => by simp at hk⟩

/-- When every buffer is flushed, slots have been claimed for all that has been pushed. -/
theorem perm_pushed {base : Nat} {σ : SlidingQueue α capacity × Ghost T α}
    (h : ∀ t, Pending base t [] σ) : (σ.2.log.map Prod.snd).Perm (List.ofFn σ.2.pushed).flatten := by
  have hclaims : (fun t => claims t σ.2.log) = σ.2.pushed := by
    funext t
    have hpushed : claims t σ.2.log ++ [] = σ.2.pushed t := (h t).pushed
    rwa [List.append_nil] at hpushed
  rw [← hclaims]
  exact (perm_claims σ.2.log).symm

/-- The claimed slots hold what they have been claimed for. -/
theorem Pending.slots {base : Nat} {left : Fin T → List α} {σ : SlidingQueue α capacity × Ghost T α}
    (h : ∀ t, Pending base t (left t) σ) {k : Nat} {x : α} (hk : (σ.2.log.map Prod.snd)[k]? = some x) :
    σ.1.shared (base + k) = some x := by
  rw [List.getElem?_map] at hk
  obtain ⟨⟨t, y⟩, hy, rfl⟩ := Option.map_eq_some_iff.mp hk
  exact (h t).written k y hy (by omega)

/-- When every buffer is flushed, the queue holds what has been pushed, each element in a slot of
its own. -/
theorem Pending.filled [NeZero T] {base : Nat} {q : SlidingQueue α capacity} {γ : Ghost T α}
    (h : ∀ t, Pending base t [] (q, γ)) :
    ∃ l : List α, l.Perm (List.ofFn γ.pushed).flatten ∧ q.sharedIn = base + l.length ∧
      q.sharedIn ≤ capacity ∧ ∀ k x, l[k]? = some x → q.shared (base + k) = some x := by
  refine ⟨γ.log.map Prod.snd, perm_pushed h, ?_, (h 0).logged.sharedIn_le, fun k x hk => ?_⟩
  · rw [List.length_map]
    exact (h 0).logged.sharedIn
  · exact Pending.slots h hk

/-! ## Each element once -/

theorem mem_flatten_ofFn {f : Fin T → List α} {x : α} :
    x ∈ (List.ofFn f).flatten ↔ ∃ t, x ∈ f t := by
  simp [List.mem_flatten, List.mem_ofFn']

theorem length_flatten_ofFn (f : Fin T → List α) :
    (List.ofFn f).flatten.length = ∑ t, (f t).length := by
  rw [List.length_flatten, List.map_ofFn, List.sum_ofFn]
  rfl

theorem flatten_nodup {pushed : Fin T → List α} (hnodup : ∀ t, (pushed t).Nodup)
    (hapart : ∀ t u x, x ∈ pushed t → x ∈ pushed u → t = u) : (List.ofFn pushed).flatten.Nodup := by
  rw [List.nodup_flatten, List.pairwise_ofFn]
  constructor
  · intro l hl
    obtain ⟨t, rfl⟩ := (List.mem_ofFn' _ _).mp hl
    exact hnodup t
  · intro t u htu v hv hv'
    exact absurd (hapart t u v hv hv') htu.ne

/-- No more is pushed than there are elements that may be. -/
theorem sum_pushed_le [DecidableEq α] {pushed : Fin T → List α} (hnodup : ∀ t, (pushed t).Nodup)
    (hapart : ∀ t u x, x ∈ pushed t → x ∈ pushed u → t = u) {P : Finset α}
    (hmem : ∀ t, ∀ x ∈ pushed t, x ∈ P) : ∑ t, (pushed t).length ≤ P.card := by
  rw [← length_flatten_ofFn, ← List.toFinset_card_of_nodup (flatten_nodup hnodup hapart)]
  apply Finset.card_le_card
  intro x hx
  obtain ⟨t, ht⟩ := mem_flatten_ofFn.mp (List.mem_toFinset.mp hx)
  exact hmem t x ht

/-- The ghost state after thread `t` has decided to push `x`. -/
def pushGhost (t : Fin T) (x : α) (γ : Ghost T α) : Ghost T α :=
  { γ with pushed := update γ.pushed t (γ.pushed t ++ [x]) }

theorem mem_pushGhost {t r : Fin T} {x y : α} {γ : Ghost T α} :
    y ∈ (pushGhost t x γ).pushed r ↔ y ∈ γ.pushed r ∨ r = t ∧ y = x := by
  by_cases hr : r = t
  · subst hr
    simp [pushGhost]
  · simp [pushGhost, hr]

theorem pushGhost_nodup {t : Fin T} {x : α} {γ : Ghost T α} (hnodup : ∀ r, (γ.pushed r).Nodup)
    (hx : x ∉ γ.pushed t) (r : Fin T) : ((pushGhost t x γ).pushed r).Nodup := by
  by_cases hr : r = t
  · subst hr
    show (update γ.pushed r (γ.pushed r ++ [x]) r).Nodup
    rw [update_self]
    exact (hnodup r).append (List.nodup_singleton x) (by simpa using hx)
  · show (update γ.pushed t _ r).Nodup
    rw [update_of_ne hr]
    exact hnodup r

theorem pushGhost_apart {t : Fin T} {x : α} {γ : Ghost T α}
    (hapart : ∀ r u y, y ∈ γ.pushed r → y ∈ γ.pushed u → r = u) (hx : ∀ r, x ∉ γ.pushed r)
    (r u : Fin T) (y : α) (hr : y ∈ (pushGhost t x γ).pushed r) (hu : y ∈ (pushGhost t x γ).pushed u) :
    r = u := by
  rcases mem_pushGhost.mp hr with hold | ⟨rfl, rfl⟩
  · rcases mem_pushGhost.mp hu with hold' | ⟨rfl, rfl⟩
    · exact hapart r u y hold hold'
    · exact absurd hold (hx r)
  · rcases mem_pushGhost.mp hu with hold' | ⟨rfl, -⟩
    · exact absurd hold' (hx u)
    · rfl

theorem QueueStep.refl (base : Nat) (t : Fin T) (σ : SlidingQueue α capacity × Ghost T α) :
    QueueStep base t σ σ :=
  ⟨id, .refl _ _, fun _ _ => rfl, ⟨[], by simp⟩, fun _ _ _ _ _ => rfl, fun _ => .inl rfl⟩

/-- To decide on a push changes the ghost state only. -/
theorem push_step {base : Nat} {t : Fin T} {l : List α} {x : α} {q : SlidingQueue α capacity}
    {γ : Ghost T α} (h : Pending base t l (q, γ))
    (hroom : base + ∑ r, ((pushGhost t x γ).pushed r).length ≤ capacity) :
    QueueStep base t (q, γ) (q, pushGhost t x γ) ∧ Pending base t (l ++ [x]) (q, pushGhost t x γ) := by
  have hpushed : claims t γ.log ++ l = γ.pushed t := h.pushed
  have hself : (pushGhost t x γ).pushed t = γ.pushed t ++ [x] := update_self ..
  have hlogged : Logged base (q, pushGhost t x γ) := by
    refine ⟨h.logged.sharedIn, fun r => ?_, hroom⟩
    show claims r γ.log <+: update γ.pushed t (γ.pushed t ++ [x]) r
    by_cases hr : r = t
    · subst hr
      rw [update_self]
      exact (h.logged.claims r).trans (List.prefix_append _ _)
    · rw [update_of_ne hr]
      exact h.logged.claims r
  refine ⟨⟨fun _ => hlogged, .refl _ _, fun r hr => update_of_ne hr _ _, ⟨[], ?_⟩,
    fun _ _ _ _ _ => rfl, fun _ => .inl rfl⟩, hlogged, ?_, h.written⟩
  · simp [pushGhost]
  · show claims t γ.log ++ (l ++ [x]) = (pushGhost t x γ).pushed t
    rw [hself, ← List.append_assoc, hpushed]

/-! ## Every slot once -/

/-- The slots from `base` on hold what the log says or nothing yet. -/
structure Filling (base : Nat) (q₀ : SlidingQueue α capacity) (σ : SlidingQueue α capacity × Ghost T α) :
    Prop where
  logged : Logged base σ
  kept : Kept base q₀ σ.1
  written : ∀ m x, σ.1.shared (base + m) = some x → ∃ t, σ.2.log[m]? = some (t, x)

theorem QueueStep.log_grows {base : Nat} {t : Fin T} {σ τ : SlidingQueue α capacity × Ghost T α}
    (h : QueueStep base t σ τ) {m : Nat} {e : Fin T × α} (hm : σ.2.log[m]? = some e) :
    τ.2.log[m]? = some e := by
  obtain ⟨own, hown⟩ := h.log
  rw [hown, List.getElem?_append_left (List.getElem?_eq_some_iff.mp hm).1, hm]

theorem QueueStep.filling {base : Nat} {t : Fin T} {q₀ : SlidingQueue α capacity}
    {σ τ : SlidingQueue α capacity × Ghost T α} (h : QueueStep base t σ τ) (hσ : Filling base q₀ σ) :
    Filling base q₀ τ := by
  refine ⟨h.logged hσ.logged, hσ.kept.trans h.kept, fun m x hm => ?_⟩
  rcases h.writes (base + m) with hsame | ⟨m', y, hk, hlog, hy⟩
  · rw [hsame] at hm
    obtain ⟨u, hu⟩ := hσ.written m x hm
    exact ⟨u, h.log_grows hu⟩
  · obtain rfl : m = m' := by omega
    obtain rfl := Option.some.inj (hy.symm.trans hm)
    exact ⟨t, hlog⟩

/-- A slot that has been written is not changed any more. -/
theorem QueueStep.keeps_written {base : Nat} {t : Fin T} {q₀ : SlidingQueue α capacity}
    {σ τ : SlidingQueue α capacity × Ghost T α} (h : QueueStep base t σ τ) (hσ : Filling base q₀ σ)
    {k : Nat} {x : α} (hk : σ.1.shared k = some x) : τ.1.shared k = some x := by
  rcases h.writes k with hsame | ⟨m, y, rfl, hlog, hy⟩
  · rw [hsame, hk]
  · obtain ⟨u, hu⟩ := hσ.written m x hk
    obtain ⟨rfl, rfl⟩ := Prod.mk.inj (Option.some.inj (hlog.symm.trans (h.log_grows hu)))
    exact hy

/-- The claimed slots are for different elements if different elements have been pushed. -/
theorem log_nodup {base : Nat} {σ : SlidingQueue α capacity × Ghost T α} (h : Logged base σ)
    (hnodup : ∀ t, (σ.2.pushed t).Nodup) (hapart : ∀ t u x, x ∈ σ.2.pushed t → x ∈ σ.2.pushed u → t = u) :
    (σ.2.log.map Prod.snd).Nodup := by
  rw [← (perm_claims σ.2.log).nodup_iff]
  apply flatten_nodup
  · exact fun t => (h.claims t).sublist.nodup (hnodup t)
  · exact fun t u x ht hu => hapart t u x ((h.claims t).subset ht) ((h.claims u).subset hu)

theorem mem_pushed_of_log {base : Nat} {σ : SlidingQueue α capacity × Ghost T α} (h : Logged base σ)
    {m : Nat} {t : Fin T} {x : α} (hm : σ.2.log[m]? = some (t, x)) : x ∈ σ.2.pushed t := by
  apply (h.claims t).subset
  have hmem : (t, x) ∈ σ.2.log := List.mem_of_getElem? hm
  rw [QueueBuffer.claims]
  exact List.mem_map.mpr ⟨(t, x), List.mem_filter.mpr ⟨hmem, by simp⟩, rfl⟩

end QueueBuffer

/-- The window of the queue holds the list `w`. -/
structure SlidingQueue.HoldsWindow (q : SlidingQueue α capacity) (w : List α) : Prop where
  size : q.size = w.length
  stop_le : q.sharedOutEnd ≤ q.sharedIn
  window : ∀ i x, w[i]? = some x → q.window i = some x

/-- Pushes do not change the window. -/
theorem SlidingQueue.HoldsWindow.kept {q q' : SlidingQueue α capacity} {w : List α}
    (h : q.HoldsWindow w) (hkept : QueueBuffer.Kept q.sharedIn q q') (i : Nat) (x : α)
    (hx : w[i]? = some x) : q'.window i = some x := by
  have hi := (List.getElem?_eq_some_iff.mp hx).1
  have hsize := h.size
  have hstop := h.stop_le
  rw [SlidingQueue.size] at hsize
  rw [← h.window i x hx, SlidingQueue.window, SlidingQueue.window, hkept.start,
    hkept.below _ (by omega)]

/-- No element stands in the queue twice, and none behind the slots in use. -/
structure SlidingQueue.Once (q : SlidingQueue α capacity) : Prop where
  room : q.sharedIn ≤ capacity
  used : ∀ k x, q.shared k = some x → k < q.sharedIn
  inj : ∀ j k x, q.shared j = some x → q.shared k = some x → j = k

theorem SlidingQueue.once_new : (SlidingQueue.new : SlidingQueue α capacity).Once :=
  ⟨Nat.zero_le _, fun _ _ h => (Option.some_ne_none _ h.symm).elim,
    fun _ _ _ h => (Option.some_ne_none _ h.symm).elim⟩

/-- In the middle of a region whose threads push different elements that the queue did not hold. -/
theorem QueueBuffer.Filling.once {q₀ : SlidingQueue α capacity}
    {σ : SlidingQueue α capacity × QueueBuffer.Ghost T α} (h : Filling q₀.sharedIn q₀ σ) (h₀ : q₀.Once)
    (hnodup : ∀ t, (σ.2.pushed t).Nodup) (hapart : ∀ t u x, x ∈ σ.2.pushed t → x ∈ σ.2.pushed u → t = u)
    (hfresh : ∀ t x, x ∈ σ.2.pushed t → ∀ k, q₀.shared k ≠ some x) : σ.1.Once := by
  have hlog := log_nodup h.logged hnodup hapart
  -- a slot is an old one, or it has been claimed since
  have hcases {k : Nat} {x : α} (hk : σ.1.shared k = some x) :
      q₀.shared k = some x ∧ k < q₀.sharedIn ∨
        ∃ m t, k = q₀.sharedIn + m ∧ σ.2.log[m]? = some (t, x) := by
    rcases Nat.lt_or_ge k q₀.sharedIn with hlt | hge
    · exact .inl ⟨(h.kept.below k hlt).symm.trans hk, hlt⟩
    · obtain ⟨m, rfl⟩ := Nat.exists_eq_add_of_le hge
      obtain ⟨t, ht⟩ := h.written m x hk
      exact .inr ⟨m, t, rfl, ht⟩
  refine ⟨h.logged.sharedIn_le, fun k x hk => ?_, fun j k x hj hk => ?_⟩
  · have hin := h.logged.sharedIn
    rcases hcases hk with ⟨-, hlt⟩ | ⟨m, t, rfl, ht⟩
    · omega
    · have hlt := (List.getElem?_eq_some_iff.mp ht).1
      omega
  · rcases hcases hj with ⟨hj, -⟩ | ⟨m, t, rfl, ht⟩ <;> rcases hcases hk with ⟨hk, -⟩ | ⟨m', u, rfl, hu⟩
    · exact h₀.inj j k x hj hk
    · exact absurd hj (hfresh u x (mem_pushed_of_log h.logged hu) j)
    · exact absurd hk (hfresh t x (mem_pushed_of_log h.logged ht) k)
    · have hm : (σ.2.log.map Prod.snd)[m]? = some x := by rw [List.getElem?_map, ht]; rfl
      have hm' : (σ.2.log.map Prod.snd)[m']? = some x := by rw [List.getElem?_map, hu]; rfl
      have hlt := (List.getElem?_eq_some_iff.mp hm).1
      rw [(List.getElem?_inj hlt hlog).mp (hm.trans hm'.symm)]

end Gapbs
