import Mathlib.Algebra.BigOperators.Ring.Finset
import Mathlib.Algebra.Order.BigOperators.Group.Finset
import Mathlib.Data.Fintype.Card
import Mathlib.Data.Nat.Bitwise
import Mathlib.Logic.Relation

/-!
# The sense-reversing barrier

`SpinBarrier` of `bfs_pthread.cc` as a state machine over any finite type of participants.  Every
shared access of `wait` is one step: the relaxed load of `phase_`, the `add_fetch` on `count_`, the
two stores of the last arriver, its wake, and the loads and futex sleeps of the others.
`FUTEX_WAIT` compares and sleeps in one step and `FUTEX_WAKE` wakes whoever sleeps.
-/

namespace Gapbs

open Function (update)

/-- Where a participant stands in `wait`, with the values of its locals. -/
inductive WaitPc where
  /-- Not inside `wait`. -/
  | idle
  /-- About to load `phase_` into `my_phase`. -/
  | load
  /-- About to increment `count_`. -/
  | add (myPhase : Nat)
  /-- The last arriver, about to store `count_ = 0`. -/
  | reset (myPhase : Nat)
  /-- The last arriver, about to store `phase_ = my_phase ^ 1`. -/
  | flip (myPhase : Nat)
  /-- The last arriver, about to wake the sleepers and return. -/
  | wake
  /-- About to load `phase_` for the test of the `while`. -/
  | check (myPhase spins : Nat)
  /-- About to call `FutexWait(&phase_, my_phase)`. -/
  | futex (myPhase : Nat)
  /-- Asleep on the futex. -/
  | asleep (myPhase : Nat)
deriving DecidableEq

namespace WaitPc

/-- A sleeper resumes behind its `FutexWait`, with no spins left. -/
def wakeUp : WaitPc → WaitPc
  | asleep my => check my 0
  | pc => pc

/-- Past the `add_fetch` and before the end of the episode's flip. -/
def Arrived : WaitPc → Prop
  | reset _ | flip _ | check _ _ | futex _ | asleep _ => True
  | _ => False

instance : DecidablePred Arrived := fun pc => by
  cases pc <;> simp only [Arrived] <;> infer_instance

/-- In the branch of the last arriver, before the flip. -/
def Last : WaitPc → Prop
  | reset _ | flip _ => True
  | _ => False

end WaitPc

/-- The barrier and the program counters of its participants.  `calls` and `rets` count how often
each participant has called `wait` and returned from it. -/
structure SpinBarrier (P : Type) where
  count : Nat
  phase : Nat
  pc : P → WaitPc
  calls : P → Nat
  rets : P → Nat

namespace SpinBarrier

variable {P : Type}

/-- `init(participants, spin)`; the number of participants is the size of `P`. -/
def init : SpinBarrier P := ⟨0, 0, fun _ => .idle, fun _ => 0, fun _ => 0⟩

variable [DecidableEq P]

/-- `p` moves on inside `wait`. -/
def goto (s : SpinBarrier P) (p : P) (pc : WaitPc) : SpinBarrier P :=
  { s with pc := update s.pc p pc }

/-- `p` returns from `wait`. -/
def leave (s : SpinBarrier P) (p : P) : SpinBarrier P :=
  { s with pc := update s.pc p .idle, rets := update s.rets p (s.rets p + 1) }

/-- `p` calls `wait`. -/
def call (s : SpinBarrier P) (p : P) : SpinBarrier P :=
  { s with pc := update s.pc p .load, calls := update s.calls p (s.calls p + 1) }

variable [Fintype P]

/-- The next atomic step of `p` inside `wait`; there is none while it is outside or asleep. -/
def step (spin : Nat) (s : SpinBarrier P) (p : P) : Option (SpinBarrier P) :=
  match s.pc p with
  | .idle => none
  | .load => some (s.goto p (.add s.phase))
  | .add my =>
      -- `add_fetch` returns the count with this participant in it
      let arrived := s.count + 1
      let s := { s with count := arrived }
      some (s.goto p (if arrived = Fintype.card P then .reset my else .check my spin))
  | .reset my => some ({ s with count := 0 }.goto p (.flip my))
  | .flip my => some ({ s with phase := my ^^^ 1 }.goto p .wake)
  -- the last arriver returns without a look at `phase_`
  | .wake => some ({ s with pc := fun q => (s.pc q).wakeUp }.leave p)
  | .check my spins =>
      -- the budget of spins is used up first, then every turn goes to the futex
      if s.phase = my then
        some (s.goto p (if spins > 0 then .check my (spins - 1) else .futex my))
      else some (s.leave p)
  -- the flip may have come between the test of the `while` and this call
  | .futex my => some (s.goto p (if s.phase = my then .asleep my else .check my 0))
  | .asleep _ => none

/-- Some participant calls `wait` or moves on inside it. -/
def Step (spin : Nat) (s t : SpinBarrier P) : Prop :=
  (∃ p, s.pc p = .idle ∧ t = s.call p) ∨ ∃ p, s.step spin p = some t

/-- The states that some interleaving of any number of episodes leads to. -/
def Reachable (spin : Nat) : SpinBarrier P → Prop := Relation.ReflTransGen (Step spin) init

/-! ## The invariant -/

/-- Where a participant can be after `e` flips.  A waiter belongs to the current episode, or it has
not yet noticed that the last one is over. -/
def PcOk (e : Nat) : WaitPc → Nat → Nat → Prop
  | .idle, calls, rets => calls = e ∧ rets = e
  | .load, calls, rets => calls = e + 1 ∧ rets = e
  | .add my, calls, rets | .reset my, calls, rets | .flip my, calls, rets =>
      calls = e + 1 ∧ rets = e ∧ my = e % 2
  | .wake, calls, rets => calls = e ∧ rets + 1 = e
  | .check my _, calls, rets | .futex my, calls, rets | .asleep my, calls, rets =>
      calls = e + 1 ∧ rets = e ∧ my = e % 2 ∨ calls = e ∧ rets + 1 = e ∧ my = (e + 1) % 2

/-- The participants that have arrived in the current episode. -/
def arrived (e : Nat) (s : SpinBarrier P) : Finset P :=
  {p | s.calls p = e + 1 ∧ (s.pc p).Arrived}

/-- What holds after `e` flips of the phase. -/
structure InvAt (e : Nat) (s : SpinBarrier P) : Prop where
  phase : s.phase = e % 2
  pcs : ∀ p, PcOk e (s.pc p) (s.calls p) (s.rets p)
  count : (∀ p my, s.pc p ≠ .flip my) → s.count = (arrived e s).card
  cleared : ∀ p my, s.pc p = .flip my → s.count = 0
  last : ∀ p, (s.pc p).Last → arrived e s = Finset.univ ∧ ∀ q, (s.pc q).Last → q = p
  full : Nonempty P → arrived e s = Finset.univ → ∃ p, (s.pc p).Last
  woken : ∀ p my, s.pc p = .asleep my → my ≠ s.phase → ∃ q, s.pc q = .wake

omit [DecidableEq P] in
theorem mem_arrived {e : Nat} {s : SpinBarrier P} {p : P} :
    p ∈ arrived e s ↔ s.calls p = e + 1 ∧ (s.pc p).Arrived := by
  simp [arrived]

omit [DecidableEq P] in
theorem InvAt.init : InvAt 0 (init : SpinBarrier P) where
  phase := rfl
  pcs _ := ⟨rfl, rfl⟩
  count _ := by simp [arrived, SpinBarrier.init]
  cleared _ _ h := nomatch h
  last _ h := h.elim
  full := fun ⟨p⟩ h => by
    have hp : p ∈ arrived 0 (SpinBarrier.init : SpinBarrier P) := h ▸ Finset.mem_univ p
    exact absurd (mem_arrived.mp hp).1 (by simp [SpinBarrier.init])
  woken _ _ h := nomatch h

/-- A move of `p` that neither arrives nor touches the shared words. -/
theorem InvAt.move {e : Nat} {s t : SpinBarrier P} (h : InvAt e s) {p : P}
    (hcount : t.count = s.count) (hphase : t.phase = s.phase)
    (hothers : ∀ q, q ≠ p → t.pc q = s.pc q ∧ t.calls q = s.calls q ∧ t.rets q = s.rets q)
    (hok : PcOk e (t.pc p) (t.calls p) (t.rets p)) (harrived : p ∈ arrived e t ↔ p ∈ arrived e s)
    (hs : ¬ (s.pc p).Last) (ht : ¬ (t.pc p).Last) (hwake : s.pc p ≠ .wake)
    (hsleep : ∀ my, t.pc p = .asleep my → my = s.phase) : InvAt e t := by
  have hset : arrived e t = arrived e s := by
    ext q
    by_cases hq : q = p
    · rw [hq, harrived]
    · rw [mem_arrived, mem_arrived, (hothers q hq).1, (hothers q hq).2.1]
  have hlast (q : P) : (t.pc q).Last ↔ (s.pc q).Last := by
    by_cases hq : q = p
    · rw [hq]
      exact iff_of_false ht hs
    · rw [(hothers q hq).1]
  have hflip (q : P) (my : Nat) : t.pc q = .flip my ↔ s.pc q = .flip my := by
    by_cases hq : q = p
    · rw [hq]
      exact iff_of_false (fun hf => ht (hf ▸ trivial)) fun hf => hs (hf ▸ trivial)
    · rw [(hothers q hq).1]
  constructor
  · rw [hphase, h.phase]
  · intro q
    by_cases hq : q = p
    · exact hq ▸ hok
    · obtain ⟨hpc, hcalls, hrets⟩ := hothers q hq
      rw [hpc, hcalls, hrets]
      exact h.pcs q
  · intro hno
    rw [hcount, hset, h.count fun q my hq => hno q my ((hflip q my).mpr hq)]
  · intro q my hq
    rw [hcount, h.cleared q my ((hflip q my).mp hq)]
  · intro q hq
    rw [hset]
    exact (h.last q ((hlast q).mp hq)).imp_right fun huniq r hr => huniq r ((hlast r).mp hr)
  · intro hne huniv
    obtain ⟨q, hq⟩ := h.full hne (hset ▸ huniv)
    exact ⟨q, (hlast q).mpr hq⟩
  · intro q my hq hmy
    by_cases hqp : q = p
    · subst hqp
      exact absurd ((hsleep my hq).trans hphase.symm) hmy
    · rw [(hothers q hqp).1] at hq
      obtain ⟨r, hr⟩ := h.woken q my hq (hphase ▸ hmy)
      have hrp : r ≠ p := fun heq => hwake (heq ▸ hr)
      exact ⟨r, (hothers r hrp).1.trans hr⟩

omit [DecidableEq P] in
/-- While somebody has not arrived, nobody is in the branch of the last arriver. -/
theorem InvAt.not_last {e : Nat} {s : SpinBarrier P} (h : InvAt e s) {p : P}
    (hp : p ∉ arrived e s) (q : P) : ¬ (s.pc q).Last :=
  fun hq => hp ((h.last q hq).1 ▸ Finset.mem_univ p)

theorem InvAt.add {e : Nat} {s : SpinBarrier P} (h : InvAt e s) {spin : Nat} {p : P} {my : Nat}
    (hp : s.pc p = .add my) :
    InvAt e ({ s with count := s.count + 1 }.goto p
      (if s.count + 1 = Fintype.card P then .reset my else .check my spin)) := by
  have hpok : PcOk e (.add my) (s.calls p) (s.rets p) := hp ▸ h.pcs p
  have hnotin : p ∉ arrived e s := fun hmem => by
    have harr := (mem_arrived.mp hmem).2
    rw [hp] at harr
    exact harr
  -- `p` has not arrived yet, so nobody is the last arriver
  have hnolast := h.not_last hnotin
  have hcount : s.count = (arrived e s).card :=
    h.count fun q m hq => hnolast q (hq ▸ trivial)
  generalize hpc : (if s.count + 1 = Fintype.card P then WaitPc.reset my else .check my spin) = pc
  have hpcarr : pc.Arrived := by
    rw [← hpc]
    split <;> trivial
  have hset : arrived e ({ s with count := s.count + 1 }.goto p pc) =
      insert p (arrived e s) := by
    ext q
    rw [Finset.mem_insert, mem_arrived, mem_arrived]
    by_cases hq : q = p
    · simp [goto, hq, hpok.1, hpcarr]
    · simp [goto, hq]
  have hcard : (insert p (arrived e s)).card = s.count + 1 := by
    rw [Finset.card_insert_of_notMem hnotin, hcount]
  -- the test of the code: the count that `add_fetch` returns is the number of arrivals
  have hfullIff : insert p (arrived e s) = Finset.univ ↔ s.count + 1 = Fintype.card P := by
    rw [← Finset.card_eq_iff_eq_univ, hcard]
  have hothers (q : P) (hq : q ≠ p) : ({ s with count := s.count + 1 }.goto p pc).pc q = s.pc q := by
    simp [goto, hq]
  have hself : ({ s with count := s.count + 1 }.goto p pc).pc p = pc := by simp [goto]
  constructor
  · exact h.phase
  · intro q
    by_cases hq : q = p
    · subst hq
      rw [hself, ← hpc]
      split
      · exact hpok
      · exact .inl hpok
    · rw [hothers q hq]
      exact h.pcs q
  · intro _
    rw [hset, hcard]
    rfl
  · intro q m hq
    by_cases hqp : q = p
    · subst hqp
      rw [hself, ← hpc] at hq
      split at hq <;> cases hq
    · rw [hothers q hqp] at hq
      exact absurd (hq ▸ trivial) (hnolast q)
  · intro q hq
    have hqp : q = p := by
      by_contra hne
      rw [hothers q hne] at hq
      exact hnolast q hq
    subst hqp
    rw [hself, ← hpc] at hq
    split at hq
    · next hall =>
      refine ⟨by rw [hset, hfullIff, hall], fun r hr => ?_⟩
      by_contra hne
      rw [hothers r hne] at hr
      exact hnolast r hr
    · exact hq.elim
  · intro _ huniv
    refine ⟨p, ?_⟩
    rw [hself, ← hpc, if_pos (hfullIff.mp (hset ▸ huniv))]
    trivial
  · intro q m hq hm
    have hqp : q ≠ p := fun heq => by
      rw [heq, hself, ← hpc] at hq
      split at hq <;> cases hq
    rw [hothers q hqp] at hq
    obtain ⟨r, hr⟩ := h.woken q m hq hm
    have hrp : r ≠ p := fun heq => by
      rw [heq, hp] at hr
      cases hr
    exact ⟨r, (hothers r hrp).trans hr⟩

theorem InvAt.reset {e : Nat} {s : SpinBarrier P} (h : InvAt e s) {p : P} {my : Nat}
    (hp : s.pc p = .reset my) : InvAt e ({ s with count := 0 }.goto p (.flip my)) := by
  have hpok : PcOk e (.reset my) (s.calls p) (s.rets p) := hp ▸ h.pcs p
  obtain ⟨huniv, huniq⟩ := h.last p (hp ▸ trivial)
  have hothers (q : P) (hq : q ≠ p) : ({ s with count := 0 }.goto p (.flip my)).pc q = s.pc q := by
    simp [goto, hq]
  have hself : ({ s with count := 0 }.goto p (.flip my)).pc p = .flip my := by simp [goto]
  have hlast (q : P) (hq : (({ s with count := 0 }.goto p (.flip my)).pc q).Last) : q = p := by
    by_contra hne
    rw [hothers q hne] at hq
    exact hne (huniq q hq)
  have hset : arrived e ({ s with count := 0 }.goto p (.flip my)) = Finset.univ := by
    ext q
    rw [← huniv, mem_arrived, mem_arrived]
    by_cases hq : q = p
    · simp [goto, hq, hp, WaitPc.Arrived]
    · simp [goto, hq]
  constructor
  · exact h.phase
  · intro q
    by_cases hq : q = p
    · rw [hq, hself]
      exact hpok
    · rw [hothers q hq]
      exact h.pcs q
  · intro hno
    exact absurd hself (hno p my)
  · intro _ _ _
    rfl
  · intro q hq
    obtain rfl := hlast q hq
    exact ⟨hset, hlast⟩
  · intro _ _
    exact ⟨p, by rw [hself]; trivial⟩
  · intro q m hq hm
    have hqp : q ≠ p := fun heq => by
      rw [heq, hself] at hq
      cases hq
    rw [hothers q hqp] at hq
    obtain ⟨r, hr⟩ := h.woken q m hq hm
    have hrp : r ≠ p := fun heq => by
      rw [heq, hp] at hr
      cases hr
    exact ⟨r, (hothers r hrp).trans hr⟩

/-- The flip starts the next episode: everybody else is a waiter of the one that is over. -/
theorem InvAt.flip {e : Nat} {s : SpinBarrier P} (h : InvAt e s) {p : P} {my : Nat}
    (hp : s.pc p = .flip my) : InvAt (e + 1) ({ s with phase := my ^^^ 1 }.goto p .wake) := by
  have hpok : PcOk e (.flip my) (s.calls p) (s.rets p) := hp ▸ h.pcs p
  obtain ⟨huniv, huniq⟩ := h.last p (hp ▸ trivial)
  have hcalls (q : P) : s.calls q = e + 1 := (mem_arrived.mp (huniv ▸ Finset.mem_univ q)).1
  have hothers (q : P) (hq : q ≠ p) :
      ({ s with phase := my ^^^ 1 }.goto p .wake).pc q = s.pc q := by
    simp [goto, hq]
  have hself : ({ s with phase := my ^^^ 1 }.goto p .wake).pc p = .wake := by simp [goto]
  have hnolast (q : P) : ¬ (({ s with phase := my ^^^ 1 }.goto p .wake).pc q).Last := by
    by_cases hq : q = p
    · rw [hq, hself]
      exact id
    · rw [hothers q hq]
      exact fun hlast => hq (huniq q hlast)
  -- the new episode starts without arrivals: all calls so far belong to the old one
  have hset : arrived (e + 1) ({ s with phase := my ^^^ 1 }.goto p .wake) = ∅ := by
    ext q
    have hq : ({ s with phase := my ^^^ 1 }.goto p .wake).calls q = e + 1 := hcalls q
    simp [mem_arrived, hq]
  constructor
  · show my ^^^ 1 = (e + 1) % 2
    have hmy : my = e % 2 := hpok.2.2
    rcases Nat.mod_two_eq_zero_or_one e with he | he
    · rw [hmy, he, Nat.succ_mod_two_eq_one_iff.mpr he]
      rfl
    · rw [hmy, he, Nat.succ_mod_two_eq_zero_iff.mpr he]
      rfl
  · intro q
    by_cases hq : q = p
    · subst hq
      rw [hself]
      exact ⟨hpok.1, congrArg (· + 1) hpok.2.1⟩
    · have hqok := h.pcs q
      have hqarr : (s.pc q).Arrived := (mem_arrived.mp (huniv ▸ Finset.mem_univ q)).2
      have hqlast : ¬ (s.pc q).Last := fun hlast => hq (huniq q hlast)
      have hqcalls := hcalls q
      rw [hothers q hq]
      show PcOk (e + 1) (s.pc q) (s.calls q) (s.rets q)
      cases hpc : s.pc q with
      | idle => exact (hpc ▸ hqarr).elim
      | load => exact (hpc ▸ hqarr).elim
      | add m => exact (hpc ▸ hqarr).elim
      | reset m => exact absurd (hpc ▸ trivial) hqlast
      | flip m => exact absurd (hpc ▸ trivial) hqlast
      | wake => exact (hpc ▸ hqarr).elim
      -- a waiter of the episode that is over now: its `my_phase` is the old one
      | check m spins | futex m | asleep m =>
        rw [hpc] at hqok
        simp only [PcOk] at hqok ⊢
        omega
  · intro _
    rw [hset, Finset.card_empty]
    exact h.cleared p my hp
  · intro q m hq
    exact absurd (hq ▸ trivial) (hnolast q)
  · intro q hq
    exact absurd hq (hnolast q)
  · intro _ hfull
    rw [hset] at hfull
    exact absurd (Finset.mem_univ p) (hfull ▸ Finset.notMem_empty p)
  · intro _ _ _ _
    exact ⟨p, hself⟩

theorem InvAt.wake {e : Nat} {s : SpinBarrier P} (h : InvAt e s) {p : P} (hp : s.pc p = .wake) :
    InvAt e ({ s with pc := fun q => (s.pc q).wakeUp }.leave p) := by
  have hpok : PcOk e .wake (s.calls p) (s.rets p) := hp ▸ h.pcs p
  have hothers (q : P) (hq : q ≠ p) :
      ({ s with pc := fun q => (s.pc q).wakeUp }.leave p).pc q = (s.pc q).wakeUp := by
    simp [leave, hq]
  have hself : ({ s with pc := fun q => (s.pc q).wakeUp }.leave p).pc p = .idle := by simp [leave]
  have hlast (q : P) :
      (({ s with pc := fun q => (s.pc q).wakeUp }.leave p).pc q).Last ↔ (s.pc q).Last := by
    by_cases hq : q = p
    · rw [hq, hself, hp]
      rfl
    · rw [hothers q hq]
      cases s.pc q <;> rfl
  have hflip (q : P) (my : Nat) :
      ({ s with pc := fun q => (s.pc q).wakeUp }.leave p).pc q = .flip my ↔ s.pc q = .flip my := by
    by_cases hq : q = p
    · simp [hq, hself, hp]
    · rw [hothers q hq]
      cases s.pc q <;> simp [WaitPc.wakeUp]
  have hset : arrived e ({ s with pc := fun q => (s.pc q).wakeUp }.leave p) = arrived e s := by
    ext q
    rw [mem_arrived, mem_arrived]
    by_cases hq : q = p
    · rw [hq, hself, hp]
      rfl
    · rw [hothers q hq]
      show s.calls q = e + 1 ∧ _ ↔ _
      cases s.pc q <;> rfl
  constructor
  · exact h.phase
  · intro q
    by_cases hq : q = p
    · subst hq
      rw [hself]
      exact ⟨hpok.1, by simpa [leave] using hpok.2⟩
    · have hqok := h.pcs q
      rw [hothers q hq]
      simp only [leave, Function.update_of_ne hq]
      cases hpc : s.pc q <;> rw [hpc] at hqok <;> exact hqok
  · intro hno
    rw [hset, ← h.count fun q my hq => hno q my ((hflip q my).mpr hq)]
    rfl
  · intro q my hq
    exact h.cleared q my ((hflip q my).mp hq)
  · intro q hq
    rw [hset]
    exact (h.last q ((hlast q).mp hq)).imp_right fun huniq r hr => huniq r ((hlast r).mp hr)
  · intro hne huniv
    obtain ⟨q, hq⟩ := h.full hne (hset ▸ huniv)
    exact ⟨q, (hlast q).mpr hq⟩
  · intro q my hq
    by_cases hqp : q = p
    · rw [hqp, hself] at hq
      cases hq
    · rw [hothers q hqp] at hq
      cases hpc : s.pc q <;> rw [hpc] at hq <;> cases hq

theorem InvAt.call {e : Nat} {s : SpinBarrier P} (h : InvAt e s) {p : P}
    (hp : s.pc p = .idle) : InvAt e (s.call p) := by
  have hpok : PcOk e .idle (s.calls p) (s.rets p) := hp ▸ h.pcs p
  apply h.move (t := s.call p) (p := p) rfl rfl (fun q hq => by simp [SpinBarrier.call, hq])
  · simp only [SpinBarrier.call, Function.update_self]
    exact ⟨congrArg (· + 1) hpok.1, hpok.2⟩
  · simp [mem_arrived, SpinBarrier.call, hp, WaitPc.Arrived]
  · simp [hp, WaitPc.Last]
  · simp [SpinBarrier.call, WaitPc.Last]
  · simp [hp]
  · simp [SpinBarrier.call]

/-- A waiter moves inside the `while` loop. -/
theorem InvAt.spin {e : Nat} {s : SpinBarrier P} (h : InvAt e s) {p : P} {pc : WaitPc}
    (hok : PcOk e pc (s.calls p) (s.rets p)) (harrived : pc.Arrived ↔ (s.pc p).Arrived)
    (hs : ¬ (s.pc p).Last) (ht : ¬ pc.Last) (hwake : s.pc p ≠ .wake)
    (hsleep : ∀ my, pc = .asleep my → my = s.phase) : InvAt e (s.goto p pc) := by
  apply h.move (t := s.goto p pc) (p := p) rfl rfl (fun q hq => by simp [goto, hq])
  · simpa [goto] using hok
  · simp only [mem_arrived, goto, Function.update_self, harrived]
  · exact hs
  · simpa [goto] using ht
  · exact hwake
  · simpa [goto] using hsleep

theorem InvAt.leave {e : Nat} {s : SpinBarrier P} (h : InvAt e s) {p : P} {my spins : Nat}
    (hp : s.pc p = .check my spins) (hphase : s.phase ≠ my) : InvAt e (s.leave p) := by
  have hpok : PcOk e (.check my spins) (s.calls p) (s.rets p) := hp ▸ h.pcs p
  have hph := h.phase
  -- the phase has moved on, so the episode that `p` waits for is over
  have hold : s.calls p = e ∧ s.rets p + 1 = e := by
    simp only [PcOk] at hpok
    omega
  apply h.move (t := s.leave p) (p := p) rfl rfl (fun q hq => by simp [SpinBarrier.leave, hq])
  · simpa [SpinBarrier.leave, PcOk] using hold
  · simp [mem_arrived, SpinBarrier.leave, hold.1]
  · simp [hp, WaitPc.Last]
  · simp [SpinBarrier.leave, WaitPc.Last]
  · simp [hp]
  · simp [SpinBarrier.leave]

theorem InvAt.step {e spin : Nat} {s t : SpinBarrier P} (h : InvAt e s) {p : P}
    (hstep : s.step spin p = some t) : ∃ e', InvAt e' t := by
  have hpok := h.pcs p
  cases hp : s.pc p with
  | idle => simp [SpinBarrier.step, hp] at hstep
  | asleep my => simp [SpinBarrier.step, hp] at hstep
  | load =>
    simp only [SpinBarrier.step, hp, Option.some.injEq] at hstep
    subst hstep
    rw [hp] at hpok
    refine ⟨e, h.spin ⟨hpok.1, hpok.2, h.phase⟩ ?_ ?_ id ?_ nofun⟩ <;>
      simp [hp, WaitPc.Arrived, WaitPc.Last]
  | add my =>
    simp only [SpinBarrier.step, hp, Option.some.injEq] at hstep
    exact ⟨e, hstep ▸ h.add hp⟩
  | reset my =>
    simp only [SpinBarrier.step, hp, Option.some.injEq] at hstep
    exact ⟨e, hstep ▸ h.reset hp⟩
  | flip my =>
    simp only [SpinBarrier.step, hp, Option.some.injEq] at hstep
    exact ⟨e + 1, hstep ▸ h.flip hp⟩
  | wake =>
    simp only [SpinBarrier.step, hp, Option.some.injEq] at hstep
    exact ⟨e, hstep ▸ h.wake hp⟩
  | check my spins =>
    simp only [SpinBarrier.step, hp] at hstep
    rw [hp] at hpok
    by_cases hphase : s.phase = my
    · rw [if_pos hphase, Option.some.injEq] at hstep
      subst hstep
      by_cases hspins : spins > 0
      · rw [if_pos hspins]
        refine ⟨e, h.spin hpok ?_ ?_ id ?_ nofun⟩ <;> simp [hp, WaitPc.Arrived, WaitPc.Last]
      · rw [if_neg hspins]
        refine ⟨e, h.spin hpok ?_ ?_ id ?_ nofun⟩ <;> simp [hp, WaitPc.Arrived, WaitPc.Last]
    · rw [if_neg hphase, Option.some.injEq] at hstep
      exact ⟨e, hstep ▸ h.leave hp hphase⟩
  | futex my =>
    simp only [SpinBarrier.step, hp, Option.some.injEq] at hstep
    subst hstep
    rw [hp] at hpok
    by_cases hphase : s.phase = my
    · rw [if_pos hphase]
      refine ⟨e, h.spin hpok ?_ ?_ id ?_ fun m hm => ?_⟩
      · simp [hp, WaitPc.Arrived]
      · simp [hp, WaitPc.Last]
      · simp [hp]
      · cases hm
        exact hphase.symm
    · rw [if_neg hphase]
      refine ⟨e, h.spin hpok ?_ ?_ id ?_ nofun⟩ <;> simp [hp, WaitPc.Arrived, WaitPc.Last]

/-- What holds in every reachable state. -/
def Inv (s : SpinBarrier P) : Prop := ∃ e, InvAt e s

theorem Reachable.inv {spin : Nat} {s : SpinBarrier P} (h : Reachable spin s) : Inv s := by
  induction h with
  | refl => exact ⟨0, .init⟩
  | tail _ hstep ih =>
    obtain ⟨e, he⟩ := ih
    rcases hstep with ⟨p, hp, rfl⟩ | ⟨p, hp⟩
    · exact ⟨e, he.call hp⟩
    · exact he.step hp

/-! ## Safety and progress -/

omit [Fintype P] [DecidableEq P] in
theorem pcOk_calls {e : Nat} {pc : WaitPc} {calls rets : Nat} (h : PcOk e pc calls rets) :
    rets ≤ e ∧ e ≤ calls ∧ calls ≤ e + 1 := by
  cases pc <;> simp only [PcOk] at h <;> omega

omit [DecidableEq P] in
/-- Nobody returns from its `k`-th wait before everybody has called its `k`-th wait. -/
theorem Inv.rets_le_calls {s : SpinBarrier P} (h : Inv s) (p q : P) : s.rets p ≤ s.calls q := by
  obtain ⟨e, he⟩ := h
  have hp := pcOk_calls (he.pcs p)
  have hq := pcOk_calls (he.pcs q)
  omega

omit [DecidableEq P] in
theorem Inv.count_le {s : SpinBarrier P} (h : Inv s) : s.count ≤ Fintype.card P := by
  obtain ⟨e, he⟩ := h
  by_cases hflip : ∃ p my, s.pc p = .flip my
  · obtain ⟨p, my, hp⟩ := hflip
    rw [he.cleared p my hp]
    exact Nat.zero_le _
  · rw [he.count fun p my hp => hflip ⟨p, my, hp⟩]
    exact Finset.card_le_univ _

omit [DecidableEq P] in
/-- A sleeper whose episode is over will be woken. -/
theorem Inv.waker {s : SpinBarrier P} (h : Inv s) {p : P} {my : Nat} (hp : s.pc p = .asleep my)
    (hover : my ≠ s.phase ∨ ∃ q, s.calls p ≤ s.rets q) : ∃ q, s.pc q = .wake := by
  obtain ⟨e, he⟩ := h
  refine he.woken p my hp fun hmy => ?_
  have hpok : PcOk e (.asleep my) (s.calls p) (s.rets p) := hp ▸ he.pcs p
  rcases hover with hne | ⟨q, hq⟩
  · exact hne hmy
  · have hqok := pcOk_calls (he.pcs q)
    have hphase := he.phase
    simp only [PcOk] at hpok
    omega

theorem step_isSome {spin : Nat} {s : SpinBarrier P} {p : P} (hidle : s.pc p ≠ .idle)
    (hasleep : ∀ my, s.pc p ≠ .asleep my) : (s.step spin p).isSome := by
  unfold step
  split <;> simp_all
  split <;> rfl

/-- While `p` is in a wait that everybody has entered, somebody inside `wait` can move. -/
theorem Inv.moves {s : SpinBarrier P} (h : Inv s) (spin : Nat) {p : P} (hp : s.rets p < s.calls p)
    (hentered : ∀ q, s.calls p ≤ s.calls q) : ∃ q, (s.step spin q).isSome := by
  obtain ⟨e, he⟩ := id h
  by_contra hstuck
  have hpcs (q : P) : s.pc q = .idle ∨ ∃ my, s.pc q = .asleep my := by
    by_contra hq
    rw [not_or, not_exists] at hq
    exact hstuck ⟨q, step_isSome hq.1 hq.2⟩
  have hnowake (q : P) : s.pc q ≠ .wake := by
    intro hq
    rcases hpcs q with hidle | ⟨my, hmy⟩
    · exact nomatch hq.symm.trans hidle
    · exact nomatch hq.symm.trans hmy
  have hpok := he.pcs p
  -- a sleeper of the last episode would have a waker, so `p` waits for the current one
  have hcalls : s.calls p = e + 1 := by
    rcases hpcs p with hidle | ⟨my, hmy⟩
    · rw [hidle] at hpok
      simp only [PcOk] at hpok
      omega
    · have hmyphase : my = s.phase := by
        by_contra hne
        obtain ⟨q, hq⟩ := h.waker hmy (.inl hne)
        exact hnowake q hq
      have hphase := he.phase
      rw [hmy] at hpok
      simp only [PcOk] at hpok
      omega
  -- then everybody has arrived and somebody is the last arriver
  have huniv : arrived e s = Finset.univ := by
    refine Finset.eq_univ_of_forall fun q => ?_
    have hqok := he.pcs q
    have hq := hentered q
    rw [mem_arrived]
    rcases hpcs q with hidle | ⟨my, hmy⟩
    · rw [hidle] at hqok
      simp only [PcOk] at hqok
      omega
    · have hle := pcOk_calls hqok
      exact ⟨by omega, hmy ▸ trivial⟩
  obtain ⟨q, hq⟩ := he.full ⟨p⟩ huniv
  rcases hpcs q with hidle | ⟨my, hmy⟩
  · rw [hidle] at hq
    exact hq
  · rw [hmy] at hq
    exact hq

/-- `SpinBarrier` is a barrier in every interleaving: no early release, no lost count, no stuck
state and no lost wake-up. -/
theorem spinBarrier_correct (spin : Nat) (s : SpinBarrier P) (hs : Reachable spin s) :
    (∀ p q k, k ≤ s.rets p → k ≤ s.calls q) ∧
    s.count ≤ Fintype.card P ∧
    (∀ p, s.rets p < s.calls p → (∀ q, s.calls p ≤ s.calls q) → ∃ q, (s.step spin q).isSome) ∧
    (∀ p my, s.pc p = .asleep my → my ≠ s.phase ∨ (∃ q, s.calls p ≤ s.rets q) →
      ∃ q, s.pc q = .wake) :=
  ⟨fun p q _ hk => hk.trans (hs.inv.rets_le_calls p q), hs.inv.count_le,
    fun _ hp hentered => hs.inv.moves spin hp hentered, fun _ _ hp hover => hs.inv.waker hp hover⟩

theorem spinBarrier_correct_pair :
    let s := (init.call 0).call (1 : Fin 2)
    (∀ p q k, k ≤ s.rets p → k ≤ s.calls q) ∧
    s.count ≤ Fintype.card (Fin 2) ∧
    (∀ p, s.rets p < s.calls p → (∀ q, s.calls p ≤ s.calls q) → ∃ q, (s.step 3 q).isSome) ∧
    (∀ p my, s.pc p = .asleep my → my ≠ s.phase ∨ (∃ q, s.calls p ≤ s.rets q) →
      ∃ q, s.pc q = .wake) :=
  spinBarrier_correct 3 _
    (.tail (.tail .refl (.inl ⟨0, rfl, rfl⟩)) (.inl ⟨1, by decide, rfl⟩))

/-! ## Counters and a measure for the users of a barrier -/

theorem Inv.call {s : SpinBarrier P} (h : Inv s) {p : P} (hp : s.pc p = .idle) : Inv (s.call p) := by
  obtain ⟨e, he⟩ := h
  exact ⟨e, he.call hp⟩

theorem Inv.step {s t : SpinBarrier P} (h : Inv s) {spin : Nat} {p : P}
    (hstep : s.step spin p = some t) : Inv t := by
  obtain ⟨e, he⟩ := h
  exact he.step hstep

omit [DecidableEq P] in
theorem Inv.idle_iff {s : SpinBarrier P} (h : Inv s) (p : P) :
    s.pc p = .idle ↔ s.calls p = s.rets p := by
  obtain ⟨e, he⟩ := h
  have hok := he.pcs p
  cases hpc : s.pc p <;> rw [hpc] at hok <;> simp only [PcOk] at hok <;> simp <;> omega

/-- A step of `p` inside `wait` counts a return exactly when it leaves. -/
theorem step_counts {s t : SpinBarrier P} {spin : Nat} {p : P} (hstep : s.step spin p = some t) :
    t.calls = s.calls ∧ (t.pc p = .idle → t.rets = update s.rets p (s.rets p + 1)) ∧
      (t.pc p ≠ .idle → t.rets = s.rets) := by
  have hgoto (u : SpinBarrier P) (pc : WaitPc) (hcalls : u.calls = s.calls) (hrets : u.rets = s.rets)
      (hpc : pc ≠ .idle) : (u.goto p pc).calls = s.calls ∧
      ((u.goto p pc).pc p = .idle → (u.goto p pc).rets = update s.rets p (s.rets p + 1)) ∧
      ((u.goto p pc).pc p ≠ .idle → (u.goto p pc).rets = s.rets) := by
    refine ⟨hcalls, fun h => ?_, fun _ => hrets⟩
    simp only [goto, Function.update_self] at h
    exact absurd h hpc
  have hleave (u : SpinBarrier P) (hcalls : u.calls = s.calls) (hrets : u.rets = s.rets) :
      (u.leave p).calls = s.calls ∧
      ((u.leave p).pc p = .idle → (u.leave p).rets = update s.rets p (s.rets p + 1)) ∧
      ((u.leave p).pc p ≠ .idle → (u.leave p).rets = s.rets) := by
    refine ⟨hcalls, fun _ => by rw [← hrets]; rfl, fun h => absurd ?_ h⟩
    simp [leave]
  unfold SpinBarrier.step at hstep
  split at hstep
  · cases hstep
  · cases hstep
    exact hgoto _ _ rfl rfl nofun
  · cases hstep
    exact hgoto _ _ rfl rfl (by split <;> nofun)
  · cases hstep
    exact hgoto _ _ rfl rfl nofun
  · cases hstep
    exact hgoto _ _ rfl rfl nofun
  · cases hstep
    exact hleave _ rfl rfl
  · split at hstep
    · cases hstep
      exact hgoto _ _ rfl rfl (by split <;> nofun)
    · cases hstep
      exact hleave _ rfl rfl
  · cases hstep
    exact hgoto _ _ rfl rfl (by split <;> nofun)
  · cases hstep

/-- How many steps a participant can take before it sleeps or leaves. -/
def weight (spin phase : Nat) : WaitPc → Nat
  | .load => spin + 5
  | .add _ => spin + 4
  | .reset _ => 2
  | .flip _ => 1
  | .check my spins => if phase = my then spins + 3 else 1
  | .futex _ => 2
  | .idle | .wake | .asleep _ => 0

def potential (spin : Nat) (s : SpinBarrier P) : Nat := ∑ p, weight spin s.phase (s.pc p)

omit [DecidableEq P] in
theorem potential_lt {spin : Nat} {s t : SpinBarrier P} {p : P}
    (hothers : ∀ q, q ≠ p → weight spin t.phase (t.pc q) ≤ weight spin s.phase (s.pc q))
    (hself : weight spin t.phase (t.pc p) < weight spin s.phase (s.pc p)) :
    potential spin t < potential spin s := by
  apply Finset.sum_lt_sum
  · intro q _
    by_cases hq : q = p
    · exact hq ▸ hself.le
    · exact hothers q hq
  · exact ⟨p, Finset.mem_univ p, hself⟩

theorem potential_call (spin : Nat) (s : SpinBarrier P) (p : P) :
    potential spin (s.call p) ≤ potential spin s + (spin + 5) := by
  have hsum : potential spin (s.call p) ≤
      ∑ q, (weight spin s.phase (s.pc q) + if q = p then spin + 5 else 0) := by
    apply Finset.sum_le_sum
    intro q _
    by_cases hq : q = p
    · simp [call, hq, weight]
    · simp [call, hq]
  rwa [Finset.sum_add_distrib, Finset.sum_ite_eq' Finset.univ p, if_pos (Finset.mem_univ p)] at hsum

omit [DecidableEq P] in
/-- The others wait for the phase that is over with a flip. -/
theorem InvAt.weight_flip {e : Nat} {s : SpinBarrier P} (he : InvAt e s) {p : P} {my : Nat}
    (hp : s.pc p = .flip my) (spin : Nat) (q : P) :
    weight spin (my ^^^ 1) (s.pc q) ≤ weight spin s.phase (s.pc q) := by
  obtain ⟨huniv, huniq⟩ := he.last p (hp ▸ trivial)
  have hqarr := mem_arrived.mp (huniv ▸ Finset.mem_univ q)
  have hqok := he.pcs q
  have hpok : PcOk e (.flip my) (s.calls p) (s.rets p) := hp ▸ he.pcs p
  have hphase := he.phase
  cases hpc : s.pc q with
  | check m spins =>
    rw [hpc] at hqok
    simp only [PcOk] at hqok hpok
    simp only [weight]
    rw [if_pos (by omega : s.phase = m)]
    split <;> omega
  | idle | load | add | reset | flip | wake | futex | asleep => exact le_rfl

/-- A wake raises the weight of each sleeper. -/
theorem potential_wake (spin : Nat) (s : SpinBarrier P) (p : P) :
    potential spin ({ s with pc := fun q => (s.pc q).wakeUp }.leave p) ≤
      potential spin s + 3 * Fintype.card P := by
  have hsum : potential spin ({ s with pc := fun q => (s.pc q).wakeUp }.leave p) ≤
      ∑ q, (weight spin s.phase (s.pc q) + 3) := by
    apply Finset.sum_le_sum
    intro q _
    by_cases hq : q = p
    · simp [SpinBarrier.leave, hq, weight]
    · simp only [SpinBarrier.leave, Function.update_of_ne hq]
      cases s.pc q with
      | asleep m =>
        simp only [WaitPc.wakeUp, weight]
        split <;> omega
      | idle | load | add | reset | flip | wake | futex | check => exact Nat.le_add_right _ _
  rwa [Finset.sum_add_distrib, Finset.sum_const_nat fun _ _ => rfl, Nat.mul_comm] at hsum

/-- Inside `wait` every step lowers the potential; only a participant that leaves may raise it, by
waking the others. -/
theorem Inv.potential_step {s t : SpinBarrier P} (h : Inv s) {spin : Nat} {p : P}
    (hstep : s.step spin p = some t) :
    (t.pc p ≠ .idle → potential spin t < potential spin s) ∧
      potential spin t ≤ potential spin s + 3 * Fintype.card P := by
  obtain ⟨e, he⟩ := h
  -- every step but the wake lowers the potential
  have hdown (ht : potential spin t < potential spin s) :
      (t.pc p ≠ .idle → potential spin t < potential spin s) ∧
        potential spin t ≤ potential spin s + 3 * Fintype.card P :=
    ⟨fun _ => ht, by omega⟩
  have hgoto (pc : WaitPc) (ht : t = s.goto p pc)
      (hlt : weight spin s.phase pc < weight spin s.phase (s.pc p)) :
      potential spin t < potential spin s := by
    subst ht
    apply potential_lt (p := p)
    · intro q hq
      simp [goto, hq]
    · simpa [goto] using hlt
  cases hp : s.pc p with
  | idle => simp [SpinBarrier.step, hp] at hstep
  | asleep my => simp [SpinBarrier.step, hp] at hstep
  | load =>
    simp only [SpinBarrier.step, hp, Option.some.injEq] at hstep
    exact hdown (hgoto _ hstep.symm (by simp [hp, weight]))
  | add my =>
    simp only [SpinBarrier.step, hp, Option.some.injEq] at hstep
    subst hstep
    apply hdown
    apply potential_lt (p := p)
    · intro q hq
      simp [goto, hq]
    · show weight spin s.phase (update s.pc p _ p) < weight spin s.phase (s.pc p)
      rw [Function.update_self, hp]
      by_cases hall : s.count + 1 = Fintype.card P
      · rw [if_pos hall]
        simp only [weight]
        omega
      · rw [if_neg hall]
        simp only [weight]
        split <;> omega
  | reset my =>
    simp only [SpinBarrier.step, hp, Option.some.injEq] at hstep
    subst hstep
    apply hdown
    apply potential_lt (p := p)
    · intro q hq
      simp [goto, hq]
    · simp [goto, hp, weight]
  | flip my =>
    simp only [SpinBarrier.step, hp, Option.some.injEq] at hstep
    subst hstep
    apply hdown
    apply potential_lt (p := p)
    · intro q hq
      simp only [goto, Function.update_of_ne hq]
      exact he.weight_flip hp spin q
    · simp [goto, hp, weight]
  | wake =>
    simp only [SpinBarrier.step, hp, Option.some.injEq] at hstep
    subst hstep
    constructor
    · intro hne
      simp [SpinBarrier.leave] at hne
    · -- each sleeper that is woken may gain up to 3
      exact potential_wake spin s p
  | check my spins =>
    simp only [SpinBarrier.step, hp] at hstep
    by_cases hphase : s.phase = my
    · rw [if_pos hphase, Option.some.injEq] at hstep
      refine hdown (hgoto _ hstep.symm ?_)
      by_cases hspins : spins > 0
      · rw [if_pos hspins, hp]
        simp only [weight, if_pos hphase]
        omega
      · rw [if_neg hspins, hp]
        simp only [weight, if_pos hphase]
        omega
    · rw [if_neg hphase, Option.some.injEq] at hstep
      subst hstep
      apply hdown
      apply potential_lt (p := p)
      · intro q hq
        simp [SpinBarrier.leave, hq]
      · simp [SpinBarrier.leave, hp, weight, hphase]
  | futex my =>
    simp only [SpinBarrier.step, hp, Option.some.injEq] at hstep
    refine hdown (hgoto _ hstep.symm ?_)
    by_cases hphase : s.phase = my
    · rw [if_pos hphase, hp]
      exact Nat.zero_lt_two
    · rw [if_neg hphase, hp]
      simp only [weight, if_neg hphase]
      omega

end SpinBarrier

end Gapbs
