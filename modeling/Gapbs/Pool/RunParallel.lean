import Gapbs.Conc.Forks
import Gapbs.Lib.Simulation
import Mathlib.Algebra.Order.BigOperators.Group.Finset
import Mathlib.Data.Fintype.BigOperators

/-!
# Programs on Caladan threads

`RunParallel` of the Caladan port: a parallel region spawns a thread for every worker but the first,
runs that one itself and waits on an `rt::WaitGroup`, to which every spawned thread reports.
-/

namespace Gapbs

open Conc Function

/-- `rt::WaitGroup`: `new count`, `Done()`, and whether `Wait()` would return. -/
structure WaitGroup (W : Type) where
  new : Nat → W
  done : W → W
  ready : W → Bool

/-- `Wait` blocks until `Done` has been called as often as the group has been told. -/
def WaitGroup.Counts {W : Type} (group : WaitGroup W) : Prop :=
  ∀ count k, k ≤ count → (group.ready (group.done^[k] (group.new count)) = true ↔ k = count)

/-- A counter of the calls that are still to come. -/
def WaitGroup.counter : WaitGroup Nat := ⟨id, Nat.pred, fun left => left == 0⟩

theorem WaitGroup.counter_counts : WaitGroup.counter.Counts := by
  intro count k hk
  simp only [counter, id_eq, Nat.pred_iterate, beq_iff_eq]
  omega

namespace Caladan

/-- Where the caller of `RunParallel` stands. -/
inductive CallerPc where
  /-- About to spawn worker `t`, if there is one. -/
  | spawn (t : Nat)
  /-- In `fn(0, nthreads, ctx)`. -/
  | inline
  | wait

/-- Where a spawned thread stands. -/
inductive FiberPc where
  | unborn
  /-- In `fn(t, nthreads, ctx)`. -/
  | running
  /-- About to call `wg.Done()`. -/
  | report
  | exited
deriving DecidableEq

/-- What the program is at: the caller's own code, or a call of `RunParallel`. -/
inductive Activity (W S α : Type) : Type 1 where
  | own (p : Prog S α)
  | region {m : Nat} {ρ : Type} (pc : CallerPc) (fiber : Fin m → FiberPc) (wg : W)
      (ps : Fin m → Prog S ρ) (k : (Fin m → ρ) → Prog S α)

/-- What is left of the program. -/
def Activity.prog {W S α : Type} : Activity W S α → Prog S α
  | own p => p
  | region _ _ _ ps k => .par ps k

variable {W S α : Type}

/-- The steps of the program: those of the caller's own code and of the workers, and the return from
`RunParallel`. -/
inductive Work (group : WaitGroup W) : Activity W S α × S → Activity W S α × S → Prop where
  | own {p q : Prog S α} {s t : S} (hpar : p.isPar = false) (h : p.Step s q t) :
      Work group (.own p, s) (.own q, t)
  /-- The caller works as worker 0. -/
  | inline {m : Nat} {ρ : Type} {fiber : Fin m → FiberPc} {wg : W} {ps : Fin m → Prog S ρ}
      {k : (Fin m → ρ) → Prog S α} {s t : S} {q : Prog S ρ} (w : Fin m) (hw : w.val = 0)
      (hpar : (ps w).isPar = false) (h : (ps w).Step s q t) :
      Work group (.region .inline fiber wg ps k, s) (.region .inline fiber wg (update ps w q) k, t)
  | fiber {m : Nat} {ρ : Type} {pc : CallerPc} {fiber : Fin m → FiberPc} {wg : W}
      {ps : Fin m → Prog S ρ} {k : (Fin m → ρ) → Prog S α} {s t : S} {q : Prog S ρ} (w : Fin m)
      (hw : fiber w = .running) (hpar : (ps w).isPar = false) (h : (ps w).Step s q t) :
      Work group (.region pc fiber wg ps k, s) (.region pc fiber wg (update ps w q) k, t)
  | join {m : Nat} {ρ : Type} {fiber : Fin m → FiberPc} {wg : W} {ps : Fin m → Prog S ρ}
      {k : (Fin m → ρ) → Prog S α} {s : S} {r : Fin m → ρ} (hready : group.ready wg = true)
      (hret : ∀ w, ps w = .ret (r w)) :
      Work group (.region .wait fiber wg ps k, s) (.own (k r), s)

/-- The steps of `RunParallel` and of the threads that it spawns. -/
inductive Manage (group : WaitGroup W) : Activity W S α × S → Activity W S α × S → Prop where
  | call {m : Nat} {ρ : Type} {ps : Fin m → Prog S ρ} {k : (Fin m → ρ) → Prog S α} {s : S}
      (hm : 1 < m) :
      Manage group (.own (.par ps k), s)
        (.region (.spawn 1) (fun _ => .unborn) (group.new (m - 1)) ps k, s)
  | spawn {m : Nat} {ρ : Type} {fiber : Fin m → FiberPc} {wg : W} {ps : Fin m → Prog S ρ}
      {k : (Fin m → ρ) → Prog S α} {s : S} (t : Fin m) :
      Manage group (.region (.spawn t) fiber wg ps k, s)
        (.region (.spawn (t + 1)) (update fiber t .running) wg ps k, s)
  | spawned {m : Nat} {ρ : Type} {fiber : Fin m → FiberPc} {wg : W} {ps : Fin m → Prog S ρ}
      {k : (Fin m → ρ) → Prog S α} {s : S} {t : Nat} (ht : m ≤ t) :
      Manage group (.region (.spawn t) fiber wg ps k, s) (.region .inline fiber wg ps k, s)
  | inlined {m : Nat} {ρ : Type} {fiber : Fin m → FiberPc} {wg : W} {ps : Fin m → Prog S ρ}
      {k : (Fin m → ρ) → Prog S α} {s : S} {r : ρ} (w : Fin m) (hw : w.val = 0)
      (hret : ps w = .ret r) :
      Manage group (.region .inline fiber wg ps k, s) (.region .wait fiber wg ps k, s)
  | finish {m : Nat} {ρ : Type} {pc : CallerPc} {fiber : Fin m → FiberPc} {wg : W}
      {ps : Fin m → Prog S ρ} {k : (Fin m → ρ) → Prog S α} {s : S} {r : ρ} (w : Fin m)
      (hw : fiber w = .running) (hret : ps w = .ret r) :
      Manage group (.region pc fiber wg ps k, s) (.region pc (update fiber w .report) wg ps k, s)
  | report {m : Nat} {ρ : Type} {pc : CallerPc} {fiber : Fin m → FiberPc} {wg : W}
      {ps : Fin m → Prog S ρ} {k : (Fin m → ρ) → Prog S α} {s : S} (w : Fin m)
      (hw : fiber w = .report) :
      Manage group (.region pc fiber wg ps k, s)
        (.region pc (update fiber w .exited) (group.done wg) ps k, s)

/-- One step of the caller or of a spawned thread. -/
def Step (group : WaitGroup W) (c d : Activity W S α × S) : Prop := Work group c d ∨ Manage group c d

/-- What must not happen. -/
inductive Fails (group : WaitGroup W) : Activity W S α × S → Prop where
  /-- The caller or a thread performs an undefined operation. -/
  | undefined {act : Activity W S α} {s : S} (h : act.prog.Fails s) : Fails group (act, s)
  /-- `RunParallel` returns, and with it the group and the context of the threads are gone, while a
  worker has not returned or a spawned thread has not left. -/
  | early {m : Nat} {ρ : Type} {fiber : Fin m → FiberPc} {wg : W} {ps : Fin m → Prog S ρ}
      {k : (Fin m → ρ) → Prog S α} {s : S} (hready : group.ready wg = true) (w : Fin m)
      (h : (∀ r, ps w ≠ .ret r) ∨ (w.val ≠ 0 ∧ fiber w ≠ .exited)) :
      Fails group (.region .wait fiber wg ps k, s)
  /-- A worker forks again. -/
  | nested {m : Nat} {ρ : Type} {pc : CallerPc} {fiber : Fin m → FiberPc} {wg : W}
      {ps : Fin m → Prog S ρ} {k : (Fin m → ρ) → Prog S α} {s : S} (w : Fin m)
      (h : (ps w).isPar = true) : Fails group (.region pc fiber wg ps k, s)

/-- The program of a caller of `RunParallel`: it forks at least two threads, which fork nothing. -/
def Spawns (p : Prog S α) : Prop := p.ForksOnly fun m _ ps => 1 < m ∧ ∀ i, (ps i).Sequential

theorem Spawns.fork {m : Nat} {ρ : Type} {ps : Fin m → Prog S ρ} (hm : 1 < m)
    (h : ∀ i, (ps i).Sequential) : Spawns (Prog.fork ps) :=
  ⟨⟨hm, h⟩, fun _ => trivial⟩

/-! ## The invariant -/

/-- The threads that have reported to the group. -/
def exited {m : Nat} (fiber : Fin m → FiberPc) : Finset (Fin m) :=
  Finset.univ.filter fun w => fiber w = .exited

theorem mem_exited {m : Nat} {fiber : Fin m → FiberPc} {w : Fin m} :
    w ∈ exited fiber ↔ fiber w = .exited := Finset.mem_filter_univ w

/-- A thread moves on, but not out. -/
theorem exited_update_of_ne {m : Nat} {fiber : Fin m → FiberPc} {w : Fin m} {pc : FiberPc}
    (hw : fiber w ≠ .exited) (hpc : pc ≠ .exited) : exited (update fiber w pc) = exited fiber := by
  ext v
  rw [mem_exited, mem_exited]
  by_cases hv : v = w
  · subst hv
    simp [hw, hpc]
  · rw [update_of_ne hv]

theorem card_exited_update {m : Nat} {fiber : Fin m → FiberPc} {w : Fin m}
    (hw : fiber w ≠ .exited) :
    (exited (update fiber w .exited)).card = (exited fiber).card + 1 := by
  have hinsert : exited (update fiber w .exited) = insert w (exited fiber) := by
    ext v
    rw [Finset.mem_insert, mem_exited, mem_exited]
    by_cases hv : v = w
    · subst hv
      simp
    · simp [hv]
  rw [hinsert, Finset.card_insert_of_notMem (mem_exited.not.mpr hw)]

/-- The caller has spawned worker `w`. -/
def CallerPc.HasSpawned (w : Nat) : CallerPc → Prop
  | spawn t => w ≠ 0 ∧ w < t
  | inline | wait => w ≠ 0

/-- A region on its way. -/
structure RegionOk {m : Nat} {ρ : Type} (group : WaitGroup W) (pc : CallerPc) (fiber : Fin m → FiberPc)
    (wg : W) (ps : Fin m → Prog S ρ) : Prop where
  team : 1 < m
  next : ∀ t, pc = .spawn t → 0 < t
  unborn : ∀ w, fiber w = .unborn ↔ ¬ pc.HasSpawned w.val
  wg : wg = group.done^[(exited fiber).card] (group.new (m - 1))
  ended : ∀ w, fiber w = .report ∨ fiber w = .exited → ∃ r, ps w = .ret r
  inlined : pc = .wait → ∀ w : Fin m, w.val = 0 → ∃ r, ps w = .ret r
  sequential : ∀ w, (ps w).Sequential

/-- What holds in every reachable state. -/
def Inv (group : WaitGroup W) : Activity W S α → Prop
  | .own p => Spawns p
  | .region pc fiber wg ps k => RegionOk group pc fiber wg ps ∧ ∀ r, Spawns (k r)

section Region

variable {group : WaitGroup W} {m : Nat} {ρ : Type} {pc : CallerPc} {fiber : Fin m → FiberPc} {wg : W}
  {ps : Fin m → Prog S ρ}

theorem RegionOk.start (hm : 1 < m) (hseq : ∀ w, (ps w).Sequential) :
    RegionOk group (.spawn 1) (fun _ => .unborn) (group.new (m - 1)) ps where
  team := hm
  next := by
    intro t ht
    cases ht
    exact Nat.one_pos
  unborn w := by
    refine ⟨fun _ hspawned => ?_, fun _ => rfl⟩
    exact hspawned.1 (by have hlt := hspawned.2; omega)
  wg := by
    have hnone : exited (fun _ : Fin m => FiberPc.unborn) = ∅ := by
      ext w
      simp [mem_exited]
    rw [hnone, Finset.card_empty]
    rfl
  ended := by
    intro w hw
    rcases hw with hw | hw <;> cases hw
  inlined := nofun
  sequential := hseq

/-- A thread of the region performs a step. -/
theorem RegionOk.move (h : RegionOk group pc fiber wg ps) {w : Fin m} {q : Prog S ρ} {s t : S}
    (hw : fiber w = .running ∨ (pc = .inline ∧ w.val = 0)) (hstep : (ps w).Step s q t) :
    RegionOk group pc fiber wg (update ps w q) := by
  have hrunning : ∀ r, ps w ≠ .ret r := by
    rintro r hr
    rw [hr] at hstep
    exact hstep
  refine ⟨h.team, h.next, h.unborn, h.wg, fun v hv => ?_, fun hpc v hv => ?_, fun v => ?_⟩
  · obtain ⟨r, hr⟩ := h.ended v hv
    have hvw : v ≠ w := by
      rintro rfl
      exact hrunning r hr
    exact ⟨r, by rw [update_of_ne hvw, hr]⟩
  · obtain ⟨r, hr⟩ := h.inlined hpc v hv
    have hvw : v ≠ w := by
      rintro rfl
      exact hrunning r hr
    exact ⟨r, by rw [update_of_ne hvw, hr]⟩
  · by_cases hvw : v = w
    · subst hvw
      rw [update_self]
      exact (h.sequential v).step hstep
    · rw [update_of_ne hvw]
      exact h.sequential v

/-- A spawned thread returns from its part, or reports. -/
theorem RegionOk.advance (h : RegionOk group pc fiber wg ps) {w : Fin m} {next : FiberPc} {wg' : W}
    (hborn : fiber w ≠ .unborn) (hnext : next ≠ .unborn) (hret : ∃ r, ps w = .ret r)
    (hwg : wg' = group.done^[(exited (update fiber w next)).card] (group.new (m - 1))) :
    RegionOk group pc (update fiber w next) wg' ps := by
  refine ⟨h.team, h.next, fun v => ?_, hwg, fun v hv => ?_, h.inlined, h.sequential⟩
  · by_cases hvw : v = w
    · subst hvw
      rw [update_self]
      exact ⟨fun heq => absurd heq hnext, fun hnot => absurd ((h.unborn v).mpr hnot) hborn⟩
    · rw [update_of_ne hvw]
      exact h.unborn v
  · by_cases hvw : v = w
    · exact hvw ▸ hret
    · rw [update_of_ne hvw] at hv
      exact h.ended v hv

theorem RegionOk.spawn {t : Fin m} (h : RegionOk group (.spawn t) fiber wg ps) :
    RegionOk group (.spawn (t + 1)) (update fiber t .running) wg ps := by
  have hpos := h.next _ rfl
  have hunborn : fiber t = .unborn := (h.unborn t).mpr fun hspawned => lt_irrefl _ hspawned.2
  refine ⟨h.team, ?_, fun v => ?_, ?_, fun v hv => ?_, nofun, h.sequential⟩
  · intro u hu
    cases hu
    exact Nat.succ_pos _
  · by_cases hvt : v = t
    · subst hvt
      simp [CallerPc.HasSpawned, hpos.ne']
    · have hval : v.val ≠ t.val := fun heq => hvt (Fin.ext heq)
      rw [update_of_ne hvt, h.unborn v]
      simp only [CallerPc.HasSpawned]
      omega
  · have hsame : exited (update fiber t .running) = exited fiber :=
      exited_update_of_ne (by simp [hunborn]) nofun
    rw [hsame]
    exact h.wg
  · by_cases hvt : v = t
    · subst hvt
      rw [update_self] at hv
      rcases hv with hv | hv <;> cases hv
    · rw [update_of_ne hvt] at hv
      exact h.ended v hv

theorem RegionOk.spawned {t : Nat} (ht : m ≤ t) (h : RegionOk group (.spawn t) fiber wg ps) :
    RegionOk group .inline fiber wg ps := by
  refine ⟨h.team, nofun, fun v => ?_, h.wg, h.ended, nofun, h.sequential⟩
  rw [h.unborn v]
  have hlt : v.val < t := by omega
  simp [CallerPc.HasSpawned, hlt]

theorem RegionOk.wait {w : Fin m} {r : ρ} (h : RegionOk group .inline fiber wg ps) (hw : w.val = 0)
    (hret : ps w = .ret r) : RegionOk group .wait fiber wg ps := by
  refine ⟨h.team, nofun, h.unborn, h.wg, h.ended, fun _ v hv => ?_, h.sequential⟩
  obtain rfl : v = w := Fin.ext (hv.trans hw.symm)
  exact ⟨r, hret⟩

/-- `Wait` lets the caller pass when all others have left. -/
theorem RegionOk.joined (hgroup : group.Counts) (h : RegionOk group .wait fiber wg ps) :
    group.ready wg = true ↔ ∀ w : Fin m, w.val ≠ 0 → fiber w = .exited := by
  have hteam := h.team
  have hzero : fiber ⟨0, by omega⟩ = .unborn := (h.unborn _).mpr fun hspawned => hspawned rfl
  have hsub : exited fiber ⊆ Finset.univ.erase ⟨0, by omega⟩ := by
    intro w hw
    rw [mem_exited] at hw
    refine Finset.mem_erase.mpr ⟨?_, Finset.mem_univ w⟩
    rintro rfl
    cases hzero.symm.trans hw
  have hcard : (Finset.univ.erase (⟨0, by omega⟩ : Fin m)).card = m - 1 := by
    rw [Finset.card_erase_of_mem (Finset.mem_univ _), Finset.card_univ, Fintype.card_fin]
  rw [h.wg, hgroup _ _ (hcard ▸ Finset.card_le_card hsub)]
  constructor
  · intro hall w hw
    have heq := Finset.eq_of_subset_of_card_le hsub (by rw [hcard, hall])
    have hmem : w ∈ exited fiber := by
      rw [heq, Finset.mem_erase]
      exact ⟨fun hzero => hw (by rw [hzero]), Finset.mem_univ w⟩
    exact mem_exited.mp hmem
  · intro hall
    rw [← hcard]
    congr 1
    refine Finset.Subset.antisymm hsub fun w hw => mem_exited.mpr (hall w fun hval => ?_)
    exact (Finset.mem_erase.mp hw).1 (Fin.ext hval)

end Region

theorem Inv.work {group : WaitGroup W} {c d : Activity W S α × S} (h : Inv group c.1)
    (hstep : Work group c d) : Inv group d.1 := by
  cases hstep with
  | own hpar hp => exact Prog.ForksOnly.step h hpar hp
  | inline w hw hpar hp => exact ⟨h.1.move (.inr ⟨rfl, hw⟩) hp, h.2⟩
  | fiber w hw hpar hp => exact ⟨h.1.move (.inl hw) hp, h.2⟩
  | join hready hret => exact h.2 _

theorem Inv.manage {group : WaitGroup W} {c d : Activity W S α × S} (h : Inv group c.1)
    (hstep : Manage group c d) : Inv group d.1 := by
  cases hstep with
  | call hm => exact ⟨.start hm h.1.2, h.2⟩
  | spawn t => exact ⟨h.1.spawn, h.2⟩
  | spawned ht => exact ⟨h.1.spawned ht, h.2⟩
  | inlined w hw hret => exact ⟨h.1.wait hw hret, h.2⟩
  | @finish m ρ pc fiber wg ps k s r w hw hret =>
    have hsame : exited (update fiber w .report) = exited fiber :=
      exited_update_of_ne (by simp [hw]) nofun
    refine ⟨h.1.advance (by simp [hw]) nofun ⟨r, hret⟩ ?_, h.2⟩
    rw [hsame]
    exact h.1.wg
  | @report m ρ pc fiber wg ps k s w hw =>
    refine ⟨h.1.advance (by simp [hw]) nofun (h.1.ended w (.inl hw)) ?_, h.2⟩
    rw [card_exited_update (by simp [hw]), iterate_succ_apply', ← h.1.wg]

/-! ## Every region comes to its end -/

/-- How many transitions of its own the caller is away from the end of the region. -/
def CallerPc.remaining (m : Nat) : CallerPc → Nat
  | spawn t => m - t + 2
  | inline => 1
  | wait => 0

def FiberPc.remaining : FiberPc → Nat
  | unborn => 3
  | running => 2
  | report => 1
  | exited => 0

/-- How many threads the program is about to fork. -/
def width : {α : Type} → Prog S α → Nat
  | _, .par (n := n) _ _ => n
  | _, _ => 0

def Activity.remaining : Activity W S α → Nat
  | own p => 4 * width p + 2
  | region (m := m) pc fiber _ _ _ => pc.remaining m + ∑ w, (fiber w).remaining

theorem sum_remaining_update {m : Nat} {fiber : Fin m → FiberPc} {w : Fin m} {pc : FiberPc}
    (h : pc.remaining < (fiber w).remaining) :
    ∑ v, (update fiber w pc v).remaining < ∑ v, (fiber v).remaining := by
  refine Finset.sum_lt_sum (fun v _ => ?_) ⟨w, Finset.mem_univ w, by rwa [update_self]⟩
  by_cases hvw : v = w
  · subst hvw
    rw [update_self]
    exact h.le
  · rw [update_of_ne hvw]

/-- The program does not see what brings the region nearer to its end. -/
theorem Inv.remaining_manage {group : WaitGroup W} {c d : Activity W S α × S} (h : Inv group c.1)
    (hstep : Manage group c d) :
    (d.1.prog, d.2) = (c.1.prog, c.2) ∧ d.1.remaining < c.1.remaining := by
  cases hstep with
  | @call m ρ ps k s hm =>
    refine ⟨rfl, ?_⟩
    simp only [Activity.remaining, width, CallerPc.remaining, FiberPc.remaining, Finset.sum_const,
      Finset.card_univ, Fintype.card_fin, smul_eq_mul]
    omega
  | @spawn m ρ fiber wg ps k s t =>
    refine ⟨rfl, ?_⟩
    have hunborn : fiber t = .unborn := (h.1.unborn t).mpr fun hspawned => lt_irrefl _ hspawned.2
    have hdown : ∑ v, (update fiber t .running v).remaining < ∑ v, (fiber v).remaining := by
      apply sum_remaining_update
      rw [hunborn]
      decide
    simp only [Activity.remaining, CallerPc.remaining]
    omega
  | spawned ht =>
    refine ⟨rfl, ?_⟩
    simp only [Activity.remaining, CallerPc.remaining]
    omega
  | inlined w hw hret =>
    refine ⟨rfl, ?_⟩
    simp only [Activity.remaining, CallerPc.remaining]
    omega
  | finish w hw hret =>
    refine ⟨rfl, Nat.add_lt_add_left (sum_remaining_update ?_) _⟩
    rw [hw]
    decide
  | report w hw =>
    refine ⟨rfl, Nat.add_lt_add_left (sum_remaining_update ?_) _⟩
    rw [hw]
    decide

theorem next_of_work {group : WaitGroup W} {c d : Activity W S α × S} (hstep : Work group c d) :
    Prog.Next (c.1.prog, c.2) (d.1.prog, d.2) := by
  cases hstep with
  | own hpar hp => exact hp
  | inline w hw hpar hp => exact .inl ⟨w, _, hp, rfl⟩
  | fiber w hw hpar hp => exact .inl ⟨w, _, hp, rfl⟩
  | join hready hret => exact .inr ⟨_, hret, rfl, rfl⟩

/-- The threads of a region in which `RunParallel` has nothing to do: each works on its part until this
has returned. -/
theorem RegionOk.quiet {group : WaitGroup W} {m : Nat} {ρ : Type} {pc : CallerPc}
    {fiber : Fin m → FiberPc} {wg : W} {ps : Fin m → Prog S ρ} {k : (Fin m → ρ) → Prog S α} {s : S}
    (h : RegionOk group pc fiber wg ps)
    (hquiet : ∀ d, ¬ Manage group (.region pc fiber wg ps k, s) d) (w : Fin m) :
    fiber w = .running ∨ (pc = .inline ∧ w.val = 0) ∨
      (pc = .wait ∧ w.val = 0) ∨ fiber w = .exited := by
  cases pc with
  | spawn t =>
    by_cases ht : t < m
    · exact (hquiet _ (.spawn ⟨t, ht⟩)).elim
    · exact (hquiet _ (.spawned (by omega))).elim
  | inline | wait =>
    cases hpc : fiber w with
    | running => exact .inl rfl
    | exited => exact .inr (.inr (.inr rfl))
    | report => exact (hquiet _ (.report w hpc)).elim
    | unborn =>
      have hzero := (h.unborn w).mp hpc
      simp only [CallerPc.HasSpawned, not_not] at hzero
      simp [hzero]

/-- The steps of the program are those that `RunParallel` leaves to it. -/
theorem covers {group : WaitGroup W} (hgroup : group.Counts) :
    Stuttering.Covers (Step group) Prog.Next
      (fun c : Activity W S α × S => (c.1.prog, c.2)) (fun c => Inv group c.1)
      fun c => c.1.remaining := by
  refine ⟨⟨fun c d h hstep => hstep.elim h.work h.manage, fun c d h hstep => ?_⟩, ?_⟩
  · exact hstep.elim (fun hwork => .inl (next_of_work hwork)) fun hmanage => .inr (h.remaining_manage hmanage)
  · rintro ⟨act, s⟩ ⟨q, t⟩ h hquiet hnext
    have hmanage (d : Activity W S α × S) : ¬ Manage group (act, s) d := fun hstep =>
      hquiet d (.inr hstep) (Inv.remaining_manage (c := (act, s)) h hstep)
    cases act with
    | own p =>
      cases p with
      | par ps k => exact (hmanage _ (.call h.1.1)).elim
      | _ => exact ⟨(.own q, t), .inl (.own rfl hnext), rfl⟩
    | @region m ρ pc fiber wg ps k =>
      obtain ⟨hregion, -⟩ := h
      have hwhere := hregion.quiet (k := k) (s := s) hmanage
      rcases hnext with ⟨w, p', hstep, rfl⟩ | ⟨r, hret, rfl, rfl⟩
      · have hrunning (r : ρ) : ps w ≠ .ret r := by
          intro hr
          dsimp only at hstep
          rw [hr] at hstep
          exact hstep
        rcases hwhere w with hw | ⟨rfl, hzero⟩ | ⟨rfl, hzero⟩ | hw
        · exact ⟨_, .inl (.fiber w hw (hregion.sequential w).isPar hstep), rfl⟩
        · exact ⟨_, .inl (.inline w hzero (hregion.sequential w).isPar hstep), rfl⟩
        · obtain ⟨r, hr⟩ := hregion.inlined rfl w hzero
          exact (hrunning r hr).elim
        · obtain ⟨r, hr⟩ := hregion.ended w (.inr hw)
          exact (hrunning r hr).elim
      · have hteam := hregion.team
        have hall (w : Fin m) (hw : w.val ≠ 0) : fiber w = .exited := by
          rcases hwhere w with hrun | ⟨-, hzero⟩ | ⟨-, hzero⟩ | hexited
          · exact (hmanage _ (.finish w hrun (hret w))).elim
          · exact absurd hzero hw
          · exact absurd hzero hw
          · exact hexited
        cases pc with
        | spawn u =>
          by_cases hu : u < m
          · exact (hmanage _ (.spawn ⟨u, hu⟩)).elim
          · exact (hmanage _ (.spawned (by omega))).elim
        | inline => exact (hmanage _ (.inlined ⟨0, by omega⟩ rfl (hret _))).elim
        | wait => exact ⟨(.own (k r), _), .inl (.join ((hregion.joined hgroup).mpr hall) hret), rfl⟩

/-! ## The program as a whole -/

theorem Inv.not_fails {group : WaitGroup W} (hgroup : group.Counts) {act : Activity W S α} {s : S}
    (h : Inv group act) (hsafe : ¬ act.prog.Fails s) : ¬ Fails group (act, s) := by
  intro hfails
  cases hfails with
  | undefined hf => exact hsafe hf
  | nested w hpar =>
    rw [(h.1.sequential w).isPar] at hpar
    cases hpar
  | early hready w hw =>
    have hall := (h.1.joined hgroup).mp hready
    by_cases hzero : w.val = 0
    · obtain ⟨r, hr⟩ := h.1.inlined rfl w hzero
      rcases hw with hret | ⟨hne, -⟩
      · exact hret r hr
      · exact hne hzero
    · obtain ⟨r, hr⟩ := h.1.ended w (.inr (hall w hzero))
      rcases hw with hret | ⟨-, hleft⟩
      · exact hret r hr
      · exact hleft (hall w hzero)

/-- Nothing blocks before the program has returned. -/
theorem Inv.returned_of_stuck {group : WaitGroup W} (hgroup : group.Counts) {act : Activity W S α}
    {s : S} (h : Inv group act) (hsafe : ¬ act.prog.Fails s)
    (hstuck : ∀ d, ¬ Step group (act, s) d) : ∃ a, act = .own (.ret a) := by
  rcases act.prog.progress s with ⟨a, ha⟩ | hf | ⟨q, t, hstep⟩
  · cases act with
    | own p => exact ⟨a, congrArg _ ha⟩
    | region pc fiber wg ps k => cases ha
  · exact absurd hf hsafe
  · exact absurd hstep ((covers hgroup).stuck (c := (act, s)) h hstuck (q, t))

/-- What the program does under every interleaving of its parallel blocks it does on Caladan threads:
it comes to its end, and nothing undefined happens on the way. -/
structure Runs (group : WaitGroup W) (p : Prog S α) (s : S) (Q : α → S → Prop) : Prop where
  terminates : Acc (fun d c => Step group c d) (Activity.own p, s)
  safe : ∀ d, Relation.ReflTransGen (Step group) (.own p, s) d → ¬ Fails group d
  interleaving : ∀ d, Relation.ReflTransGen (Step group) (.own p, s) d →
    Prog.Reach (p, s) (d.1.prog, d.2)
  result : ∀ d, Relation.ReflTransGen (Step group) (.own p, s) d → (∀ e, ¬ Step group d e) →
    ∃ a, d.1 = .own (.ret a) ∧ Q a d.2

/-- `RunParallel` implements fork and join. -/
theorem runs_of_correct {group : WaitGroup W} (hgroup : group.Counts) {p : Prog S α} (hp : Spawns p)
    {s : S} {Q : α → S → Prop} (h : p.Correct s Q) : Runs group p s Q := by
  have hcovers := covers (S := S) (α := α) hgroup
  have hreach (d : Activity W S α × S) (hd : Relation.ReflTransGen (Step group) (.own p, s) d) :=
    hcovers.reach (c := (.own p, s)) (show Inv group (.own p) from hp) hd
  refine ⟨hcovers.terminates (c := (.own p, s)) hp h.terminates, fun d hd => ?_,
    fun d hd => (hreach d hd).2, fun d hd hstuck => ?_⟩
  · obtain ⟨hinv, hrun⟩ := hreach d hd
    exact hinv.not_fails hgroup (h.safe _ _ hrun)
  · obtain ⟨hinv, hrun⟩ := hreach d hd
    obtain ⟨a, ha⟩ := hinv.returned_of_stuck hgroup (h.safe _ _ hrun) hstuck
    refine ⟨a, ha, h.result a d.2 ?_⟩
    rw [ha] at hrun
    exact hrun

/-- A program runs on Caladan threads as it should exactly when it does so under every interleaving of
its parallel blocks. -/
theorem runParallel_iff {group : WaitGroup W} (hgroup : group.Counts) {p : Prog S α} (hp : Spawns p)
    {s : S} {Q : α → S → Prop} : Runs group p s Q ↔ p.Correct s Q := by
  refine ⟨fun h => ?_, fun h => runs_of_correct hgroup hp h⟩
  have hcovers := covers (S := S) (α := α) hgroup
  have hinit : Inv group (.own p : Activity W S α) := hp
  refine ⟨hcovers.acc (c := (.own p, s)) hinit h.terminates, fun q t hr hf => ?_, fun a t hr => ?_⟩
  · obtain ⟨⟨act, u⟩, hd, -, heq⟩ := hcovers.reaches (c := (.own p, s)) hinit hr
    obtain ⟨rfl, rfl⟩ := Prod.mk.inj heq
    exact h.safe _ hd (.undefined hf)
  · -- the caller of a program that has returned is in its own code
    obtain ⟨⟨act, u⟩, hd, hinv, heq⟩ := hcovers.reaches (c := (.own p, s)) hinit hr
    obtain ⟨hret, rfl⟩ := Prod.mk.inj heq
    cases act with
    | region pc fiber wg ps k => cases hret
    | own q =>
      obtain rfl : q = .ret a := hret
      obtain ⟨b, hb, hQ⟩ := h.result _ hd fun e he => by
        rcases he with hwork | hmanage
        · cases hwork with
          | own _ hstep => exact hstep
        · cases hmanage
      cases hb
      exact hQ

/-- Two threads that add to one counter. -/
theorem runParallel_iff_two :
    Runs .counter (Prog.fork fun _ : Fin 2 => .store fun x : Nat => x + 1) 0 (fun _ x => x = 2) ↔
      (Prog.fork fun _ : Fin 2 => .store fun x : Nat => x + 1).Correct 0 fun _ x => x = 2 :=
  runParallel_iff WaitGroup.counter_counts (.fork (by decide) fun _ => .store _)

end Caladan

end Gapbs
