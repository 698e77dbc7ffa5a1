import Gapbs.Bfs.Dobfs
import Gapbs.Pool.Process
import Gapbs.Pool.RunParallel

/-!
# DOBFS on its run-time systems

The parallel regions of the two ports are forks of the whole team, and no worker forks.  So the pthread
port runs on the thread pool and the Caladan port on `RunParallel` as the interleavings of their
regions say.
-/

namespace Gapbs

open Conc

variable {S ρ X : Type} {n : Nat}

/-- Every parallel block of the program is the team of `T` workers, none of which forks; the Caladan
port forks only for more than one. -/
def Port.Forks (p : Port) (T : Nat) {α : Type} (prog : Prog S α) : Prop :=
  prog.ForksOnly fun m _ ps => m = T ∧ (p = .caladan → 1 < T) ∧ ∀ i, (ps i).Sequential

/-! ## The regions -/

theorem runParallel_forks {T : Nat} {fn : Nat → Nat → Prog S ρ}
    (h : ∀ tid nthreads, (fn tid nthreads).Sequential) : Port.caladan.Forks T (runParallel T fn) := by
  rw [runParallel]
  split
  · exact ((h 0 1).forksOnly _).bind fun _ => .ret _
  · next hlt => exact ⟨⟨rfl, fun _ => by omega, fun i => h i T⟩, fun _ => .ret _⟩

theorem Port.share_forks (p : Port) {T m : Nat} [NeZero T] {worker : List (Fin m) → Prog S ρ}
    (h : ∀ work, (worker work).Sequential) : p.Forks T (p.share T m worker) := by
  cases p with
  | openMP => exact (Prog.ForksOnly.pick _).bind fun sched => ⟨⟨rfl, nofun, fun t => h _⟩, fun _ => .ret _⟩
  | pthread => exact ⟨⟨rfl, nofun, fun t => h _⟩, fun _ => .ret _⟩
  | caladan => exact runParallel_forks fun tid nthreads => h _

theorem Port.claim_forks (p : Port) {T m chunk : Nat} [NeZero T] [Zero X] {cursor : Lens S Nat}
    {body : Nat → X → Prog S X} (h : ∀ start x, (body start x).Sequential) :
    p.Forks T (p.claim T cursor m chunk body) := by
  have hloop : (Prog.claimLoop cursor m chunk body 0).Sequential := Prog.Sequential.claimLoop 0 h
  cases p with
  | openMP =>
    refine (Prog.ForksOnly.pick _).bind fun sched => ⟨⟨rfl, nofun, fun t => ?_⟩, fun _ => .ret _⟩
    exact Prog.ForksOnly.forEach _ _ fun i x => h _ x
  | pthread => exact (Prog.ForksOnly.store _).bind fun _ => ⟨⟨rfl, nofun, fun _ => hloop⟩, fun _ => .ret _⟩
  | caladan => exact (Prog.ForksOnly.store _).bind fun _ => runParallel_forks fun _ _ => hloop

/-! ## The workers -/

theorem setBit_sequential (u : Fin n) : (Bitmap.setBit u).Sequential :=
  (Prog.ForksOnly.load _).bind fun _ => .store _

theorem setBitAtomic_sequential (u : Fin n) : (Bitmap.setBitAtomic u).Sequential := by
  refine Prog.ForksOnly.iter () fun _ => (Prog.ForksOnly.load _).bind fun oldVal => ?_
  refine (Prog.ForksOnly.op _).bind fun swapped => ?_
  cases swapped <;> exact .ret _

theorem flush_sequential {α : Type} {capacity : Nat} (localQueue : List α) :
    (QueueBuffer.flush localQueue : Prog (SlidingQueue α capacity) Unit).Sequential := by
  refine (Prog.ForksOnly.op _).bind fun copyStart => ?_
  refine (Prog.ForksOnly.forEach _ _ fun x k => ?_).bind fun _ => .ret _
  exact (Prog.ForksOnly.storeAt _).bind fun _ => .ret _

theorem pushBack_sequential {α : Type} {capacity : Nat} (localSize : Nat) (localQueue : List α)
    (toAdd : α) : (QueueBuffer.pushBack localSize localQueue toAdd :
      Prog (SlidingQueue α capacity) (List α)).Sequential := by
  have hadd (buffer : List α) : (if buffer.length < localSize then Prog.ret (buffer ++ [toAdd]) else
      .fail : Prog (SlidingQueue α capacity) (List α)).Sequential := by
    split
    · exact .ret _
    · exact .fail
  unfold QueueBuffer.pushBack
  split
  · exact (flush_sequential _).bind fun _ => hadd _
  · exact hadd _

theorem tdVisit_sequential (u v : Fin n) (acc : List (Fin n) × Int) : (tdVisit u v acc).Sequential := by
  refine (Prog.ForksOnly.load _).bind fun currVal => ?_
  split
  · refine (Prog.ForksOnly.op _).bind fun swapped => ?_
    split
    · refine ((pushBack_sequential _ _ _).zoom _).bind fun lqueue => ?_
      split
      · exact .fail
      · exact .ret _
    · exact .ret _
  · exact .ret _

theorem buVertex_sequential (g : Graph n) (u : Fin n) (awakeCount : Int) :
    (buVertex g u awakeCount).Sequential := by
  refine (Prog.ForksOnly.load _).bind fun val => ?_
  split
  · refine (Prog.ForksOnly.forBreak _ _ fun v _ => (Prog.ForksOnly.load _).bind fun bit => ?_).bind fun r => ?_
    · split
      · refine (Prog.ForksOnly.store _).bind fun _ => ?_
        exact ((setBit_sequential u).zoom _).bind fun _ => .ret _
      · exact .ret _
    · cases r <;> exact .ret _
  · exact .ret _

/-! ## The steps -/

section Steps

variable (p : Port) (T : Nat) [NeZero T] (g : Graph n)

theorem initParent_forks : p.Forks T (initParent p T g) :=
  (p.share_forks fun _ => .forEach _ _ fun _ _ => .store _).bind fun _ => .ret _

theorem cleanupParent_forks : p.Forks T (cleanupParent (n := n) p T) := by
  refine (p.share_forks fun work => Prog.ForksOnly.forEach _ _ fun v _ => ?_).bind fun _ => .ret _
  refine (Prog.ForksOnly.load _).bind fun val => ?_
  split
  · exact .store _
  · exact .ret _

theorem queueToBitmap_forks : p.Forks T (queueToBitmap (n := n) p T) := by
  refine (Prog.ForksOnly.load _).bind fun len => ?_
  refine (p.share_forks fun work => Prog.ForksOnly.forEach _ _ fun i _ => ?_).bind fun _ => .ret _
  exact (Prog.ForksOnly.loadAt _).bind fun u => (setBitAtomic_sequential u).zoom _

theorem bitmapToQueue_forks : p.Forks T (bitmapToQueue (n := n) p T) := by
  refine (p.share_forks fun work => Prog.ForksOnly.bind ?_ fun lqueue => ?_).bind fun _ => .store _
  · refine Prog.ForksOnly.forEach _ _ fun v lqueue => (Prog.ForksOnly.load _).bind fun bit => ?_
    split
    · exact (pushBack_sequential _ _ _).zoom _
    · exact .ret _
  · exact (flush_sequential _).zoom _

theorem tdStep_forks : p.Forks T (tdStep p T g) := by
  refine (Prog.ForksOnly.load _).bind fun len => ?_
  refine (p.share_forks fun work => Prog.ForksOnly.bind ?_ fun acc => ?_).bind fun _ => .ret _
  · refine Prog.ForksOnly.forEach _ _ fun i acc => (Prog.ForksOnly.loadAt _).bind fun u => ?_
    exact .forEach _ _ fun v acc => tdVisit_sequential u v acc
  · exact ((flush_sequential _).zoom _).bind fun _ => .ret _

theorem buStep_forks : p.Forks T (buStep p T g) := by
  refine (Prog.ForksOnly.store _).bind fun _ => Prog.ForksOnly.bind ?_ fun _ => .ret _
  exact p.claim_forks fun start x => .forEach _ _ fun u y => buVertex_sequential g u y

omit [NeZero T] in
variable {p T} in
theorem observe_forks {step : Prog (BfsMem n) Int} (h : p.Forks T step) : p.Forks T (observe step) :=
  (Prog.ForksOnly.load _).bind fun _ => h.bind fun _ => (Prog.ForksOnly.load _).bind fun _ => .ret _

theorem buLoop_forks (beta maxBuIters awakeCount : Int) (log : List (StepRecord n)) :
    p.Forks T (buLoop p T g beta maxBuIters awakeCount log) := by
  apply Prog.ForksOnly.iter
  rintro ⟨oldAwakeCount, buIters, log⟩
  refine (observe_forks (buStep_forks p T g)).bind fun r => (Prog.ForksOnly.store _).bind fun _ => ?_
  cases buAgain n beta maxBuIters (buIters + 1) r.1 oldAwakeCount with
  | none => exact .fail
  | some again => cases again <;> exact .ret _

theorem dobfsTurn_forks (alpha beta maxBuIters edgesToCheck scoutCount : Int)
    (log : List (StepRecord n)) :
    p.Forks T (dobfsTurn p T g alpha beta maxBuIters edgesToCheck scoutCount log) := by
  refine (Prog.ForksOnly.load _).bind fun empty => ?_
  split
  · exact .ret _
  split
  · exact .fail
  split
  · refine (queueToBitmap_forks p T).bind fun _ => (Prog.ForksOnly.load _).bind fun awakeCount => ?_
    refine (Prog.ForksOnly.store _).bind fun _ => (buLoop_forks p T g _ _ _ _).bind fun log => ?_
    exact (bitmapToQueue_forks p T).bind fun _ => .ret _
  · refine (observe_forks (tdStep_forks p T g)).bind fun r => ?_
    exact (Prog.ForksOnly.store _).bind fun _ => .ret _

theorem dobfs_forks (source : Fin n) (alpha beta maxBuIters : Int) :
    p.Forks T (dobfs p T g source alpha beta maxBuIters) := by
  refine (initParent_forks p T g).bind fun _ => (Prog.ForksOnly.store _).bind fun _ => ?_
  refine (Prog.ForksOnly.store _).bind fun _ => (Prog.ForksOnly.storeAt _).bind fun _ => ?_
  refine (Prog.ForksOnly.store _).bind fun _ => (Prog.ForksOnly.store _).bind fun _ => ?_
  refine (Prog.ForksOnly.store _).bind fun _ => Prog.ForksOnly.bind ?_ fun log => ?_
  · apply Prog.ForksOnly.iter
    rintro ⟨edgesToCheck, scoutCount, log⟩
    exact dobfsTurn_forks p T g _ _ _ _ _ _
  · exact (cleanupParent_forks p T).bind fun _ => .ret _

end Steps

/-! ## The two programs -/

/-- On a pool of `T` workers and a main thread, whatever the interleaving of their steps and however
long they spin in the barriers, the pthread program ends with a breadth-first tree. -/
theorem dobfs_on_threadPool (g : Graph n) (hg : g.Transposed) (hdeg : ∀ v, g.outDegree v < 2 ^ 31)
    (source : Fin n) (T : Nat) [NeZero T] (spin : Nat) (alpha beta : Int) (halpha : 1 ≤ alpha)
    (hbeta : 1 ≤ beta) (maxBuIters : Int) (s₀ : BfsMem n) :
    Process.Runs T spin (dobfs .pthread T g source alpha beta maxBuIters) s₀ fun _ s =>
      IsBfsTree g source s.parent := by
  have hteams : (dobfs .pthread T g source alpha beta maxBuIters).Teams T :=
    (dobfs_forks .pthread T g source alpha beta maxBuIters).mono fun _ _ _ h => ⟨h.1, h.2.2⟩
  have hterm : Terminating g source alpha beta maxBuIters := terminating_of_pos halpha hbeta maxBuIters
  have hsolo := dobfs_solo .pthread (T := T) hg hdeg hterm s₀
  exact Process.runs_of_correct (NeZero.pos T) spin hteams (hsolo.mono fun _ _ h => h.1).correct

theorem dobfs_on_threadPool_pair :
    Process.Runs 2 100 (dobfs .pthread 2 pairGraph 0 15 18 0) (blankMem 2) fun _ s =>
      IsBfsTree pairGraph 0 s.parent :=
  dobfs_on_threadPool pairGraph (by decide) (by decide) 0 2 100 15 18 (by decide) (by decide) 0 (blankMem 2)

/-- The Caladan program on `T` workers of its run-time system. -/
theorem dobfs_on_caladan {W : Type} (group : WaitGroup W) (hgroup : group.Counts) (g : Graph n)
    (hg : g.Transposed) (hdeg : ∀ v, g.outDegree v < 2 ^ 31) (source : Fin n) (T : Nat) [NeZero T]
    (alpha beta : Int) (halpha : 1 ≤ alpha) (hbeta : 1 ≤ beta) (maxBuIters : Int) (s₀ : BfsMem n) :
    Caladan.Runs group (dobfs .caladan T g source alpha beta maxBuIters) s₀ fun _ s =>
      IsBfsTree g source s.parent := by
  have hspawns : Caladan.Spawns (dobfs .caladan T g source alpha beta maxBuIters) := by
    refine (dobfs_forks .caladan T g source alpha beta maxBuIters).mono fun m _ _ h => ⟨?_, h.2.2⟩
    rw [h.1]
    exact h.2.1 rfl
  have hterm : Terminating g source alpha beta maxBuIters := terminating_of_pos halpha hbeta maxBuIters
  have hsolo := dobfs_solo .caladan (T := T) hg hdeg hterm s₀
  exact Caladan.runs_of_correct hgroup hspawns (hsolo.mono fun _ _ h => h.1).correct

theorem dobfs_on_caladan_pair :
    Caladan.Runs .counter (dobfs .caladan 2 pairGraph 0 15 18 0) (blankMem 2) fun _ s =>
      IsBfsTree pairGraph 0 s.parent :=
  dobfs_on_caladan _ WaitGroup.counter_counts pairGraph (by decide) (by decide) 0 2 15 18 (by decide)
    (by decide) 0 (blankMem 2)

end Gapbs
