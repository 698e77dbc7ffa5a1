import Gapbs.Conc.Forks
import Gapbs.Lib.Simulation
import Gapbs.Pool.ThreadPool

/-!
# Programs on the thread pool

The process of `bfs_pthread.cc`: main executes its own code, hands every parallel region to
`Pool().Run`, and at its end `~ThreadPool` calls `Shutdown`; a worker that has loaded a task executes
its thread of the region.  Seen from outside, a region is a parallel block.
-/

namespace Gapbs

open Conc Function

/-- What the process is at: main's own code, or the region that main has handed to the pool together
with what main does after it. -/
inductive Activity (n : Nat) (S α : Type) : Type 1 where
  | own (p : Prog S α)
  | region {ρ : Type} (ps : Fin n → Prog S ρ) (k : (Fin n → ρ) → Prog S α)

/-- The pool with the program that runs on it and the memory that this works on.  The function and
the context of a call of `Run` go by the number of the call. -/
structure Process (n : Nat) (S α : Type) : Type 1 where
  pool : Pool n Nat Nat
  act : Activity n S α
  mem : S

/-- What is left of the program. -/
def Activity.prog {n : Nat} {S α : Type} : Activity n S α → Prog S α
  | own p => p
  | region ps k => .par ps k

/-- The tasks of the first `m` calls of `Run`. -/
def runs (m : Nat) : List (Nat × Nat) := (List.range m).map fun k => (k, k)

namespace Process

variable {n : Nat} {S α : Type}

/-- The process before `Pool()` is called for the first time. -/
def init (p : Prog S α) (s : S) : Process n S α := ⟨.init, .own p, s⟩

/-- Worker `w` executes the region that main has handed out last: the function, the thread number
and the context are those of this call of `Run`. -/
def Executes (c : Process n S α) (w : Fin n) : Prop :=
  c.pool.worker w = .running ∧
    (c.pool.log w).getLast? = some ⟨c.pool.returned, w, n, some c.pool.returned⟩

/-- The steps of the program: those of main's own code and of the threads of a region, and the return
from `Run`. -/
inductive Work (spin : Nat) : Process n S α → Process n S α → Prop where
  /-- Main executes its own code, before `Pool()` creates the workers or between two calls. -/
  | own {c : Process n S α} {p q : Prog S α} {m : S}
      (hpc : c.pool.main = .create 0 ∨ c.pool.main = .between) (hact : c.act = .own p)
      (hpar : p.isPar = false) (h : p.Step c.mem q m) : Work spin c { c with act := .own q, mem := m }
  /-- A worker inside of its task. -/
  | thread {c : Process n S α} {ρ : Type} {ps : Fin n → Prog S ρ} {k : (Fin n → ρ) → Prog S α}
      {q : Prog S ρ} {m : S} (w : Fin n) (hw : c.Executes w) (hact : c.act = .region ps k)
      (hpar : (ps w).isPar = false) (h : (ps w).Step c.mem q m) :
      Work spin c { c with act := .region (update ps w q) k, mem := m }
  /-- `Run` returns, and main reads what the threads have left. -/
  | join {c : Process n S α} {ρ : Type} {ps : Fin n → Prog S ρ} {k : (Fin n → ρ) → Prog S α}
      {r : Fin n → ρ} {pool : Pool n Nat Nat} (hpc : c.pool.main = .clearCtx)
      (hact : c.act = .region ps k) (hret : ∀ w, ps w = .ret (r w))
      (h : c.pool.stepMain spin [] = some pool) :
      Work spin c { c with pool := pool, act := .own (k r) }

/-- The steps of the pool. -/
inductive Manage (spin : Nat) : Process n S α → Process n S α → Prop where
  /-- Main calls `Run`. -/
  | start {c : Process n S α} {ρ : Type} {ps : Fin n → Prog S ρ} {k : (Fin n → ρ) → Prog S α}
      {pool : Pool n Nat Nat} (hpc : c.pool.main = .between) (hact : c.act = .own (.par ps k))
      (h : c.pool.stepMain spin (runs (c.pool.returned + 1)) = some pool) :
      Manage spin c { c with pool := pool, act := .region ps k }
  /-- Main has come to its end and calls `Shutdown`. -/
  | exit {c : Process n S α} {a : α} {pool : Pool n Nat Nat} (hpc : c.pool.main = .between)
      (hact : c.act = .own (.ret a))
      (h : c.pool.stepMain spin (runs c.pool.returned) = some pool) :
      Manage spin c { c with pool := pool }
  /-- Main inside of `Init`, `Run` or `Shutdown`. -/
  | main {c : Process n S α} {pool : Pool n Nat Nat} (hbetween : c.pool.main ≠ .between)
      (hclear : c.pool.main ≠ .clearCtx) (h : c.pool.stepMain spin [] = some pool) :
      Manage spin c { c with pool := pool }
  /-- A worker in `WorkerMain`, outside of the task. -/
  | worker {c : Process n S α} {pool : Pool n Nat Nat} (w : Fin n)
      (hw : c.pool.worker w ≠ .running) (h : c.pool.stepWorker spin w = some pool) :
      Manage spin c { c with pool := pool }
  /-- The task of a worker returns. -/
  | finish {c : Process n S α} {ρ : Type} {ps : Fin n → Prog S ρ} {k : (Fin n → ρ) → Prog S α}
      {r : ρ} {pool : Pool n Nat Nat} (w : Fin n) (hw : c.Executes w) (hact : c.act = .region ps k)
      (hret : ps w = .ret r) (h : c.pool.stepWorker spin w = some pool) :
      Manage spin c { c with pool := pool }

/-- One step of main or of a worker. -/
def Step (spin : Nat) (c d : Process n S α) : Prop := Work spin c d ∨ Manage spin c d

/-- What must not happen. -/
inductive Fails (c : Process n S α) : Prop where
  /-- The code of main or of a thread performs an undefined operation. -/
  | undefined (h : c.act.prog.Fails c.mem)
  /-- A worker has followed a null pointer. -/
  | crashed (w : Fin n) (h : c.pool.worker w = .crashed)
  /-- A worker executes a task whose context is gone, or another task than main waits for. -/
  | stale (w : Fin n) (h : c.pool.worker w = .running)
      (hstale : (∃ p, c.act = .own p) ∨ ¬ c.Executes w)
  /-- `Run` returns before all threads of the region have. -/
  | early {ρ : Type} {ps : Fin n → Prog S ρ} {k : (Fin n → ρ) → Prog S α}
      (hpc : c.pool.main = .clearCtx) (hact : c.act = .region ps k) (w : Fin n)
      (h : ∀ r, ps w ≠ .ret r)
  /-- A thread of a region forks again. -/
  | nested {ρ : Type} {ps : Fin n → Prog S ρ} {k : (Fin n → ρ) → Prog S α}
      (hact : c.act = .region ps k) (w : Fin n) (h : (ps w).isPar = true)
  /-- Main forks another number of threads than the pool has. -/
  | otherTeam {m : Nat} {ρ : Type} {ps : Fin m → Prog S ρ} {k : (Fin m → ρ) → Prog S α}
      (hact : c.act = .own (.par ps k)) (h : m ≠ n)

end Process

/-! ## Main and the workers inside of the pool -/

/-- Outside of the pool, in a call of `Run`, or on the way out. -/
inductive MainPlace where
  | outside
  | inRun
  | leaving

def MainPc.place {C : Type} : MainPc C → MainPlace
  | .create _ | .between => .outside
  | .setCtx _ | .startCall false | .startWait false | .endCall false | .endWait false
  | .clearFn | .clearCtx => .inRun
  | _ => .leaving

namespace Pool

variable {n : Nat} {F C : Type} {tasks : List (F × C)} {s t : Pool n F C} {spin : Nat}

/-- Only between two calls does it matter what is still to be run. -/
theorem stepMain_congr (hbetween : s.main ≠ .between) (tasks tasks' : List (F × C)) :
    s.stepMain spin tasks = s.stepMain spin tasks' := by
  unfold stepMain
  split <;> first | rfl | exact absurd ‹_› hbetween

/-- A step of main that neither begins nor ends a call. -/
theorem stepMain_inside (hbetween : s.main ≠ .between) (hclear : s.main ≠ .clearCtx)
    (h : s.stepMain spin tasks = some t) :
    t.main.place = s.main.place ∧ t.returned = s.returned ∧ t.finished = s.finished := by
  cases hm : s.main with
  | between => exact absurd hm hbetween
  | clearCtx => exact absurd hm hclear
  | done => simp [Pool.stepMain, hm] at h
  | create k =>
    simp only [Pool.stepMain, hm] at h
    split at h <;> cases h <;> exact ⟨rfl, rfl, rfl⟩
  | startCall d | endCall d =>
    simp only [Pool.stepMain, hm, Option.some.injEq] at h
    subst h
    cases d <;> exact ⟨rfl, rfl, rfl⟩
  | setCtx | clearFn | clearNum | clearShutdown | clearSelf =>
    simp only [Pool.stepMain, hm, Option.some.injEq] at h
    subst h
    exact ⟨rfl, rfl, rfl⟩
  | startWait d =>
    simp only [Pool.stepMain, hm, Option.map_eq_some_iff] at h
    obtain ⟨b, -, rfl⟩ := h
    refine ⟨?_, rfl, rfl⟩
    by_cases hret : b.pc none = .idle <;> cases d <;> simp [hret, MainPc.place]
  | endWait d =>
    simp only [Pool.stepMain, hm, Option.map_eq_some_iff] at h
    obtain ⟨b, -, rfl⟩ := h
    refine ⟨?_, rfl, rfl⟩
    by_cases hret : b.pc none = .idle <;> cases d <;> simp [hret, MainPc.place]
  | join k =>
    simp only [Pool.stepMain, hm] at h
    split at h
    · split at h <;> cases h
      exact ⟨rfl, rfl, rfl⟩
    · cases h
      exact ⟨rfl, rfl, rfl⟩

/-- A worker touches neither main nor the number of calls, and counts its task when it returns. -/
theorem stepWorker_outside {w : Fin n} (h : s.stepWorker spin w = some t) :
    t.main = s.main ∧ t.returned = s.returned ∧
      (s.worker w = .running → t.finished = update s.finished w (s.finished w + 1)) ∧
      (s.worker w ≠ .running → t.finished = s.finished) := by
  cases hpc : s.worker w with
  | unborn | exited | crashed => simp [Pool.stepWorker, hpc] at h
  | running =>
    simp only [Pool.stepWorker, hpc, Option.some.injEq] at h
    subst h
    exact ⟨rfl, rfl, fun _ => rfl, by simp⟩
  | self | startCall | testShutdown | loadNum | loadCtx | invoke | endCall =>
    simp only [Pool.stepWorker, hpc, Option.some.injEq] at h
    subst h
    exact ⟨rfl, rfl, by simp, fun _ => rfl⟩
  | startWait | endWait =>
    simp only [Pool.stepWorker, hpc, Option.map_eq_some_iff] at h
    obtain ⟨b, -, rfl⟩ := h
    exact ⟨rfl, rfl, by simp, fun _ => rfl⟩
  | loadFn =>
    simp only [Pool.stepWorker, hpc] at h
    split at h <;> cases h <;> exact ⟨rfl, rfl, by simp, fun _ => rfl⟩

/-- A worker inside of a task executes the one of the call that main is in. -/
theorem Inv.running (h : Inv tasks s) {w : Fin n} (hw : s.worker w = .running) :
    s.returned < tasks.length ∧ 0 < s.main.stage ∧
      (s.log w).getLast? = (calls tasks w)[s.returned]? := by
  obtain ⟨j, hj⟩ := h.worker w
  have hcounts := counts_eq hj.counts
  have hlocal := hj.locals
  have hfinished := hj.finished
  have hlog := hj.log
  rw [hw] at hcounts hlocal hfinished hlog
  simp only [WorkerPc.stage, WorkerPc.Local, WorkerPc.ended, WorkerPc.begun] at hcounts hlocal hfinished hlog
  have hreturned := ((h.window w).2.2 hw).2
  obtain rfl : j = s.returned := by omega
  refine ⟨hlocal, ?_, ?_⟩
  · -- the worker has passed `job_start_`, so main has called it
    have hmain := counts_eq h.main.counts
    have hpassed := h.jobStart.rets_le_calls (some w) none
    omega
  · have hlt : s.returned < (calls tasks w).length := by simpa [calls] using hlocal
    rw [hlog, List.getLast?_take]
    simp [List.getElem?_eq_getElem hlt]

/-- `Run` is left when all workers have ended its task. -/
theorem Inv.finished_of_clear (h : Inv tasks s) (hm : s.main = .clearCtx) (w : Fin n) :
    s.finished w = s.returned + 1 := by
  have hmain := counts_eq h.main.counts
  have hfields := h.main.fields
  rw [hm] at hmain hfields
  simp only [MainPc.stage, MainPc.Fields] at hmain hfields
  have hcalled := h.jobEnd.rets_le_calls none (some w)
  have hle := (h.window w).1
  obtain ⟨j, hj⟩ := h.worker w
  have hcounts := counts_eq hj.counts
  have hlocal := hj.locals
  have hfinished := hj.finished
  cases hpc : s.worker w with
  | endWait exit =>
    rw [hpc] at hcounts hlocal hfinished
    cases exit with
    | false =>
      simp only [WorkerPc.stage, WorkerPc.ended] at hcounts hfinished
      omega
    | true =>
      simp only [WorkerPc.Local, WorkerPc.ended] at hlocal hfinished
      omega
  | endCall exit =>
    rw [hpc] at hcounts hlocal hfinished
    cases exit with
    | false =>
      simp only [WorkerPc.stage, WorkerPc.ended] at hcounts hfinished
      omega
    | true =>
      simp only [WorkerPc.Local, WorkerPc.ended] at hlocal hfinished
      omega
  | exited =>
    rw [hpc] at hlocal hfinished
    simp only [WorkerPc.Local, WorkerPc.ended] at hlocal hfinished
    omega
  | unborn | self | startCall | startWait | testShutdown | loadFn | loadNum | loadCtx | invoke | running
  | crashed =>
    rw [hpc] at hcounts hfinished
    simp only [WorkerPc.stage, WorkerPc.ended] at hcounts hfinished
    omega

/-- A thread that can move inside of a barrier is main or a worker in its wait. -/
theorem Inv.moves_inside (h : Inv tasks s) {p : Option (Fin n)}
    (hp : (s.jobStart.step spin p).isSome ∨ (s.jobEnd.step spin p).isSome) :
    (s.main ≠ .clearCtx ∧ ∃ t, s.stepMain spin tasks = some t) ∨
      ∃ w, s.worker w ≠ .running ∧ ∃ t, s.stepWorker spin w = some t := by
  have hne : s.jobStart.calls p ≠ s.jobStart.rets p ∨ s.jobEnd.calls p ≠ s.jobEnd.rets p :=
    hp.imp (fun hp heq => step_pc_ne_idle hp ((h.jobStart.idle_iff p).mpr heq))
      fun hp heq => step_pc_ne_idle hp ((h.jobEnd.idle_iff p).mpr heq)
  cases p with
  | none =>
    have hcounts := counts_eq h.main.counts
    left
    cases hm : s.main with
    | startWait d =>
      have hstart : (s.jobStart.step spin none).isSome := by
        refine hp.resolve_right fun hend => step_pc_ne_idle hend ((h.jobEnd.idle_iff none).mpr ?_)
        simp only [hm, MainPc.stage] at hcounts
        omega
      obtain ⟨b, hb⟩ := Option.isSome_iff_exists.mp hstart
      exact ⟨by simp, _, by rw [Pool.stepMain, hm]; simp only [hb]; rfl⟩
    | endWait d =>
      have hend : (s.jobEnd.step spin none).isSome := by
        refine hp.resolve_left fun hstart => step_pc_ne_idle hstart ((h.jobStart.idle_iff none).mpr ?_)
        simp only [hm, MainPc.stage] at hcounts
        omega
      obtain ⟨b, hb⟩ := Option.isSome_iff_exists.mp hend
      exact ⟨by simp, _, by rw [Pool.stepMain, hm]; simp only [hb]; rfl⟩
    | create | between | setCtx | startCall | endCall | clearFn | clearCtx | join | clearNum
    | clearShutdown | clearSelf | done =>
      simp only [hm, MainPc.stage] at hcounts
      omega
  | some w =>
    obtain ⟨j, hw⟩ := h.worker w
    have hcounts := counts_eq hw.counts
    right
    cases hpc : s.worker w with
    | startWait =>
      have hstart : (s.jobStart.step spin (some w)).isSome := by
        refine hp.resolve_right fun hend => step_pc_ne_idle hend ((h.jobEnd.idle_iff _).mpr ?_)
        simp only [hpc, WorkerPc.stage] at hcounts
        omega
      obtain ⟨b, hb⟩ := Option.isSome_iff_exists.mp hstart
      exact ⟨w, by simp [hpc], _, by rw [Pool.stepWorker, hpc]; simp only [hb]; rfl⟩
    | endWait exit =>
      have hend : (s.jobEnd.step spin (some w)).isSome := by
        refine hp.resolve_left fun hstart => step_pc_ne_idle hstart ((h.jobStart.idle_iff _).mpr ?_)
        simp only [hpc, WorkerPc.stage] at hcounts
        omega
      obtain ⟨b, hb⟩ := Option.isSome_iff_exists.mp hend
      exact ⟨w, by simp [hpc], _, by rw [Pool.stepWorker, hpc]; simp only [hb]; rfl⟩
    | unborn | self | startCall | testShutdown | loadFn | loadNum | loadCtx | invoke | running
    | endCall | exited | crashed =>
      simp only [hpc, WorkerPc.stage] at hcounts
      omega

/-- During a call of `Run` in which only tasks can go on, main waits for them or has seen them end. -/
theorem Inv.main_waits (h : Inv tasks s) (hplace : s.main.place = .inRun)
    (hmain : s.main ≠ .clearCtx → ∀ t, s.stepMain spin tasks ≠ some t) :
    s.Waiting none ∨ s.progress none = 2 * s.returned + 2 := by
  have hcounts := counts_eq h.main.counts
  have hstuck (hclear : s.main ≠ .clearCtx) (hsome : (s.stepMain spin tasks).isSome) : False := by
    obtain ⟨t, ht⟩ := Option.isSome_iff_exists.mp hsome
    exact hmain hclear t ht
  cases hm : s.main with
  | startWait d | endWait d =>
    rw [hm] at hcounts
    simp only [MainPc.stage] at hcounts
    left
    unfold Waiting
    omega
  | clearCtx =>
    rw [hm] at hcounts
    simp only [MainPc.stage] at hcounts
    right
    unfold progress
    omega
  | setCtx | startCall | endCall | clearFn =>
    exact (hstuck (by simp [hm]) (by simp only [Pool.stepMain, hm]; rfl)).elim
  | create | between | join | clearNum | clearShutdown | clearSelf | done =>
    rw [hm] at hplace
    cases hplace

/-- The same for a worker, when there are calls to come. -/
theorem Inv.worker_waits (h : Inv tasks s) (hplace : s.main.place = .inRun)
    (hmore : s.returned + 1 < tasks.length) {w : Fin n} (hrunning : s.worker w ≠ .running)
    (hworker : ∀ t, s.stepWorker spin w ≠ some t) :
    s.Waiting (some w) ∧ (s.finished w = s.returned → s.progress (some w) ≤ 2 * s.returned + 1) := by
  obtain ⟨j, hw⟩ := h.worker w
  have hcounts := counts_eq hw.counts
  have hlocal := hw.locals
  have hfinished := hw.finished
  have hwindow := (h.window w).1
  have hstuck (hsome : (s.stepWorker spin w).isSome) : False := by
    obtain ⟨t, ht⟩ := Option.isSome_iff_exists.mp hsome
    exact hworker t ht
  unfold Waiting progress
  cases hpc : s.worker w with
  | running => exact absurd hpc hrunning
  | startWait =>
    rw [hpc] at hcounts hfinished
    simp only [WorkerPc.stage, WorkerPc.ended] at hcounts hfinished
    omega
  | endWait exit =>
    rw [hpc] at hcounts hlocal hfinished
    cases exit with
    | false =>
      simp only [WorkerPc.stage, WorkerPc.ended] at hcounts hfinished
      omega
    | true =>
      simp only [WorkerPc.Local, WorkerPc.ended] at hlocal hfinished
      omega
  | exited =>
    rw [hpc] at hlocal hfinished
    simp only [WorkerPc.Local, WorkerPc.ended] at hlocal hfinished
    omega
  | crashed => exact (hpc ▸ hlocal : WorkerPc.Local tasks w j .crashed).elim
  | unborn =>
    obtain ⟨k, hk, -⟩ := h.main.born w hpc
    rw [hk] at hplace
    cases hplace
  | loadFn =>
    refine (hstuck ?_).elim
    simp only [Pool.stepWorker, hpc]
    split <;> rfl
  | self | startCall | testShutdown | loadNum | loadCtx | invoke | endCall =>
    exact (hstuck (by simp only [Pool.stepWorker, hpc]; rfl)).elim

/-- When only tasks can go on, every worker is inside of its task or has ended it: of the threads that
wait, one that is least far along would find all others in its wait. -/
theorem Inv.running_or_finished (h : Inv tasks s) (hplace : s.main.place = .inRun)
    (hmore : s.returned + 1 < tasks.length)
    (hmain : s.main ≠ .clearCtx → ∀ t, s.stepMain spin tasks ≠ some t)
    (hworker : ∀ w, s.worker w ≠ .running → ∀ t, s.stepWorker spin w ≠ some t) (w : Fin n) :
    s.worker w = .running ∨ s.finished w = s.returned + 1 := by
  classical
  by_contra hneither
  obtain ⟨hrunning, hunfinished⟩ := not_or.mp hneither
  obtain ⟨hwaits, hbound⟩ := h.worker_waits hplace hmore hrunning (hworker w hrunning)
  have hwindow := (h.window w).1
  have hle := hbound (by omega)
  obtain ⟨q, hq, hmin⟩ := Finset.exists_min_image (Finset.univ.filter s.Waiting) s.progress
    ⟨some w, by simpa using hwaits⟩
  rw [Finset.mem_filter_univ] at hq
  have hqw := hmin (some w) (by simpa using hwaits)
  have hleast (r : Option (Fin n)) : s.progress q ≤ s.progress r := by
    cases r with
    | none =>
      rcases h.main_waits hplace hmain with hr | hr
      · exact hmin none (by simpa using hr)
      · omega
    | some v =>
      by_cases hv : s.worker v = .running
      · obtain ⟨j, hj⟩ := h.worker v
        have hcounts := counts_eq hj.counts
        have hfinished := hj.finished
        rw [hv] at hcounts hfinished
        simp only [WorkerPc.stage, WorkerPc.ended] at hcounts hfinished
        have hvwindow := ((h.window v).2.2 hv).2
        have hprogress : s.progress (some v) = s.jobStart.calls (some v) + s.jobEnd.calls (some v) := rfl
        omega
      · exact hmin (some v) (by simpa using (h.worker_waits hplace hmore hv (hworker v hv)).1)
  obtain ⟨j, k, hcounts, -⟩ := h.counts_stage q
  have hqc := counts_eq hcounts
  have hmoves : ∃ r, (s.jobStart.step spin r).isSome ∨ (s.jobEnd.step spin r).isSome := by
    have hbehind (r : Option (Fin n)) : s.progress q ≤ s.progress r ∧ ∃ i l, s.counts r = .stage i l := by
      obtain ⟨i, l, hrcounts, -⟩ := h.counts_stage r
      exact ⟨hleast r, i, l, hrcounts⟩
    unfold progress at hbehind
    rcases hq with hstart | hend
    · obtain ⟨r, hr⟩ := h.jobStart.moves spin hstart fun r => by
        obtain ⟨hqr, i, l, hrcounts⟩ := hbehind r
        have hrc := counts_mono hrcounts
        omega
      exact ⟨r, .inl hr⟩
    · obtain ⟨r, hr⟩ := h.jobEnd.moves spin hend fun r => by
        obtain ⟨hqr, i, l, hrcounts⟩ := hbehind r
        have hrc := counts_mono hrcounts
        omega
      exact ⟨r, .inr hr⟩
  obtain ⟨r, hr⟩ := hmoves
  rcases h.moves_inside hr with ⟨hclear, t, ht⟩ | ⟨v, hv, t, ht⟩
  · exact hmain hclear t ht
  · exact hworker v hv t ht

end Pool

/-! ## The invariant -/

namespace Activity

variable {n : Nat} {S α : Type}

/-- How many calls of `Run` the one in hand and those before it are; a parallel block that main has
come to counts as begun. -/
def horizon (returned : Nat) : Activity n S α → Nat
  | own p => if p.isPar then returned + 1 else returned
  | region _ _ => returned + 1

/-- Where main is in the pool. -/
def Placed (pc : MainPc Nat) : Activity n S α → Prop
  | own p => pc.place = .outside ∨ (pc.place = .leaving ∧ ∃ a, p = .ret a)
  | region _ _ => pc.place = .inRun

/-- The threads of workers that have ended the task of call number `returned` have returned. -/
def Ended (returned : Nat) (finished : Fin n → Nat) : Activity n S α → Prop
  | own _ => True
  | region ps _ => ∀ w, finished w = returned + 1 → ∃ r, ps w = .ret r

theorem le_horizon (returned : Nat) (act : Activity n S α) : returned ≤ act.horizon returned := by
  cases act with
  | own p => cases hpar : p.isPar <;> simp [horizon, hpar]
  | region ps k => exact Nat.le_succ returned

end Activity

namespace Process

variable {n : Nat} {S α : Type} {spin : Nat}

def horizon (c : Process n S α) : Nat := c.act.horizon c.pool.returned

/-- What holds in every reachable state.  Until main leaves, whatever it goes on to run would suit the
pool. -/
structure Inv (c : Process n S α) : Prop where
  pool : c.pool.Inv (runs c.horizon)
  later : c.pool.main.place ≠ .leaving → ∀ m, c.horizon ≤ m → c.pool.Inv (runs m)
  placed : c.act.Placed c.pool.main
  ended : c.act.Ended c.pool.returned c.pool.finished
  teams : c.act.prog.Teams n

theorem runs_getElem? (m k : Nat) : (runs m)[k]? = if k < m then some (k, k) else none := by
  unfold runs
  rw [List.getElem?_map]
  split
  · next hlt => rw [List.getElem?_range hlt, Option.map_some]
  · next hle => rw [List.getElem?_eq_none (by simpa using hle), Option.map_none]

theorem runs_length (m : Nat) : (runs m).length = m := by simp [runs]

theorem Inv.init {p : Prog S α} (hp : p.Teams n) (s : S) : Inv (init p s : Process n S α) where
  pool := .init _
  later _ _ _ := .init _
  placed := .inl rfl
  ended := trivial
  teams := hp

/-- A worker that is inside of a task executes the region in hand. -/
theorem Inv.executes {c : Process n S α} (h : c.Inv) {w : Fin n} (hw : c.pool.worker w = .running) :
    c.Executes w ∧ c.pool.main.place = .inRun := by
  obtain ⟨hlt, hstage, hlast⟩ := h.pool.running hw
  rw [runs_length] at hlt
  constructor
  · refine ⟨hw, ?_⟩
    rw [hlast, Pool.calls, List.getElem?_map, runs_getElem?, if_pos hlt]
    rfl
  · have hplaced := h.placed
    unfold horizon at hlt
    cases hact : c.act with
    | region ps k =>
      rw [hact] at hplaced
      exact hplaced
    | own p =>
      rw [hact] at hplaced hlt
      rcases hplaced with houtside | ⟨-, a, rfl⟩
      · -- in its own code main has not released the workers
        cases hm : c.pool.main with
        | create | between => simp [hm, MainPc.stage] at hstage
        | startCall d | startWait d | endCall d | endWait d => cases d <;> simp [hm, MainPc.place] at houtside
        | setCtx | clearFn | clearCtx | join | clearNum | clearShutdown | clearSelf | done =>
          simp [hm, MainPc.place] at houtside
      · simp [Activity.horizon, Prog.isPar] at hlt

/-- The next call of `Run` is the next task, however many follow. -/
theorem stepMain_start {s : Pool n Nat Nat} {m : Nat} (hm : s.returned < m) :
    s.stepMain spin (runs (s.returned + 1)) = s.stepMain spin (runs m) := by
  by_cases hbetween : s.main = .between
  · simp only [Pool.stepMain, hbetween, runs_getElem?, Nat.lt_succ_self, hm, if_true]
  · exact Pool.stepMain_congr hbetween _ _

/-! ### Steps

One lemma for every kind of step. -/

/-- The pool moves on, and main stays in the same place. -/
theorem Inv.poolMove {c : Process n S α} (h : c.Inv) {pool : Pool n Nat Nat}
    (hpool : ∀ tasks, c.pool.Inv tasks → pool.Inv tasks) (hplace : pool.main.place = c.pool.main.place)
    (hret : pool.returned = c.pool.returned) (hended : c.act.Ended c.pool.returned pool.finished) :
    Inv { c with pool := pool } := by
  have hhorizon : horizon { c with pool := pool } = c.horizon := by rw [horizon, horizon, hret]
  refine ⟨?_, fun hstays m hm => ?_, ?_, ?_, h.teams⟩
  · rw [hhorizon]
    exact hpool _ h.pool
  · rw [hhorizon] at hm
    exact hpool _ (h.later (hplace ▸ hstays) m hm)
  · have hplaced := h.placed
    unfold Activity.Placed at hplaced ⊢
    simpa only [hplace] using hplaced
  · simpa only [hret] using hended

theorem Inv.own {c : Process n S α} (h : c.Inv) {p q : Prog S α} {m : S}
    (hpc : c.pool.main = .create 0 ∨ c.pool.main = .between) (hact : c.act = .own p)
    (hpar : p.isPar = false) (hstep : p.Step c.mem q m) :
    Inv { c with act := .own q, mem := m } := by
  have hplace : c.pool.main.place = .outside := by rcases hpc with hpc | hpc <;> rw [hpc] <;> rfl
  have hhere : c.horizon = c.pool.returned := by simp [horizon, hact, Activity.horizon, hpar]
  have hlater (m : Nat) (hm : c.pool.returned ≤ m) : c.pool.Inv (runs m) := by
    refine h.later ?_ m (hhere ▸ hm)
    rw [hplace]
    nofun
  have hteams := h.teams
  rw [hact] at hteams
  exact ⟨hlater _ (Activity.le_horizon _ _),
    fun _ m hm => hlater m ((Activity.le_horizon _ _).trans hm), .inl hplace, trivial,
    hteams.step hpar hstep⟩

theorem Inv.start {c : Process n S α} (hn : 0 < n) (h : c.Inv) {ρ : Type} {ps : Fin n → Prog S ρ}
    {k : (Fin n → ρ) → Prog S α} {pool : Pool n Nat Nat} (hpc : c.pool.main = .between)
    (hact : c.act = .own (.par ps k))
    (hstep : c.pool.stepMain spin (runs (c.pool.returned + 1)) = some pool) :
    Inv { c with pool := pool, act := .region ps k } := by
  have hhere : c.horizon = c.pool.returned + 1 := by simp [horizon, hact, Activity.horizon, Prog.isPar]
  have hplace : c.pool.main.place = .outside := by rw [hpc]; rfl
  have hlater (m : Nat) (hm : c.pool.returned + 1 ≤ m) : pool.Inv (runs m) := by
    have hmain : c.pool.stepMain spin (runs m) = some pool := by rw [← stepMain_start hm, hstep]
    refine (h.later ?_ m (hhere ▸ hm)).stepMain hn hmain
    rw [hplace]
    nofun
  have hended (w : Fin n) : c.pool.finished w ≠ c.pool.returned + 1 := by
    obtain ⟨⟨-, hle, -⟩, hbetween, -⟩ := h.pool.window w
    have hlength := hbetween hpc
    omega
  have hteams := h.teams
  rw [hact] at hteams
  -- main has stored the function
  simp only [Pool.stepMain, hpc, runs_getElem?, Nat.lt_succ_self, if_true, Option.some.injEq] at hstep
  subst hstep
  exact ⟨hlater _ le_rfl, fun _ => hlater, rfl, fun w hw => absurd hw (hended w), hteams⟩

theorem Inv.exit {c : Process n S α} (hn : 0 < n) (h : c.Inv) {a : α} {pool : Pool n Nat Nat}
    (hpc : c.pool.main = .between) (hact : c.act = .own (.ret a))
    (hstep : c.pool.stepMain spin (runs c.pool.returned) = some pool) :
    Inv { c with pool := pool } := by
  have hhere : c.horizon = c.pool.returned := by simp [horizon, hact, Activity.horizon, Prog.isPar]
  have hpool : pool.Inv (runs c.pool.returned) := (hhere ▸ h.pool).stepMain hn hstep
  have hfields := h.pool.main.fields
  rw [hpc] at hfields
  -- there is nothing more to run, and the pool has workers to stop
  simp only [Pool.stepMain, hpc, runs_getElem?, lt_irrefl, if_false] at hstep
  rw [if_neg (by rw [hfields.2.1]; omega), Option.some.injEq] at hstep
  subst hstep
  have hnow : horizon { c with pool := { c.pool with shutdown := true, main := .startCall true } } =
      c.pool.returned := hhere
  refine ⟨?_, fun hstays => absurd rfl hstays, ?_, ?_, h.teams⟩
  · rw [hnow]
    exact hpool
  · simp only [hact]
    exact .inr ⟨rfl, a, rfl⟩
  · simp only [hact]
    trivial

theorem Inv.join {c : Process n S α} (hn : 0 < n) (h : c.Inv) {ρ : Type} {ps : Fin n → Prog S ρ}
    {k : (Fin n → ρ) → Prog S α} {r : Fin n → ρ} {pool : Pool n Nat Nat}
    (hpc : c.pool.main = .clearCtx) (hact : c.act = .region ps k)
    (hstep : c.pool.stepMain spin [] = some pool) :
    Inv { c with pool := pool, act := .own (k r) } := by
  have hhere : c.horizon = c.pool.returned + 1 := by simp [horizon, hact, Activity.horizon]
  have hlater (m : Nat) (hm : c.pool.returned + 1 ≤ m) : pool.Inv (runs m) := by
    have hmain : c.pool.stepMain spin (runs m) = some pool := by
      rw [← hstep]
      apply Pool.stepMain_congr
      rw [hpc]
      nofun
    refine (h.later ?_ m (hhere ▸ hm)).stepMain hn hmain
    rw [hpc]
    nofun
  have hteams := h.teams
  rw [hact] at hteams
  simp only [Pool.stepMain, hpc, Option.some.injEq] at hstep
  subst hstep
  exact ⟨hlater _ (Activity.le_horizon _ _),
    fun _ m hm => hlater m ((Activity.le_horizon _ _).trans hm), .inl rfl, trivial, hteams.2 r⟩

theorem Inv.work {c : Process n S α} (h : c.Inv) {ρ : Type} {ps : Fin n → Prog S ρ}
    {k : (Fin n → ρ) → Prog S α} {q : Prog S ρ} {m : S} {w : Fin n} (hw : c.Executes w)
    (hact : c.act = .region ps k) (hstep : (ps w).Step c.mem q m) :
    Inv { c with act := .region (update ps w q) k, mem := m } := by
  have hhere : c.horizon = c.pool.returned + 1 := by simp [horizon, hact, Activity.horizon]
  have hplaced := h.placed
  have hended := h.ended
  have hteams := h.teams
  rw [hact] at hplaced hended hteams
  have hunfinished := ((h.pool.window w).2.2 hw.1).2
  have hpool := h.pool
  have hlater := h.later
  rw [hhere] at hpool hlater
  refine ⟨hpool, hlater, hplaced, fun v hv => ?_, ⟨rfl, fun v => ?_⟩, hteams.2⟩
  · have hne : v ≠ w := by
      rintro rfl
      exact absurd (hunfinished.symm.trans hv) (Nat.succ_ne_self _).symm
    rw [update_of_ne hne]
    exact hended v hv
  · by_cases hvw : v = w
    · subst hvw
      rw [update_self]
      exact (hteams.1.2 v).step hstep
    · rw [update_of_ne hvw]
      exact hteams.1.2 v

theorem Inv.finish {c : Process n S α} (h : c.Inv) {ρ : Type} {ps : Fin n → Prog S ρ}
    {k : (Fin n → ρ) → Prog S α} {r : ρ} {pool : Pool n Nat Nat} {w : Fin n} (hw : c.Executes w)
    (hact : c.act = .region ps k) (hret : ps w = .ret r) (hstep : c.pool.stepWorker spin w = some pool) :
    Inv { c with pool := pool } := by
  obtain ⟨hmain, hreturned, hfinished, -⟩ := Pool.stepWorker_outside hstep
  refine h.poolMove (fun _ hpool => hpool.stepWorker hstep) (by rw [hmain]) hreturned ?_
  have hended := h.ended
  rw [hact] at hended ⊢
  intro v hv
  by_cases hvw : v = w
  · exact ⟨r, hvw ▸ hret⟩
  · rw [hfinished hw.1, update_of_ne hvw] at hv
    exact hended v hv

theorem Inv.step {c d : Process n S α} (hn : 0 < n) (h : c.Inv) (hstep : Step spin c d) : d.Inv := by
  rcases hstep with hwork | hmanage
  · cases hwork with
    | own hpc hact hpar hp => exact h.own hpc hact hpar hp
    | thread w hw hact hpar hp => exact h.work hw hact hp
    | join hpc hact hret hpool => exact h.join hn hpc hact hpool
  · cases hmanage with
    | start hpc hact hpool => exact h.start hn hpc hact hpool
    | exit hpc hact hpool => exact h.exit hn hpc hact hpool
    | main hbetween hclear hpool =>
      obtain ⟨hplace, hreturned, hfinished⟩ := Pool.stepMain_inside hbetween hclear hpool
      refine h.poolMove (fun tasks hinv => ?_) hplace hreturned (hfinished ▸ h.ended)
      exact hinv.stepMain hn ((Pool.stepMain_congr hbetween _ _).trans hpool)
    | worker w hw hpool =>
      obtain ⟨hmain, hreturned, -, hfinished⟩ := Pool.stepWorker_outside hpool
      exact h.poolMove (fun _ hinv => hinv.stepWorker hpool) (by rw [hmain]) hreturned
        (hfinished hw ▸ h.ended)
    | finish w hw hact hret hpool => exact h.finish hw hact hret hpool

/-! ## The process runs the program -/

theorem next_of_work {c d : Process n S α} (hstep : Work spin c d) :
    Prog.Next (c.act.prog, c.mem) (d.act.prog, d.mem) := by
  cases hstep with
  | own hpc hact hpar hp =>
    rw [hact]
    exact hp
  | thread w hw hact hpar hp =>
    rw [hact]
    exact .inl ⟨w, _, hp, rfl⟩
  | join hpc hact hret hpool =>
    rw [hact]
    exact .inr ⟨_, hret, rfl, rfl⟩

/-- How far the pool is from the end of the call in hand. -/
def remaining (spin : Nat) (c : Process n S α) : Nat := c.pool.measure spin (runs c.horizon)

/-- The program does not see what brings the pool nearer to the end of the call. -/
theorem Inv.remaining_manage {c d : Process n S α} (hn : 0 < n) (h : c.Inv)
    (hstep : Manage spin c d) :
    (d.act.prog, d.mem) = (c.act.prog, c.mem) ∧ d.remaining spin < c.remaining spin := by
  unfold remaining
  cases hstep with
  | start hpc hact hpool =>
    refine ⟨by rw [hact]; rfl, ?_⟩
    have hhere : c.horizon = c.pool.returned + 1 := by
      simp [horizon, hact, Activity.horizon, Prog.isPar]
    have hdown := h.pool.measure_stepMain (hhere ▸ hpool)
    simp only [Pool.stepMain, hpc, runs_getElem?, Nat.lt_succ_self, if_true, Option.some.injEq] at hpool
    subst hpool
    rw [hhere] at hdown ⊢
    exact hdown
  | exit hpc hact hpool =>
    refine ⟨rfl, ?_⟩
    have hhere : c.horizon = c.pool.returned := by simp [horizon, hact, Activity.horizon, Prog.isPar]
    have hdown := h.pool.measure_stepMain (hhere ▸ hpool)
    have hfields := h.pool.main.fields
    rw [hpc] at hfields
    simp only [Pool.stepMain, hpc, runs_getElem?, lt_irrefl, if_false] at hpool
    rw [if_neg (by rw [hfields.2.1]; omega), Option.some.injEq] at hpool
    subst hpool
    exact hdown
  | main hbetween hclear hpool =>
    refine ⟨rfl, ?_⟩
    have hdown := h.pool.measure_stepMain ((Pool.stepMain_congr hbetween _ _).trans hpool)
    rwa [horizon, (Pool.stepMain_inside hbetween hclear hpool).2.1]
  | worker w hw hpool =>
    refine ⟨rfl, ?_⟩
    have hdown := h.pool.measure_stepWorker hpool
    rwa [horizon, (Pool.stepWorker_outside hpool).2.1]
  | finish w hw hact hret hpool =>
    refine ⟨rfl, ?_⟩
    have hdown := h.pool.measure_stepWorker hpool
    rwa [horizon, (Pool.stepWorker_outside hpool).2.1]

theorem Inv.not_fails {c : Process n S α} (h : c.Inv) (hsafe : ¬ c.act.prog.Fails c.mem) :
    ¬ c.Fails := by
  intro hfails
  cases hfails with
  | undefined hf => exact hsafe hf
  | crashed w hcrash =>
    obtain ⟨j, hj⟩ := h.pool.worker w
    exact (hcrash ▸ hj.locals : WorkerPc.Local (runs c.horizon) w j .crashed)
  | stale w hw hstale =>
    obtain ⟨hexecutes, hplace⟩ := h.executes hw
    rcases hstale with ⟨p, hact⟩ | hother
    · have hplaced := h.placed
      rw [hact] at hplaced
      rcases hplaced with hout | ⟨hleave, -⟩
      · cases hplace.symm.trans hout
      · cases hplace.symm.trans hleave
    · exact hother hexecutes
  | early hpc hact w hret =>
    have hended := h.ended
    rw [hact] at hended
    obtain ⟨r, hr⟩ := hended w (h.pool.finished_of_clear hpc w)
    exact hret r hr
  | nested hact w hpar =>
    have hteams := h.teams
    rw [hact] at hteams
    rw [(hteams.1.2 w).isPar] at hpar
    cases hpar
  | otherTeam hact hm =>
    have hteams := h.teams
    rw [hact] at hteams
    exact hm hteams.1.1

/-- In its own code main stands between two calls, when the pool has nothing to do. -/
theorem Inv.between_of_quiet {c : Process n S α} (h : c.Inv) (hquiet : ∀ d, ¬ Manage spin c d)
    {p : Prog S α} (hact : c.act = .own p) (hp : ∀ a, p ≠ .ret a) : c.pool.main = .between := by
  have hplaced := h.placed
  rw [hact] at hplaced
  rcases hplaced with hout | ⟨-, a, ha⟩
  · cases hm : c.pool.main with
    | between => rfl
    | create t =>
      have hcreates : ∃ pool, c.pool.stepMain spin [] = some pool := by
        simp only [Pool.stepMain, hm]
        split <;> exact ⟨_, rfl⟩
      obtain ⟨pool, hpool⟩ := hcreates
      exact (hquiet _ (.main (by simp [hm]) (by simp [hm]) hpool)).elim
    | startCall d | startWait d | endCall d | endWait d =>
      rw [hm] at hout
      cases d <;> cases hout
    | setCtx | clearFn | clearCtx | join | clearNum | clearShutdown | clearSelf | done =>
      rw [hm] at hout
      cases hout
  · exact absurd ha (hp a)

/-- In a region the pool leaves only the tasks to go on. -/
theorem Inv.tasks_of_quiet {c : Process n S α} (h : c.Inv) (hquiet : ∀ d, ¬ Manage spin c d)
    {ρ : Type} {ps : Fin n → Prog S ρ} {k : (Fin n → ρ) → Prog S α} (hact : c.act = .region ps k) :
    c.pool.main.place = .inRun ∧
      (c.pool.main ≠ .clearCtx → ∀ tasks t, c.pool.stepMain spin tasks ≠ some t) ∧
      (∀ w, c.pool.worker w ≠ .running → ∀ t, c.pool.stepWorker spin w ≠ some t) := by
  have hplaced := h.placed
  rw [hact] at hplaced
  have hbetween : c.pool.main ≠ .between := by
    intro hm
    rw [hm] at hplaced
    cases hplaced
  refine ⟨hplaced, fun hclear tasks t ht => ?_, fun w hw t ht => hquiet _ (.worker w hw ht)⟩
  exact hquiet _ (.main hbetween hclear ((Pool.stepMain_congr hbetween _ _).trans ht))

/-- A thread that has not returned is in the hands of its worker. -/
theorem Inv.executes_of_quiet {c : Process n S α} (h : c.Inv) (hquiet : ∀ d, ¬ Manage spin c d)
    {ρ : Type} {ps : Fin n → Prog S ρ} {k : (Fin n → ρ) → Prog S α} (hact : c.act = .region ps k)
    {w : Fin n} (hw : ∀ r, ps w ≠ .ret r) : c.Executes w := by
  obtain ⟨hplace, hmain, hworker⟩ := h.tasks_of_quiet hquiet hact
  have hlater : c.pool.Inv (runs (c.horizon + 1)) := by
    refine h.later ?_ _ (Nat.le_succ _)
    rw [hplace]
    nofun
  have hmore : c.pool.returned + 1 < (runs (c.horizon + 1)).length := by
    rw [runs_length, horizon, hact]
    exact Nat.lt_succ_self _
  rcases hlater.running_or_finished hplace hmore (fun hclear => hmain hclear _) hworker w with hrun | hfin
  · exact (h.executes hrun).1
  · have hended := h.ended
    rw [hact] at hended
    obtain ⟨r, hr⟩ := hended w hfin
    exact absurd hr (hw r)

/-- When all threads have returned, main is about to return from `Run`. -/
theorem Inv.clear_of_quiet {c : Process n S α} (h : c.Inv) (hquiet : ∀ d, ¬ Manage spin c d)
    {ρ : Type} {ps : Fin n → Prog S ρ} {k : (Fin n → ρ) → Prog S α} (hact : c.act = .region ps k)
    {r : Fin n → ρ} (hret : ∀ w, ps w = .ret (r w)) : c.pool.main = .clearCtx := by
  obtain ⟨hplace, hmain, hworker⟩ := h.tasks_of_quiet hquiet hact
  by_contra hclear
  have hstuck (pool : Pool n Nat Nat) : ¬ Pool.Step spin (runs c.horizon) c.pool pool := by
    rintro (hpool | ⟨w, hw⟩)
    · exact hmain hclear _ _ hpool
    · by_cases hrunning : c.pool.worker w = .running
      · exact hquiet _ (.finish w (h.executes hrunning).1 hact (hret w) hw)
      · exact hworker w hrunning _ hw
  rw [h.pool.done_of_stuck hstuck] at hplace
  cases hplace

/-- The steps of the program are those that the pool leaves to it. -/
theorem covers (hn : 0 < n) (spin : Nat) :
    Stuttering.Covers (Step spin) Prog.Next (fun c : Process n S α => (c.act.prog, c.mem)) Inv
      (remaining spin) := by
  refine ⟨⟨fun c d h hstep => h.step hn hstep, fun c d h hstep => ?_⟩, ?_⟩
  · exact hstep.elim (fun hwork => .inl (next_of_work hwork)) fun hmanage =>
      .inr (h.remaining_manage hn hmanage)
  · rintro c ⟨q, t⟩ h hquiet hnext
    have hmanage (d : Process n S α) : ¬ Manage spin c d := fun hstep =>
      hquiet d (.inr hstep) (h.remaining_manage hn hstep)
    have hteams := h.teams
    cases hact : c.act with
    | own p =>
      rw [hact] at hnext hteams
      have hp (a : α) : p ≠ .ret a := by
        rintro rfl
        exact hnext
      have hbetween := h.between_of_quiet hmanage hact hp
      cases hpar : p.isPar with
      | false => exact ⟨{ c with act := .own q, mem := t }, .inl (.own (.inr hbetween) hact hpar hnext), rfl⟩
      | true =>
        cases p with
        | par ps k =>
          obtain ⟨⟨rfl, -⟩, -⟩ := hteams
          have hcalls : ∃ pool, c.pool.stepMain spin (runs (c.pool.returned + 1)) = some pool := by
            simp only [Pool.stepMain, hbetween, runs_getElem?, Nat.lt_succ_self, if_true]
            exact ⟨_, rfl⟩
          obtain ⟨pool, hpool⟩ := hcalls
          exact (hmanage _ (.start hbetween hact hpool)).elim
        | _ => cases hpar
    | region ps k =>
      rw [hact] at hnext hteams
      rcases hnext with ⟨w, p', hstep, rfl⟩ | ⟨r, hret, rfl, rfl⟩
      · have hw (r : _) : ps w ≠ .ret r := by
          intro hr
          dsimp only at hstep
          rw [hr] at hstep
          exact hstep
        exact ⟨{ c with act := .region (update ps w p') k, mem := t },
          .inl (.thread w (h.executes_of_quiet hmanage hact hw) hact (hteams.1.2 w).isPar hstep), rfl⟩
      · have hclear := h.clear_of_quiet hmanage hact hret
        have hreturns : ∃ pool, c.pool.stepMain spin [] = some pool := by
          simp only [Pool.stepMain, hclear]
          exact ⟨_, rfl⟩
        obtain ⟨pool, hpool⟩ := hreturns
        exact ⟨{ c with pool := pool, act := .own (k r) }, .inl (.join hclear hact hret hpool), rfl⟩

/-! ## The process as a whole -/

/-- Where nothing can move, the program has returned and with it `Shutdown`. -/
theorem Inv.done_of_stuck {c : Process n S α} (hn : 0 < n) (h : c.Inv)
    (hsafe : ¬ c.act.prog.Fails c.mem) (hstuck : ∀ d, ¬ Step spin c d) :
    (∃ a, c.act = .own (.ret a)) ∧ c.pool.main = .done := by
  have hret : ∃ a, c.act = .own (.ret a) := by
    rcases c.act.prog.progress c.mem with ⟨a, ha⟩ | hf | ⟨q, t, hstep⟩
    · cases hact : c.act with
      | own p =>
        rw [hact] at ha
        exact ⟨a, congrArg _ ha⟩
      | region ps k =>
        rw [hact] at ha
        cases ha
    · exact absurd hf hsafe
    · exact absurd hstep ((covers hn spin).stuck h hstuck (q, t))
  obtain ⟨a, hact⟩ := hret
  have hhere : c.horizon = c.pool.returned := by simp [horizon, hact, Activity.horizon, Prog.isPar]
  have hplaced := h.placed
  rw [hact] at hplaced
  have hnotRun : c.pool.main.place ≠ .inRun := by
    rcases hplaced with hout | ⟨hleave, -⟩
    · rw [hout]
      nofun
    · rw [hleave]
      nofun
  have hpool (pool : Pool n Nat Nat) : ¬ Pool.Step spin (runs c.horizon) c.pool pool := by
    rintro (hmain | ⟨w, hw⟩)
    · by_cases hbetween : c.pool.main = .between
      · exact hstuck _ (.inr (.exit hbetween hact (hhere ▸ hmain)))
      · refine hstuck _ (.inr (.main hbetween (fun hclear => ?_)
          ((Pool.stepMain_congr hbetween _ _).trans hmain)))
        rw [hclear] at hnotRun
        exact hnotRun rfl
    · by_cases hrunning : c.pool.worker w = .running
      · exact hnotRun (h.executes hrunning).2
      · exact hstuck _ (.inr (.worker w hrunning hw))
  exact ⟨⟨a, hact⟩, h.pool.done_of_stuck hpool⟩

/-- The process comes to its end, nothing undefined happens on the way, and when it is over the program
has returned, the workers have left and each of them has executed its part of every region once. -/
structure Runs (n spin : Nat) (p : Prog S α) (s : S) (Q : α → S → Prop) : Prop where
  terminates : Acc (fun d c => Step spin c d) (init p s : Process n S α)
  safe : ∀ d, Relation.ReflTransGen (Step spin) (init p s : Process n S α) d → ¬ d.Fails
  result : ∀ d, Relation.ReflTransGen (Step spin) (init p s : Process n S α) d →
    (∀ e, ¬ Step spin d e) →
      d.pool.main = .done ∧ (∀ w, d.pool.worker w = .exited) ∧
        (∀ w, d.pool.log w = Pool.calls (runs d.pool.returned) w) ∧
        ∃ a, d.act = .own (.ret a) ∧ Q a d.mem

theorem runs_of_correct (hn : 0 < n) (spin : Nat) {p : Prog S α} (hp : p.Teams n) {s : S}
    {Q : α → S → Prop} (h : p.Correct s Q) : Runs n spin p s Q := by
  have hinit : (init p s : Process n S α).Inv := .init hp s
  have hcovers := covers (S := S) (α := α) hn spin
  refine ⟨hcovers.terminates hinit h.terminates, fun d hd => ?_, fun d hd hstuck => ?_⟩
  · obtain ⟨hinv, hreach⟩ := hcovers.reach hinit hd
    exact hinv.not_fails (h.safe _ _ hreach)
  · obtain ⟨hinv, hreach⟩ := hcovers.reach hinit hd
    obtain ⟨⟨a, hact⟩, hdone⟩ := hinv.done_of_stuck hn (h.safe _ _ hreach) hstuck
    have hhere : d.horizon = d.pool.returned := by simp [horizon, hact, Activity.horizon, Prog.isPar]
    have hfields := hinv.pool.main.fields
    rw [hdone] at hfields
    refine ⟨hdone, hfields.2, fun w => ?_, a, hact, ?_⟩
    · obtain ⟨j, hj⟩ := hinv.pool.worker w
      have hlocal := hj.locals
      have hlog := hj.log
      rw [hfields.2 w] at hlocal hlog
      obtain rfl : j = (runs d.horizon).length := hlocal
      rw [hlog, ← hhere]
      exact List.take_of_length_le (by simp [Pool.calls, runs])
    · rw [hact] at hreach
      exact h.result a d.mem hreach

theorem correct_of_runs (hn : 0 < n) {p : Prog S α} (hp : p.Teams n) {s : S} {Q : α → S → Prop}
    (h : Runs n spin p s Q) : p.Correct s Q := by
  have hinit : (init p s : Process n S α).Inv := .init hp s
  have hcovers := covers (S := S) (α := α) hn spin
  refine ⟨hcovers.acc hinit h.terminates, fun q t hr hf => ?_, fun a t hr => ?_⟩
  · obtain ⟨d, hd, -, heq⟩ := hcovers.reaches hinit hr
    obtain ⟨rfl, rfl⟩ := Prod.mk.inj heq
    exact h.safe _ hd (.undefined hf)
  · -- from there the pool only has to shut down
    obtain ⟨d, hd, hinv, heq⟩ := hcovers.reaches hinit hr
    obtain ⟨e, he, -, habs, hquiet⟩ := hcovers.quiesces hinv
    have hstuck (f : Process n S α) : ¬ Step spin e f := by
      intro hstep
      obtain ⟨hinv', -⟩ := hcovers.reach hinv he
      rcases hcovers.step e f hinv' hstep with hnext | hdown
      · rw [habs, heq] at hnext
        exact hnext
      · exact hquiet f hstep hdown
    obtain ⟨-, -, -, b, hact, hQ⟩ := h.result e (hd.trans he) hstuck
    obtain ⟨hprog, hmem⟩ := Prod.mk.inj (habs.trans heq)
    rw [hact] at hprog
    cases hprog
    exact hmem ▸ hQ

/-- The thread pool implements fork and join: a program for a team of `n` runs on it as it should exactly
when it does so under every interleaving of its parallel blocks. -/
theorem threadPool_iff (hn : 0 < n) (spin : Nat) {p : Prog S α} (hp : p.Teams n) {s : S}
    {Q : α → S → Prop} : Runs n spin p s Q ↔ p.Correct s Q :=
  ⟨correct_of_runs hn hp, runs_of_correct hn spin hp⟩

/-- Two workers that add to one counter. -/
theorem threadPool_iff_two :
    Runs 2 100 (Prog.fork fun _ : Fin 2 => .store fun x : Nat => x + 1) 0 (fun _ x => x = 2) ↔
      (Prog.fork fun _ : Fin 2 => .store fun x : Nat => x + 1).Correct 0 fun _ x => x = 2 :=
  threadPool_iff (by decide) 100 (.fork fun _ => .store _)

end Process

end Gapbs
