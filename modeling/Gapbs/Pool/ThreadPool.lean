import Mathlib.Data.Fintype.Option
import Gapbs.Pool.SpinBarrier

/-!
# The thread pool

`ThreadPool` of `bfs_pthread.cc`: the main thread creates the workers in `Init`, hands them one
region after another in `Run` and stops them in `Shutdown`.  `task_fn_`, `task_ctx_` and `shutdown_`
are plain fields; only the two barriers `job_start_` and `job_end_` order the accesses to them.
Every access of a field, every call of a barrier and every step inside one is a step of the model.
-/

namespace Gapbs

open Function (update)

variable {n : Nat} {F C : Type}

/-- One execution `fn(tid, num_threads, ctx)` of a task. -/
structure TaskCall (F C : Type) where
  fn : F
  tid : Nat
  numThreads : Nat
  ctx : Option C

/-- Where main stands.  The two waits of `Run` and of `Shutdown` are shared; `down` tells which. -/
inductive MainPc (C : Type) where
  /-- `Init`, about to create worker `t`. -/
  | create (t : Nat)
  /-- Between two calls, about to store `task_fn_` or, after the last `Run`, `shutdown_`. -/
  | between
  | setCtx (ctx : C)
  | startCall (down : Bool)
  | startWait (down : Bool)
  | endCall (down : Bool)
  | endWait (down : Bool)
  | clearFn
  | clearCtx
  /-- `Shutdown`, about to join worker `t`. -/
  | join (t : Nat)
  | clearNum
  | clearShutdown
  | clearSelf
  | done

/-- Where a worker stands in `WorkerMain`. -/
inductive WorkerPc (F C : Type) where
  /-- Not created yet. -/
  | unborn
  /-- About to dereference `worker_self_`. -/
  | self
  | startCall
  | startWait
  | testShutdown
  | loadFn
  | loadNum (fn : F)
  | loadCtx (fn : F) (num : Nat)
  | invoke (call : TaskCall F C)
  | running
  | endCall (exit : Bool)
  | endWait (exit : Bool)
  | exited
  /-- Dereferenced a null pointer or called a null function. -/
  | crashed

/-- The pool; participant `none` of the barriers is main.  `returned` counts the calls of `Run`
that have returned, `log` and `finished` the tasks that each worker has begun and ended. -/
structure Pool (n : Nat) (F C : Type) where
  main : MainPc C
  worker : Fin n → WorkerPc F C
  jobStart : SpinBarrier (Option (Fin n))
  jobEnd : SpinBarrier (Option (Fin n))
  taskFn : Option F
  taskCtx : Option C
  shutdown : Bool
  numThreads : Nat
  workerSelf : Bool
  returned : Nat
  log : Fin n → List (TaskCall F C)
  finished : Fin n → Nat

namespace Pool

/-- `Init` up to its loop. -/
def init : Pool n F C where
  main := .create 0
  worker _ := .unborn
  jobStart := .init
  jobEnd := .init
  taskFn := none
  taskCtx := none
  shutdown := false
  numThreads := n
  workerSelf := true
  returned := 0
  log _ := []
  finished _ := 0

/-- The next step of main, which calls `Run` on each of `tasks` and then `Shutdown`. -/
def stepMain (spin : Nat) (tasks : List (F × C)) (s : Pool n F C) : Option (Pool n F C) :=
  match s.main with
  | .create t =>
      if h : t < n then
        some { s with worker := update s.worker ⟨t, h⟩ .self, main := .create (t + 1) }
      else some { s with main := .between }
  | .between =>
      match tasks[s.returned]? with
      | some (fn, ctx) => some { s with taskFn := some fn, main := .setCtx ctx }
      | none =>
          -- `Shutdown` has nothing to do for a pool without workers
          if s.numThreads = 0 then some { s with main := .done }
          else some { s with shutdown := true, main := .startCall true }
  | .setCtx ctx => some { s with taskCtx := some ctx, main := .startCall false }
  | .startCall down => some { s with jobStart := s.jobStart.call none, main := .startWait down }
  | .startWait down => (s.jobStart.step spin none).map fun b =>
      { s with jobStart := b, main := if b.pc none = .idle then .endCall down else .startWait down }
  | .endCall down => some { s with jobEnd := s.jobEnd.call none, main := .endWait down }
  | .endWait down => (s.jobEnd.step spin none).map fun b =>
      { s with
        jobEnd := b
        main := if b.pc none = .idle then (if down then .join 0 else .clearFn) else .endWait down }
  | .clearFn => some { s with taskFn := none, main := .clearCtx }
  | .clearCtx => some { s with taskCtx := none, main := .between, returned := s.returned + 1 }
  -- `pthread_join` blocks until the worker has left `WorkerMain`
  | .join t =>
      if h : t < n then
        match s.worker ⟨t, h⟩ with
        | .exited => some { s with main := .join (t + 1) }
        | _ => none
      else some { s with main := .clearNum }
  | .clearNum => some { s with numThreads := 0, main := .clearShutdown }
  | .clearShutdown => some { s with shutdown := false, main := .clearSelf }
  | .clearSelf => some { s with workerSelf := false, main := .done }
  | .done => none

/-- Worker `w` moves on without touching the pool. -/
def goto (s : Pool n F C) (w : Fin n) (pc : WorkerPc F C) : Pool n F C :=
  { s with worker := update s.worker w pc }

/-- The next step of worker `w`. -/
def stepWorker (spin : Nat) (s : Pool n F C) (w : Fin n) : Option (Pool n F C) :=
  match s.worker w with
  | .unborn => none
  | .self => some (s.goto w (if s.workerSelf then .startCall else .crashed))
  | .startCall => some ({ s with jobStart := s.jobStart.call (some w) }.goto w .startWait)
  | .startWait => (s.jobStart.step spin (some w)).map fun b =>
      ({ s with jobStart := b } : Pool n F C).goto w
        (if b.pc (some w) = WaitPc.idle then .testShutdown else .startWait)
  -- behind the `break` a worker still calls `job_end_.wait()`
  | .testShutdown => some (s.goto w (if s.shutdown then .endCall true else .loadFn))
  -- `pool.task_fn_(tid, pool.num_threads_, pool.task_ctx_)`, one load after the other
  | .loadFn =>
      match s.taskFn with
      | some fn => some (s.goto w (.loadNum fn))
      | none => some (s.goto w .crashed)
  | .loadNum fn => some (s.goto w (.loadCtx fn s.numThreads))
  | .loadCtx fn num => some (s.goto w (.invoke ⟨fn, w, num, s.taskCtx⟩))
  | .invoke call => some ({ s with log := update s.log w (s.log w ++ [call]) }.goto w .running)
  | .running =>
      some ({ s with finished := update s.finished w (s.finished w + 1) }.goto w (.endCall false))
  | .endCall exit => some ({ s with jobEnd := s.jobEnd.call (some w) }.goto w (.endWait exit))
  | .endWait exit => (s.jobEnd.step spin (some w)).map fun b =>
      ({ s with jobEnd := b } : Pool n F C).goto w
        (if b.pc (some w) = WaitPc.idle then (if exit then .exited else .startCall)
        else .endWait exit)
  | .exited => none
  | .crashed => none

/-- Main or a worker takes a step. -/
def Step (spin : Nat) (tasks : List (F × C)) (s t : Pool n F C) : Prop :=
  s.stepMain spin tasks = some t ∨ ∃ w, s.stepWorker spin w = some t

/-- The states of all interleavings of main and the workers. -/
def Reachable (spin : Nat) (tasks : List (F × C)) : Pool n F C → Prop :=
  Relation.ReflTransGen (Step spin tasks) init

/-- What worker `w` is to execute. -/
def calls (tasks : List (F × C)) (w : Fin n) : List (TaskCall F C) :=
  tasks.map fun t => ⟨t.1, w, n, some t.2⟩

/-! ## The invariant -/

/-- How often a thread has called and left the two barriers. -/
structure Counts where
  startCalls : Nat
  startRets : Nat
  endCalls : Nat
  endRets : Nat

/-- The counts of a thread in its region number `j`, when `k` of the four barrier events of that
region lie behind it. -/
def Counts.stage (j k : Nat) : Counts :=
  ⟨j + min k 1, j + min (k - 1) 1, j + min (k - 2) 1, j + min (k - 3) 1⟩

def counts (s : Pool n F C) (p : Option (Fin n)) : Counts :=
  ⟨s.jobStart.calls p, s.jobStart.rets p, s.jobEnd.calls p, s.jobEnd.rets p⟩

end Pool

namespace MainPc

def stage : MainPc C → Nat
  | create _ | between | setCtx _ | startCall _ => 0
  | startWait _ => 1
  | endCall _ => 2
  | endWait _ => 3
  | _ => 4

/-- The fields that main writes, and which regions there are for it to be in. -/
def Fields (tasks : List (F × C)) (s : Pool n F C) : MainPc C → Prop
  | create _ | between =>
      s.shutdown = false ∧ s.numThreads = n ∧ s.returned ≤ tasks.length
  | setCtx ctx => s.shutdown = false ∧ s.numThreads = n ∧
      ∃ fn, tasks[s.returned]? = some (fn, ctx) ∧ s.taskFn = some fn
  | startCall false | startWait false | endCall false | endWait false =>
      s.shutdown = false ∧ s.numThreads = n ∧
      ∃ fn ctx, tasks[s.returned]? = some (fn, ctx) ∧ s.taskFn = some fn ∧ s.taskCtx = some ctx
  | startCall true | startWait true | endCall true | endWait true =>
      s.shutdown = true ∧ s.numThreads = n ∧ s.returned = tasks.length
  | clearFn | clearCtx => s.shutdown = false ∧ s.numThreads = n ∧ s.returned < tasks.length
  | join t => s.returned = tasks.length ∧ ∀ w, w.val < t → s.worker w = .exited
  | clearNum | clearShutdown | clearSelf | done =>
      s.returned = tasks.length ∧ ∀ w, s.worker w = .exited

end MainPc

namespace WorkerPc

def stage : WorkerPc F C → Nat
  | unborn | self | startCall => 0
  | startWait => 1
  | endWait _ => 3
  | exited => 4
  | _ => 2

/-- Whether the task of the current region has been begun. -/
def begun : WorkerPc F C → Nat
  | running | endCall false | endWait false => 1
  | _ => 0

/-- Whether the task of the current region has ended. -/
def ended : WorkerPc F C → Nat
  | endCall false | endWait false => 1
  | _ => 0

/-- What the locals of a worker in region `j` are, and which regions there are for it to be in. -/
def Local (tasks : List (F × C)) (w : Fin n) (j : Nat) : WorkerPc F C → Prop
  | unborn | self | startCall | startWait | testShutdown => j ≤ tasks.length
  | loadFn | running | endCall false | endWait false => j < tasks.length
  | loadNum fn => ∃ ctx, tasks[j]? = some (fn, ctx)
  | loadCtx fn num => num = n ∧ ∃ ctx, tasks[j]? = some (fn, ctx)
  | invoke call => (Pool.calls tasks w)[j]? = some call
  | endCall true | endWait true | exited => j = tasks.length
  | crashed => False

end WorkerPc

namespace Pool

/-- A worker in its region number `j`. -/
structure WorkerOk (tasks : List (F × C)) (s : Pool n F C) (w : Fin n) (j : Nat) : Prop where
  counts : s.counts (some w) = .stage j (s.worker w).stage
  log : s.log w = (calls tasks w).take (j + (s.worker w).begun)
  finished : s.finished w = j + (s.worker w).ended
  locals : (s.worker w).Local tasks w j

/-- Main, the fields it writes and the workers it has created. -/
structure MainOk (tasks : List (F × C)) (s : Pool n F C) : Prop where
  counts : s.counts none = .stage s.returned s.main.stage
  fields : s.main.Fields tasks s
  workerSelf : s.main = .done ∨ s.workerSelf = true
  unborn : ∀ t, s.main = .create t → ∀ w : Fin n, t ≤ w.val → s.worker w = .unborn
  born : ∀ w : Fin n, s.worker w = .unborn → ∃ t, s.main = .create t ∧ t ≤ w.val

/-- What holds in every reachable state. -/
structure Inv (tasks : List (F × C)) (s : Pool n F C) : Prop where
  jobStart : s.jobStart.Inv
  jobEnd : s.jobEnd.Inv
  main : MainOk tasks s
  worker : ∀ w, ∃ j, WorkerOk tasks s w j

theorem counts_eq {s : Pool n F C} {p : Option (Fin n)} {j k : Nat}
    (h : s.counts p = .stage j k) : s.jobStart.calls p = j + min k 1 ∧
      s.jobStart.rets p = j + min (k - 1) 1 ∧ s.jobEnd.calls p = j + min (k - 2) 1 ∧
      s.jobEnd.rets p = j + min (k - 3) 1 := by
  simpa [Pool.counts, Counts.stage] using h

/-- The barriers are passed one after the other: how far a thread is, without its stage. -/
theorem counts_mono {s : Pool n F C} {p : Option (Fin n)} {j k : Nat} (h : s.counts p = .stage j k) :
    j ≤ s.jobEnd.rets p ∧ s.jobEnd.rets p ≤ s.jobEnd.calls p ∧ s.jobEnd.calls p ≤ s.jobStart.rets p ∧
      s.jobStart.rets p ≤ s.jobStart.calls p ∧ s.jobStart.calls p ≤ j + 1 ∧
      (k = 0 → s.jobStart.calls p = j) := by
  obtain ⟨hstart, hstarted, hend, hended⟩ := counts_eq h
  rw [hstart, hstarted, hend, hended]
  refine ⟨?_, ?_, ?_, ?_, ?_, fun hk => ?_⟩
  · omega
  · omega
  · omega
  · omega
  · omega
  · rw [hk]
    rfl

theorem WorkerOk.congr {tasks : List (F × C)} {s t : Pool n F C} {w : Fin n} {j : Nat}
    (h : WorkerOk tasks s w j) (hworker : t.worker w = s.worker w)
    (hcounts : t.counts (some w) = s.counts (some w)) (hlog : t.log w = s.log w)
    (hfinished : t.finished w = s.finished w) : WorkerOk tasks t w j := by
  constructor
  · rw [hcounts, hworker, h.counts]
  · rw [hlog, hworker, h.log]
  · rw [hfinished, hworker, h.finished]
  · rw [hworker]
    exact h.locals

theorem Inv.init (tasks : List (F × C)) : Inv tasks (init : Pool n F C) where
  jobStart := ⟨0, .init⟩
  jobEnd := ⟨0, .init⟩
  main := ⟨rfl, ⟨rfl, rfl, Nat.zero_le _⟩, .inr rfl, fun _ _ _ _ => rfl,
    fun _ _ => ⟨0, rfl, Nat.zero_le _⟩⟩
  worker _ := ⟨0, rfl, rfl, rfl, Nat.zero_le _⟩

/-! ## Steps of a worker -/

/-- A step of worker `w`, which writes no field of main's and no other worker's. -/
theorem Inv.workerMove {tasks : List (F × C)} {s t : Pool n F C} (h : Inv tasks s) {w : Fin n}
    (hmain : t.main = s.main ∧ t.taskFn = s.taskFn ∧ t.taskCtx = s.taskCtx ∧
      t.shutdown = s.shutdown ∧ t.numThreads = s.numThreads ∧ t.workerSelf = s.workerSelf ∧
      t.returned = s.returned)
    (hjobStart : t.jobStart.Inv) (hjobEnd : t.jobEnd.Inv)
    (hcounts : ∀ p, p ≠ some w → t.counts p = s.counts p)
    (hothers : ∀ v, v ≠ w → t.worker v = s.worker v ∧ t.log v = s.log v ∧
      t.finished v = s.finished v)
    (hunborn : s.worker w ≠ .unborn) (hexited : s.worker w ≠ .exited)
    (hborn : t.worker w ≠ .unborn) {j : Nat} (hw : WorkerOk tasks t w j) : Inv tasks t := by
  obtain ⟨hpc, hfn, hctx, hdown, hnum, hself, hret⟩ := hmain
  have hstays (v : Fin n) (hv : s.worker v = .exited) : t.worker v = .exited := by
    have hvw : v ≠ w := fun heq => hexited (heq ▸ hv)
    rw [(hothers v hvw).1, hv]
  refine ⟨hjobStart, hjobEnd, ⟨?_, ?_, ?_, ?_, ?_⟩, fun v => ?_⟩
  · rw [hcounts none nofun, hpc, hret, h.main.counts]
  · have hfields := h.main.fields
    rw [hpc]
    cases hm : s.main with
    | join k =>
      rw [hm] at hfields
      exact ⟨hret ▸ hfields.1, fun v hv => hstays v (hfields.2 v hv)⟩
    | clearNum | clearShutdown | clearSelf | done =>
      rw [hm] at hfields
      exact ⟨hret ▸ hfields.1, fun v => hstays v (hfields.2 v)⟩
    | create | between | setCtx | clearFn | clearCtx =>
      rw [hm] at hfields
      simp only [MainPc.Fields, hfn, hdown, hnum, hret]
      exact hfields
    | startCall d | startWait d | endCall d | endWait d =>
      rw [hm] at hfields
      cases d <;> simp only [MainPc.Fields, hfn, hctx, hdown, hnum, hret] <;> exact hfields
  · rw [hpc, hself]
    exact h.main.workerSelf
  · intro k hk v hv
    have hs := h.main.unborn k (hpc ▸ hk) v hv
    have hvw : v ≠ w := fun heq => hunborn (heq ▸ hs)
    rw [(hothers v hvw).1, hs]
  · intro v hv
    have hvw : v ≠ w := fun heq => hborn (heq ▸ hv)
    rw [hpc]
    exact h.main.born v ((hothers v hvw).1 ▸ hv)
  · by_cases hvw : v = w
    · exact ⟨j, hvw ▸ hw⟩
    · obtain ⟨i, hi⟩ := h.worker v
      obtain ⟨hworker, hlog, hfinished⟩ := hothers v hvw
      exact ⟨i, hi.congr hworker (hcounts (some v) (by simpa using hvw)) hlog hfinished⟩

/-- A worker between the two barriers is in the region of main, which waits for it, so the fields
are those of this region. -/
theorem Inv.region {tasks : List (F × C)} {s : Pool n F C} (h : Inv tasks s) {w : Fin n} {j : Nat}
    (hw : WorkerOk tasks s w j) (hstage : (s.worker w).stage = 2) :
    (s.shutdown = false ∧ s.numThreads = n ∧
      ∃ fn ctx, tasks[j]? = some (fn, ctx) ∧ s.taskFn = some fn ∧ s.taskCtx = some ctx) ∨
    (s.shutdown = true ∧ s.numThreads = n ∧ j = tasks.length) := by
  have hwc := counts_eq hw.counts
  have hmc := counts_eq h.main.counts
  have hstart := h.jobStart.rets_le_calls (some w) none
  have hend := h.jobEnd.rets_le_calls none (some w)
  obtain ⟨rfl, hpos, hlt⟩ : s.returned = j ∧ 0 < s.main.stage ∧ s.main.stage < 4 := by omega
  have hfields := h.main.fields
  cases hm : s.main with
  | create | between | setCtx | clearFn | clearCtx | join | clearNum | clearShutdown | clearSelf
  | done => simp [hm, MainPc.stage] at hpos hlt
  | startCall d | startWait d | endCall d | endWait d =>
    rw [hm] at hfields
    cases d with
    | false => exact .inl hfields
    | true => exact .inr hfields

theorem counts_eq_iff {s : Pool n F C} {p : Option (Fin n)} {j k : Nat} :
    s.counts p = .stage j k ↔ s.jobStart.calls p = j + min k 1 ∧
      s.jobStart.rets p = j + min (k - 1) 1 ∧ s.jobEnd.calls p = j + min (k - 2) 1 ∧
      s.jobEnd.rets p = j + min (k - 3) 1 := by
  simp [Pool.counts, Counts.stage]

/-- The barriers after a move of `p`: the counts of the other threads are as before. -/
structure Barriers (s : Pool n F C) (p : Option (Fin n)) (b₁ b₂ : SpinBarrier (Option (Fin n))) :
    Prop where
  jobStart : b₁.Inv
  jobEnd : b₂.Inv
  startOthers : ∀ q, q ≠ p → b₁.calls q = s.jobStart.calls q ∧ b₁.rets q = s.jobStart.rets q
  endOthers : ∀ q, q ≠ p → b₂.calls q = s.jobEnd.calls q ∧ b₂.rets q = s.jobEnd.rets q

theorem Inv.same {tasks : List (F × C)} {s : Pool n F C} (h : Inv tasks s)
    (p : Option (Fin n)) : Barriers s p s.jobStart s.jobEnd :=
  ⟨h.jobStart, h.jobEnd, fun _ _ => ⟨rfl, rfl⟩, fun _ _ => ⟨rfl, rfl⟩⟩

/-- Calling a barrier adds a call. -/
theorem call_ok {P : Type} [DecidableEq P] [Fintype P] {b : SpinBarrier P} (hb : b.Inv) {p : P}
    (hp : b.calls p = b.rets p) : (b.call p).Inv ∧
      (∀ q, q ≠ p → (b.call p).calls q = b.calls q ∧ (b.call p).rets q = b.rets q) ∧
      (b.call p).calls p = b.calls p + 1 ∧ (b.call p).rets p = b.rets p := by
  refine ⟨hb.call ((hb.idle_iff p).mpr hp), fun q hq => ⟨?_, rfl⟩, ?_, rfl⟩
  · simp [SpinBarrier.call, hq]
  · simp [SpinBarrier.call]

/-- A step inside a barrier adds a return when it leaves. -/
theorem step_ok {P : Type} [DecidableEq P] [Fintype P] {b c : SpinBarrier P} (hb : b.Inv)
    {spin : Nat} {p : P} (hstep : b.step spin p = some c) : c.Inv ∧
      (∀ q, q ≠ p → c.calls q = b.calls q ∧ c.rets q = b.rets q) ∧
      c.calls p = b.calls p ∧ c.rets p = b.rets p + if c.pc p = .idle then 1 else 0 := by
  obtain ⟨hcalls, hidle, hin⟩ := SpinBarrier.step_counts hstep
  refine ⟨hb.step hstep, fun q hq => ⟨congrFun hcalls q, ?_⟩, congrFun hcalls p, ?_⟩
  · by_cases hpc : c.pc p = .idle
    · rw [hidle hpc, Function.update_of_ne hq]
    · rw [hin hpc]
  · by_cases hpc : c.pc p = .idle
    · rw [hidle hpc, Function.update_self, if_pos hpc]
    · rw [hin hpc, if_neg hpc, Nat.add_zero]

/-! The four barrier events of a region: a thread calls `job_start_`, leaves it, calls `job_end_` and leaves
it.  Each takes it to the next stage. -/

section Events

variable {tasks : List (F × C)} {s : Pool n F C} {spin : Nat} {p : Option (Fin n)} {j : Nat}
  {b : SpinBarrier (Option (Fin n))}

theorem Inv.callStart (h : Inv tasks s) (hp : s.counts p = .stage j 0) :
    Barriers s p (s.jobStart.call p) s.jobEnd ∧
      ({ s with jobStart := s.jobStart.call p } : Pool n F C).counts p = .stage j 1 := by
  have hcounts := counts_eq hp
  obtain ⟨hinv, hne, hc, hr⟩ := call_ok h.jobStart (p := p) (by omega)
  refine ⟨⟨hinv, h.jobEnd, hne, fun _ _ => ⟨rfl, rfl⟩⟩, ?_⟩
  rw [counts_eq_iff]
  dsimp only
  omega

theorem Inv.leaveStart (h : Inv tasks s) (hp : s.counts p = .stage j 1)
    (hb : s.jobStart.step spin p = some b) : Barriers s p b s.jobEnd ∧
      ({ s with jobStart := b } : Pool n F C).counts p = .stage j (if b.pc p = .idle then 2 else 1) := by
  have hcounts := counts_eq hp
  obtain ⟨hinv, hne, hc, hr⟩ := step_ok h.jobStart hb
  refine ⟨⟨hinv, h.jobEnd, hne, fun _ _ => ⟨rfl, rfl⟩⟩, ?_⟩
  rw [counts_eq_iff]
  dsimp only
  by_cases hidle : b.pc p = .idle
  · rw [if_pos hidle] at hr ⊢
    omega
  · rw [if_neg hidle] at hr ⊢
    omega

theorem Inv.callEnd (h : Inv tasks s) (hp : s.counts p = .stage j 2) :
    Barriers s p s.jobStart (s.jobEnd.call p) ∧
      ({ s with jobEnd := s.jobEnd.call p } : Pool n F C).counts p = .stage j 3 := by
  have hcounts := counts_eq hp
  obtain ⟨hinv, hne, hc, hr⟩ := call_ok h.jobEnd (p := p) (by omega)
  refine ⟨⟨h.jobStart, hinv, fun _ _ => ⟨rfl, rfl⟩, hne⟩, ?_⟩
  rw [counts_eq_iff]
  dsimp only
  omega

theorem Inv.leaveEnd (h : Inv tasks s) (hp : s.counts p = .stage j 3)
    (hb : s.jobEnd.step spin p = some b) : Barriers s p s.jobStart b ∧
      ({ s with jobEnd := b } : Pool n F C).counts p = .stage j (if b.pc p = .idle then 4 else 3) := by
  have hcounts := counts_eq hp
  obtain ⟨hinv, hne, hc, hr⟩ := step_ok h.jobEnd hb
  refine ⟨⟨h.jobStart, hinv, fun _ _ => ⟨rfl, rfl⟩, hne⟩, ?_⟩
  rw [counts_eq_iff]
  dsimp only
  by_cases hidle : b.pc p = .idle
  · rw [if_pos hidle] at hr ⊢
    omega
  · rw [if_neg hidle] at hr ⊢
    omega

/-- All four events of a region are behind a thread that has none of the next one behind it. -/
theorem stage_next (j : Nat) : Counts.stage j 4 = .stage (j + 1) 0 := by
  simp [Counts.stage]

end Events

/-- A worker that moves on, possibly past a barrier event, without touching the fields. -/
theorem Inv.goto {tasks : List (F × C)} {s : Pool n F C} (h : Inv tasks s) {w : Fin n} {j i : Nat}
    (hw : WorkerOk tasks s w j) {b₁ b₂ : SpinBarrier (Option (Fin n))} {old pc : WorkerPc F C}
    (hold : s.worker w = old) (hb : Barriers s (some w) b₁ b₂) (hunborn : old ≠ .unborn)
    (hexited : old ≠ .exited) (hborn : pc ≠ .unborn)
    (hcounts : ({ s with jobStart := b₁, jobEnd := b₂ } : Pool n F C).counts (some w) =
      .stage i pc.stage)
    (hbegun : i + pc.begun = j + old.begun) (hended : i + pc.ended = j + old.ended)
    (hlocal : pc.Local tasks w i) :
    Inv tasks ({ s with jobStart := b₁, jobEnd := b₂ }.goto w pc) := by
  subst hold
  have hself : ({ s with jobStart := b₁, jobEnd := b₂ }.goto w pc).worker w = pc := by
    simp [Pool.goto]
  apply h.workerMove (t := ({ s with jobStart := b₁, jobEnd := b₂ } : Pool n F C).goto w pc) (w := w)
    (j := i) ⟨rfl, rfl, rfl, rfl, rfl, rfl, rfl⟩ hb.jobStart hb.jobEnd
  · intro p hp
    simp [Pool.counts, Pool.goto, hb.startOthers p hp, hb.endOthers p hp]
  · intro v hv
    exact ⟨by simp [Pool.goto, hv], rfl, rfl⟩
  · exact hunborn
  · exact hexited
  · rwa [hself]
  · constructor
    · rw [hself, ← hcounts]
      rfl
    · rw [hself, hbegun, ← hw.log]
      rfl
    · rw [hself, hended, ← hw.finished]
      rfl
    · rwa [hself]

/-- A worker that moves on between two barrier events, in the middle of no task or of the same one. -/
theorem Inv.gotoLocal {tasks : List (F × C)} {s : Pool n F C} (h : Inv tasks s) {w : Fin n} {j : Nat}
    (hw : WorkerOk tasks s w j) {old pc : WorkerPc F C} (hold : s.worker w = old)
    (hunborn : old ≠ .unborn) (hexited : old ≠ .exited) (hborn : pc ≠ .unborn)
    (hstage : old.stage = pc.stage) (hbegun : pc.begun = old.begun) (hended : pc.ended = old.ended)
    (hlocal : pc.Local tasks w j) : Inv tasks (s.goto w pc) := by
  have hcounts := hw.counts
  rw [hold, hstage] at hcounts
  exact h.goto hw hold (h.same (some w)) hunborn hexited hborn hcounts (congrArg (j + ·) hbegun)
    (congrArg (j + ·) hended) hlocal

theorem Inv.stepWorker {tasks : List (F × C)} {s t : Pool n F C} (h : Inv tasks s) {spin : Nat}
    {w : Fin n} (hstep : s.stepWorker spin w = some t) : Inv tasks t := by
  obtain ⟨j, hw⟩ := h.worker w
  have hlocal := hw.locals
  have hcounts := hw.counts
  cases hpc : s.worker w with
  | unborn => simp [Pool.stepWorker, hpc] at hstep
  | exited => simp [Pool.stepWorker, hpc] at hstep
  | crashed => simp [Pool.stepWorker, hpc] at hstep
  | self =>
    simp only [Pool.stepWorker, hpc, Option.some.injEq] at hstep
    rw [hpc] at hlocal
    -- main is still in `Run` or `Shutdown`, so `worker_self_` points to the pool
    have hself : s.workerSelf = true := by
      refine h.main.workerSelf.resolve_left fun hdone => ?_
      have hfields := h.main.fields
      rw [hdone] at hfields
      exact nomatch hpc.symm.trans (hfields.2 w)
    rw [if_pos hself] at hstep
    subst hstep
    exact h.gotoLocal hw hpc nofun nofun nofun rfl rfl rfl hlocal
  | startCall =>
    simp only [Pool.stepWorker, hpc, Option.some.injEq] at hstep
    subst hstep
    rw [hpc] at hlocal hcounts
    obtain ⟨hbar, hcalled⟩ := h.callStart hcounts
    exact h.goto hw hpc hbar nofun nofun nofun hcalled rfl rfl hlocal
  | startWait =>
    simp only [Pool.stepWorker, hpc, Option.map_eq_some_iff] at hstep
    obtain ⟨b, hb, rfl⟩ := hstep
    rw [hpc] at hlocal hcounts
    obtain ⟨hbar, hmoved⟩ := h.leaveStart hcounts hb
    by_cases hret : b.pc (some w) = .idle
    · rw [if_pos hret] at hmoved ⊢
      exact h.goto hw hpc hbar nofun nofun nofun hmoved rfl rfl hlocal
    · rw [if_neg hret] at hmoved ⊢
      exact h.goto hw hpc hbar nofun nofun nofun hmoved rfl rfl hlocal
  | testShutdown =>
    simp only [Pool.stepWorker, hpc, Option.some.injEq] at hstep
    subst hstep
    rcases h.region hw (by rw [hpc]; rfl) with ⟨hdown, -, fn, ctx, hget, -, -⟩ | ⟨hdown, -, hj⟩
    · have hlt := (List.getElem?_eq_some_iff.mp hget).1
      rw [hdown, if_neg nofun]
      exact h.gotoLocal hw hpc nofun nofun nofun rfl rfl rfl hlt
    · rw [hdown, if_pos rfl]
      exact h.gotoLocal hw hpc nofun nofun nofun rfl rfl rfl hj
  | loadFn =>
    rw [hpc] at hlocal
    rcases h.region hw (by rw [hpc]; rfl) with ⟨-, -, fn, ctx, hget, hfn, -⟩ | ⟨-, -, hj⟩
    · simp only [Pool.stepWorker, hpc, hfn, Option.some.injEq] at hstep
      subst hstep
      exact h.gotoLocal hw hpc nofun nofun nofun rfl rfl rfl ⟨ctx, hget⟩
    · simp only [WorkerPc.Local] at hlocal
      omega
  | loadNum fn =>
    simp only [Pool.stepWorker, hpc, Option.some.injEq] at hstep
    subst hstep
    rw [hpc] at hlocal
    have hnum : s.numThreads = n := by
      rcases h.region hw (by rw [hpc]; rfl) with ⟨-, hnum, -⟩ | ⟨-, hnum, -⟩ <;> exact hnum
    exact h.gotoLocal hw hpc nofun nofun nofun rfl rfl rfl ⟨hnum, hlocal⟩
  | loadCtx fn num =>
    simp only [Pool.stepWorker, hpc, Option.some.injEq] at hstep
    subst hstep
    rw [hpc] at hlocal
    obtain ⟨rfl, ctx, hget⟩ := hlocal
    rcases h.region hw (by rw [hpc]; rfl) with ⟨-, -, fn', ctx', hget', -, hctx⟩ | ⟨-, -, rfl⟩
    · obtain ⟨rfl, rfl⟩ := Prod.mk.inj (Option.some.inj (hget.symm.trans hget'))
      refine h.gotoLocal hw hpc nofun nofun nofun rfl rfl rfl ?_
      simp [WorkerPc.Local, Pool.calls, hget, hctx]
    · simp at hget
  | invoke call =>
    simp only [Pool.stepWorker, hpc, Option.some.injEq] at hstep
    subst hstep
    rw [hpc] at hlocal
    have hlt := (List.getElem?_eq_some_iff.mp hlocal).1
    apply h.workerMove
      (t := ({ s with log := update s.log w (s.log w ++ [call]) } : Pool n F C).goto w .running)
      (w := w) (j := j) ⟨rfl, rfl, rfl, rfl, rfl, rfl, rfl⟩ h.jobStart h.jobEnd
    · exact fun _ _ => rfl
    · exact fun v hv => ⟨by simp [Pool.goto, hv], by simp [Pool.goto, hv], rfl⟩
    · simp [hpc]
    · simp [hpc]
    · simp [Pool.goto]
    · constructor
      · exact hw.counts.trans (by simp [hpc, Pool.goto, WorkerPc.stage])
      · have hlog := hw.log
        have hget : (calls tasks w)[j]? = some call := hlocal
        rw [hpc] at hlog
        simp only [Pool.goto, Function.update_self, WorkerPc.begun, List.take_add_one, hget]
        rw [hlog]
        rfl
      · simpa [Pool.goto, hpc, WorkerPc.ended] using hw.finished
      · simpa [Pool.goto, WorkerPc.Local, Pool.calls] using hlt
  | running =>
    simp only [Pool.stepWorker, hpc, Option.some.injEq] at hstep
    subst hstep
    rw [hpc] at hlocal
    apply h.workerMove (t := ({ s with finished := update s.finished w (s.finished w + 1) } :
      Pool n F C).goto w (.endCall false)) (w := w) (j := j) ⟨rfl, rfl, rfl, rfl, rfl, rfl, rfl⟩
      h.jobStart h.jobEnd
    · exact fun _ _ => rfl
    · exact fun v hv => ⟨by simp [Pool.goto, hv], rfl, by simp [Pool.goto, hv]⟩
    · simp [hpc]
    · simp [hpc]
    · simp [Pool.goto]
    · constructor
      · exact hw.counts.trans (by simp [hpc, Pool.goto, WorkerPc.stage])
      · simpa [Pool.goto, hpc, WorkerPc.begun] using hw.log
      · simpa [Pool.goto, hpc, WorkerPc.ended] using hw.finished
      · simpa [Pool.goto, WorkerPc.Local] using hlocal
  | endCall exit =>
    simp only [Pool.stepWorker, hpc, Option.some.injEq] at hstep
    subst hstep
    rw [hpc] at hlocal hcounts
    obtain ⟨hbar, hcalled⟩ := h.callEnd hcounts
    exact h.goto hw hpc hbar nofun nofun nofun hcalled (by cases exit <;> rfl) (by cases exit <;> rfl)
      (by cases exit <;> exact hlocal)
  | endWait exit =>
    simp only [Pool.stepWorker, hpc, Option.map_eq_some_iff] at hstep
    obtain ⟨b, hb, rfl⟩ := hstep
    rw [hpc] at hlocal hcounts
    obtain ⟨hbar, hmoved⟩ := h.leaveEnd hcounts hb
    by_cases hret : b.pc (some w) = .idle
    · rw [if_pos hret] at hmoved ⊢
      cases exit with
      | false =>
        -- on to the next region
        exact h.goto hw hpc hbar nofun nofun nofun (hmoved.trans (stage_next j)) rfl rfl
          (Nat.succ_le_of_lt hlocal)
      | true => exact h.goto hw hpc hbar nofun nofun nofun hmoved rfl rfl hlocal
    · rw [if_neg hret] at hmoved ⊢
      exact h.goto hw hpc hbar nofun nofun nofun hmoved rfl rfl hlocal

/-! ## Steps of main -/

/-- A step of main, which touches no worker. -/
theorem Inv.mainMove {tasks : List (F × C)} {s t : Pool n F C} (h : Inv tasks s)
    (hb : Barriers s none t.jobStart t.jobEnd)
    (hworkers : t.worker = s.worker ∧ t.log = s.log ∧ t.finished = s.finished)
    (hborn : ∀ w, s.worker w ≠ .unborn) (hcreate : ∀ k, t.main ≠ .create k)
    (hcounts : t.counts none = .stage t.returned t.main.stage) (hfields : t.main.Fields tasks t)
    (hself : t.main = .done ∨ t.workerSelf = true) : Inv tasks t := by
  obtain ⟨hworker, hlog, hfinished⟩ := hworkers
  refine ⟨hb.jobStart, hb.jobEnd, ⟨hcounts, hfields, hself, ?_, ?_⟩, fun w => ?_⟩
  · exact fun k hk => absurd hk (hcreate k)
  · exact fun w hw => absurd (hworker ▸ hw) (hborn w)
  · obtain ⟨j, hj⟩ := h.worker w
    refine ⟨j, hj.congr (by rw [hworker]) ?_ (by rw [hlog]) (by rw [hfinished])⟩
    simp [Pool.counts, hb.startOthers (some w) nofun, hb.endOthers (some w) nofun]

/-- A step of main past a barrier event, after it has created all workers. -/
theorem Inv.mainGoto {tasks : List (F × C)} {s t : Pool n F C} (h : Inv tasks s) {old : MainPc C}
    (hold : s.main = old) (hb : Barriers s none t.jobStart t.jobEnd)
    (hworkers : t.worker = s.worker ∧ t.log = s.log ∧ t.finished = s.finished)
    (hcreated : ∀ k, old ≠ .create k) (hrunning : old ≠ .done) (hcreate : ∀ k, t.main ≠ .create k)
    (hcounts : t.counts none = .stage t.returned t.main.stage) (hfields : t.main.Fields tasks t)
    (hself : t.workerSelf = s.workerSelf) : Inv tasks t := by
  subst hold
  apply h.mainMove hb hworkers _ hcreate hcounts hfields
  · exact .inr (hself.trans (h.main.workerSelf.resolve_left hrunning))
  · intro w hw
    obtain ⟨k, hk, -⟩ := h.main.born w hw
    exact hcreated k hk

/-- The same between two barrier events. -/
theorem Inv.mainLocal {tasks : List (F × C)} {s t : Pool n F C} (h : Inv tasks s) {old : MainPc C}
    (hold : s.main = old) (hb : t.jobStart = s.jobStart ∧ t.jobEnd = s.jobEnd)
    (hworkers : t.worker = s.worker ∧ t.log = s.log ∧ t.finished = s.finished)
    (hcreated : ∀ k, old ≠ .create k) (hrunning : old ≠ .done) (hcreate : ∀ k, t.main ≠ .create k)
    (hstage : Counts.stage s.returned old.stage = .stage t.returned t.main.stage)
    (hfields : t.main.Fields tasks t) (hself : t.workerSelf = s.workerSelf) : Inv tasks t := by
  have hcounts : t.counts none = .stage t.returned t.main.stage := by
    rw [← hstage, ← hold, ← h.main.counts]
    unfold Pool.counts
    rw [hb.1, hb.2]
  exact h.mainGoto hold (hb.1 ▸ hb.2 ▸ h.same none) hworkers hcreated hrunning hcreate hcounts hfields hself

/-- `Init` creates a worker. -/
theorem Inv.create {tasks : List (F × C)} {s : Pool n F C} (h : Inv tasks s) {k : Nat}
    (hm : s.main = .create k) (hk : k < n) :
    Inv tasks { s with worker := update s.worker ⟨k, hk⟩ .self, main := .create (k + 1) } := by
  have hfields := h.main.fields
  have hself : s.workerSelf = true := h.main.workerSelf.resolve_left (by simp [hm])
  rw [hm] at hfields
  refine ⟨h.jobStart, h.jobEnd, ⟨?_, hfields, .inr hself, ?_, ?_⟩, fun w => ?_⟩
  · exact h.main.counts.trans (by rw [hm]; rfl)
  · intro t ht w hw
    cases ht
    have hne : w ≠ ⟨k, hk⟩ := fun heq => by simp [heq] at hw
    simp only [Function.update_of_ne hne]
    exact h.main.unborn k hm w (by omega)
  · intro w hw
    have hne : w ≠ ⟨k, hk⟩ := fun heq => by simp [heq] at hw
    simp only [Function.update_of_ne hne] at hw
    obtain ⟨t, ht, hle⟩ := h.main.born w hw
    cases hm.symm.trans ht
    have hval : w.val ≠ k := fun heq => hne (Fin.ext heq)
    exact ⟨k + 1, rfl, by omega⟩
  · obtain ⟨j, hj⟩ := h.worker w
    by_cases hw : w = ⟨k, hk⟩
    · -- the worker that is created stands where an unborn one stood
      subst hw
      have hunborn : s.worker ⟨k, hk⟩ = .unborn := h.main.unborn k hm _ le_rfl
      have hlog := hj.log
      have hfinished := hj.finished
      have hlocal := hj.locals
      rw [hunborn] at hlog hfinished hlocal
      refine ⟨j, ?_, ?_, ?_, ?_⟩
      · exact hj.counts.trans (by simp [hunborn, WorkerPc.stage])
      · simpa [WorkerPc.begun] using hlog
      · simpa [WorkerPc.ended] using hfinished
      · simpa [WorkerPc.Local] using hlocal
    · exact ⟨j, hj.congr (by simp [hw]) rfl rfl rfl⟩

theorem Inv.stepMain {tasks : List (F × C)} {s t : Pool n F C} (hn : 0 < n) (h : Inv tasks s)
    {spin : Nat} (hstep : s.stepMain spin tasks = some t) : Inv tasks t := by
  have hfields := h.main.fields
  have hcounts := h.main.counts
  cases hm : s.main with
  | done => simp [Pool.stepMain, hm] at hstep
  | create k =>
    rw [hm] at hfields
    simp only [Pool.stepMain, hm] at hstep
    by_cases hk : k < n
    · rw [dif_pos hk, Option.some.injEq] at hstep
      subst hstep
      exact h.create hm hk
    · rw [dif_neg hk, Option.some.injEq] at hstep
      subst hstep
      have hself : s.workerSelf = true := h.main.workerSelf.resolve_left (by simp [hm])
      refine h.mainMove (h.same none) ⟨rfl, rfl, rfl⟩ (fun w hw => ?_) nofun
        (hcounts.trans (by rw [hm]; rfl)) hfields (.inr hself)
      obtain ⟨t, ht, hle⟩ := h.main.born w hw
      cases hm.symm.trans ht
      omega
  | between =>
    rw [hm] at hfields
    obtain ⟨hdown, hnum, hle⟩ := hfields
    simp only [Pool.stepMain, hm] at hstep
    split at hstep
    · next fn ctx hget =>
      cases hstep
      exact h.mainLocal hm ⟨rfl, rfl⟩ ⟨rfl, rfl, rfl⟩ nofun nofun nofun rfl
        ⟨hdown, hnum, fn, hget, rfl⟩ rfl
    · next hget =>
      -- all tasks have been run, and `Shutdown` finds the workers of the pool
      have hall : s.returned = tasks.length := le_antisymm hle (List.getElem?_eq_none_iff.mp hget)
      rw [if_neg (by omega)] at hstep
      cases hstep
      exact h.mainLocal hm ⟨rfl, rfl⟩ ⟨rfl, rfl, rfl⟩ nofun nofun nofun rfl ⟨rfl, hnum, hall⟩ rfl
  | setCtx ctx =>
    rw [hm] at hfields
    obtain ⟨hdown, hnum, fn, hget, hfn⟩ := hfields
    simp only [Pool.stepMain, hm, Option.some.injEq] at hstep
    subst hstep
    exact h.mainLocal hm ⟨rfl, rfl⟩ ⟨rfl, rfl, rfl⟩ nofun nofun nofun rfl
      ⟨hdown, hnum, fn, ctx, hget, hfn, rfl⟩ rfl
  | startCall d =>
    rw [hm] at hfields hcounts
    simp only [Pool.stepMain, hm, Option.some.injEq] at hstep
    subst hstep
    obtain ⟨hbar, hcalled⟩ := h.callStart hcounts
    exact h.mainGoto hm hbar ⟨rfl, rfl, rfl⟩ nofun nofun nofun hcalled (by cases d <;> exact hfields) rfl
  | startWait d =>
    rw [hm] at hfields hcounts
    simp only [Pool.stepMain, hm, Option.map_eq_some_iff] at hstep
    obtain ⟨b, hb, rfl⟩ := hstep
    obtain ⟨hbar, hmoved⟩ := h.leaveStart hcounts hb
    by_cases hret : b.pc none = .idle
    · rw [if_pos hret] at hmoved ⊢
      exact h.mainGoto hm hbar ⟨rfl, rfl, rfl⟩ nofun nofun nofun hmoved (by cases d <;> exact hfields) rfl
    · rw [if_neg hret] at hmoved ⊢
      exact h.mainGoto hm hbar ⟨rfl, rfl, rfl⟩ nofun nofun nofun hmoved (by cases d <;> exact hfields) rfl
  | endCall d =>
    rw [hm] at hfields hcounts
    simp only [Pool.stepMain, hm, Option.some.injEq] at hstep
    subst hstep
    obtain ⟨hbar, hcalled⟩ := h.callEnd hcounts
    exact h.mainGoto hm hbar ⟨rfl, rfl, rfl⟩ nofun nofun nofun hcalled (by cases d <;> exact hfields) rfl
  | endWait d =>
    rw [hm] at hfields hcounts
    simp only [Pool.stepMain, hm, Option.map_eq_some_iff] at hstep
    obtain ⟨b, hb, rfl⟩ := hstep
    obtain ⟨hbar, hmoved⟩ := h.leaveEnd hcounts hb
    by_cases hret : b.pc none = .idle
    · rw [if_pos hret] at hmoved ⊢
      cases d with
      | false =>
        obtain ⟨hdown, hnum, fn, ctx, hget, -, -⟩ := hfields
        have hlt := (List.getElem?_eq_some_iff.mp hget).1
        exact h.mainGoto hm hbar ⟨rfl, rfl, rfl⟩ nofun nofun nofun hmoved ⟨hdown, hnum, hlt⟩ rfl
      | true =>
        have hnone (w : Fin n) (hw : w.val < 0) : s.worker w = .exited := absurd hw (Nat.not_lt_zero _)
        exact h.mainGoto hm hbar ⟨rfl, rfl, rfl⟩ nofun nofun nofun hmoved ⟨hfields.2.2, hnone⟩ rfl
    · rw [if_neg hret] at hmoved ⊢
      exact h.mainGoto hm hbar ⟨rfl, rfl, rfl⟩ nofun nofun nofun hmoved (by cases d <;> exact hfields) rfl
  | clearCtx =>
    rw [hm] at hfields
    simp only [Pool.stepMain, hm, Option.some.injEq] at hstep
    subst hstep
    exact h.mainLocal hm ⟨rfl, rfl⟩ ⟨rfl, rfl, rfl⟩ nofun nofun nofun (stage_next s.returned) hfields rfl
  | join k =>
    rw [hm] at hfields
    obtain ⟨hret, hjoined⟩ := hfields
    simp only [Pool.stepMain, hm] at hstep
    by_cases hk : k < n
    · rw [dif_pos hk] at hstep
      split at hstep
      · next hexited =>
        cases hstep
        refine h.mainLocal hm ⟨rfl, rfl⟩ ⟨rfl, rfl, rfl⟩ nofun nofun nofun rfl ⟨hret, fun w hw => ?_⟩ rfl
        rcases Nat.lt_succ_iff_lt_or_eq.mp hw with hlt | heq
        · exact hjoined w hlt
        · obtain rfl : w = ⟨k, hk⟩ := Fin.ext heq
          exact hexited
      · cases hstep
    · rw [dif_neg hk, Option.some.injEq] at hstep
      subst hstep
      have hall (w : Fin n) : s.worker w = .exited := hjoined w (by omega)
      exact h.mainLocal hm ⟨rfl, rfl⟩ ⟨rfl, rfl, rfl⟩ nofun nofun nofun rfl ⟨hret, hall⟩ rfl
  | clearFn | clearNum | clearShutdown =>
    rw [hm] at hfields
    simp only [Pool.stepMain, hm, Option.some.injEq] at hstep
    subst hstep
    exact h.mainLocal hm ⟨rfl, rfl⟩ ⟨rfl, rfl, rfl⟩ nofun nofun nofun rfl hfields rfl
  | clearSelf =>
    rw [hm] at hfields
    simp only [Pool.stepMain, hm, Option.some.injEq] at hstep
    subst hstep
    -- `worker_self_` may be cleared, as no worker is left to follow it
    refine h.mainMove (h.same none) ⟨rfl, rfl, rfl⟩ (fun w hw => ?_) nofun
      (hcounts.trans (by rw [hm]; rfl)) hfields (.inl rfl)
    cases hw.symm.trans (hfields.2 w)

theorem Inv.step {tasks : List (F × C)} {s t : Pool n F C} (hn : 0 < n) (h : Inv tasks s)
    {spin : Nat} (hstep : Step spin tasks s t) : Inv tasks t := by
  rcases hstep with hmain | ⟨w, hw⟩
  · exact h.stepMain hn hmain
  · exact h.stepWorker hw

theorem Reachable.inv {tasks : List (F × C)} {s : Pool n F C} (hn : 0 < n) {spin : Nat}
    (h : Reachable spin tasks s) : Inv tasks s := by
  induction h with
  | refl => exact .init tasks
  | tail _ hstep ih => exact ih.step hn hstep

end Pool

/-! ## Termination -/

/-- How many transitions of its own main is away from its end, in a pool of `n` workers with
`rest` calls of `Run` still to return. -/
def MainPc.remaining (n rest : Nat) : MainPc C → Nat
  | create t => 8 * rest + n + 11 + (n - t)
  | between => 8 * rest + n + 10
  | setCtx _ => 8 * rest + n + 9
  | startCall false => 8 * rest + n + 8
  | startWait false => 8 * rest + n + 7
  | endCall false => 8 * rest + n + 6
  | endWait false => 8 * rest + n + 5
  | clearFn => 8 * rest + n + 4
  | clearCtx => 8 * rest + n + 3
  | startCall true => n + 9
  | startWait true => n + 8
  | endCall true => n + 7
  | endWait true => n + 6
  | join t => n - t + 5
  | clearNum => 4
  | clearShutdown => 3
  | clearSelf => 2
  | done => 0

/-- The same for a worker with `rest` tasks still to end. -/
def WorkerPc.remaining (rest : Nat) : WorkerPc F C → Nat
  | unborn => 12 * rest + 12
  | self => 12 * rest + 11
  | startCall => 12 * rest + 10
  | startWait => 12 * rest + 9
  | testShutdown => 12 * rest + 8
  | loadFn => 12 * rest + 7
  | loadNum _ => 12 * rest + 6
  | loadCtx _ _ => 12 * rest + 5
  | invoke _ => 12 * rest + 4
  | running => 12 * rest + 3
  | endCall false => 12 * rest + 12
  | endWait false => 12 * rest + 11
  | endCall true => 7
  | endWait true => 6
  | exited | crashed => 0

namespace Pool

def workerRemaining (tasks : List (F × C)) (s : Pool n F C) (w : Fin n) : Nat :=
  (s.worker w).remaining (tasks.length - s.finished w)

def remaining (tasks : List (F × C)) (s : Pool n F C) : Nat :=
  s.main.remaining n (tasks.length - s.returned) + ∑ w, s.workerRemaining tasks w

/-- A transition outweighs whatever the potentials of the barriers gain by it. -/
def measure (spin : Nat) (tasks : List (F × C)) (s : Pool n F C) : Nat :=
  (3 * (n + 1) + spin + 6) * s.remaining tasks +
    (s.jobStart.potential spin + s.jobEnd.potential spin)

theorem measure_lt {spin : Nat} {tasks : List (F × C)} {s t : Pool n F C}
    (h : t.remaining tasks < s.remaining tasks ∧
        t.jobStart.potential spin + t.jobEnd.potential spin ≤
          s.jobStart.potential spin + s.jobEnd.potential spin + (3 * (n + 1) + spin + 5) ∨
      t.remaining tasks = s.remaining tasks ∧
        t.jobStart.potential spin + t.jobEnd.potential spin <
          s.jobStart.potential spin + s.jobEnd.potential spin) :
    t.measure spin tasks < s.measure spin tasks := by
  unfold measure
  rcases h with ⟨hlt, hle⟩ | ⟨heq, hlt⟩
  · have hmul := Nat.mul_le_mul_left (3 * (n + 1) + spin + 6) (Nat.succ_le_of_lt hlt)
    rw [Nat.mul_succ] at hmul
    omega
  · rw [heq]
    omega

theorem remaining_worker {tasks : List (F × C)} {s t : Pool n F C} {w : Fin n}
    (hmain : t.main = s.main ∧ t.returned = s.returned)
    (hothers : ∀ v, v ≠ w → t.worker v = s.worker v ∧ t.finished v = s.finished v)
    (hlt : t.workerRemaining tasks w < s.workerRemaining tasks w) :
    t.remaining tasks < s.remaining tasks := by
  unfold remaining
  rw [hmain.1, hmain.2]
  apply Nat.add_lt_add_left
  apply Finset.sum_lt_sum
  · intro v _
    by_cases hv : v = w
    · exact hv ▸ hlt.le
    · rw [workerRemaining, workerRemaining, (hothers v hv).1, (hothers v hv).2]
  · exact ⟨w, Finset.mem_univ w, hlt⟩

/-- Moving a worker on lowers what remains. -/
theorem remaining_goto {tasks : List (F × C)} {s t : Pool n F C} {w : Fin n} {old pc : WorkerPc F C}
    (hold : s.worker w = old) (hmain : t.main = s.main ∧ t.returned = s.returned)
    (hfinished : t.finished = s.finished) (hworker : t.worker = update s.worker w pc)
    (hlt : pc.remaining (tasks.length - s.finished w) < old.remaining (tasks.length - s.finished w)) :
    t.remaining tasks < s.remaining tasks := by
  subst hold
  apply remaining_worker (w := w) hmain
  · intro v hv
    rw [hworker, hfinished, Function.update_of_ne hv]
    exact ⟨rfl, rfl⟩
  · rwa [workerRemaining, workerRemaining, hworker, hfinished, Function.update_self]

theorem remaining_main {tasks : List (F × C)} {s t : Pool n F C} {old : MainPc C}
    (hold : s.main = old) (hworkers : t.worker = s.worker ∧ t.finished = s.finished)
    (hlt : t.main.remaining n (tasks.length - t.returned) <
      old.remaining n (tasks.length - s.returned)) :
    t.remaining tasks < s.remaining tasks := by
  subst hold
  unfold remaining workerRemaining
  rw [hworkers.1, hworkers.2]
  exact Nat.add_lt_add_right hlt _

theorem remaining_congr {tasks : List (F × C)} {s t : Pool n F C}
    (hmain : t.main = s.main ∧ t.returned = s.returned)
    (hworkers : t.worker = s.worker ∧ t.finished = s.finished) :
    t.remaining tasks = s.remaining tasks := by
  unfold remaining workerRemaining
  rw [hmain.1, hmain.2, hworkers.1, hworkers.2]

/-- What a step inside a barrier does to its potential. -/
theorem potential_step {b c : SpinBarrier (Option (Fin n))} (hb : b.Inv) {spin : Nat}
    {p : Option (Fin n)} (hstep : b.step spin p = some c) :
    (c.pc p ≠ .idle → c.potential spin < b.potential spin) ∧
      c.potential spin ≤ b.potential spin + 3 * (n + 1) := by
  have h := hb.potential_step hstep
  rwa [Fintype.card_option, Fintype.card_fin] at h

theorem Inv.measure_stepWorker {tasks : List (F × C)} {s t : Pool n F C} (h : Inv tasks s)
    {spin : Nat} {w : Fin n} (hstep : s.stepWorker spin w = some t) :
    t.measure spin tasks < s.measure spin tasks := by
  apply measure_lt
  obtain ⟨j, hw⟩ := h.worker w
  cases hpc : s.worker w with
  | unborn | exited | crashed => simp [Pool.stepWorker, hpc] at hstep
  | self | testShutdown =>
    simp only [Pool.stepWorker, hpc, Option.some.injEq] at hstep
    subst hstep
    refine .inl ⟨remaining_goto hpc ⟨rfl, rfl⟩ rfl rfl ?_, Nat.le_add_right _ _⟩
    rw [apply_ite (WorkerPc.remaining _)]
    simp only [WorkerPc.remaining]
    split <;> omega
  | loadNum fn | loadCtx fn num | invoke call =>
    simp only [Pool.stepWorker, hpc, Option.some.injEq] at hstep
    subst hstep
    refine .inl ⟨remaining_goto hpc ⟨rfl, rfl⟩ rfl rfl ?_, Nat.le_add_right _ _⟩
    simp only [WorkerPc.remaining]
    omega
  | loadFn =>
    simp only [Pool.stepWorker, hpc] at hstep
    split at hstep <;> (rw [Option.some.injEq] at hstep; subst hstep)
    all_goals
      refine .inl ⟨remaining_goto hpc ⟨rfl, rfl⟩ rfl rfl ?_, Nat.le_add_right _ _⟩
      simp only [WorkerPc.remaining]
      omega
  | running =>
    have hlocal := hw.locals
    have hfinished := hw.finished
    rw [hpc] at hlocal hfinished
    simp only [WorkerPc.Local, WorkerPc.ended] at hlocal hfinished
    simp only [Pool.stepWorker, hpc, Option.some.injEq] at hstep
    subst hstep
    -- the worker goes back in its loop, but one task less is left to it
    refine .inl ⟨remaining_worker (w := w) ⟨rfl, rfl⟩ (fun v hv => ?_) ?_, Nat.le_add_right _ _⟩
    · simp [Pool.goto, hv]
    · simp only [workerRemaining, Pool.goto, Function.update_self, hpc, WorkerPc.remaining]
      omega
  | startCall =>
    simp only [Pool.stepWorker, hpc, Option.some.injEq] at hstep
    subst hstep
    refine .inl ⟨remaining_goto hpc ⟨rfl, rfl⟩ rfl rfl ?_, ?_⟩
    · simp only [WorkerPc.remaining]
      omega
    · have hcall := SpinBarrier.potential_call spin s.jobStart (some w)
      simp only [Pool.goto]
      omega
  | endCall exit =>
    simp only [Pool.stepWorker, hpc, Option.some.injEq] at hstep
    subst hstep
    refine .inl ⟨remaining_goto hpc ⟨rfl, rfl⟩ rfl rfl ?_, ?_⟩
    · cases exit <;> simp only [WorkerPc.remaining] <;> omega
    · have hcall := SpinBarrier.potential_call spin s.jobEnd (some w)
      simp only [Pool.goto]
      omega
  | startWait =>
    simp only [Pool.stepWorker, hpc, Option.map_eq_some_iff] at hstep
    obtain ⟨b, hb, rfl⟩ := hstep
    obtain ⟨hdown, hup⟩ := potential_step h.jobStart hb
    by_cases hret : b.pc (some w) = .idle
    · refine .inl ⟨remaining_goto hpc ⟨rfl, rfl⟩ rfl rfl ?_, ?_⟩
      · rw [if_pos hret]
        simp only [WorkerPc.remaining]
        omega
      · simp only [Pool.goto]
        omega
    · -- still inside the barrier
      refine .inr ⟨remaining_congr ⟨rfl, rfl⟩ ⟨?_, rfl⟩, Nat.add_lt_add_right (hdown hret) _⟩
      rw [if_neg hret, ← hpc]
      exact Function.update_eq_self w s.worker
  | endWait exit =>
    simp only [Pool.stepWorker, hpc, Option.map_eq_some_iff] at hstep
    obtain ⟨b, hb, rfl⟩ := hstep
    obtain ⟨hdown, hup⟩ := potential_step h.jobEnd hb
    by_cases hret : b.pc (some w) = .idle
    · refine .inl ⟨remaining_goto hpc ⟨rfl, rfl⟩ rfl rfl ?_, ?_⟩
      · rw [if_pos hret]
        cases exit <;> simp only [Bool.false_eq_true, if_false, if_true, WorkerPc.remaining] <;> omega
      · simp only [Pool.goto]
        omega
    · refine .inr ⟨remaining_congr ⟨rfl, rfl⟩ ⟨?_, rfl⟩, Nat.add_lt_add_left (hdown hret) _⟩
      rw [if_neg hret, ← hpc]
      exact Function.update_eq_self w s.worker

theorem Inv.measure_stepMain {tasks : List (F × C)} {s t : Pool n F C} (h : Inv tasks s)
    {spin : Nat} (hstep : s.stepMain spin tasks = some t) :
    t.measure spin tasks < s.measure spin tasks := by
  apply measure_lt
  have hfields := h.main.fields
  cases hm : s.main with
  | done => simp [Pool.stepMain, hm] at hstep
  | create k =>
    simp only [Pool.stepMain, hm] at hstep
    by_cases hk : k < n
    · rw [dif_pos hk, Option.some.injEq] at hstep
      subst hstep
      refine .inl ⟨?_, Nat.le_add_right _ _⟩
      have hunborn : s.worker ⟨k, hk⟩ = .unborn := h.main.unborn k hm _ le_rfl
      unfold remaining
      rw [hm]
      apply Nat.add_lt_add_of_lt_of_le
      · simp only [MainPc.remaining]
        omega
      · apply Finset.sum_le_sum
        intro w _
        by_cases hw : w = ⟨k, hk⟩
        · simp [workerRemaining, hw, hunborn, WorkerPc.remaining]
        · simp [workerRemaining, hw]
    · rw [dif_neg hk, Option.some.injEq] at hstep
      subst hstep
      refine .inl ⟨remaining_main hm ⟨rfl, rfl⟩ ?_, Nat.le_add_right _ _⟩
      simp only [MainPc.remaining]
      omega
  | between =>
    simp only [Pool.stepMain, hm] at hstep
    split at hstep
    · cases hstep
      refine .inl ⟨remaining_main hm ⟨rfl, rfl⟩ ?_, Nat.le_add_right _ _⟩
      simp only [MainPc.remaining]
      omega
    · split at hstep <;> (rw [Option.some.injEq] at hstep; subst hstep)
      all_goals
        refine .inl ⟨remaining_main hm ⟨rfl, rfl⟩ ?_, Nat.le_add_right _ _⟩
        simp only [MainPc.remaining]
        omega
  | setCtx ctx | clearFn | clearNum | clearShutdown | clearSelf =>
    simp only [Pool.stepMain, hm, Option.some.injEq] at hstep
    subst hstep
    refine .inl ⟨remaining_main hm ⟨rfl, rfl⟩ ?_, Nat.le_add_right _ _⟩
    simp only [MainPc.remaining]
    omega
  | clearCtx =>
    rw [hm] at hfields
    obtain ⟨-, -, hlt⟩ := hfields
    simp only [Pool.stepMain, hm, Option.some.injEq] at hstep
    subst hstep
    -- main goes back to where it calls `Run`, but with one call less to go
    refine .inl ⟨remaining_main hm ⟨rfl, rfl⟩ ?_, Nat.le_add_right _ _⟩
    simp only [MainPc.remaining]
    omega
  | join k =>
    simp only [Pool.stepMain, hm] at hstep
    by_cases hk : k < n
    · rw [dif_pos hk] at hstep
      split at hstep
      · cases hstep
        refine .inl ⟨remaining_main hm ⟨rfl, rfl⟩ ?_, Nat.le_add_right _ _⟩
        simp only [MainPc.remaining]
        omega
      · cases hstep
    · rw [dif_neg hk, Option.some.injEq] at hstep
      subst hstep
      refine .inl ⟨remaining_main hm ⟨rfl, rfl⟩ ?_, Nat.le_add_right _ _⟩
      simp only [MainPc.remaining]
      omega
  | startCall d =>
    simp only [Pool.stepMain, hm, Option.some.injEq] at hstep
    subst hstep
    refine .inl ⟨remaining_main hm ⟨rfl, rfl⟩ ?_, ?_⟩
    · cases d <;> simp only [MainPc.remaining] <;> omega
    · have hcall := SpinBarrier.potential_call spin s.jobStart none
      simp only
      omega
  | endCall d =>
    simp only [Pool.stepMain, hm, Option.some.injEq] at hstep
    subst hstep
    refine .inl ⟨remaining_main hm ⟨rfl, rfl⟩ ?_, ?_⟩
    · cases d <;> simp only [MainPc.remaining] <;> omega
    · have hcall := SpinBarrier.potential_call spin s.jobEnd none
      simp only
      omega
  | startWait d =>
    simp only [Pool.stepMain, hm, Option.map_eq_some_iff] at hstep
    obtain ⟨b, hb, rfl⟩ := hstep
    obtain ⟨hdown, hup⟩ := potential_step h.jobStart hb
    by_cases hret : b.pc none = .idle
    · refine .inl ⟨remaining_main hm ⟨rfl, rfl⟩ ?_, ?_⟩
      · rw [if_pos hret]
        cases d <;> simp only [MainPc.remaining] <;> omega
      · simp only
        omega
    · -- still inside the barrier
      refine .inr ⟨remaining_congr ⟨?_, rfl⟩ ⟨rfl, rfl⟩, Nat.add_lt_add_right (hdown hret) _⟩
      exact (if_neg hret).trans hm.symm
  | endWait d =>
    simp only [Pool.stepMain, hm, Option.map_eq_some_iff] at hstep
    obtain ⟨b, hb, rfl⟩ := hstep
    obtain ⟨hdown, hup⟩ := potential_step h.jobEnd hb
    by_cases hret : b.pc none = .idle
    · refine .inl ⟨remaining_main hm ⟨rfl, rfl⟩ ?_, ?_⟩
      · rw [if_pos hret]
        cases d <;> simp only [Bool.false_eq_true, if_false, if_true, MainPc.remaining] <;> omega
      · simp only
        omega
    · refine .inr ⟨remaining_congr ⟨?_, rfl⟩ ⟨rfl, rfl⟩, Nat.add_lt_add_left (hdown hret) _⟩
      exact (if_neg hret).trans hm.symm

theorem Inv.measure_step {tasks : List (F × C)} {s t : Pool n F C} (h : Inv tasks s)
    {spin : Nat} (hstep : Step spin tasks s t) : t.measure spin tasks < s.measure spin tasks := by
  rcases hstep with hmain | ⟨w, hw⟩
  · exact h.measure_stepMain hmain
  · exact h.measure_stepWorker hw

/-- Whatever the schedule, the pool makes finitely many steps. -/
theorem Inv.terminates {tasks : List (F × C)} {s : Pool n F C} (hn : 0 < n) (h : Inv tasks s)
    (spin : Nat) : Acc (fun t s => Step spin tasks s t) s := by
  generalize hk : s.measure spin tasks = k
  induction k using Nat.strong_induction_on generalizing s with
  | _ k ih =>
    refine ⟨s, fun t hstep => ?_⟩
    exact ih _ (hk ▸ h.measure_step hstep) (h.step hn hstep) rfl

/-! ## Progress -/

/-- How far along the alternation of the two barriers a thread is. -/
def progress (s : Pool n F C) (p : Option (Fin n)) : Nat :=
  s.jobStart.calls p + s.jobEnd.calls p

/-- Inside `wait` of one of the barriers. -/
def Waiting (s : Pool n F C) (p : Option (Fin n)) : Prop :=
  s.jobStart.rets p < s.jobStart.calls p ∨ s.jobEnd.rets p < s.jobEnd.calls p

theorem MainOk.returned_le {tasks : List (F × C)} {s : Pool n F C} (h : MainOk tasks s) :
    s.returned ≤ tasks.length := by
  have hfields := h.fields
  cases hm : s.main with
  | create | between | clearFn | clearCtx | join | clearNum | clearShutdown | clearSelf | done =>
    rw [hm] at hfields
    simp only [MainPc.Fields] at hfields
    omega
  | setCtx ctx =>
    rw [hm] at hfields
    obtain ⟨-, -, fn, hget, -⟩ := hfields
    exact (List.getElem?_eq_some_iff.mp hget).1.le
  | startCall d | startWait d | endCall d | endWait d =>
    rw [hm] at hfields
    cases d with
    | false =>
      obtain ⟨-, -, fn, ctx, hget, -⟩ := hfields
      exact (List.getElem?_eq_some_iff.mp hget).1.le
    | true => exact hfields.2.2.le

theorem WorkerOk.region_le {tasks : List (F × C)} {s : Pool n F C} {w : Fin n} {j : Nat}
    (h : WorkerOk tasks s w j) : j ≤ tasks.length := by
  have hlocal := h.locals
  cases hpc : s.worker w with
  | crashed => exact (hpc ▸ hlocal : WorkerPc.Local tasks w j .crashed).elim
  | unborn | self | startCall | startWait | testShutdown | loadFn | running | exited =>
    rw [hpc] at hlocal
    simp only [WorkerPc.Local] at hlocal
    omega
  | loadNum fn =>
    rw [hpc] at hlocal
    obtain ⟨ctx, hget⟩ := hlocal
    exact (List.getElem?_eq_some_iff.mp hget).1.le
  | loadCtx fn num =>
    rw [hpc] at hlocal
    obtain ⟨-, ctx, hget⟩ := hlocal
    exact (List.getElem?_eq_some_iff.mp hget).1.le
  | invoke call =>
    rw [hpc] at hlocal
    have hlt := (List.getElem?_eq_some_iff.mp hlocal).1
    rw [calls, List.length_map] at hlt
    exact hlt.le
  | endCall exit | endWait exit =>
    rw [hpc] at hlocal
    cases exit <;> simp only [WorkerPc.Local] at hlocal <;> omega

theorem Inv.counts_stage {tasks : List (F × C)} {s : Pool n F C} (h : Inv tasks s)
    (p : Option (Fin n)) : ∃ j k, s.counts p = .stage j k ∧ j ≤ tasks.length := by
  cases p with
  | none => exact ⟨_, _, h.main.counts, h.main.returned_le⟩
  | some w =>
    obtain ⟨j, hw⟩ := h.worker w
    exact ⟨j, _, hw.counts, hw.region_le⟩

theorem step_pc_ne_idle {P : Type} [DecidableEq P] [Fintype P] {b : SpinBarrier P} {spin : Nat}
    {p : P} (h : (b.step spin p).isSome) : b.pc p ≠ .idle := by
  intro hidle
  simp [SpinBarrier.step, hidle] at h

/-- A thread that can move inside `job_start_` can move. -/
theorem Inv.moves_start {tasks : List (F × C)} {s : Pool n F C} (h : Inv tasks s) {spin : Nat}
    {p : Option (Fin n)} (hp : (s.jobStart.step spin p).isSome) : ∃ t, Step spin tasks s t := by
  obtain ⟨b, hb⟩ := Option.isSome_iff_exists.mp hp
  have hne : s.jobStart.calls p ≠ s.jobStart.rets p :=
    fun heq => step_pc_ne_idle hp ((h.jobStart.idle_iff p).mpr heq)
  cases p with
  | none =>
    have hcounts := counts_eq h.main.counts
    have hstage : s.main.stage = 1 := by omega
    cases hm : s.main with
    | startWait d => exact ⟨_, .inl (by rw [Pool.stepMain, hm]; simp only [hb]; rfl)⟩
    | create | between | setCtx | startCall | endCall | endWait | clearFn | clearCtx | join | clearNum
    | clearShutdown | clearSelf | done => simp [hm, MainPc.stage] at hstage
  | some w =>
    obtain ⟨j, hw⟩ := h.worker w
    have hcounts := counts_eq hw.counts
    have hstage : (s.worker w).stage = 1 := by omega
    cases hpc : s.worker w with
    | startWait => exact ⟨_, .inr ⟨w, by rw [Pool.stepWorker, hpc]; simp only [hb]; rfl⟩⟩
    | unborn | self | startCall | testShutdown | loadFn | loadNum | loadCtx | invoke | running
    | endCall | endWait | exited | crashed => simp [hpc, WorkerPc.stage] at hstage

theorem Inv.moves_end {tasks : List (F × C)} {s : Pool n F C} (h : Inv tasks s) {spin : Nat}
    {p : Option (Fin n)} (hp : (s.jobEnd.step spin p).isSome) : ∃ t, Step spin tasks s t := by
  obtain ⟨b, hb⟩ := Option.isSome_iff_exists.mp hp
  have hne : s.jobEnd.calls p ≠ s.jobEnd.rets p :=
    fun heq => step_pc_ne_idle hp ((h.jobEnd.idle_iff p).mpr heq)
  cases p with
  | none =>
    have hcounts := counts_eq h.main.counts
    have hstage : s.main.stage = 3 := by omega
    cases hm : s.main with
    | endWait d => exact ⟨_, .inl (by rw [Pool.stepMain, hm]; simp only [hb]; rfl)⟩
    | create | between | setCtx | startCall | startWait | endCall | clearFn | clearCtx | join
    | clearNum | clearShutdown | clearSelf | done => simp [hm, MainPc.stage] at hstage
  | some w =>
    obtain ⟨j, hw⟩ := h.worker w
    have hcounts := counts_eq hw.counts
    have hstage : (s.worker w).stage = 3 := by omega
    cases hpc : s.worker w with
    | endWait exit => exact ⟨_, .inr ⟨w, by rw [Pool.stepWorker, hpc]; simp only [hb]; rfl⟩⟩
    | unborn | self | startCall | startWait | testShutdown | loadFn | loadNum | loadCtx | invoke
    | running | endCall | exited | crashed => simp [hpc, WorkerPc.stage] at hstage

/-- When nothing can move, nobody waits in a barrier: of the waiting threads one that is least far
along would find all others in its wait. -/
theorem Inv.not_waiting {tasks : List (F × C)} {s : Pool n F C} (h : Inv tasks s) {spin : Nat}
    (hstuck : ∀ t, ¬ Step spin tasks s t)
    (hall : ∀ p, s.Waiting p ∨ s.progress p = 2 * tasks.length + 2) (p : Option (Fin n)) :
    ¬ s.Waiting p := by
  classical
  intro hp
  obtain ⟨q, hq, hmin⟩ := Finset.exists_min_image (Finset.univ.filter s.Waiting) s.progress
    ⟨p, by simpa using hp⟩
  rw [Finset.mem_filter_univ] at hq
  obtain ⟨j, k, hcounts, hj⟩ := h.counts_stage q
  have hqc := counts_eq hcounts
  have hle (r : Option (Fin n)) : s.progress q ≤ s.progress r := by
    rcases hall r with hr | hr
    · exact hmin r (by simpa using hr)
    · rw [hr]
      unfold progress
      omega
  rcases hq with hstart | hend
  · obtain ⟨r, hr⟩ := h.jobStart.moves spin hstart fun r => by
      obtain ⟨i, l, hrcounts, -⟩ := h.counts_stage r
      have hrc := counts_mono hrcounts
      have hqr := hle r
      unfold progress at hqr
      omega
    obtain ⟨t, ht⟩ := h.moves_start hr
    exact hstuck t ht
  · obtain ⟨r, hr⟩ := h.jobEnd.moves spin hend fun r => by
      obtain ⟨i, l, hrcounts, -⟩ := h.counts_stage r
      have hrc := counts_mono hrcounts
      have hqr := hle r
      unfold progress at hqr
      omega
    obtain ⟨t, ht⟩ := h.moves_end hr
    exact hstuck t ht

/-- No deadlock: main runs to the end of `Shutdown`. -/
theorem Inv.done_of_stuck {tasks : List (F × C)} {s : Pool n F C} (h : Inv tasks s) {spin : Nat}
    (hstuck : ∀ t, ¬ Step spin tasks s t) : s.main = .done := by
  have hmainStuck (hsome : (s.stepMain spin tasks).isSome) : False := by
    obtain ⟨t, ht⟩ := Option.isSome_iff_exists.mp hsome
    exact hstuck t (.inl ht)
  have hworkerStuck (w : Fin n) (hsome : (s.stepWorker spin w).isSome) : False := by
    obtain ⟨t, ht⟩ := Option.isSome_iff_exists.mp hsome
    exact hstuck t (.inr ⟨w, ht⟩)
  -- anywhere else main could take a step
  have hmainWait : s.Waiting none ∨ (∃ k, s.main = .join k) ∨ s.main = .done := by
    have hcounts := counts_eq h.main.counts
    cases hm : s.main with
    | startWait d | endWait d =>
      rw [hm] at hcounts
      simp only [MainPc.stage] at hcounts
      left
      unfold Waiting
      omega
    | join k => exact .inr (.inl ⟨k, rfl⟩)
    | done => exact .inr (.inr rfl)
    | create k =>
      refine (hmainStuck ?_).elim
      simp only [Pool.stepMain, hm]
      split <;> rfl
    | between =>
      refine (hmainStuck ?_).elim
      simp only [Pool.stepMain, hm]
      split
      · rfl
      · split <;> rfl
    | setCtx | startCall | endCall | clearFn | clearCtx | clearNum | clearShutdown | clearSelf =>
      exact (hmainStuck (by simp only [Pool.stepMain, hm]; rfl)).elim
  have hworkerWait (w : Fin n) : s.Waiting (some w) ∨ s.worker w = .exited := by
    obtain ⟨j, hw⟩ := h.worker w
    have hcounts := counts_eq hw.counts
    cases hpc : s.worker w with
    | startWait | endWait exit =>
      rw [hpc] at hcounts
      simp only [WorkerPc.stage] at hcounts
      left
      unfold Waiting
      omega
    | exited => exact .inr rfl
    | crashed => exact (hpc ▸ hw.locals : WorkerPc.Local tasks w j .crashed).elim
    | unborn =>
      obtain ⟨k, hk, -⟩ := h.main.born w hpc
      refine (hmainStuck ?_).elim
      simp only [Pool.stepMain, hk]
      split <;> rfl
    | loadFn =>
      refine (hworkerStuck w ?_).elim
      simp only [Pool.stepWorker, hpc]
      split <;> rfl
    | self | startCall | testShutdown | loadNum | loadCtx | invoke | running | endCall =>
      exact (hworkerStuck w (by simp only [Pool.stepWorker, hpc]; rfl)).elim
  -- not all can be waiting at a barrier, and whoever does not wait is at its end
  have hnone := h.not_waiting hstuck fun p => by
    cases p with
    | none =>
      refine hmainWait.imp_right fun hm => ?_
      have hcounts := counts_eq h.main.counts
      have hfields := h.main.fields
      unfold progress
      rcases hm with ⟨k, hk⟩ | hdone
      · rw [hk] at hfields hcounts
        simp only [MainPc.Fields, MainPc.stage] at hfields hcounts
        omega
      · rw [hdone] at hfields hcounts
        simp only [MainPc.Fields, MainPc.stage] at hfields hcounts
        omega
    | some w =>
      refine (hworkerWait w).imp_right fun hexited => ?_
      obtain ⟨j, hw⟩ := h.worker w
      have hcounts := counts_eq hw.counts
      have hlocal := hw.locals
      unfold progress
      rw [hexited] at hlocal hcounts
      simp only [WorkerPc.Local, WorkerPc.stage] at hlocal hcounts
      omega
  have hexited (w : Fin n) : s.worker w = .exited := (hworkerWait w).resolve_left (hnone (some w))
  rcases hmainWait.resolve_left (hnone none) with ⟨k, hk⟩ | hdone
  · refine (hmainStuck ?_).elim
    simp only [Pool.stepMain, hk]
    split
    · next hlt => simp [hexited ⟨k, hlt⟩]
    · rfl
  · exact hdone

/-! ## The pool as a whole -/

theorem WorkerOk.length {tasks : List (F × C)} {s : Pool n F C} {w : Fin n} {j : Nat}
    (h : WorkerOk tasks s w j) : (s.log w).length = j + (s.worker w).begun := by
  have hlocal := h.locals
  have hj := h.region_le
  have hcalls : (calls tasks w).length = tasks.length := List.length_map _
  rw [h.log, List.length_take, hcalls]
  cases hpc : s.worker w with
  | running =>
    rw [hpc] at hlocal
    simp only [WorkerPc.Local, WorkerPc.begun] at hlocal ⊢
    omega
  | endCall exit | endWait exit =>
    rw [hpc] at hlocal
    cases exit <;> simp only [WorkerPc.Local, WorkerPc.begun] at hlocal ⊢ <;> omega
  | unborn | self | startCall | startWait | testShutdown | loadFn | loadNum | loadCtx | invoke
  | exited | crashed =>
    simp only [WorkerPc.begun]
    omega

/-- How the regions of a worker compare to the calls of `Run` that have returned. -/
theorem Inv.window {tasks : List (F × C)} {s : Pool n F C} (h : Inv tasks s) (w : Fin n) :
    (s.returned ≤ s.finished w ∧ s.finished w ≤ (s.log w).length ∧
      (s.log w).length ≤ s.returned + 1) ∧
    (s.main = .between → (s.log w).length = s.returned) ∧
    (s.worker w = .running → (s.log w).length = s.returned + 1 ∧ s.finished w = s.returned) := by
  obtain ⟨j, hw⟩ := h.worker w
  have hwc := counts_eq hw.counts
  have hmc := counts_mono h.main.counts
  have hle := h.main.returned_le
  have hlength := hw.length
  have hfinished := hw.finished
  have h₁ := h.jobStart.rets_le_calls (some w) none
  have h₂ := h.jobEnd.rets_le_calls none (some w)
  have h₃ := h.jobEnd.rets_le_calls (some w) none
  have hbetween (hm : s.main = .between) : s.main.stage = 0 := by rw [hm]; rfl
  have hlocal := hw.locals
  cases hpc : s.worker w with
  | endCall exit | endWait exit =>
    rw [hpc] at hwc hlength hfinished hlocal
    cases exit with
    | false =>
      simp only [WorkerPc.stage, WorkerPc.begun, WorkerPc.ended] at hwc hlength hfinished
      refine ⟨by omega, fun hm => ?_, nofun⟩
      have hstage := hbetween hm
      omega
    | true =>
      simp only [WorkerPc.stage, WorkerPc.begun, WorkerPc.ended] at hwc hlength hfinished
      have hj : j = tasks.length := hlocal
      refine ⟨by omega, fun hm => ?_, nofun⟩
      have hstage := hbetween hm
      omega
  | running =>
    rw [hpc] at hwc hlength hfinished
    simp only [WorkerPc.stage, WorkerPc.begun, WorkerPc.ended] at hwc hlength hfinished
    refine ⟨by omega, fun hm => ?_, fun _ => by omega⟩
    have hstage := hbetween hm
    omega
  | exited =>
    rw [hpc] at hwc hlength hfinished hlocal
    simp only [WorkerPc.stage, WorkerPc.begun, WorkerPc.ended] at hwc hlength hfinished
    have hj : j = tasks.length := hlocal
    refine ⟨by omega, fun hm => ?_, nofun⟩
    have hstage := hbetween hm
    omega
  | unborn | self | startCall | startWait | testShutdown | loadFn | loadNum | loadCtx | invoke
  | crashed =>
    rw [hpc] at hwc hlength hfinished
    simp only [WorkerPc.stage, WorkerPc.begun, WorkerPc.ended] at hwc hlength hfinished
    refine ⟨by omega, fun hm => ?_, nofun⟩
    have hstage := hbetween hm
    omega

/-- The pool runs every task exactly once on every worker, region after region: it always comes to
an end, `Run` returns between the last execution of its task and the first of the next, and
`Shutdown` returns when all workers have left. -/
theorem threadPool_correct (hn : 0 < n) (spin : Nat) (tasks : List (F × C)) :
    Acc (fun t s => Step spin tasks s t) (init : Pool n F C) ∧
    ∀ s : Pool n F C, Reachable spin tasks s →
      ((∀ t, ¬ Step spin tasks s t) → s.main = .done) ∧
      (∀ w, s.worker w ≠ .crashed ∧ s.log w <+: calls tasks w) ∧
      (∀ w, s.returned ≤ s.finished w ∧ s.finished w ≤ (s.log w).length ∧
        (s.log w).length ≤ s.returned + 1) ∧
      (∀ w, s.worker w = .running →
        (s.log w).length = s.returned + 1 ∧ s.finished w = s.returned) ∧
      (s.main = .between → ∀ w, (s.log w).length = s.returned) ∧
      (s.main = .done → ∀ w, s.worker w = .exited ∧ s.log w = calls tasks w ∧
        s.finished w = tasks.length) := by
  refine ⟨(Inv.init tasks).terminates hn spin, fun s hs => ?_⟩
  have h := hs.inv hn
  refine ⟨h.done_of_stuck, fun w => ⟨fun hcrash => ?_, ?_⟩, fun w => (h.window w).1,
    fun w => (h.window w).2.2, fun hm w => (h.window w).2.1 hm, fun hdone w => ?_⟩
  · obtain ⟨j, hw⟩ := h.worker w
    exact (hcrash ▸ hw.locals : WorkerPc.Local tasks w j .crashed)
  · obtain ⟨j, hw⟩ := h.worker w
    rw [hw.log]
    exact List.take_prefix _ _
  · obtain ⟨j, hw⟩ := h.worker w
    have hfields := h.main.fields
    rw [hdone] at hfields
    have hexited : s.worker w = .exited := hfields.2 w
    have hlocal := hw.locals
    have hlog := hw.log
    have hfinished := hw.finished
    rw [hexited] at hlocal hlog hfinished
    obtain rfl : j = tasks.length := hlocal
    refine ⟨hexited, ?_, hfinished⟩
    rw [hlog]
    exact List.take_of_length_le (by simp [calls])

theorem threadPool_correct_two :
    Acc (fun t s => Step 100 [((), 3), ((), 4)] s t) (init : Pool 2 Unit Nat) ∧
    ∀ s : Pool 2 Unit Nat, Reachable 100 [((), 3), ((), 4)] s →
      ((∀ t, ¬ Step 100 [((), 3), ((), 4)] s t) → s.main = .done) ∧
      (∀ w, s.worker w ≠ .crashed ∧ s.log w <+: calls [((), 3), ((), 4)] w) ∧
      (∀ w, s.returned ≤ s.finished w ∧ s.finished w ≤ (s.log w).length ∧
        (s.log w).length ≤ s.returned + 1) ∧
      (∀ w, s.worker w = .running →
        (s.log w).length = s.returned + 1 ∧ s.finished w = s.returned) ∧
      (s.main = .between → ∀ w, (s.log w).length = s.returned) ∧
      (s.main = .done → ∀ w, s.worker w = .exited ∧ s.log w = calls [((), 3), ((), 4)] w ∧
        s.finished w = 2) :=
  threadPool_correct (by decide) 100 [((), 3), ((), 4)]

end Pool

end Gapbs
