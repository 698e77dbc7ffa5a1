import Gapbs.Conc.Reduce
import Gapbs.Conc.Throughout
import Gapbs.Mem.StaticRange

/-!
# The parallel regions of the three ports

The OpenMP program leaves the division of the work to the run-time system, the pthread port hands
`StaticRange` to its pool and claims chunks by `fetch_add`, and the Caladan port does the same with
`RunParallel`.  A region that is correct under every division of the work is correct in all three.
-/

namespace Conc

variable {S α β : Type}

/-- A team of one thread may as well be run by the caller. -/
theorem Solo.of_fork_one {p : Prog S β} {s : S} {Q : (Fin 1 → β) → S → Prop}
    (h : Solo (Prog.fork fun _ : Fin 1 => p) s Q) :
    Solo (p.bind fun r => .ret fun _ => r) s Q := by
  have hacc := h.correct.terminates
  generalize hc : (Prog.fork fun _ : Fin 1 => p, s) = c at hacc
  induction hacc generalizing p s with
  | intro c _ ih =>
    subst hc
    refine WP.of_steps fun τ hτ => ?_
    obtain rfl : τ = (s, ()) := by
      rcases Relation.ReflTransGen.cases_head hτ with heq | ⟨_, hfalse, _⟩
      · exact heq.symm
      · exact hfalse.elim
    refine ⟨fun hf => ?_, fun a ha => ?_, fun q t hs => ?_⟩
    · rcases hf.of_bind with ⟨b, rfl⟩ | hf
      · exact hf.elim
      · exact h.correct.safe _ _ .refl ⟨0, hf⟩
    · obtain ⟨b, rfl⟩ : ∃ b, p = .ret b := by
        cases p with
        | ret b => exact ⟨b, rfl⟩
        | _ => cases ha
      obtain rfl := Prog.ret.inj ha
      apply h.correct.result
      exact .single (show Prog.Next _ _ from .inr ⟨fun _ => b, fun _ => rfl, rfl, rfl⟩)
    · rcases hs.of_bind with ⟨b, rfl⟩ | ⟨p', hp, rfl⟩
      · exact hs.elim
      · have hupdate : Function.update (fun _ : Fin 1 => p) 0 p' = fun _ => p' := by
          funext i
          rw [Subsingleton.elim i 0, Function.update_self]
        have hstep : Prog.Next (Prog.fork fun _ : Fin 1 => p, s) (Prog.fork fun _ : Fin 1 => p', t) :=
          .inl ⟨0, p', hp, congrArg (Prog.par · .ret) hupdate.symm⟩
        refine ⟨(), .inr trivial, ih _ hstep (h.reach (.single hstep)) rfl⟩

end Conc

namespace Gapbs

open Conc

variable {S ρ X : Type}

/-- The three implementations. -/
inductive Port
  | openMP
  | pthread
  | caladan
deriving DecidableEq

/-- `Pool().Run(fn, ctx)`: every thread of the pool runs `fn`; what it leaves in its slot of the
array of partial results is what it returns. -/
def poolRun (T : Nat) (fn : Nat → Nat → Prog S ρ) : Prog S (Fin T → ρ) :=
  .fork fun tid => fn tid T

/-- `RunParallel(nthreads, fn, ctx)` -/
def runParallel (nthreads : Nat) (fn : Nat → Nat → Prog S ρ) : Prog S (Fin nthreads → ρ) :=
  if nthreads ≤ 1 then do
    let r ← fn 0 1
    return fun _ => r
  else .fork fun tid => fn tid nthreads

/-- A worker that takes its `StaticRange` of the indices below `m`. -/
def staticWorker (m : Nat) (worker : List (Fin m) → Prog S ρ) (tid nthreads : Nat) : Prog S ρ :=
  let range := staticRange m nthreads tid
  worker (fromTo m range.1 range.2)

namespace Port

/-- Share the indices below `m` among a team of `T` threads. -/
def share (p : Port) (T m : Nat) [NeZero T] (worker : List (Fin m) → Prog S ρ) :
    Prog S (Fin T → ρ) :=
  match p with
  | openMP => do
    let sched ← .pick (Schedule.serial T m)
    .fork fun t => worker (sched.work t)
  | pthread => poolRun T (staticWorker m worker)
  | caladan => runParallel T (staticWorker m worker)

/-- The number of chunks of a dynamic schedule. -/
def numChunks (m chunk : Nat) : Nat := (m + chunk - 1) / chunk

/-- `schedule(dynamic, chunk)` over the indices below `m`: `body` works on the chunk that starts at
the given index and adds to the thread's partial result. -/
def claim [Zero X] (p : Port) (T : Nat) [NeZero T] (cursor : Lens S Nat) (m chunk : Nat)
    (body : Nat → X → Prog S X) : Prog S (Fin T → X) :=
  match p with
  | openMP => do
    let sched ← .pick (Schedule.serial T (numChunks m chunk))
    .fork fun t => .forEach (sched.work t) 0 fun i x => body (i * chunk) x
  | pthread => do
    .store fun s => cursor.set 0 s
    poolRun T fun _ _ => .claimLoop cursor m chunk body 0
  | caladan => do
    .store fun s => cursor.set 0 s
    runParallel T fun _ _ => .claimLoop cursor m chunk body 0

theorem lt_numChunks {m chunk : Nat} (hchunk : 0 < chunk) (c : Nat) :
    c < numChunks m chunk ↔ c * chunk < m := by
  rw [numChunks, Nat.lt_div_iff_mul_lt hchunk]
  omega

end Port

theorem runParallel_solo {T : Nat} [NeZero T] {fn : Nat → Nat → Prog S ρ} {s : S}
    {Q : (Fin T → ρ) → S → Prop} (h : Solo (poolRun T fn) s Q) : Solo (runParallel T fn) s Q := by
  rw [runParallel]
  split
  · next hle =>
    obtain rfl : T = 1 := by
      have hpos := Nat.pos_of_ne_zero (NeZero.ne T)
      omega
    have hfn : poolRun 1 fn = Prog.fork fun _ : Fin 1 => fn 0 1 := by
      rw [poolRun]
      congr 1
      funext i
      rw [Subsingleton.elim i 0]
      rfl
    exact Solo.of_fork_one (hfn ▸ h)
  · exact h

theorem Port.share_pthread (T m : Nat) [NeZero T] (worker : List (Fin m) → Prog S ρ) :
    Port.pthread.share T m worker = .fork fun t => worker ((Schedule.static T m).work t) := by
  show poolRun T (staticWorker m worker) = _
  rw [poolRun]
  congr 1
  funext t
  rw [Schedule.static_work]
  rfl

/-- A region that does not depend on the schedule. -/
theorem Port.share_solo (p : Port) {T m : Nat} [NeZero T] {worker : List (Fin m) → Prog S ρ} {s : S}
    {Q : (Fin T → ρ) → S → Prop}
    (h : ∀ sched : Schedule T m, Solo (.fork fun t => worker (sched.work t)) s Q) :
    Solo (p.share T m worker) s Q := by
  have hpool : Solo (poolRun T (staticWorker m worker)) s Q := by
    change Solo (Port.pthread.share T m worker) s Q
    rw [Port.share_pthread]
    exact h (Schedule.static T m)
  cases p with
  | openMP => exact Solo.pick_bind h
  | pthread => exact hpool
  | caladan => exact runParallel_solo hpool

theorem runParallel_keeps {A : S → S → Prop} {T : Nat} {fn : Nat → Nat → Prog S ρ}
    (h : ∀ tid nthreads, Keeps A (fn tid nthreads)) : Keeps A (runParallel T fn) := by
  rw [runParallel]
  split
  · exact Keeps.bind (h 0 1) fun _ => trivial
  · exact Keeps.fork fun t => h t T

theorem Port.share_keeps (p : Port) {A : S → S → Prop} {T m : Nat} [NeZero T]
    {worker : List (Fin m) → Prog S ρ} (h : ∀ work, Keeps A (worker work)) :
    Keeps A (p.share T m worker) := by
  cases p with
  | openMP => exact Keeps.bind (fun _ => trivial) fun sched => Keeps.fork fun t => h (sched.work t)
  | pthread => exact Keeps.fork fun t => h _
  | caladan => exact runParallel_keeps fun tid nthreads => h _

theorem Port.claim_keeps (p : Port) {A : S → S → Prop} {T m chunk : Nat} [NeZero T] [Zero X]
    {cursor : Lens S Nat} {body : Nat → X → Prog S X} (hcursor : ∀ k s, A s (cursor.set k s))
    (hbody : ∀ start x, Keeps A (body start x)) : Keeps A (p.claim T cursor m chunk body) := by
  have hloop : Keeps A (Prog.claimLoop cursor m chunk body 0) := by
    apply Keeps.iter
    intro x
    refine Keeps.bind (Keeps.op fun s b t hb => ?_) fun start => ?_
    · obtain ⟨-, rfl⟩ := Prod.mk.inj (Option.some.inj hb)
      exact hcursor _ s
    · split
      · trivial
      · exact Keeps.bind (hbody start x) fun _ => trivial
  cases p with
  | openMP =>
    refine Keeps.bind (fun _ => trivial) fun sched => Keeps.fork fun t => ?_
    exact Keeps.forEach _ _ fun i x => hbody _ x
  | pthread => exact Keeps.bind (Keeps.store (hcursor 0)) fun _ => Keeps.fork fun _ => hloop
  | caladan => exact Keeps.bind (Keeps.store (hcursor 0)) fun _ => runParallel_keeps fun _ _ => hloop

/-- A region whose chunks work on separate parts of the memory. -/
theorem Port.claim_solo (p : Port) {T m chunk : Nat} [NeZero T] [AddCommMonoid X]
    {cursor : Lens S Nat} {Own : Fin (numChunks m chunk) → S → S → Prop} {I : S → Prop}
    {Pre Post : Fin (numChunks m chunk) → S → Prop} {body : Nat → X → Prog S X}
    {val : Fin (numChunks m chunk) → X} (hchunk : 0 < chunk) (hsep : Separate Own I Pre Post)
    (hfree : CursorFree cursor Own I Pre Post) {s : S} (hI : I s) (hpre : ∀ i, Pre i s)
    (iteration : ∀ (i : Fin (numChunks m chunk)) x s, I s → Pre i s →
      WP (Γ := Unit) (fun σ τ => (∃ j, j ≠ i ∧ Own j σ.1 τ.1) ∨ ∃ k, τ.1 = cursor.set k σ.1)
        (fun σ τ => Own i σ.1 τ.1) (fun y σ => y = x + val i ∧ Post i σ.1) (body (i * chunk) x)
        (s, ())) :
    Solo (p.claim T cursor m chunk body) s fun r s' =>
      ∑ t, r t = ∑ i, val i ∧ I s' ∧ ∀ i, Post i s' := by
  have hcursor := Solo.claim_of_own (T := T) hchunk (lt_numChunks hchunk) hsep hfree
    (cursor.get_set 0 s) (hfree.inv 0 s hI) (fun i => hfree.pre i 0 s (hpre i)) iteration
  cases p with
  | openMP =>
    apply Solo.pick_bind
    intro sched
    refine Solo.share_of_own sched hsep hI hpre fun i x s hI hpre => ?_
    exact (iteration i x s hI hpre).weaken (fun _ _ h => .inl h) fun _ _ h => h
  | pthread => exact Solo.store_bind hcursor
  | caladan => exact Solo.store_bind (runParallel_solo hcursor)

/-! ## Every index once -/

/-- A worker loop that counts how often it gets to every index. -/
def countVisits {m : Nat} (work : List (Fin m)) : Prog (Fin m → Nat) Unit :=
  .forEach work () fun i _ => .store fun visits => Function.update visits i (visits i + 1)

theorem countVisits_solo {T m : Nat} [NeZero T] (sched : Schedule T m) :
    Solo (.fork fun t => countVisits (sched.work t)) (fun _ => 0) fun _ visits => ∀ i, visits i = 1 := by
  let Own (i : Fin m) (s s' : Fin m → Nat) : Prop := ∀ j, j ≠ i → s' j = s j
  have hsep : Separate Own (fun _ => True) (fun i s => s i = 0) fun i s => s i = 1 :=
    ⟨fun _ _ _ _ _ => trivial, fun i j _ _ hij _ hi hown => (hown i hij).trans hi,
      fun i j _ _ hij _ hi hown => (hown i hij).trans hi⟩
  refine (@Solo.share_of_own _ Unit m Own _ _ _ _ T _ sched _ (fun _ => ()) hsep _ trivial
    (fun _ => rfl) fun i x s _ hi => ?_).mono fun _ _ h => h.2.2
  apply WP.store (P := fun σ : (Fin m → Nat) × Unit => σ.1 i = 0) hi
  · rintro σ τ hσ ⟨j, hj, hown⟩
    exact (hown i hj.symm).trans hσ
  · rintro _ σ τ ⟨hx, hσ⟩ ⟨j, hj, hown⟩
    exact ⟨hx, (hown i hj.symm).trans hσ⟩
  · intro s _ hs
    refine ⟨(), .inr fun j hj => Function.update_of_ne hj .., rfl, ?_⟩
    show Function.update s i (s i + 1) i = 1
    rw [Function.update_self, show s i = 0 from hs]

/-- In every interleaving of a team of `T` workers that take their `StaticRange` of the indices below
`m`, every index is visited exactly once. -/
def VisitsOnce (T m : Nat)
    (team : (Nat → Nat → Prog (Fin m → Nat) Unit) → Prog (Fin m → Nat) (Fin T → Unit)) : Prop :=
  (team (staticWorker m countVisits)).Correct (fun _ => 0) fun _ visits => ∀ i, visits i = 1

/-- `StaticRange` divides the work evenly, within 64-bit arithmetic, and no index is lost or repeated. -/
theorem staticRange_correct (n nthreads : Nat) (h : 0 < nthreads) :
    SplitsEvenly n nthreads (staticRange n nthreads) ∧
      (∀ tid < nthreads,
        (tid < n % nthreads → (n / nthreads + 1) * tid ≤ n) ∧ n / nthreads * tid ≤ n) ∧
      (n < 2 ^ 63 → nthreads < 2 ^ 31 → ∀ tid < nthreads,
        staticRange64 (.ofNat n) (.ofNat nthreads) (.ofNat tid) =
          some (.ofNat (staticRange n nthreads tid).1, .ofNat (staticRange n nthreads tid).2)) ∧
      VisitsOnce nthreads n (poolRun nthreads) ∧ VisitsOnce nthreads n (runParallel nthreads) := by
  have hT : NeZero nthreads := ⟨h.ne'⟩
  have hpool : Solo (poolRun nthreads (staticWorker n countVisits)) (fun _ => 0)
      fun _ visits => ∀ i, visits i = 1 := by
    change Solo (Port.pthread.share nthreads n countVisits) _ _
    rw [Port.share_pthread]
    exact countVisits_solo (Schedule.static nthreads n)
  refine ⟨staticRange_splitsEvenly h, fun tid htid => staticRange_product_le htid,
    fun hn hnthreads tid htid => staticRange64_eq hn hnthreads htid, hpool.correct, ?_⟩
  exact (runParallel_solo hpool).correct

/-- More threads than indices. -/
theorem staticRange_correct_three : SplitsEvenly 3 5 (staticRange 3 5) :=
  (staticRange_correct 3 5 (by decide)).1

end Gapbs
