import Mathlib.Algebra.Group.PUnit
import Mathlib.Order.Interval.Finset.Nat
import Gapbs.Conc.Compute
import Gapbs.Builder.PrefixSum
import Gapbs.Gen.UniDist

/-!
# Lists that are drawn block by block

The loops of `generator.h` over the blocks of a list.  A thread carries its engine from one block to the
next and seeds it anew at the start of each, so that what a slot is given depends on the block and on the
slots before it in the block, but not on the thread or on its other blocks.
-/

namespace Gapbs.Gen

open Conc Function

/-- `kRandSeed` -/
def kRandSeed : ℕ := 27491095

/-- `block_size` -/
def blockSize : ℕ := 2 ^ 18

/-- `std::mersenne_twister_engine::default_seed` -/
def defaultSeed : ℕ := 5489

/-- A list of `size` slots, and how often each slot has been written, which the program does not count. -/
structure ListMem (Y : Type) (size : ℕ) where
  el : Fin size → Y
  writes : Fin size → ℕ

/-- `el[e] = y` -/
def ListMem.write {Y : Type} {size : ℕ} (m : ListMem Y size) (e : Fin size) (y : Y) : ListMem Y size :=
  { el := update m.el e y, writes := update m.writes e (m.writes e + 1) }

variable {X Y : Type} {size : ℕ} (rng : RandomEngine) (draw : rng.State → Fueled (X × rng.State))
  (assign : X → Y → Y)

/-- The loop over the slots of one block, which leaves the engine in a new state. -/
def drawBlock (block : Fin (blockCount size blockSize)) (_ : rng.State) : Prog (ListMem Y size) rng.State :=
  .forEach (blockRange size blockSize block) (rng.seed (kRandSeed + block)) fun e state => do
    let (x, state) ← .compute (draw state)
    .store fun m => m.write e (assign x (m.el e))
    return state

/-- The parallel region around the loop over the blocks.  `sched` says which thread draws which blocks, and
in which order. -/
def drawBlocks (T : ℕ) (sched : Schedule T (blockCount size blockSize)) : Prog (ListMem Y size) Unit := do
  let _ ← .fork fun t => .forEach (sched.work t) (rng.seed defaultSeed) (drawBlock rng draw assign)
  return ()

/-! ## What a slot is given -/

section Slots

theorem blockSize_pos : 0 < blockSize := Nat.two_pow_pos 18

theorem mem_blockRange_iff {block : ℕ} {e : Fin size} :
    e ∈ blockRange size blockSize block ↔ e.val / blockSize = block := by
  rw [mem_blockRange, Nat.div_eq_iff blockSize_pos, Nat.add_mul, Nat.one_mul]
  have hpos := blockSize_pos
  omega

/-- The slots of a block follow one another. -/
theorem val_of_split {block : ℕ} {pre post : List (Fin size)} {e : Fin size}
    (h : blockRange size blockSize block = pre ++ e :: post) : e.val = block * blockSize + pre.length := by
  have hsorted := blockRange_sorted size blockSize block
  rw [h, List.pairwise_append, List.pairwise_cons] at hsorted
  obtain ⟨hpre, ⟨hpost, -⟩, hacross⟩ := hsorted
  have he : e ∈ blockRange size blockSize block := by simp [h]
  rw [mem_blockRange] at he
  -- the slots before `e` are those from the first one of the block up to `e`, so count them
  have hset : pre.toFinset.image Fin.val = Finset.Ico (block * blockSize) e.val := by
    ext i
    simp only [Finset.mem_image, List.mem_toFinset, Finset.mem_Ico]
    constructor
    · rintro ⟨j, hj, rfl⟩
      have hj' : j ∈ blockRange size blockSize block := by simp [h, hj]
      exact ⟨(mem_blockRange.mp hj').1, hacross j hj e (by simp)⟩
    · intro ⟨hlo, hhi⟩
      have hi : ⟨i, hhi.trans e.isLt⟩ ∈ blockRange size blockSize block :=
        mem_blockRange.mpr ⟨hlo, hhi.trans he.2⟩
      rw [h, List.mem_append, List.mem_cons] at hi
      rcases hi with hi | heq | hi
      · exact ⟨_, hi, rfl⟩
      · have hval := congrArg Fin.val heq
        exact absurd hval hhi.ne
      · have hlt := hpost _ hi
        exact absurd (show e.val < i from hlt) (by omega)
  have hcard := congrArg Finset.card hset
  have hnodup : pre.Nodup := hpre.imp fun hlt => hlt.ne
  rw [Finset.card_image_of_injective _ Fin.val_injective, List.toFinset_card_of_nodup hnodup,
    Nat.card_Ico] at hcard
  omega

theorem val_div_lt_blockCount (e : Fin size) : e.val / blockSize < blockCount size blockSize := by
  have he := e.isLt
  have hpos := blockSize_pos
  rw [Nat.div_lt_iff_lt_mul hpos]
  -- the last block may be a short one
  have hle : size ≤ blockCount size blockSize * blockSize := by
    have hdiv := Nat.div_add_mod (size + blockSize - 1) blockSize
    have hmod := Nat.mod_lt (size + blockSize - 1) hpos
    rw [blockCount, Nat.mul_comm]
    omega
  omega

variable {rng} (step : rng.State → X × rng.State)

/-- The state of the engine when it comes to slot `e`. -/
def stateAt (e : ℕ) : rng.State :=
  (fun state => (step state).2)^[e % blockSize] (rng.seed (kRandSeed + e / blockSize))

/-- What is drawn for slot `e`. -/
def drawnAt (e : ℕ) : X := (step (stateAt step e)).1

theorem stateAt_of_split {block : ℕ} {pre post : List (Fin size)} {e : Fin size}
    (h : blockRange size blockSize block = pre ++ e :: post) :
    stateAt step e = (fun state => (step state).2)^[pre.length] (rng.seed (kRandSeed + block)) := by
  have hval := val_of_split h
  have he : e ∈ blockRange size blockSize block := by simp [h]
  have hdiv := mem_blockRange_iff.mp he
  have hmod : e.val % blockSize = pre.length := by
    have hsum := Nat.div_add_mod e.val blockSize
    rw [hdiv, Nat.mul_comm] at hsum
    omega
  rw [stateAt, hdiv, hmod]

end Slots

/-! ## The loops -/

section Loops

variable {assign}

/-- The slot is as it was. -/
def Untouched (e : Fin size) (m m' : ListMem Y size) : Prop :=
  m'.el e = m.el e ∧ m'.writes e = m.writes e

/-- The slot has been given `x`, by a single write. -/
def Given (assign : X → Y → Y) (x : X) (e : Fin size) (m m' : ListMem Y size) : Prop :=
  m'.el e = assign x (m.el e) ∧ m'.writes e = m.writes e + 1

theorem untouched_write {m : ListMem Y size} {e e' : Fin size} {y : Y} (h : e' ≠ e) :
    Untouched e' m (m.write e y) := by
  simp [Untouched, ListMem.write, h]

theorem Untouched.trans {e : Fin size} {m₁ m₂ m₃ : ListMem Y size} (h : Untouched e m₁ m₂)
    (h' : Untouched e m₂ m₃) : Untouched e m₁ m₃ :=
  ⟨h'.1.trans h.1, h'.2.trans h.2⟩

theorem Given.untouched {x : X} {e : Fin size} {m₁ m₂ m₃ : ListMem Y size} (h : Given assign x e m₁ m₂)
    (h' : Untouched e m₂ m₃) : Given assign x e m₁ m₃ :=
  ⟨h'.1.trans h.1, h'.2.trans h.2⟩

theorem Untouched.given {x : X} {e : Fin size} {m m' : ListMem Y size} (h : Untouched e m m') :
    Given assign x e m (m'.write e (assign x (m'.el e))) := by
  simp [Given, ListMem.write, h.1, h.2]

/-- What a block may do: it leaves the slots of the other blocks as they are. -/
def BlockStep (block : Fin (blockCount size blockSize)) (m m' : ListMem Y size) : Prop :=
  ∀ e, e ∉ blockRange size blockSize block → Untouched e m m'

/-- A slot is none of another block's. -/
theorem BlockStep.other {block block' : Fin (blockCount size blockSize)} {m m' : ListMem Y size}
    (h : BlockStep block' m m') (hne : block' ≠ block) {e : Fin size}
    (he : e ∈ blockRange size blockSize block) : Untouched e m m' := by
  apply h e
  intro he'
  exact hne (Fin.ext ((mem_blockRange_iff.mp he').symm.trans (mem_blockRange_iff.mp he)))

variable {rng draw} {step : rng.State → X × rng.State} (hstep : ∀ state, (draw state).Returns (step state))
  {m₀ : ListMem Y size}

include hstep

theorem drawBlock_wp (block : Fin (blockCount size blockSize)) (state : rng.State) {m : ListMem Y size}
    (hm : ∀ e ∈ blockRange size blockSize block, Untouched e m₀ m) :
    WP (Γ := Unit) (fun σ τ => ∃ block', block' ≠ block ∧ BlockStep block' σ.1 τ.1)
      (fun σ τ => BlockStep block σ.1 τ.1)
      (fun _ σ => ∀ e ∈ blockRange size blockSize block, Given assign (drawnAt step e) e m₀ σ.1)
      (drawBlock rng draw assign block state) (m, ()) := by
  -- the slots of `pre` have been drawn, one after the other
  let Drawn (pre : List (Fin size)) (state : rng.State) (σ : ListMem Y size × Unit) : Prop :=
    state = (fun state => (step state).2)^[pre.length] (rng.seed (kRandSeed + block)) ∧
      ∀ e ∈ blockRange size blockSize block, (e ∈ pre → Given assign (drawnAt step e) e m₀ σ.1) ∧
        (e ∉ pre → Untouched e m₀ σ.1)
  have hstart : Drawn [] (rng.seed (kRandSeed + block)) (m, ()) := ⟨rfl, by simpa using hm⟩
  have hstable (pre : List (Fin size)) (state : rng.State) :
      Stable (fun σ τ : ListMem Y size × Unit => ∃ block', block' ≠ block ∧ BlockStep block' σ.1 τ.1)
        (Drawn pre state) := by
    rintro σ τ ⟨hstate, hslots⟩ ⟨block', hne, hother⟩
    refine ⟨hstate, fun e he => ⟨fun hpre => ?_, fun hpre => ?_⟩⟩
    · exact ((hslots e he).1 hpre).untouched (hother.other hne he)
    · exact ((hslots e he).2 hpre).trans (hother.other hne he)
  apply (WP.forEach Drawn hstart hstable ?_).mono
  · rintro _ σ ⟨-, hslots⟩ e he
    exact (hslots e he).1 he
  · rintro pre e post _ σ hsplit ⟨rfl, hslots⟩
    have he : e ∈ blockRange size blockSize block := by simp [hsplit]
    have hnotin : e ∉ pre := by
      have hsorted := blockRange_sorted size blockSize block
      rw [hsplit, List.pairwise_append] at hsorted
      exact fun hmem => (hsorted.2.2 e hmem e (by simp)).ne rfl
    have hstate := stateAt_of_split step hsplit
    apply WP.compute_bind (hstep _) ⟨rfl, hslots⟩ (hstable pre _)
    intro τ hτ
    rw [← hstate]
    apply WP.store_bind hτ (hstable pre _)
    intro υ _ hυ
    obtain ⟨-, hslots⟩ := hυ
    refine ⟨(), .inr fun e' he' => untouched_write fun heq => he' (heq ▸ he), ?_⟩
    apply WP.ret _ (hstable (pre ++ [e]) _)
    refine ⟨?_, fun e' he' => ⟨fun hmem => ?_, fun hmem => ?_⟩⟩
    · rw [List.length_append, List.length_singleton, iterate_succ_apply', ← hstate]
    · rcases List.mem_append.mp hmem with hmem | hmem
      · exact ((hslots e' he').1 hmem).untouched (untouched_write fun heq => hnotin (heq ▸ hmem))
      · obtain rfl := List.mem_singleton.mp hmem
        exact ((hslots e' he').2 hnotin).given
    · rw [List.mem_append, List.mem_singleton, not_or] at hmem
      exact ((hslots e' he').2 hmem.1).trans (untouched_write hmem.2)

theorem drawBlocks_of_step {T : ℕ} [NeZero T] (sched : Schedule T (blockCount size blockSize)) :
    Solo (drawBlocks rng draw assign T sched) m₀ fun _ m' =>
      ∀ e : Fin size, Given assign (drawnAt step e) e m₀ m' := by
  -- the engine a thread carries over is seeded again, so nothing is asked of it
  let Pre (block : Fin (blockCount size blockSize)) (m : ListMem Y size) : Prop :=
    ∀ e ∈ blockRange size blockSize block, Untouched e m₀ m
  let Post (block : Fin (blockCount size blockSize)) (_ : Unit) (m : ListMem Y size) : Prop :=
    ∀ e ∈ blockRange size blockSize block, Given assign (drawnAt step e) e m₀ m
  have hsep (val : Fin (blockCount size blockSize) → Unit) :
      Separate BlockStep (fun _ => True) Pre fun block => Post block (val block) := by
    constructor
    · exact fun _ _ _ _ _ => trivial
    · exact fun block block' m m' hne _ h hother e he => (h e he).trans (hother.other hne.symm he)
    · exact fun block block' m m' hne _ h hother e he => (h e he).untouched (hother.other hne.symm he)
  have hthreads := @Solo.share_local _ Unit _ _ _ _ _ _ (fun _ => ()) T _ sched Post _ hsep
    (rng.seed defaultSeed) rfl m₀ trivial (fun _ _ _ => ⟨rfl, rfl⟩) fun block state m _ hm =>
      (drawBlock_wp hstep block state hm).mono fun _ _ h => ⟨(), rfl, h⟩
  apply Solo.bind
  apply hthreads.mono
  rintro _ m' ⟨_, -, -, hpost⟩
  apply Solo.ret
  intro e
  exact hpost ⟨e.val / blockSize, val_div_lt_blockCount e⟩ e (mem_blockRange_iff.mpr rfl)

omit hstep in
/-- If all draws come to an end, each slot is given a value that depends on its place in the list only. -/
theorem drawBlocks_solo (hdraw : ∀ state, (draw state).Terminates) : ∃ value : ℕ → X,
    (∀ e, ∃ state r, (draw state).Returns r ∧ value e = r.1) ∧
      ∀ (size : ℕ) (m : ListMem Y size) (T : ℕ) [NeZero T] (sched : Schedule T (blockCount size blockSize)),
        Solo (drawBlocks rng draw assign T sched) m fun _ m' =>
          ∀ e : Fin size, Given assign (value e) e m m' := by
  choose step hstep using hdraw
  refine ⟨drawnAt step, fun e => ⟨_, _, hstep _, rfl⟩, fun size m T _ sched => ?_⟩
  exact drawBlocks_of_step hstep sched

end Loops

end Gapbs.Gen
