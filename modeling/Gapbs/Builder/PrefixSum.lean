import Mathlib.Algebra.BigOperators.Fin
import Mathlib.Algebra.Order.BigOperators.Group.Finset
import Mathlib.Data.BitVec
import Mathlib.Data.Fin.VecNotation
import Gapbs.Conc.Reduce
import Gapbs.Lib.Loop

/-!
# The blocked prefix sum

`ParallelPrefixSum` of `builder.h`: one parallel loop sums up the blocks, a serial loop accumulates
the block sums, and a second parallel loop fills in the offsets block by block.  The sums are taken
in any commutative monoid, so that they may be counted in any integer type.
-/

namespace Gapbs

open Conc Function

variable {M : Type} [AddCommMonoid M] {size numBlocks : Nat}

/-- The arrays that `ParallelPrefixSum` allocates; their first contents are arbitrary. -/
structure PrefixMem (M : Type) (size numBlocks : Nat) where
  localSums : Fin numBlocks → M
  bulkPrefix : Fin (numBlocks + 1) → M
  offsets : Fin (size + 1) → M

/-- The indices `i` of the loop from `block * block_size` up to `block_end`. -/
def blockRange (size blockSize block : Nat) : List (Fin size) :=
  let blockEnd := min ((block + 1) * blockSize) size
  (List.finRange size).filter fun i => block * blockSize ≤ i.val ∧ i.val < blockEnd

/-- First loop: the sum of one block. -/
def sumBlock (blockSize : Nat) (degrees : Fin size → M) (block : Fin numBlocks) :
    Prog (PrefixMem M size numBlocks) Unit :=
  let lsum := (blockRange size blockSize block).foldl (fun lsum i => lsum + degrees i) 0
  .store fun m => { m with localSums := update m.localSums block lsum }

/-- The serial loop over the blocks. -/
def accumulateBlocks : Prog (PrefixMem M size numBlocks) Unit := do
  let total ← .forEach (List.finRange numBlocks) 0 fun block total => do
    .store fun m => { m with bulkPrefix := update m.bulkPrefix block.castSucc total }
    let lsum ← .load fun m => m.localSums block
    return total + lsum
  .store fun m => { m with bulkPrefix := update m.bulkPrefix (Fin.last numBlocks) total }

/-- Second loop: the offsets of one block. -/
def fillBlock (blockSize : Nat) (degrees : Fin size → M) (block : Fin numBlocks) :
    Prog (PrefixMem M size numBlocks) Unit := do
  -- the degrees of all blocks in front
  let localTotal ← .load fun m => m.bulkPrefix block.castSucc
  let _ ← .forEach (blockRange size blockSize block) localTotal fun i localTotal => do
    .store fun m => { m with offsets := update m.offsets i.castSucc localTotal }
    return localTotal + degrees i
  return ()

/-- `num_blocks` -/
def blockCount (size blockSize : Nat) : Nat := (size + blockSize - 1) / blockSize

/-- `ParallelPrefixSum(degrees)`, with `block_size` as a parameter. -/
def parallelPrefixSum (T : Nat) [NeZero T] (blockSize : Nat) (degrees : Fin size → M) :
    Prog (PrefixMem M size (blockCount size blockSize)) Unit := do
  .parallelFor T _ (sumBlock blockSize degrees)
  accumulateBlocks
  .parallelFor T _ (fillBlock blockSize degrees)
  -- one more entry than there are degrees
  let total ← .load fun m => m.bulkPrefix (Fin.last _)
  .store fun m => { m with offsets := update m.offsets (Fin.last size) total }

/-! ## The sums -/

/-- The sum of the first `k` degrees. -/
def offset (degrees : Fin size → M) (k : Nat) : M := ∑ i with i.val < k, degrees i

@[simp] theorem offset_zero (degrees : Fin size → M) : offset degrees 0 = 0 := by
  simp [offset]

theorem offset_eq_of_le (degrees : Fin size → M) {k : Nat} (hk : size ≤ k) :
    offset degrees k = offset degrees size := by
  unfold offset
  congr 1
  ext i
  have hi := i.isLt
  simp only [Finset.mem_filter_univ]
  omega

theorem offset_succ (degrees : Fin size → M) (i : Fin size) :
    offset degrees (i.val + 1) = offset degrees i.val + degrees i := by
  have hset : Finset.univ.filter (fun j : Fin size => j.val < i.val + 1) =
      insert i (Finset.univ.filter fun j : Fin size => j.val < i.val) := by
    ext j
    simp only [Finset.mem_filter_univ, Finset.mem_insert, Fin.ext_iff]
    omega
  rw [offset, hset, Finset.sum_insert (by simp), add_comm, offset]

theorem foldl_add (degrees : Fin size → M) (l : List (Fin size)) (a : M) :
    l.foldl (fun lsum i => lsum + degrees i) a = a + (l.map degrees).sum := by
  induction l generalizing a with
  | nil => simp
  | cons i l ih => simp [ih, add_assoc]

theorem mem_blockRange {blockSize block : Nat} {i : Fin size} :
    i ∈ blockRange size blockSize block ↔
      block * blockSize ≤ i.val ∧ i.val < (block + 1) * blockSize := by
  have hi := i.isLt
  simp [blockRange]

theorem blockRange_sorted (size blockSize block : Nat) :
    (blockRange size blockSize block).Pairwise (· < ·) :=
  (List.pairwise_lt_finRange size).filter _

/-- The degrees of a block up to some point of it continue the sum of the blocks before. -/
theorem offset_block (degrees : Fin size → M) {blockSize block : Nat} {pre post : List (Fin size)}
    (h : blockRange size blockSize block = pre ++ post) {k : Nat}
    (hpre : ∀ i ∈ pre, i.val < k) (hpost : ∀ i ∈ post, k ≤ i.val) (hlo : block * blockSize ≤ k)
    (hhi : k ≤ (block + 1) * blockSize) :
    offset degrees k = offset degrees (block * blockSize) + (pre.map degrees).sum := by
  have hsorted := blockRange_sorted size blockSize block
  rw [h, List.pairwise_append] at hsorted
  have hnodup : pre.Nodup := hsorted.1.imp fun hlt => hlt.ne
  have hset : Finset.univ.filter (fun i : Fin size => i.val < k) =
      Finset.univ.filter (fun i : Fin size => i.val < block * blockSize) ∪ pre.toFinset := by
    ext i
    have hmem : i ∈ pre ∨ i ∈ post ↔
        block * blockSize ≤ i.val ∧ i.val < (block + 1) * blockSize := by
      rw [← List.mem_append, ← h, mem_blockRange]
    simp only [Finset.mem_filter_univ, Finset.mem_union, List.mem_toFinset]
    constructor
    · intro hi
      by_cases hblock : i.val < block * blockSize
      · exact .inl hblock
      · right
        rcases hmem.mpr ⟨by omega, by omega⟩ with hp | hp
        · exact hp
        · exact absurd (hpost i hp) (by omega)
    · rintro (hi | hi)
      · omega
      · exact hpre i hi
  have hdisjoint : Disjoint (Finset.univ.filter fun i : Fin size => i.val < block * blockSize)
      pre.toFinset := by
    rw [Finset.disjoint_left]
    intro i hi hp
    have hblock := (mem_blockRange.mp (h ▸ List.mem_append_left post (List.mem_toFinset.mp hp))).1
    rw [Finset.mem_filter_univ] at hi
    omega
  rw [offset, hset, Finset.sum_union hdisjoint, List.sum_toFinset _ hnodup]
  rfl

/-- The sum of a whole block takes the offsets from its start to its end. -/
theorem offset_blockRange (degrees : Fin size → M) (blockSize block : Nat) :
    offset degrees ((block + 1) * blockSize) = offset degrees (block * blockSize) +
      ((blockRange size blockSize block).map degrees).sum := by
  apply offset_block degrees (List.append_nil (blockRange size blockSize block)).symm
  · exact fun i hi => (mem_blockRange.mp hi).2
  · simp
  · exact Nat.mul_le_mul_right _ (Nat.le_succ block)
  · exact le_rfl

theorem offset_mono (degrees : Fin size → Nat) : Monotone (offset degrees) := by
  intro k l hkl
  apply Finset.sum_le_sum_of_subset
  intro i hi
  rw [Finset.mem_filter_univ] at hi ⊢
  omega

/-- Every slot below the last offset lies between two consecutive offsets. -/
theorem exists_offset_le_lt (degrees : Fin size → Nat) {k : Nat} (hk : k < offset degrees size) :
    ∃ i : Fin size, offset degrees i.val ≤ k ∧ k < offset degrees (i.val + 1) := by
  have hex : ∃ j, k < offset degrees j := ⟨size, hk⟩
  have hfind := Nat.find_spec hex
  have hpos : Nat.find hex ≠ 0 := fun h => by
    rw [h, offset_zero] at hfind
    omega
  obtain ⟨i, hi⟩ := Nat.exists_eq_succ_of_ne_zero hpos
  have hmin : offset degrees i ≤ k := not_lt.mp (Nat.find_min hex (by omega))
  have hlt : i < size := by
    have hle := Nat.find_min' hex hk
    omega
  rw [hi] at hfind
  exact ⟨⟨i, hlt⟩, hmin, hfind⟩

/-! ## The loops -/

section

variable {T : Nat} [NeZero T] {blockSize : Nat} {degrees : Fin size → M}

/-- What the first loop leaves behind. -/
def SumsBlocks (blockSize : Nat) (degrees : Fin size → M) (m : PrefixMem M size numBlocks) : Prop :=
  ∀ block, m.localSums block = ((blockRange size blockSize block).map degrees).sum

/-- What the serial loop leaves behind. -/
def SumsBulk (blockSize : Nat) (degrees : Fin size → M) (m : PrefixMem M size numBlocks) : Prop :=
  ∀ block, m.bulkPrefix block = offset degrees (block.val * blockSize)

theorem sumBlocks_solo (m : PrefixMem M size numBlocks) :
    Solo (.parallelFor T _ (sumBlock blockSize degrees)) m fun _ m' =>
      SumsBlocks blockSize degrees m' := by
  apply Solo.parallelFor_store _ PrefixMem.localSums
  · intro block m
    simp [foldl_add]
  · intro block b m hb
    simp [hb]

theorem accumulateBlocks_solo {m : PrefixMem M size numBlocks}
    (hm : SumsBlocks blockSize degrees m) :
    Solo accumulateBlocks m fun _ m' => SumsBulk blockSize degrees m' := by
  apply Solo.bind
  apply (Solo.forEach (l := List.finRange numBlocks) (fun pre total m' => m'.localSums = m.localSums ∧
    total = offset degrees (pre.length * blockSize) ∧ ∀ block, block.val < pre.length →
      m'.bulkPrefix block = offset degrees (block.val * blockSize)) ⟨rfl, by simp, by simp⟩ ?_).mono
  · rintro total m' ⟨-, htotal, hbulk⟩
    rw [List.length_finRange] at htotal hbulk
    apply Solo.op rfl
    intro block
    by_cases hlast : block = Fin.last numBlocks
    · simp [hlast, htotal]
    · show update m'.bulkPrefix (Fin.last numBlocks) total block = _
      rw [update_of_ne hlast]
      exact hbulk block (Fin.val_lt_last hlast)
  · rintro pre block post total m' hsplit ⟨hsums, rfl, hbulk⟩
    have hblock : block.val = pre.length := by
      have hget := congrArg (fun l => l[pre.length]?) hsplit
      rw [List.getElem?_append_right le_rfl, Nat.sub_self, List.getElem?_cons_zero,
        List.getElem?_eq_some_iff] at hget
      obtain ⟨hlt, hget⟩ := hget
      rw [← hget, List.getElem_finRange]
      rfl
    apply Solo.store_bind
    apply Solo.load_bind
    apply Solo.ret
    refine ⟨hsums, ?_, fun b hb => ?_⟩
    · rw [show _ = _ from congrFun hsums block, hm block, List.length_append, hblock,
        ← offset_blockRange]
      rfl
    · rw [List.length_append, List.length_singleton] at hb
      by_cases heq : b = block.castSucc
      · subst heq
        simp [hblock]
      · show update m'.bulkPrefix block.castSucc _ b = _
        rw [update_of_ne heq]
        have hne : b.val ≠ block.val := fun h => heq (Fin.ext h)
        exact hbulk b (by omega)

/-- What the second loop leaves behind in block `block`. -/
def FillsBlock (blockSize : Nat) (degrees : Fin size → M) (block : Fin numBlocks)
    (m : PrefixMem M size numBlocks) : Prop :=
  ∀ i ∈ blockRange size blockSize block, m.offsets i.castSucc = offset degrees i.val

theorem blockRange_disjoint {block block' : Nat} {i : Fin size}
    (h : i ∈ blockRange size blockSize block) (h' : i ∈ blockRange size blockSize block') :
    block = block' := by
  rw [mem_blockRange] at h h'
  by_contra hne
  rcases Nat.lt_or_gt_of_ne hne with hlt | hlt
  · have hle : (block + 1) * blockSize ≤ block' * blockSize := Nat.mul_le_mul_right _ hlt
    omega
  · have hle : (block' + 1) * blockSize ≤ block * blockSize := Nat.mul_le_mul_right _ hlt
    omega

/-- What filling one block may do. -/
def FillStep (blockSize : Nat) (block : Fin numBlocks) (m m' : PrefixMem M size numBlocks) : Prop :=
  m'.bulkPrefix = m.bulkPrefix ∧
    ∀ i : Fin size, i ∉ blockRange size blockSize block → m'.offsets i.castSucc = m.offsets i.castSucc

theorem FillsBlock.stable {block block' : Fin numBlocks} {m m' : PrefixMem M size numBlocks}
    (hne : block ≠ block') (h : FillsBlock blockSize degrees block m)
    (hstep : FillStep blockSize block' m m') : FillsBlock blockSize degrees block m' := by
  intro i hi
  rw [hstep.2 i fun hi' => hne (Fin.ext (blockRange_disjoint hi hi')), h i hi]

theorem fillBlock_wp (block : Fin numBlocks) {m : PrefixMem M size numBlocks}
    (hm : SumsBulk blockSize degrees m) :
    WP (Γ := Unit) (fun σ τ => ∃ j, j ≠ block ∧ FillStep blockSize j σ.1 τ.1)
      (fun σ τ => FillStep blockSize block σ.1 τ.1)
      (fun _ σ => FillsBlock blockSize degrees block σ.1) (fillBlock blockSize degrees block)
      (m, ()) := by
  have stableBulk : Stable (fun σ τ : PrefixMem M size numBlocks × Unit =>
      ∃ j, j ≠ block ∧ FillStep blockSize j σ.1 τ.1) fun σ => SumsBulk blockSize degrees σ.1 := by
    rintro σ τ hσ ⟨j, -, hstep⟩
    intro b
    rw [hstep.1, hσ b]
  apply WP.load_bind (P := fun σ => SumsBulk blockSize degrees σ.1) hm stableBulk
  intro m _ hm
  rw [hm block.castSucc]
  apply WP.bind
  apply (WP.forEach (l := blockRange size blockSize block) (fun pre localTotal σ =>
    localTotal = offset degrees (block.val * blockSize) + (pre.map degrees).sum ∧
    ∀ i ∈ pre, i ∈ blockRange size blockSize block ∧ σ.1.offsets i.castSucc = offset degrees i.val)
    ⟨by simp, by simp⟩ ?_ ?_).mono
  · rintro localTotal σ ⟨-, hfill⟩
    apply WP.ret
    · exact fun i hi => (hfill i hi).2
    · rintro σ τ hσ ⟨j, hj, hstep⟩
      exact hσ.stable hj.symm hstep
  · rintro pre localTotal σ τ ⟨htotal, hfill⟩ ⟨j, hj, hstep⟩
    refine ⟨htotal, fun i hi => ⟨(hfill i hi).1, ?_⟩⟩
    rw [hstep.2 i fun hi' => hj (Fin.ext (blockRange_disjoint hi' (hfill i hi).1)), (hfill i hi).2]
  · rintro pre i post localTotal ⟨m, ⟨⟩⟩ hsplit ⟨htotal, hfill⟩
    have hi : i ∈ blockRange size blockSize block := by simp [hsplit]
    have hbounds := mem_blockRange.mp hi
    have hsorted := blockRange_sorted size blockSize block.val
    rw [hsplit, List.pairwise_append, List.pairwise_cons] at hsorted
    -- the bulk prefix of the block and the degrees before `i` in it make up the offset of `i`
    have hvalue : localTotal = offset degrees i.val := by
      rw [htotal]
      symm
      apply offset_block degrees hsplit
      · exact fun j hj => hsorted.2.2 j hj i (List.mem_cons_self ..)
      · intro j hj
        rcases List.mem_cons.mp hj with rfl | hj
        · exact le_rfl
        · exact (hsorted.2.1.1 j hj).le
      · exact hbounds.1
      · exact hbounds.2.le
    let Done (l : List (Fin size)) (σ : PrefixMem M size numBlocks × Unit) : Prop :=
      ∀ j ∈ l, j ∈ blockRange size blockSize block ∧ σ.1.offsets j.castSucc = offset degrees j.val
    have stable (l : List (Fin size)) : Stable (fun σ τ : PrefixMem M size numBlocks × Unit =>
        ∃ j, j ≠ block ∧ FillStep blockSize j σ.1 τ.1) (Done l) := by
      rintro σ τ hσ ⟨j, hj, hstep⟩ k hk
      refine ⟨(hσ k hk).1, ?_⟩
      rw [hstep.2 k fun hk' => hj (Fin.ext (blockRange_disjoint hk' (hσ k hk).1)), (hσ k hk).2]
    apply WP.store_bind (P := Done pre) hfill (stable pre)
    rintro m _ hfill
    refine ⟨(), .inr ⟨rfl, fun j hj => ?_⟩, ?_⟩
    · have hne : j.castSucc ≠ i.castSucc := fun h => hj (Fin.castSucc_injective _ h ▸ hi)
      show update m.offsets i.castSucc localTotal j.castSucc = _
      rw [update_of_ne hne]
    · apply WP.ret
      · refine ⟨?_, fun j hj => ?_⟩
        · rw [htotal, List.map_append, List.sum_append, ← add_assoc]
          simp
        · show j ∈ _ ∧ update m.offsets i.castSucc localTotal j.castSucc = _
          rcases List.mem_append.mp hj with hj | hj
          · have hne : j.castSucc ≠ i.castSucc := fun h =>
              (hsorted.2.2 j hj i (List.mem_cons_self ..)).ne (Fin.castSucc_injective _ h)
            rw [update_of_ne hne]
            exact hfill j hj
          · rw [List.mem_singleton.mp hj, update_self]
            exact ⟨hi, hvalue⟩
      · rintro σ τ ⟨hsum, hσ⟩ hR
        exact ⟨hsum, stable _ σ τ hσ hR⟩

/-- Whatever the block size and the schedule, entry `i` is the sum of the first `i` degrees. -/
theorem parallelPrefixSum_solo (hblock : 0 < blockSize)
    (m : PrefixMem M size (blockCount size blockSize)) :
    Solo (parallelPrefixSum T blockSize degrees) m fun _ m' =>
      ∀ i, m'.offsets i = offset degrees i.val := by
  have hcover : size ≤ blockCount size blockSize * blockSize := by
    have hdiv := Nat.div_add_mod (size + blockSize - 1) blockSize
    have hmod := Nat.mod_lt (size + blockSize - 1) hblock
    rw [blockCount, Nat.mul_comm]
    omega
  apply Solo.bind
  apply (sumBlocks_solo m).mono
  intro _ m hm
  apply Solo.bind
  apply (accumulateBlocks_solo hm).mono
  intro _ m hm
  apply Solo.bind
  apply (Solo.parallelFor_of_own (FillStep blockSize) (fun m => SumsBulk blockSize degrees m)
    (fun _ _ => True) (fun block m => FillsBlock blockSize degrees block m) hm (fun _ => trivial)
    (fun _ _ _ hm hstep b => by rw [hstep.1, hm b]) (fun _ _ _ _ _ _ _ _ => trivial)
    (fun _ _ _ _ hne _ hfill hstep => hfill.stable hne hstep)
    (fun block _ hm _ => fillBlock_wp block hm)).mono
  rintro _ m ⟨hbulk, hfill⟩
  apply Solo.load_bind
  apply Solo.op rfl
  intro i
  by_cases hlast : i = Fin.last size
  · subst hlast
    show update m.offsets (Fin.last size) _ (Fin.last size) = _
    rw [update_self, hbulk]
    exact offset_eq_of_le degrees hcover
  · show update m.offsets (Fin.last size) _ i = _
    rw [update_of_ne hlast]
    -- the block that holds index `i`
    have hi : i.val < size := Fin.val_lt_last hlast
    have hlt : i.val / blockSize < blockCount size blockSize := by
      rw [Nat.div_lt_iff_lt_mul hblock]
      omega
    have hmem : (⟨i.val, hi⟩ : Fin size) ∈ blockRange size blockSize (i.val / blockSize) := by
      rw [mem_blockRange]
      show i.val / blockSize * blockSize ≤ i.val ∧ i.val < (i.val / blockSize + 1) * blockSize
      have hdiv := Nat.div_add_mod i.val blockSize
      have hmod := Nat.mod_lt i.val hblock
      rw [Nat.add_mul, Nat.mul_comm (i.val / blockSize)]
      omega
    exact hfill ⟨_, hlt⟩ ⟨i.val, hi⟩ hmem

end

/-! ## The serial prefix sum -/

/-- One turn of the loop of `PrefixSum`, on the array and the total. -/
def prefixSumStep (degrees : Fin size → M) (n : Fin size) (s : (Fin (size + 1) → M) × M) :
    Option ((Fin (size + 1) → M) × M) :=
  some (update s.1 n.castSucc s.2, s.2 + degrees n)

/-- `PrefixSum(degrees)`; `sums` is what the new array holds at first. -/
def prefixSum (sums : Fin (size + 1) → M) (degrees : Fin size → M) : Option (Fin (size + 1) → M) := do
  let (sums, total) ← Loop.overFin (prefixSumStep degrees) (sums, 0)
  return update sums (Fin.last size) total

theorem prefixSum_eq (sums : Fin (size + 1) → M) (degrees : Fin size → M) :
    prefixSum sums degrees = some fun i => offset degrees i.val := by
  -- the entries below `k` are written, and the total is the next one
  let Summed (k : Nat) (s : (Fin (size + 1) → M) × M) : Prop :=
    s.2 = offset degrees k ∧ ∀ i : Fin (size + 1), i.val < k → s.1 i = offset degrees i.val
  have hstart : Summed 0 (sums, 0) :=
    ⟨(offset_zero degrees).symm, fun _ h => absurd h (Nat.not_lt_zero _)⟩
  have hstep (n : Fin size) (s : (Fin (size + 1) → M) × M) (hs : Summed n s) :
      ∃ t, prefixSumStep degrees n s = some t ∧ Summed (n + 1) t := by
    obtain ⟨htotal, hsums⟩ := hs
    refine ⟨_, rfl, ?_, fun i hi => ?_⟩
    · rw [offset_succ, htotal]
    · by_cases heq : i = n.castSucc
      · subst heq
        show update s.1 n.castSucc s.2 n.castSucc = _
        rw [update_self]
        exact htotal
      · have hne : i.val ≠ n.val := fun h => heq (Fin.ext h)
        show update s.1 n.castSucc s.2 i = _
        rw [update_of_ne heq]
        exact hsums i (by omega)
  obtain ⟨⟨sums', total⟩, hloop, htotal, hsums⟩ := Loop.overFin_invariant Summed hstart hstep
  rw [prefixSum, hloop]
  show some (update sums' (Fin.last size) total) = _
  congr 1
  funext i
  by_cases hlast : i = Fin.last size
  · subst hlast
    rw [update_self]
    exact htotal
  · rw [update_of_ne hlast]
    exact hsums i (Fin.val_lt_last hlast)

/-! ## 64-bit offsets -/

/-- `SGOffset`, with the arithmetic of `int64_t` -/
abbrev SGOffset := BitVec 64

/-- What a degree of type `NodeID_` contributes to a total of type `SGOffset`. -/
def toSGOffset (degree : BitVec 32) : SGOffset := degree.signExtend 64

/-- Sums that fit are exact. -/
theorem toInt_sum {ι : Type} (s : Finset ι) (degrees : ι → BitVec 32)
    (hlo : -2 ^ 63 ≤ ∑ j ∈ s, (degrees j).toInt) (hhi : ∑ j ∈ s, (degrees j).toInt < 2 ^ 63) :
    (∑ j ∈ s, toSGOffset (degrees j)).toInt = ∑ j ∈ s, (degrees j).toInt := by
  have hcast : ∑ j ∈ s, toSGOffset (degrees j) = BitVec.ofInt 64 (∑ j ∈ s, (degrees j).toInt) := by
    clear hlo hhi
    classical
    induction s using Finset.induction_on with
    | empty => rfl
    | insert j s hj ih =>
      rw [Finset.sum_insert hj, Finset.sum_insert hj, BitVec.ofInt_add, ih]
      rfl
  rw [hcast, BitVec.toInt_ofInt_eq_self (by decide) hlo hhi]

/-- `ParallelPrefixSum` returns what `PrefixSum` does: the sums of the first degrees, in 64 bits. -/
theorem parallelPrefixSum_correct {T blockSize : Nat} [NeZero T] (hblock : 0 < blockSize)
    (degrees : Fin size → BitVec 32) (m : PrefixMem SGOffset size (blockCount size blockSize))
    (sums : Fin (size + 1) → SGOffset) :
    (parallelPrefixSum T blockSize fun j => toSGOffset (degrees j)).Correct m fun _ m' =>
      prefixSum sums (fun j => toSGOffset (degrees j)) = some m'.offsets ∧
        ∀ i : Fin (size + 1), m'.offsets i = ∑ j with j.val < i.val, toSGOffset (degrees j) ∧
          (-2 ^ 63 ≤ ∑ j with j.val < i.val, (degrees j).toInt →
            ∑ j with j.val < i.val, (degrees j).toInt < 2 ^ 63 →
            (m'.offsets i).toInt = ∑ j with j.val < i.val, (degrees j).toInt) := by
  apply Solo.correct
  apply (parallelPrefixSum_solo hblock m).mono
  intro _ m' hm'
  refine ⟨?_, fun i => ⟨hm' i, fun hlo hhi => ?_⟩⟩
  · rw [prefixSum_eq]
    exact congrArg some (funext fun i => (hm' i).symm)
  · rw [hm' i]
    exact toInt_sum _ degrees hlo hhi

/-- Two blocks, the last of them partial. -/
theorem parallelPrefixSum_correct_blocks :
    (parallelPrefixSum 2 2 fun j => toSGOffset (![3, 1, 4] j)).Correct ⟨0, 0, 0⟩ fun _ m' =>
      prefixSum 0 (fun j => toSGOffset (![3, 1, 4] j)) = some m'.offsets ∧
        ∀ i : Fin 4, m'.offsets i = ∑ j with j.val < i.val, toSGOffset (![3, 1, 4] j) := by
  have hblocks := @parallelPrefixSum_correct 3 2 2 _ (by decide) ![3, 1, 4] ⟨0, 0, 0⟩ 0
  exact hblocks.mono fun _ _ h => ⟨h.1, fun i => (h.2 i).1⟩

end Gapbs
