import Mathlib.Logic.Function.Iterate
import Gapbs.Gen.UniDist

/-!
# `std::mt19937`

The Mersenne twister of the standard library.  Its state is a window of the last 624 words; a step
computes the next word from three of them, and the output is the new word after a tempering.
-/

namespace Gapbs.Gen

abbrev Word := BitVec 32

namespace Mt19937

/-- The last 624 words, the oldest one first. -/
abbrev State := Vector Word 624

/-- The words of a window after seeding. -/
def seedWord (value : ℕ) : ℕ → Word
  | 0 => BitVec.ofNat 32 value
  | i + 1 =>
    let x := seedWord value i
    1812433253 * (x ^^^ (x >>> 30)) + BitVec.ofNat 32 (i + 1)

example : seedWord 5489 1 = 1301868182 ∧ seedWord 5489 2 = 2938499221 := by decide

/-- `seed(value)` -/
def seed (value : ℕ) : State := Vector.ofFn fun i => seedWord value i

/-- The upper bit of the oldest word and the lower bits of the one after it. -/
def joined (x y : Word) : Word := (x &&& 0x80000000) ||| (y &&& 0x7fffffff)

def twist (y : Word) : Word := (y >>> 1) ^^^ (if y.getLsbD 0 then 0x9908b0df else 0)

/-- The word that comes behind a window. -/
def newWord (s : State) : Word := s[397] ^^^ twist (joined s[0] s[1])

/-- The window is moved by one word. -/
def shift (s : State) : State :=
  Vector.ofFn fun i => if h : i.val + 1 < 624 then s[i.val + 1] else newWord s

def temper (x : Word) : Word :=
  let x := x ^^^ ((x >>> 11) &&& 0xffffffff)
  let x := x ^^^ ((x <<< 7) &&& 0x9d2c5680)
  let x := x ^^^ ((x <<< 15) &&& 0xefc60000)
  x ^^^ (x >>> 18)

/-- `operator()` -/
def next (s : State) : ℕ × State := ((temper (newWord s)).toNat, shift s)

end Mt19937

/-- `std::mt19937` -/
def mt19937 : RandomEngine where
  bits := 32
  State := Mt19937.State
  seed := Mt19937.seed
  next := Mt19937.next
  next_lt _ := BitVec.isLt _

namespace Mt19937

/-! ## Tempering -/

/-- A word is determined by its sum with another one each of whose bits depends on its earlier bits only,
in some order of the bits. -/
theorem xor_injective {f : Word → Word} (rank : ℕ → ℕ)
    (hf : ∀ x y i, (∀ j, rank j < rank i → x.getLsbD j = y.getLsbD j) → (f x).getLsbD i = (f y).getLsbD i) :
    Function.Injective fun x => x ^^^ f x := by
  intro x y hxy
  have hbits (r i : ℕ) (hi : rank i = r) : x.getLsbD i = y.getLsbD i := by
    induction r using Nat.strongRecOn generalizing i with
    | _ r ih =>
      have hsum := congrArg (fun z : Word => z.getLsbD i) hxy
      have hearlier := hf x y i fun j hj => ih (rank j) (hi ▸ hj) j rfl
      simp only [BitVec.getLsbD_xor, hearlier] at hsum
      exact Bool.xor_left_inj.mp hsum
  exact BitVec.eq_of_getLsbD_eq fun i _ => hbits (rank i) i rfl

theorem xor_masked_shiftRight_injective {k : ℕ} (hk : 0 < k) (mask : Word) :
    Function.Injective fun x : Word => x ^^^ ((x >>> k) &&& mask) := by
  apply xor_injective fun i => 32 - i
  intro x y i hbits
  rw [BitVec.getLsbD_and, BitVec.getLsbD_and, BitVec.getLsbD_ushiftRight, BitVec.getLsbD_ushiftRight]
  by_cases hi : i < 32
  · rw [hbits (k + i) (by omega)]
  · rw [BitVec.getLsbD_of_ge x _ (by omega), BitVec.getLsbD_of_ge y _ (by omega)]

theorem xor_masked_shiftLeft_injective {k : ℕ} (hk : 0 < k) (mask : Word) :
    Function.Injective fun x : Word => x ^^^ ((x <<< k) &&& mask) := by
  apply xor_injective fun i => i
  intro x y i hbits
  rw [BitVec.getLsbD_and, BitVec.getLsbD_and, BitVec.getLsbD_shiftLeft, BitVec.getLsbD_shiftLeft]
  by_cases hi : i < k
  · simp [hi]
  · rw [hbits (i - k) (by omega)]

theorem temper_injective : Function.Injective temper := by
  have hlast : Function.Injective fun x : Word => x ^^^ (x >>> 18) := by
    have hmask := xor_masked_shiftRight_injective (k := 18) (by decide) (BitVec.allOnes 32)
    simpa only [BitVec.and_allOnes] using hmask
  apply hlast.comp
  apply (xor_masked_shiftLeft_injective (k := 15) (by decide) 0xefc60000).comp
  apply (xor_masked_shiftLeft_injective (k := 7) (by decide) 0x9d2c5680).comp
  exact xor_masked_shiftRight_injective (by decide) 0xffffffff

/-! ## The words -/

/-- The window after `k` steps -/
def after (k : ℕ) (s : State) : State := shift^[k] s

theorem after_succ (k : ℕ) (s : State) : after (k + 1) s = shift (after k s) :=
  Function.iterate_succ_apply' shift k s

theorem getElem_shift {s : State} {i : ℕ} (hi : i + 1 < 624) : (shift s)[i] = s[i + 1] := by
  simp [shift, hi]

theorem getElem_shift_last (s : State) : (shift s)[623] = newWord s := by
  simp [shift]

/-- A word that has entered the window moves to its front. -/
theorem getElem_after (s : State) (k d i : ℕ) (h : i + d = 623) :
    (after (k + 1 + d) s)[i] = newWord (after k s) := by
  induction d generalizing i with
  | zero =>
    obtain rfl : i = 623 := h
    rw [Nat.add_zero, after_succ]
    exact getElem_shift_last _
  | succ d ih =>
    rw [← Nat.add_assoc, after_succ, getElem_shift (by omega)]
    exact ih (i + 1) (by omega)

/-- Equal words are followed by another one, unless they are zero. -/
theorem eq_zero_of_twist {c : Word} (h : c ^^^ twist c = c) : c = 0 := by
  have hzero : twist c = 0 := by
    have hcancel := congrArg (c ^^^ ·) h
    simpa [← BitVec.xor_assoc] using hcancel
  have hodd : c.getLsbD 0 = false := by
    by_contra hbit
    rw [Bool.not_eq_false] at hbit
    -- the constant has the upper bit, what has been shifted has not
    have htop := congrArg (fun z : Word => z.getLsbD 31) hzero
    rw [twist, if_pos hbit] at htop
    simp [BitVec.getLsbD_of_ge] at htop
  rw [twist, hodd] at hzero
  apply BitVec.eq_of_getLsbD_eq
  intro i hi
  cases i with
  | zero => simpa using hodd
  | succ i =>
    have hbit := congrArg (fun z : Word => z.getLsbD i) hzero
    simpa [Nat.add_comm 1 i] using hbit

theorem joined_self (c : Word) : joined c c = c := by
  rw [joined, ← BitVec.and_or_distrib_left]
  exact BitVec.and_allOnes

theorem temper_zero : temper 0 = 0 := by decide

/-- No output but zero is repeated for ever. -/
theorem exists_output_ne {c : Word} (hc : c ≠ 0) (s : State) : ∃ k, temper (newWord (after k s)) ≠ c := by
  by_contra hnone
  have hall (k : ℕ) : temper (newWord (after k s)) = c := not_not.mp (not_exists.mp hnone k)
  have hword (k : ℕ) : newWord (after k s) = newWord s := temper_injective ((hall k).trans (hall 0).symm)
  have hwindow (i : ℕ) (hi : i < 624) : (after 624 s)[i] = newWord s := by
    have hfront := getElem_after s i (623 - i) i (by omega)
    simp only [show i + 1 + (623 - i) = 624 by omega] at hfront
    exact hfront.trans (hword i)
  have hrepeat := hword 624
  rw [newWord, hwindow 0 (by decide), hwindow 1 (by decide), hwindow 397 (by decide), joined_self] at hrepeat
  have hzero := hall 0
  rw [show newWord (after 0 s) = 0 from eq_zero_of_twist hrepeat, temper_zero] at hzero
  exact hc hzero.symm

end Mt19937

/-- Every distribution that accepts all outputs but the largest comes to an end. -/
theorem call_mt19937_terminates {d : UniDist} (hd : ∀ raw, raw < rngMax 32 → d.accepts raw = true)
    (s : mt19937.State) : (d.call mt19937 s).Terminates := by
  obtain ⟨k, hk⟩ := Mt19937.exists_output_ne (c := BitVec.allOnes 32) (by decide) s
  apply UniDist.call_terminates (k := k)
  apply hd
  have hlt := BitVec.isLt (Mt19937.temper (Mt19937.newWord (Mt19937.after k s)))
  have hne : (Mt19937.temper (Mt19937.newWord (Mt19937.after k s))).toNat ≠ 2 ^ 32 - 1 :=
    fun heq => hk (BitVec.eq_of_toNat_eq heq)
  show (Mt19937.temper (Mt19937.newWord (Mt19937.after k s))).toNat < 2 ^ 32 - 1
  omega

end Gapbs.Gen
