import Mathlib.Data.BitVec
import Mathlib.Data.Fintype.BigOperators
import Gapbs.Conc.Lens

/-!
# A bitmap that threads share

`Bitmap` of `bitmap.h`: a set of positions, packed into 64-bit words.  `set_bit` is a load and a
store and needs the word for itself; `set_bit_atomic` retries a compare-and-swap until no other
thread has got in between.
-/

namespace Gapbs

open Conc Function

/-- `num_words` of the constructor. -/
def numWords (size : Nat) : Nat := (size + 64 - 1) / 64

/-- The words at `start_`. -/
structure Bitmap (size : Nat) where
  words : Fin (numWords size) → BitVec 64

namespace Bitmap

variable {size : Nat}

def wordOffset (pos : Fin size) : Fin (numWords size) :=
  ⟨pos.val / 64, by have hlt := pos.isLt; unfold numWords; omega⟩

/-- `n & (kBitsPerWord - 1)` -/
def bitOffset (pos : Fin size) : Nat := pos.val &&& 63

def reset (_ : Bitmap size) : Bitmap size := ⟨fun _ => 0⟩

/-- `(uint64_t) 1l << bit_offset(pos)` -/
def bit (pos : Fin size) : BitVec 64 := 1#64 <<< bitOffset pos

def getBit (b : Bitmap size) (pos : Fin size) : Bool :=
  (b.words (wordOffset pos) >>> bitOffset pos) &&& 1#64 != 0#64

/-- The bitmap with one word replaced. -/
def setWord (b : Bitmap size) (w : Fin (numWords size)) (val : BitVec 64) : Bitmap size :=
  ⟨update b.words w val⟩

def setBit (pos : Fin size) : Prog (Bitmap size) Unit := do
  let oldVal ← .load fun b => b.words (wordOffset pos)
  .store fun b => b.setWord (wordOffset pos) (oldVal ||| bit pos)

/-- `compare_and_swap(start_[w], old_val, new_val)` -/
def casWord (w : Fin (numWords size)) (oldVal newVal : BitVec 64) : Prog (Bitmap size) Bool :=
  .op fun b => if b.words w = oldVal then some (true, b.setWord w newVal) else some (false, b)

def setBitAtomic (pos : Fin size) : Prog (Bitmap size) Unit :=
  .iter (fun _ => do
    let oldVal ← .load fun b => b.words (wordOffset pos)
    let newVal := oldVal ||| bit pos
    let swapped ← casWord (wordOffset pos) oldVal newVal
    if swapped then return .inr () else return .inl ()) ()

/-! ## The set of positions -/

theorem bitOffset_eq (pos : Fin size) : bitOffset pos = pos.val % 64 :=
  Nat.and_two_pow_sub_one_eq_mod pos.val 6

theorem bitOffset_lt (pos : Fin size) : bitOffset pos < 64 := by
  rw [bitOffset_eq]
  omega

theorem val_wordOffset (pos : Fin size) : (wordOffset pos).val = pos.val / 64 := rfl

/-- A position is determined by its word and its bit. -/
theorem pos_eq_iff {p q : Fin size} :
    p = q ↔ wordOffset p = wordOffset q ∧ bitOffset p = bitOffset q := by
  rw [bitOffset_eq, bitOffset_eq, Fin.ext_iff, Fin.ext_iff, val_wordOffset, val_wordOffset]
  omega

theorem getBit_eq (b : Bitmap size) (pos : Fin size) :
    b.getBit pos = (b.words (wordOffset pos)).getLsbD (bitOffset pos) := by
  rw [getBit]
  generalize b.words (wordOffset pos) = x
  have hmask : x >>> bitOffset pos &&& 1#64 = if x.getLsbD (bitOffset pos) then 1#64 else 0#64 := by
    apply BitVec.eq_of_getLsbD_eq
    intro i hi
    rw [BitVec.getLsbD_and, BitVec.getLsbD_ushiftRight, BitVec.getLsbD_one]
    rcases Nat.eq_zero_or_pos i with rfl | hpos
    · split <;> simp_all
    · split <;> simp [hpos.ne', BitVec.getLsbD_one]
  rw [hmask]
  cases x.getLsbD (bitOffset pos) <;> decide

theorem getLsbD_bit (p q : Fin size) :
    (bit p).getLsbD (bitOffset q) = decide (bitOffset q = bitOffset p) := by
  have hp := bitOffset_lt p
  have hq := bitOffset_lt q
  rw [bit, BitVec.getLsbD_shiftLeft, BitVec.getLsbD_one]
  by_cases h : bitOffset q = bitOffset p
  · simp [h, hp]
  · have hsub : bitOffset q < bitOffset p ∨ bitOffset q - bitOffset p ≠ 0 := by omega
    rcases hsub with hlt | hne <;> simp_all

@[simp] theorem getBit_reset (b : Bitmap size) (pos : Fin size) : b.reset.getBit pos = false := by
  simp [getBit_eq, reset]

@[simp] theorem words_setWord_self (b : Bitmap size) (w : Fin (numWords size)) (val : BitVec 64) :
    (b.setWord w val).words w = val := update_self ..

theorem words_setWord_of_ne (b : Bitmap size) {v w : Fin (numWords size)} (h : v ≠ w) (val : BitVec 64) :
    (b.setWord w val).words v = b.words v := update_of_ne h ..

/-- The bitmap with one more position. -/
def insert (b : Bitmap size) (pos : Fin size) : Bitmap size :=
  b.setWord (wordOffset pos) (b.words (wordOffset pos) ||| bit pos)

@[simp] theorem getBit_insert (b : Bitmap size) (pos q : Fin size) :
    (b.insert pos).getBit q = (decide (q = pos) || b.getBit q) := by
  rw [insert, getBit_eq, getBit_eq]
  by_cases hw : wordOffset q = wordOffset pos
  · have heq : q = pos ↔ bitOffset q = bitOffset pos := by
      rw [pos_eq_iff]
      exact and_iff_right hw
    rw [hw, words_setWord_self, BitVec.getLsbD_or, getLsbD_bit, Bool.or_comm]
    simp only [heq]
  · have hne : q ≠ pos := fun heq => hw (heq ▸ rfl)
    rw [words_setWord_of_ne b hw, decide_eq_false hne, Bool.false_or]

/-! ## Padding -/

/-- The bits behind the last position are 0. -/
def Padded (b : Bitmap size) : Prop :=
  ∀ (w : Fin (numWords size)) (k : Nat), size ≤ 64 * w.val + k → (b.words w).getLsbD k = false

theorem padded_reset (b : Bitmap size) : b.reset.Padded := by
  intro w k _
  simp [reset]

theorem Padded.insert {b : Bitmap size} (h : b.Padded) (pos : Fin size) : (b.insert pos).Padded := by
  intro w k hk
  by_cases hw : w = wordOffset pos
  · subst hw
    have hpos := pos.isLt
    have hne : k ≠ bitOffset pos := by
      rw [val_wordOffset] at hk
      rw [bitOffset_eq]
      omega
    have hbit : (bit pos).getLsbD k = false := by
      have hlt := bitOffset_lt pos
      rw [bit, BitVec.getLsbD_shiftLeft, BitVec.getLsbD_one]
      by_cases hle : k < bitOffset pos
      · simp [hle]
      · have hsub : k - bitOffset pos ≠ 0 := by omega
        simp [hsub]
    rw [Bitmap.insert, words_setWord_self, BitVec.getLsbD_or, h _ k hk, hbit]
    rfl
  · rw [Bitmap.insert, words_setWord_of_ne b hw]
    exact h w k hk

/-- Padded bitmaps with the same positions are the same words. -/
theorem Padded.ext {b b' : Bitmap size} (h : b.Padded) (h' : b'.Padded)
    (hbits : ∀ pos, b.getBit pos = b'.getBit pos) : b = b' := by
  cases b with | mk words => cases b' with | mk words' =>
  congr 1
  funext w
  apply BitVec.eq_of_getLsbD_eq
  intro k hk
  by_cases hpos : 64 * w.val + k < size
  · -- a bit in front of the padding is a position
    let pos : Fin size := ⟨64 * w.val + k, hpos⟩
    have hw : wordOffset pos = w := by
      apply Fin.ext
      rw [val_wordOffset]
      show (64 * w.val + k) / 64 = w.val
      omega
    have hoffset : bitOffset pos = k := by
      rw [bitOffset_eq]
      show (64 * w.val + k) % 64 = k
      omega
    have hbit := hbits pos
    rw [getBit_eq, getBit_eq, hw, hoffset] at hbit
    exact hbit
  · have hzero := h w k (not_lt.mp hpos)
    have hzero' := h' w k (not_lt.mp hpos)
    exact hzero.trans hzero'.symm

/-! ## Setting bits -/

/-- `set_bit` is safe when no other thread writes the same word. -/
theorem setBit_wp (pos : Fin size) (b : Bitmap size) :
    WP (Γ := Unit) (fun σ τ => τ.1.words (wordOffset pos) = σ.1.words (wordOffset pos))
      (fun σ τ => τ.1 = σ.1.insert pos) (fun _ σ => σ.1.getBit pos = true) (setBit pos) (b, ()) := by
  apply WP.load_bind (P := fun _ => True) trivial fun _ _ _ _ => trivial
  intro b _ _
  apply WP.store (P := fun σ => σ.1.words (wordOffset pos) = b.words (wordOffset pos)) rfl
    fun σ τ hσ hR => hR.trans hσ
  · intro _ σ τ hσ hR
    rwa [getBit_eq, hR, ← getBit_eq]
  · intro c _ hc
    change c.words (wordOffset pos) = b.words (wordOffset pos) at hc
    have hinsert : c.setWord (wordOffset pos) (b.words (wordOffset pos) ||| bit pos) = c.insert pos := by
      rw [insert, hc]
    refine ⟨(), .inr hinsert, ?_⟩
    show (c.setWord _ _).getBit pos = true
    rw [hinsert]
    simp

/-- What setting bits does to the words. -/
def Grows (b b' : Bitmap size) : Prop :=
  ∀ w k, (b.words w).getLsbD k = true → (b'.words w).getLsbD k = true

theorem Grows.getBit {b b' : Bitmap size} (h : Grows b b') {pos : Fin size}
    (hpos : b.getBit pos = true) : b'.getBit pos = true := by
  rw [getBit_eq] at hpos ⊢
  exact h _ _ hpos

theorem grows_insert (b : Bitmap size) (pos : Fin size) : Grows b (b.insert pos) := by
  intro w k hk
  by_cases hw : w = wordOffset pos
  · subst hw
    rw [insert, words_setWord_self, BitVec.getLsbD_or, hk, Bool.true_or]
  · rwa [insert, words_setWord_of_ne b hw]

/-- The number of bits of a word that are not set. -/
def unset (x : BitVec 64) : Nat := (Finset.univ.filter fun k : Fin 64 => x.getLsbD k = false).card

theorem unset_le {x y : BitVec 64} (h : ∀ k, x.getLsbD k = true → y.getLsbD k = true) :
    unset y ≤ unset x := by
  apply Finset.card_le_card
  intro k hk
  rw [Finset.mem_filter] at hk ⊢
  exact ⟨hk.1, Bool.eq_false_iff.mpr fun hx => Bool.eq_false_iff.mp hk.2 (h k hx)⟩

theorem unset_lt {x y : BitVec 64} (h : ∀ k, x.getLsbD k = true → y.getLsbD k = true)
    (hne : x ≠ y) : unset y < unset x := by
  apply Finset.card_lt_card
  rw [Finset.ssubset_iff_subset_ne]
  refine ⟨fun k hk => ?_, fun heq => hne (BitVec.eq_of_getLsbD_eq fun k hk => ?_)⟩
  · rw [Finset.mem_filter] at hk ⊢
    exact ⟨hk.1, Bool.eq_false_iff.mpr fun hx => Bool.eq_false_iff.mp hk.2 (h k hx)⟩
  · have hiff := Finset.ext_iff.mp heq ⟨k, hk⟩
    simp only [Finset.mem_filter, Finset.mem_univ, true_and] at hiff
    cases hx : x.getLsbD k <;> cases hy : y.getLsbD k <;> simp_all

/-- `set_bit_atomic` terminates whatever bits the others set: a failed attempt has seen the word
grow. -/
theorem setBitAtomic_wp (pos : Fin size) (b : Bitmap size) :
    WP (Γ := Unit) (fun σ τ => Grows σ.1 τ.1) (fun σ τ => τ.1 = σ.1.insert pos)
      (fun _ σ => σ.1.getBit pos = true) (setBitAtomic pos) (b, ()) := by
  have hpost : Stable (fun σ τ : Bitmap size × Unit => Grows σ.1 τ.1) fun σ => σ.1.getBit pos = true :=
    fun _ _ hσ hR => hR.getBit hσ
  apply WP.iter (fun _ _ => True) (fun _ τ => unset (τ.1.words (wordOffset pos))) trivial
    (fun _ _ _ _ _ => trivial) fun _ => hpost
  · exact fun _ τ υ _ hR => unset_le (hR _)
  · rintro ⟨⟩ τ -
    apply WP.load_bind (P := fun υ => Grows τ.1 υ.1) (fun _ _ hk => hk)
      fun _ _ hσ hR w k hk => hR w k (hσ w k hk)
    intro c _ hc
    have hle : unset (c.words (wordOffset pos)) ≤ _ := unset_le (hc (wordOffset pos))
    apply WP.op_bind (P := fun υ => Grows c υ.1) (fun _ _ hk => hk)
      fun _ _ hσ hR w k hk => hR w k (hσ w k hk)
    intro d _ hd
    by_cases heq : d.words (wordOffset pos) = c.words (wordOffset pos)
    · refine ⟨true, d.insert pos, (), ?_, .inr rfl, ?_⟩
      · rw [if_pos heq, insert, heq]
      · apply WP.ret _ hpost
        show (d.insert pos).getBit pos = true
        simp
    · refine ⟨false, d, (), if_neg heq, .inl rfl, ?_⟩
      have hlt : unset (d.words (wordOffset pos)) < _ :=
        unset_lt (hd (wordOffset pos)) (Ne.symm heq)
      refine WP.ret ⟨trivial, hlt.trans_le hle⟩ ?_
      exact fun _ _ hσ hR => ⟨trivial, (unset_le (hR _)).trans_lt hσ.2⟩

end Bitmap

end Gapbs
