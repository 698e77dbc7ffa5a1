import Mathlib.Data.Set.Insert
import Gapbs.Conc.Throughout
import Gapbs.Mem.Bitmap

/-!
# The words of a bitmap

`Bitmap` of `bitmap.h` on the array that its constructor allocates: every access is checked against
the end of the array, and sizes and positions are 64-bit numbers.
-/

namespace Gapbs

open Conc Function

/-! ## Threads that set bits -/

namespace Bitmap

variable {size T : Nat}

/-- Every thread calls `set_bit_atomic` for one position after the other. -/
def setAll (work : Fin T → List (Fin size)) : Prog (Bitmap size) (Fin T → Unit) :=
  .fork fun t => .forEach (work t) () fun pos _ => setBitAtomic pos

/-- A step of the threads: nothing, or one more of the positions. -/
def SetStep (work : Fin T → List (Fin size)) (b b' : Bitmap size) : Prop :=
  b' = b ∨ ∃ t, ∃ pos ∈ work t, b' = b.insert pos

theorem setAll_within (work : Fin T → List (Fin size)) (b : Bitmap size) :
    Within (SetStep work) (setAll work) b fun _ b' =>
      ∀ q, b'.getBit q = true ↔ b.getBit q = true ∨ ∃ t, q ∈ work t := by
  let Act (t : Fin T) (σ τ : Bitmap size × Unit) : Prop := ∃ pos ∈ work t, τ.1 = σ.1.insert pos
  let Done (l : List (Fin size)) (_ : Unit) (σ : Bitmap size × Unit) : Prop :=
    ∀ pos ∈ l, σ.1.getBit pos = true
  let Between (σ : Bitmap size × Unit) : Prop := ∀ q, (b.getBit q = true → σ.1.getBit q = true) ∧
    (σ.1.getBit q = true → b.getBit q = true ∨ ∃ t, q ∈ work t)
  have hgrows (t : Fin T) (σ τ : Bitmap size × Unit) (h : Rely Act t σ τ) : Grows σ.1 τ.1 := by
    obtain ⟨_, _, pos, _, heq⟩ := h
    rw [heq]
    exact grows_insert σ.1 pos
  have hstable (t : Fin T) (l : List (Fin size)) (x : Unit) : Stable (Rely Act t) (Done l x) :=
    fun σ τ hσ hR pos hpos => (hgrows t σ τ hR).getBit (hσ pos hpos)
  have hthread (t : Fin T) : WP (Rely Act t) (Act t) (Done (work t))
      (.forEach (work t) () fun pos _ => setBitAtomic pos) (b, ()) := by
    apply WP.forEach Done (by simp [Done]) (hstable t)
    intro pre pos post _ σ hwork hpre
    have hcall := (setBitAtomic_wp pos σ.1).weaken (hgrows t)
      (V := Act t) fun σ τ h => ⟨pos, by simp [hwork], h⟩
    -- the bits that the thread has set before stay set while it sets this one
    refine (hcall.frame (P := Done pre ()) hpre (hstable t pre ()) ?_).mono ?_
    · rintro σ τ hσ ⟨q, _, heq⟩ p hp
      rw [heq, getBit_insert, hσ p hp, Bool.or_true]
    · rintro _ σ ⟨hpos, hpre⟩ p hp
      rcases List.mem_append.mp hp with hp | hp
      · exact hpre p hp
      · rw [List.mem_singleton.mp hp]
        exact hpos
  refine (Within.fork (fun b => .inl rfl) Act (fun t => Done (work t)) Between ()
    (fun q => ⟨id, .inl⟩) hthread ?_).mono ?_
  · rintro t σ τ hσ ⟨pos, hpos, heq⟩
    refine ⟨fun q => ?_, .inr ⟨t, pos, hpos, heq⟩⟩
    obtain ⟨hkept, hfrom⟩ := hσ q
    rw [heq, getBit_insert]
    by_cases hq : q = pos
    · subst hq
      simp only [decide_true, Bool.true_or, true_implies]
      exact ⟨fun _ => trivial, .inr ⟨t, hpos⟩⟩
    · simp only [hq, decide_false, Bool.false_or]
      exact ⟨hkept, hfrom⟩
  · rintro _ b' ⟨_, hbetween, hdone⟩ q
    refine ⟨(hbetween q).2, ?_⟩
    rintro (hq | ⟨t, hq⟩)
    · exact (hbetween q).1 hq
    · exact hdone t q hq

end Bitmap

/-! ## The array -/

/-- A bitmap's pointers `start_` and `end_` to the words of the heap. -/
structure PackedBitmap where
  start : Nat
  stop : Nat

/-- The words of the heap. -/
abbrev HeapWords := Nat → BitVec 64

namespace PackedBitmap

/-- `num_words` of the constructor, in the arithmetic of `uint64_t` -/
def wordCount (size : BitVec 64) : Nat := ((size + 64 - 1) / 64).toNat

/-- `Bitmap(size)`, whose array is allocated at `start` -/
def new (start : Nat) (size : BitVec 64) : PackedBitmap := ⟨start, start + wordCount size⟩

def wordOffset (n : BitVec 64) : Nat := (n / 64).toNat

/-- `n & (kBitsPerWord - 1)` -/
def bitOffset (n : BitVec 64) : Nat := (n &&& (64 - 1)).toNat

/-- The word `start_[word_offset(pos)]`, which has to lie in the array. -/
def address (x : PackedBitmap) (pos : BitVec 64) : Option Nat :=
  let a := x.start + wordOffset pos
  if a < x.stop then some a else none

/-- `std::fill(start_, end_, 0)` -/
def reset (x : PackedBitmap) : Prog HeapWords Unit :=
  .forEach (List.range' x.start (x.stop - x.start)) () fun a _ => .store fun heap => update heap a 0

def getBit (x : PackedBitmap) (heap : HeapWords) (pos : BitVec 64) : Option Bool :=
  (x.address pos).map fun a => (heap a >>> bitOffset pos) &&& 1#64 != 0#64

/-- `compare_and_swap(start_[word_offset(pos)], old_val, new_val)` -/
def casWord (x : PackedBitmap) (pos oldVal newVal : BitVec 64) : Prog HeapWords Bool :=
  .op fun heap => (x.address pos).map fun a =>
    if heap a = oldVal then (true, update heap a newVal) else (false, heap)

def setBitAtomic (x : PackedBitmap) (pos : BitVec 64) : Prog HeapWords Unit :=
  .iter (fun _ => do
    let oldVal ← .loadAt fun heap => (x.address pos).map heap
    let newVal := oldVal ||| 1#64 <<< bitOffset pos
    -- fails if another thread has changed the word since it was read
    let swapped ← x.casWord pos oldVal newVal
    if swapped then return .inr () else return .inl ()) ()

/-- `x.swap(other)`: the pointers of both afterwards. -/
def swap (x other : PackedBitmap) : PackedBitmap × PackedBitmap :=
  (⟨other.start, other.stop⟩, ⟨x.start, x.stop⟩)

/-- Every thread calls `set_bit_atomic` for one position after the other. -/
def setAll {T : Nat} (x : PackedBitmap) (work : Fin T → List (BitVec 64)) :
    Prog HeapWords (Fin T → Unit) :=
  .fork fun t => .forEach (work t) () fun pos _ => x.setBitAtomic pos

/-! ## As a bitmap -/

/-- The words of the array. -/
def lens (start size : Nat) : Lens HeapWords (Bitmap size) where
  get heap := ⟨fun w => heap (start + w)⟩
  set b heap a := if h : start ≤ a ∧ a - start < numWords size then b.words ⟨a - start, h.2⟩ else heap a
  get_set b heap := by
    cases b with | mk words =>
    congr 1
    funext w
    have hw : start ≤ start + w.val ∧ start + w.val - start < numWords size := by
      have hlt := w.isLt
      omega
    exact (dif_pos hw).trans (congrArg words (Fin.ext (Nat.add_sub_cancel_left ..)))
  set_get heap := by
    funext a
    split
    · next h =>
      show heap (start + (a - start)) = heap a
      rw [Nat.add_sub_cancel' h.1]
    · rfl
  set_set b c heap := by
    funext a
    dsimp only
    split <;> rfl

theorem set_setWord {start size : Nat} (heap : HeapWords) (w : Fin (numWords size)) (val : BitVec 64) :
    (lens start size).set (((lens start size).get heap).setWord w val) heap =
      update heap (start + w) val := by
  funext a
  have hw := w.isLt
  by_cases ha : a = start + w
  · subst ha
    have hin : start ≤ start + w.val ∧ start + w.val - start < numWords size := by omega
    have hself : (⟨start + w.val - start, hin.2⟩ : Fin (numWords size)) = w :=
      Fin.ext (Nat.add_sub_cancel_left ..)
    rw [update_self]
    refine (dif_pos hin).trans ?_
    rw [hself, Bitmap.words_setWord_self]
  · rw [update_of_ne ha]
    by_cases hin : start ≤ a ∧ a - start < numWords size
    · have hne : (⟨a - start, hin.2⟩ : Fin (numWords size)) ≠ w := by
        intro heq
        have hval : a - start = w.val := congrArg Fin.val heq
        omega
      refine (dif_pos hin).trans ?_
      rw [Bitmap.words_setWord_of_ne _ hne]
      show heap (start + (a - start)) = heap a
      rw [Nat.add_sub_cancel' hin.1]
    · exact dif_neg hin

variable {start : Nat} {size : BitVec 64}

theorem wordOffset_eq (pos : BitVec 64) : wordOffset pos = pos.toNat / 64 := by
  rw [wordOffset, BitVec.toNat_udiv]
  rfl

theorem bitOffset_eq (pos : BitVec 64) : bitOffset pos = pos.toNat &&& 63 := by
  rw [bitOffset, BitVec.toNat_and]
  rfl

/-- Rounding up is exact unless it wraps around. -/
theorem wordCount_eq (h : size.toNat + 63 < 2 ^ 64) : wordCount size = numWords size.toNat := by
  have hsize : size + 64 - 1 = size + 63 := by
    rw [BitVec.sub_eq_add_neg, BitVec.add_assoc]
    rfl
  rw [wordCount, hsize, BitVec.toNat_udiv, BitVec.toNat_add, numWords]
  show (size.toNat + 63) % 2 ^ 64 / 64 = _
  rw [Nat.mod_eq_of_lt h]
  rfl

theorem wordCount_wraps (h : 2 ^ 64 ≤ size.toNat + 63) : wordCount size = 0 := by
  have hsize : size + 64 - 1 = size + 63 := by
    rw [BitVec.sub_eq_add_neg, BitVec.add_assoc]
    rfl
  have hlt := size.isLt
  rw [wordCount, hsize, BitVec.toNat_udiv, BitVec.toNat_add]
  show (size.toNat + 63) % 2 ^ 64 / 64 = 0
  omega

section

variable (h : size.toNat + 63 < 2 ^ 64)
include h

theorem address_new {pos : BitVec 64} (hpos : pos < size) :
    (new start size).address pos = some (start + Bitmap.wordOffset ⟨pos.toNat, hpos⟩) := by
  have hlt : pos.toNat < size.toNat := hpos
  have hin : start + wordOffset pos < start + wordCount size := by
    rw [wordOffset_eq, wordCount_eq h, numWords]
    omega
  refine (if_pos hin).trans ?_
  show some (start + wordOffset pos) = _
  rw [wordOffset_eq]
  rfl

theorem getBit_new (heap : HeapWords) {pos : BitVec 64} (hpos : pos < size) :
    (new start size).getBit heap pos =
      some (((lens start size.toNat).get heap).getBit ⟨pos.toNat, hpos⟩) := by
  rw [getBit, address_new h hpos, bitOffset_eq]
  rfl

theorem load_new {pos : BitVec 64} (hpos : pos < size) :
    (.loadAt fun heap => ((new start size).address pos).map heap : Prog HeapWords (BitVec 64)) =
      (Prog.load fun b => b.words (Bitmap.wordOffset ⟨pos.toNat, hpos⟩)).zoom
        (lens start size.toNat) := by
  refine congrArg (Prog.atomic · .ret) (funext fun heap => ?_)
  rw [address_new h hpos]
  exact congrArg (fun t => some (_, t)) ((lens start size.toNat).set_get heap).symm

theorem casWord_new {pos : BitVec 64} (hpos : pos < size) (oldVal newVal : BitVec 64) :
    (new start size).casWord pos oldVal newVal =
      (Bitmap.casWord (Bitmap.wordOffset ⟨pos.toNat, hpos⟩) oldVal newVal).zoom
        (lens start size.toNat) := by
  refine congrArg (Prog.atomic · .ret) (funext fun heap => ?_)
  rw [address_new h hpos]
  beta_reduce
  by_cases hval : heap (start + Bitmap.wordOffset ⟨pos.toNat, hpos⟩) = oldVal
  · have hget : ((lens start size.toNat).get heap).words (Bitmap.wordOffset ⟨pos.toNat, hpos⟩) =
        oldVal := hval
    rw [if_pos hget]
    refine congrArg some ((if_pos hval).trans ?_)
    exact congrArg (Prod.mk true) (set_setWord heap _ newVal).symm
  · have hget : ((lens start size.toNat).get heap).words (Bitmap.wordOffset ⟨pos.toNat, hpos⟩) ≠
        oldVal := hval
    rw [if_neg hget]
    refine congrArg some ((if_neg hval).trans ?_)
    exact congrArg (Prod.mk false) ((lens start size.toNat).set_get heap).symm

/-- A call works on the words of the array only. -/
theorem setBitAtomic_new {pos : BitVec 64} (hpos : pos < size) :
    (new start size).setBitAtomic pos =
      (Bitmap.setBitAtomic ⟨pos.toNat, hpos⟩).zoom (lens start size.toNat) := by
  show Prog.iter _ () = Prog.iter (fun _ => Prog.zoom (lens start size.toNat) (Prog.bind _ _)) ()
  congr 1
  funext _
  rw [Prog.zoom_bind, ← load_new h hpos, bitOffset_eq]
  refine congrArg (Prog.bind _) (funext fun oldVal => ?_)
  show Prog.bind _ _ = Prog.zoom (lens start size.toNat) (Prog.bind _ _)
  rw [Prog.zoom_bind, casWord_new h hpos]
  refine congrArg (Prog.bind _) (funext fun swapped => ?_)
  cases swapped <;> rfl

theorem forEach_new (l : List (BitVec 64)) (hl : ∀ q ∈ l, q < size) :
    Prog.forEach l () (fun pos _ => (new start size).setBitAtomic pos) =
      (Prog.forEach (l.pmap (fun q hq => (⟨q.toNat, hq⟩ : Fin size.toNat)) hl) () fun pos _ =>
        Bitmap.setBitAtomic pos).zoom (lens start size.toNat) := by
  induction l with
  | nil => rfl
  | cons q l ih =>
    have hq : q < size := hl q (List.mem_cons_self ..)
    show ((new start size).setBitAtomic q).bind _ =
      Prog.zoom (lens start size.toNat) ((Bitmap.setBitAtomic ⟨q.toNat, hq⟩).bind _)
    rw [Prog.zoom_bind, setBitAtomic_new h hq]
    exact congrArg (Prog.bind _) (funext fun _ => ih fun p hp => hl p (List.mem_cons_of_mem q hp))

end

/-! ## Refining a set -/

/-- `get_bit` tells which of the positions below `size` are in the set. -/
def Represents (x : PackedBitmap) (size : BitVec 64) (heap : HeapWords) (s : Set (BitVec 64)) : Prop :=
  ∀ q < size, ∃ b, x.getBit heap q = some b ∧ (b = true ↔ q ∈ s)

/-- A step of the threads: the set stays the same or gets one more of their positions. -/
def InsertStep {T : Nat} (x : PackedBitmap) (size : BitVec 64) (work : Fin T → List (BitVec 64))
    (heap heap' : HeapWords) : Prop :=
  ∀ s, x.Represents size heap s →
    x.Represents size heap' s ∨ ∃ t, ∃ q ∈ work t, x.Represents size heap' (insert q s)

theorem reset_solo (x : PackedBitmap) (heap : HeapWords) :
    Solo x.reset heap fun _ heap' =>
      ∀ a, heap' a = if x.start ≤ a ∧ a < x.stop then 0 else heap a := by
  apply (Solo.forEach (fun pre _ heap' => ∀ a, heap' a = if a ∈ pre then 0 else heap a)
    (fun a => by simp) ?_).mono
  · intro _ heap' hheap a
    rw [hheap a]
    apply if_congr _ rfl rfl
    rw [List.mem_range'_1]
    omega
  · intro pre a post _ heap' _ hpre
    apply Solo.store
    intro c
    by_cases hc : c = a
    · subst hc
      simp
    · rw [update_of_ne hc, hpre c]
      simp [hc]

theorem represents_iff (h : size.toNat + 63 < 2 ^ 64) {heap : HeapWords} {s : Set (BitVec 64)} :
    (new start size).Represents size heap s ↔
      ∀ q (hq : q < size), ((lens start size.toNat).get heap).getBit ⟨q.toNat, hq⟩ = true ↔ q ∈ s := by
  constructor
  · intro hs q hq
    obtain ⟨b, hb, hmem⟩ := hs q hq
    rw [getBit_new h heap hq, Option.some_inj] at hb
    rw [hb]
    exact hmem
  · exact fun hs q hq => ⟨_, getBit_new h heap hq, hs q hq⟩

theorem eq_of_toNat_eq {p q : BitVec 64} (hp : p < size) (hq : q < size)
    (heq : (⟨p.toNat, hp⟩ : Fin size.toNat) = ⟨q.toNat, hq⟩) : p = q :=
  BitVec.eq_of_toNat_eq (Fin.mk.inj heq)

theorem setAll_within (h : size.toNat + 63 < 2 ^ 64) {T : Nat} (work : Fin T → List (BitVec 64))
    (hwork : ∀ t, ∀ q ∈ work t, q < size) (heap : HeapWords) :
    Within (InsertStep (new start size) size work) ((new start size).setAll work) heap fun _ heap' =>
      (∀ s, (new start size).Represents size heap s →
        (new start size).Represents size heap' (s ∪ {q | ∃ t, q ∈ work t})) ∧
      ∀ a, a < start ∨ (new start size).stop ≤ a → heap' a = heap a := by
  let l := lens start size.toNat
  let work' (t : Fin T) : List (Fin size.toNat) :=
    (work t).pmap (fun q hq => ⟨q.toNat, hq⟩) (hwork t)
  have hzoom : (new start size).setAll work = (Bitmap.setAll work').zoom l :=
    congrArg Prog.fork (funext fun t => forEach_new h (work t) (hwork t))
  have hmem (t : Fin T) (q : BitVec 64) (hq : q < size) : ⟨q.toNat, hq⟩ ∈ work' t ↔ q ∈ work t := by
    rw [List.mem_pmap]
    constructor
    · rintro ⟨p, hp, heq⟩
      rwa [← eq_of_toNat_eq (hwork t p hp) hq heq]
    · exact fun hmem => ⟨q, hmem, rfl⟩
  rw [hzoom]
  have hwithin := (Bitmap.setAll_within work' (l.get heap)).zoom
  refine (WP.weaken hwithin (fun _ _ hR => hR) ?_).mono ?_
  · rintro ⟨heap, _⟩ ⟨heap', _⟩ ⟨hstep, hset⟩ s hs
    rw [represents_iff h] at hs
    rcases hstep with heq | ⟨t, pos, hpos, heq⟩
    · left
      rw [represents_iff h]
      intro q hq
      show (l.get heap').getBit _ = true ↔ _
      rw [heq]
      exact hs q hq
    · obtain ⟨p, hp, rfl⟩ := List.mem_pmap.mp hpos
      refine .inr ⟨t, p, hp, (represents_iff h).mpr fun q hq => ?_⟩
      show (l.get heap').getBit _ = true ↔ _
      rw [heq, Bitmap.getBit_insert, Bool.or_eq_true, decide_eq_true_iff, Set.mem_insert_iff]
      refine or_congr ⟨fun heq => eq_of_toNat_eq hq _ heq, fun heq => ?_⟩ (hs q hq)
      subst heq
      rfl
  · rintro _ ⟨heap', _⟩ ⟨hbits, hset⟩
    refine ⟨fun s hs => ?_, fun a ha => ?_⟩
    · rw [represents_iff h] at hs ⊢
      intro q hq
      rw [hbits ⟨q.toNat, hq⟩]
      exact or_congr (hs q hq) (exists_congr fun t => hmem t q hq)
    · have hout : ¬ (start ≤ a ∧ a - start < numWords size.toNat) := by
        rw [← wordCount_eq h]
        change a < start ∨ start + wordCount size ≤ a at ha
        omega
      have hsame : l.set (l.get heap') heap a = heap a := dif_neg hout
      rw [← hset] at hsame
      exact hsame

/-- The bitmap is a set of the positions below `size`: whatever the threads do, no access leaves the
array, every step adds at most one of their positions, and in the end it holds all of them and no other
word of the heap has changed. `swap` exchanges the sets. -/
structure RefinesSet (size : BitVec 64) : Prop where
  result : ∀ (T : Nat) (work : Fin T → List (BitVec 64)) (start : Nat) (heap : HeapWords),
    (∀ t, ∀ q ∈ work t, q < size) →
    ((new start size).reset.bind fun _ => (new start size).setAll work).Correct heap fun _ heap' =>
      (new start size).Represents size heap' {q | ∃ t, q ∈ work t} ∧
        ∀ a, a < start ∨ (new start size).stop ≤ a → heap' a = heap a
  steps : ∀ (T : Nat) (work : Fin T → List (BitVec 64)) (start : Nat) (heap : HeapWords),
    (∀ t, ∀ q ∈ work t, q < size) →
    Throughout False (InsertStep (new start size) size work) ((new start size).setAll work) heap
      fun _ _ => True
  swapped : ∀ (x other : PackedBitmap) (heap : HeapWords) (s t : Set (BitVec 64)),
    x.Represents size heap s → other.Represents size heap t →
    (x.swap other).1.Represents size heap t ∧ (x.swap other).2.Represents size heap s

theorem refinesSet_of_fits (h : size.toNat + 63 < 2 ^ 64) : RefinesSet size := by
  refine ⟨fun T work start heap hwork => ?_, fun T work start heap hwork => ?_,
    fun x y heap s t hs ht => ?_⟩
  · apply Solo.correct
    apply Solo.bind
    apply (reset_solo (new start size) heap).mono
    intro _ zeroed hzeroed
    apply (setAll_within h work hwork zeroed).solo.mono
    rintro _ heap' ⟨hbits, hrest⟩
    have hempty : (new start size).Represents size zeroed ∅ := by
      rw [represents_iff h]
      intro q hq
      have hlt : q.toNat < size.toNat := hq
      have hword : ((lens start size.toNat).get zeroed).words (Bitmap.wordOffset ⟨q.toNat, hq⟩) = 0 := by
        have hin : start ≤ start + q.toNat / 64 ∧ start + q.toNat / 64 < start + wordCount size := by
          rw [wordCount_eq h, numWords]
          omega
        exact (hzeroed _).trans (if_pos hin)
      rw [Bitmap.getBit_eq, hword]
      simp
    refine ⟨?_, fun a ha => ?_⟩
    · have hall := hbits ∅ hempty
      rwa [Set.empty_union] at hall
    · rw [hrest a ha, hzeroed a, if_neg]
      change a < start ∨ start + wordCount size ≤ a at ha
      show ¬ (start ≤ a ∧ a < start + wordCount size)
      omega
  · have hwithin := @setAll_within start size h T work hwork heap
    exact Throughout.of_within (fun _ _ hs => .inl hs) (hwithin.mono fun _ _ _ => trivial)
  · exact ⟨ht, hs⟩

/-- When rounding up wraps around, the array has no words at all. -/
theorem not_refinesSet_of_wraps (h : 2 ^ 64 ≤ size.toNat + 63) : ¬ RefinesSet size := by
  intro hrefines
  have hlt := size.isLt
  have hcorrect := hrefines.result 1 (fun _ => [0]) 0 (fun _ => 0) (by
    intro t q hq
    rw [List.mem_singleton.mp hq]
    show 0 < size.toNat
    omega)
  have hempty : new 0 size = ⟨0, 0⟩ := by
    rw [new, wordCount_wraps h]
  rw [hempty] at hcorrect
  have hfail : (setBitAtomic ⟨0, 0⟩ 0).CanFail fun _ => 0 :=
    -- the loop is entered, and the load has no word to read
    ⟨_, _, .single ⟨rfl, rfl⟩, rfl⟩
  exact (Prog.CanFail.fork (i := (0 : Fin 1)) (hfail.bind _)).not_correct hcorrect

/-- The bitmap refines a set of positions unless the number of its words wraps around. -/
theorem bitmap_correct_iff (size : BitVec 64) : RefinesSet size ↔ size.toNat + 63 < 2 ^ 64 := by
  constructor
  · intro h
    by_contra hwraps
    exact not_refinesSet_of_wraps (not_lt.mp hwraps) h
  · exact refinesSet_of_fits

/-- The largest size has no words. -/
theorem bitmap_fails_largest : ¬ RefinesSet (BitVec.allOnes 64) :=
  not_refinesSet_of_wraps (by decide)

end PackedBitmap

end Gapbs
