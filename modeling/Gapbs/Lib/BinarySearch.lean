import Mathlib.Data.List.Basic
import Mathlib.Order.Lattice.Nat

/-!
# Binary search

The halving search for the first element that is not below a key.  It needs no sorted list: its answer
is exact as soon as the elements below the key come before the others, and those up to it do.
-/

namespace BinarySearch

variable {α : Type} [LinearOrder α]

/-- The elements below the key come first, and so do the elements up to it. -/
def Partitioned (key : α) (xs : List α) : Prop :=
  xs.Pairwise fun a b => (b < key → a < key) ∧ (b ≤ key → a ≤ key)

instance (key : α) (xs : List α) : Decidable (Partitioned key xs) := by
  unfold Partitioned
  infer_instance

/-- Elements below the key in front of a sorted list: not sorted, but partitioned by the key. -/
theorem partitioned_append {key : α} {front xs : List α} (hfront : ∀ a ∈ front, a < key)
    (hxs : xs.Pairwise (· < ·)) : Partitioned key (front ++ xs) := by
  unfold Partitioned
  rw [List.pairwise_append]
  refine ⟨?_, ?_, fun a ha b _ => ⟨fun _ => hfront a ha, fun _ => (hfront a ha).le⟩⟩
  · apply List.pairwise_of_forall_mem_list
    exact fun a ha b _ => ⟨fun _ => hfront a ha, fun _ => (hfront a ha).le⟩
  · exact hxs.imp fun hab => ⟨fun hb => hab.trans hb, fun hb => (hab.trans_le hb).le⟩

/-- The search among the `len` elements from `first` on. -/
def lowerBoundLoop (key : α) (xs : List α) : Nat → Nat → Nat → Nat
  | 0, first, _ => first
  | fuel + 1, first, len =>
    if len = 0 then first
    else
      let half := len / 2
      match xs[first + half]? with
      | none => first
      | some mid =>
        if mid < key then lowerBoundLoop key xs fuel (first + half + 1) (len - half - 1)
        else lowerBoundLoop key xs fuel first half

/-- The position of the first element that is not below the key, or the end. -/
def lowerBound (key : α) (xs : List α) : Nat := lowerBoundLoop key xs xs.length 0 xs.length

/-- Whether the element at the lower bound is the key. -/
def search (key : α) (xs : List α) : Bool :=
  match xs[lowerBound key xs]? with
  | none => false
  | some x => !decide (key < x)

/-- `first` separates the elements below the key from the others. -/
structure Separates (key : α) (xs : List α) (first : Nat) : Prop where
  below : ∀ i (hi : i < xs.length), i < first → xs[i] < key
  above : ∀ i (hi : i < xs.length), first ≤ i → key ≤ xs[i]

theorem Partitioned.lt_of_lt {key : α} {xs : List α} (h : Partitioned key xs) {i j : Nat} (hij : i ≤ j)
    (hj : j < xs.length) (hlt : xs[j] < key) : xs[i] < key := by
  rcases Nat.eq_or_lt_of_le hij with heq | hlt'
  · subst heq
    exact hlt
  · exact (List.pairwise_iff_getElem.mp h i j (hij.trans_lt hj) hj hlt').1 hlt

theorem Partitioned.le_of_le {key : α} {xs : List α} (h : Partitioned key xs) {i j : Nat} (hij : i ≤ j)
    (hj : j < xs.length) (hle : xs[j] ≤ key) : xs[i] ≤ key := by
  rcases Nat.eq_or_lt_of_le hij with heq | hlt'
  · subst heq
    exact hle
  · exact (List.pairwise_iff_getElem.mp h i j (hij.trans_lt hj) hj hlt').2 hle

/-- The loop narrows the elements down whose side is not known yet. -/
theorem lowerBoundLoop_separates {key : α} {xs : List α} (h : Partitioned key xs) {fuel first len : Nat}
    (hfuel : len ≤ fuel) (hend : first + len ≤ xs.length)
    (hbelow : ∀ i (hi : i < xs.length), i < first → xs[i] < key)
    (habove : ∀ i (hi : i < xs.length), first + len ≤ i → key ≤ xs[i]) :
    Separates key xs (lowerBoundLoop key xs fuel first len) := by
  induction fuel generalizing first len with
  | zero =>
    obtain rfl : len = 0 := by omega
    exact ⟨hbelow, habove⟩
  | succ fuel ih =>
    rw [lowerBoundLoop]
    by_cases hlen : len = 0
    · subst hlen
      rw [if_pos rfl]
      exact ⟨hbelow, habove⟩
    · rw [if_neg hlen]
      have hmid : first + len / 2 < xs.length := by omega
      simp only [List.getElem?_eq_getElem hmid]
      by_cases hlt : xs[first + len / 2] < key
      -- the middle and all elements in front of it are below the key
      · rw [if_pos hlt]
        apply ih
        · omega
        · omega
        · intro i hi hifirst
          exact h.lt_of_lt (by omega) hmid hlt
        · intro i hi hiend
          exact habove i hi (by omega)
      -- the middle and all elements behind it are not
      · rw [if_neg hlt]
        apply ih
        · omega
        · omega
        · exact hbelow
        · intro i hi hiend
          by_contra hkey
          exact hlt (h.lt_of_lt hiend hi (not_le.mp hkey))

theorem lowerBound_separates {key : α} {xs : List α} (h : Partitioned key xs) :
    Separates key xs (lowerBound key xs) := by
  apply lowerBoundLoop_separates h le_rfl (by omega)
  · exact fun i _ hi => absurd hi (Nat.not_lt_zero i)
  · exact fun i hi hend => absurd hi (by omega)

/-- On a partitioned list the answer is exact. -/
theorem search_eq {key : α} {xs : List α} (h : Partitioned key xs) :
    search key xs = decide (key ∈ xs) := by
  have hsep := lowerBound_separates h
  have hiff : search key xs = true ↔ key ∈ xs := by
    rw [search]
    constructor
    · intro hfound
      by_cases hlt : lowerBound key xs < xs.length
      · simp only [List.getElem?_eq_getElem hlt, Bool.not_eq_true', decide_eq_false_iff_not, not_lt]
          at hfound
        have heq : xs[lowerBound key xs] = key := le_antisymm hfound (hsep.above _ hlt le_rfl)
        rw [← heq]
        exact List.getElem_mem hlt
      · simp [List.getElem?_eq_none (not_lt.mp hlt)] at hfound
    · intro hmem
      obtain ⟨i, hi, heq⟩ := List.getElem_of_mem hmem
      have hle : lowerBound key xs ≤ i := by
        by_contra hlt
        exact absurd heq (hsep.below i hi (not_le.mp hlt)).ne
      have hlt : lowerBound key xs < xs.length := hle.trans_lt hi
      simp only [List.getElem?_eq_getElem hlt, Bool.not_eq_true', decide_eq_false_iff_not, not_lt]
      exact h.le_of_le hle hi heq.le
  rw [Bool.eq_iff_iff, hiff, decide_eq_true_iff]

end BinarySearch
