import Mathlib.Data.List.Basic
import Mathlib.Data.List.Perm.Basic
import Mathlib.Data.Fintype.Card
import Mathlib.Order.Defs.LinearOrder

/-!
# Raw arrays

An array fresh from the allocator is a list of optional values: a slot is `none` until it is
written.  Algorithms address it by ranges of slots.
-/

namespace RawArray

variable {α β : Type}

/-- The slots from `lo` up to `hi`. -/
def slice (l : List α) (lo hi : Nat) : List α := (l.drop lo).take (hi - lo)

/-- Overwrite the slots from `lo` on by `xs`. -/
def write (l : List α) (lo : Nat) (xs : List α) : List α :=
  l.take lo ++ xs ++ l.drop (lo + xs.length)

/-- The values in initialised slots. -/
def values : List (Option α) → Option (List α)
  | [] => some []
  | none :: _ => none
  | some a :: l => (values l).map (a :: ·)

@[simp] theorem values_map_some (l : List α) : values (l.map some) = some l := by
  induction l with
  | nil => rfl
  | cons a l ih => simp [values, ih]

/-- `push_back` on a vector of which iterators are live: one that outgrows the reserved capacity
would leave them dangling. -/
def pushReserved (capacity : Nat) (l : List α) (x : α) : Option (List α) :=
  if l.length < capacity then some (l ++ [x]) else none

/-- Distinct numbers below `n` fit in a capacity of `n`. -/
theorem pushReserved_of_nodup {n : Nat} {l : List (Fin n)} {x : Fin n} (h : (l ++ [x]).Nodup) :
    pushReserved n l x = some (l ++ [x]) := by
  have hlen := h.length_le_card
  rw [List.length_append, List.length_singleton, Fintype.card_fin] at hlen
  exact if_pos hlen

theorem getElem?_slice (l : List α) (lo hi i : Nat) :
    (slice l lo hi)[i]? = if i < hi - lo then l[lo + i]? else none := by
  rw [slice, List.getElem?_take, List.getElem?_drop]

theorem length_slice {l : List α} {lo hi : Nat} (hhi : hi ≤ l.length) :
    (slice l lo hi).length = hi - lo := by
  rw [slice, List.length_take, List.length_drop]
  omega

@[simp] theorem length_write {l xs : List α} {lo : Nat} (h : lo + xs.length ≤ l.length) :
    (write l lo xs).length = l.length := by
  simp only [write, List.length_append, List.length_take, List.length_drop]
  omega

/-- What is written is read back. -/
theorem getElem?_write {l xs : List α} {lo : Nat} (h : lo + xs.length ≤ l.length) {i : Nat}
    (hi : i < xs.length) : (write l lo xs)[lo + i]? = xs[i]? := by
  have hlen : (l.take lo).length = lo := by
    rw [List.length_take]
    omega
  rw [write, List.append_assoc, List.getElem?_append_right (by omega), hlen, Nat.add_sub_cancel_left,
    List.getElem?_append_left hi]

/-- Slots outside the range keep their contents. -/
theorem getElem?_write_of_outside {l xs : List α} {lo : Nat} (h : lo + xs.length ≤ l.length) {i : Nat}
    (hi : i < lo ∨ lo + xs.length ≤ i) : (write l lo xs)[i]? = l[i]? := by
  have hlen : (l.take lo ++ xs).length = lo + xs.length := by
    rw [List.length_append, List.length_take]
    omega
  rcases hi with hi | hi
  · have htake : i < (l.take lo).length := by
      rw [List.length_take]
      omega
    rw [write, List.append_assoc, List.getElem?_append_left htake, List.getElem?_take, if_pos hi]
  · rw [write, List.getElem?_append_right (by omega), hlen, List.getElem?_drop]
    congr 1
    omega

/-- A range is determined by the contents of its slots. -/
theorem slice_eq_of_getElem? {l xs : List α} {lo hi : Nat} (hlen : xs.length = hi - lo)
    (h : ∀ i, i < xs.length → l[lo + i]? = xs[i]?) : slice l lo hi = xs := by
  apply List.ext_getElem?
  intro i
  rw [getElem?_slice]
  by_cases hi : i < xs.length
  · rw [if_pos (by omega), h i hi]
  · rw [if_neg (by omega), List.getElem?_eq_none (by omega)]

/-- A range that has been overwritten holds what was written. -/
theorem slice_write {l xs : List α} {lo : Nat} (h : lo + xs.length ≤ l.length) :
    slice (write l lo xs) lo (lo + xs.length) = xs := by
  apply slice_eq_of_getElem? (by omega)
  exact fun i hi => getElem?_write h hi

/-- A range keeps its contents when all its slots do. -/
theorem slice_congr {l l' : List α} {lo hi : Nat}
    (h : ∀ k, lo ≤ k → k < hi → l'[k]? = l[k]?) : slice l' lo hi = slice l lo hi := by
  apply List.ext_getElem?
  intro i
  rw [getElem?_slice, getElem?_slice]
  by_cases hi' : i < hi - lo
  · rw [if_pos hi', if_pos hi', h (lo + i) (by omega) (by omega)]
  · rw [if_neg hi', if_neg hi']

/-- A range grows downwards by one slot. -/
theorem slice_set_pred {l : List α} {lo hi : Nat} {x : α} (hlo : lo < hi) (hhi : lo < l.length) :
    slice (l.set lo x) lo hi = x :: slice l (lo + 1) hi := by
  have hlen : lo < (l.set lo x).length := by rwa [List.length_set]
  have hcons : hi - lo = (hi - (lo + 1)) + 1 := by omega
  rw [slice, List.drop_eq_getElem_cons hlen, List.getElem_set_self,
    List.drop_set_of_lt (Nat.lt_succ_self lo), hcons, List.take_succ_cons, slice]

/-- A range grows upwards by one slot. -/
theorem slice_set_succ {l : List α} {lo hi : Nat} {x : α} (hlo : lo ≤ hi) (hhi : hi < l.length) :
    slice (l.set hi x) lo (hi + 1) = slice l lo hi ++ [x] := by
  have hlen : (slice l lo hi).length = hi - lo := length_slice (Nat.le_of_lt hhi)
  apply slice_eq_of_getElem?
  · rw [List.length_append, hlen, List.length_singleton]
    omega
  · intro i hi'
    rw [List.length_append, hlen, List.length_singleton] at hi'
    by_cases hlast : lo + i = hi
    · rw [hlast, List.getElem?_set_self hhi, List.getElem?_append_right (by omega), hlen,
        show i - (hi - lo) = 0 by omega]
      rfl
    · rw [List.getElem?_set_ne (Ne.symm hlast), List.getElem?_append_left (by omega), getElem?_slice,
        if_pos (by omega)]

theorem slice_map (f : α → β) (l : List α) (lo hi : Nat) :
    slice (l.map f) lo hi = (slice l lo hi).map f := by
  simp [slice, List.map_take, List.map_drop]

/-- An array whose slots are all written holds the list of their values. -/
theorem exists_eq_map_some {l : List (Option α)} (h : ∀ k < l.length, ∃ a, l[k]? = some (some a)) :
    ∃ xs : List α, l = xs.map some := by
  induction l with
  | nil => exact ⟨[], rfl⟩
  | cons x l ih =>
    obtain ⟨a, ha⟩ := h 0 (by simp)
    obtain ⟨xs, hxs⟩ := ih fun k hk => by
      obtain ⟨b, hb⟩ := h (k + 1) (by simpa using hk)
      exact ⟨b, by simpa using hb⟩
    have hx : x = some a := by simpa using ha
    exact ⟨a :: xs, by rw [hx, hxs, List.map_cons]⟩

/-- Overwrite the front of the range from `lo` up to `hi` by what `f` makes of its contents, as the
algorithms of the standard library do that work in place. -/
def modifyRange (f : List α → List α) (lo hi : Nat) (l : List α) : Option (List α) :=
  if lo ≤ hi ∧ hi ≤ l.length then some (write l lo (f (slice l lo hi))) else none

theorem modifyRange_eq {f : List α → List α} {lo hi : Nat} {l xs : List α} (hlo : lo ≤ hi)
    (hhi : hi ≤ l.length) (h : slice l lo hi = xs) :
    modifyRange f lo hi l = some (write l lo (f xs)) := by
  rw [modifyRange, if_pos ⟨hlo, hhi⟩, h]

/-- `std::sort` on the slots from `lo` up to `hi`; it reads initialised slots of the array only. -/
def sortRange (le : α → α → Bool) (lo hi : Nat) (l : List (Option α)) :
    Option (List (Option α)) :=
  if lo ≤ hi ∧ hi ≤ l.length then
    (values (slice l lo hi)).map fun xs => write l lo ((xs.mergeSort le).map some)
  else none

theorem sortRange_eq {le : α → α → Bool} {lo hi : Nat} {l : List (Option α)} {xs : List α}
    (hlo : lo ≤ hi) (hhi : hi ≤ l.length) (h : slice l lo hi = xs.map some) :
    sortRange le lo hi l = some (write l lo ((xs.mergeSort le).map some)) := by
  rw [sortRange, if_pos ⟨hlo, hhi⟩, h, values_map_some]
  rfl

/-- Sorting distinct elements puts them in strictly increasing order. -/
theorem sorted_mergeSort [LinearOrder α] {l : List α} (h : l.Nodup) :
    (l.mergeSort fun a b => decide (a ≤ b)).Pairwise (· < ·) := by
  have hsorted : (l.mergeSort fun a b => decide (a ≤ b)).Pairwise (fun a b => decide (a ≤ b)) := by
    apply List.pairwise_mergeSort
    · intro a b c hab hbc
      exact decide_eq_true (le_trans (of_decide_eq_true hab) (of_decide_eq_true hbc))
    · intro a b
      simpa using le_total a b
  have hnodup : (l.mergeSort fun a b => decide (a ≤ b)).Nodup :=
    (List.mergeSort_perm l _).nodup_iff.mpr h
  refine (hsorted.and hnodup).imp fun {a b} hab => ?_
  exact lt_of_le_of_ne (of_decide_eq_true hab.1) hab.2

end RawArray
