import Mathlib.Logic.Function.Basic
import Mathlib.Algebra.Group.Nat.Defs
import Mathlib.Algebra.Group.Int.Defs
import Gapbs.Lib.RawArray

/-!
# Arrays on the heap

Separately allocated arrays and pointers into them.  Arithmetic on pointers is defined within one array
and just behind its last cell; a cell is `none` until it is written.
-/

namespace BlockHeap

open Function RawArray

variable {E : Type}

/-- The arrays by their numbers; the numbers from `next` on have not been used. -/
structure Heap (E : Type) where
  blocks : Nat → Option (List (Option E))
  next : Nat

/-- A cell of an array, or the place behind the last one. -/
structure Place where
  block : Nat
  offset : Nat
deriving DecidableEq

/-- `none` is the null pointer. -/
abbrev Ptr := Option Place

/-- The difference of two pointers as a size, which wraps around when it is negative. -/
def diffSize (d : Int) : Nat := (d % 2 ^ 64).toNat

/-- `q - p` -/
def ptrDiff (q p : Ptr) : Option Int :=
  match q, p with
  | none, none => some 0
  | some b, some a => if b.block = a.block then some (b.offset - a.offset) else none
  | _, _ => none

namespace Heap

/-- No array has been allocated. -/
def empty : Heap E := ⟨fun _ => none, 0⟩

/-- Array `b` is replaced. -/
def put (h : Heap E) (b : Nat) (cells : Option (List (Option E))) : Heap E :=
  { h with blocks := update h.blocks b cells }

/-- `new E[count]`, which throws when `fits` does, and in any case when the size of the array could not
be told from its pointers. -/
def new (fits : Heap E → Nat → Bool) (count : Nat) (h : Heap E) : Option (Ptr × Heap E) :=
  if count < 2 ^ 63 ∧ fits h count = true then
    some (some ⟨h.next, 0⟩,
      ⟨update h.blocks h.next (some (List.replicate count none)), h.next + 1⟩)
  else none

/-- `delete[] p` -/
def delete (p : Ptr) (h : Heap E) : Option (Heap E) :=
  match p with
  | none => some h
  | some a => if a.offset = 0 ∧ (h.blocks a.block).isSome then some (h.put a.block none) else none

/-- `p + k` -/
def add (h : Heap E) (p : Ptr) (k : Nat) : Option Ptr :=
  match p with
  | none => if k = 0 then some none else none
  | some a => (h.blocks a.block).bind fun cells =>
      if a.offset + k ≤ cells.length then some (some ⟨a.block, a.offset + k⟩) else none

/-- `*p`, which need not have been written. -/
def read (h : Heap E) (p : Ptr) : Option (Option E) :=
  p.bind fun a => (h.blocks a.block).bind fun cells => cells[a.offset]?

/-- `*p = x` -/
def write (p : Ptr) (x : Option E) (h : Heap E) : Option (Heap E) :=
  p.bind fun a => (h.blocks a.block).bind fun cells =>
    if a.offset < cells.length then some (h.put a.block (some (cells.set a.offset x))) else none

/-- What stands from `p` up to `q`. -/
def range (h : Heap E) (p q : Ptr) : Option (List (Option E)) :=
  match p, q with
  | none, none => some []
  | some a, some b => (h.blocks a.block).bind fun cells =>
      if b.block = a.block ∧ a.offset ≤ b.offset ∧ b.offset ≤ cells.length then
        some (slice cells a.offset b.offset)
      else none
  | _, _ => none

section

variable {h : Heap E} {b : Nat} {cells : List (Option E)}

@[simp] theorem put_self (c : Option (List (Option E))) : (h.put b c).blocks b = c := update_self ..

theorem put_of_ne {b' : Nat} (hb : b' ≠ b) (c : Option (List (Option E))) :
    (h.put b c).blocks b' = h.blocks b' := update_of_ne hb ..

@[simp] theorem put_put (c d : Option (List (Option E))) : (h.put b c).put b d = h.put b d := by
  simp [put]

theorem put_eq_self (hb : h.blocks b = some cells) : h.put b (some cells) = h := by
  rw [put, ← hb, update_eq_self]

theorem add_eq (hb : h.blocks b = some cells) {i k : Nat} (hk : i + k ≤ cells.length) :
    h.add (some ⟨b, i⟩) k = some (some ⟨b, i + k⟩) := by
  simp [add, hb, hk]

theorem read_eq (hb : h.blocks b = some cells) (i : Nat) : h.read (some ⟨b, i⟩) = cells[i]? := by
  simp [read, hb]

theorem write_eq (hb : h.blocks b = some cells) {i : Nat} (hi : i < cells.length) (x : Option E) :
    write (some ⟨b, i⟩) x h = some (h.put b (some (cells.set i x))) := by
  simp [write, hb, hi]

theorem delete_eq (hb : h.blocks b = some cells) : delete (some ⟨b, 0⟩) h = some (h.put b none) := by
  simp [delete, hb]

theorem range_eq (hb : h.blocks b = some cells) {i j : Nat} (hij : i ≤ j) (hj : j ≤ cells.length) :
    h.range (some ⟨b, i⟩) (some ⟨b, j⟩) = some (slice cells i j) := by
  simp [range, hb, hij, hj]

end

/-! ## Heaps as the operations leave them -/

/-- Unused numbers have no array, and every array is small enough. -/
structure Ok (h : Heap E) : Prop where
  fresh : ∀ b, h.next ≤ b → h.blocks b = none
  small : ∀ b cells, h.blocks b = some cells → cells.length < 2 ^ 63

theorem ok_empty : Ok (empty : Heap E) := ⟨fun _ _ => rfl, nofun⟩

theorem Ok.lt_next {h : Heap E} (hh : h.Ok) {b : Nat} {cells : List (Option E)}
    (hb : h.blocks b = some cells) : b < h.next := by
  by_contra hle
  rw [hh.fresh b (Nat.not_lt.mp hle)] at hb
  cases hb

theorem Ok.put {h : Heap E} (hh : h.Ok) {b : Nat} (hb : b < h.next) {c : Option (List (Option E))}
    (hc : ∀ cells, c = some cells → cells.length < 2 ^ 63) : (h.put b c).Ok := by
  refine ⟨fun b' hle => ?_, fun b' cells hcells => ?_⟩
  · rw [put_of_ne (by exact fun heq => by subst heq; exact absurd hb (Nat.not_lt.mpr hle))]
    exact hh.fresh b' hle
  · by_cases heq : b' = b
    · subst heq
      rw [put_self] at hcells
      exact hc cells hcells
    · rw [put_of_ne heq] at hcells
      exact hh.small b' cells hcells

/-- What an allocation gives. -/
theorem Ok.new {h h' : Heap E} (hh : h.Ok) {fits : Heap E → Nat → Bool} {count : Nat} {p : Ptr}
    (hnew : Heap.new fits count h = some (p, h')) :
    p = some ⟨h.next, 0⟩ ∧ h'.Ok ∧ h'.blocks h.next = some (List.replicate count none) ∧
      ∀ b, b ≠ h.next → h'.blocks b = h.blocks b := by
  unfold Heap.new at hnew
  split at hnew
  · next hfits =>
    rw [Option.some_inj, Prod.mk.injEq] at hnew
    obtain ⟨rfl, rfl⟩ := hnew
    refine ⟨rfl, ⟨fun b hle => ?_, fun b cells hcells => ?_⟩, update_self ..,
      fun b hb => update_of_ne hb ..⟩
    · show update h.blocks h.next _ b = none
      rw [update_of_ne (by exact fun heq => by subst heq; exact absurd hle (Nat.not_succ_le_self _))]
      exact hh.fresh b (Nat.le_of_succ_le hle)
    · change update h.blocks h.next _ b = some cells at hcells
      by_cases heq : b = h.next
      · subst heq
        rw [update_self, Option.some_inj] at hcells
        rw [← hcells, List.length_replicate]
        exact hfits.1
      · rw [update_of_ne heq] at hcells
        exact hh.small b cells hcells
  · cases hnew

end Heap

theorem ptrDiff_eq (b i j : Nat) : ptrDiff (some ⟨b, j⟩) (some ⟨b, i⟩) = some ((j : Int) - i) := by
  simp [ptrDiff]

/-- Sizes of arrays do not wrap around. -/
theorem diffSize_eq {k : Nat} (hk : k < 2 ^ 64) : diffSize k = k := by
  unfold diffSize
  omega

end BlockHeap
