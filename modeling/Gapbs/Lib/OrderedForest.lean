import Mathlib.Order.WellFounded
import Mathlib.Logic.Function.Basic

/-!
# Forests whose parents are smaller

A parent function `c` with `c x ≤ x` on a well-ordered type is a forest: every chain of parents
descends to a fixed point, its root.  The file computes what the two updates of a union-find
structure, hooking a root and short-cutting a path, do to the roots.
-/

namespace OrderedForest

/-- No element is below its parent. -/
def IsForest {α : Type*} [LE α] (c : α → α) : Prop := ∀ x, c x ≤ x

/-- The end of the chain of parents of `x`. -/
def root {α : Type*} [LinearOrder α] [WellFoundedLT α] (c : α → α) (x : α) : α :=
  if c x < x then root c (c x) else x
termination_by wellFounded_lt.wrap x

section Roots

variable {α : Type*} [LinearOrder α] [WellFoundedLT α] {c d : α → α} {x y : α}

theorem root_of_fixed (h : c x = x) : root c x = x := by
  rw [root, if_neg (by simp [h])]

theorem root_parent (hc : IsForest c) (x : α) : root c (c x) = root c x := by
  rcases (hc x).lt_or_eq with h | h
  · conv_rhs => rw [root, if_pos h]
  · rw [h]

/-- A function that is constant along parents and fixes the fixed points is the root function. -/
theorem eq_root_of (hc : IsForest c) {f : α → α} (hfix : ∀ x, c x = x → f x = x)
    (hpar : ∀ x, f (c x) = f x) (x : α) : f x = root c x := by
  induction x using WellFoundedLT.induction with
  | ind x ih =>
    rcases (hc x).lt_or_eq with h | h
    · rw [← hpar, ih _ h, root_parent hc]
    · rw [hfix x h, root_of_fixed h]

theorem root_le (hc : IsForest c) (x : α) : root c x ≤ x := by
  induction x using WellFoundedLT.induction with
  | ind x ih =>
    rcases (hc x).lt_or_eq with h | h
    · rw [← root_parent hc]
      exact (ih _ h).trans h.le
    · exact (root_of_fixed h).le

theorem root_fixed (hc : IsForest c) (x : α) : c (root c x) = root c x := by
  induction x using WellFoundedLT.induction with
  | ind x ih =>
    rcases (hc x).lt_or_eq with h | h
    · rw [← root_parent hc]
      exact ih _ h
    · rw [root_of_fixed h, h]

/-- A fixed point stays one when parents only descend and roots do not change. -/
theorem fixed_of_root_eq (hd : IsForest d) (h : root d x = root c x) (hx : c x = x) : d x = x := by
  have hroot : root d x = x := h.trans (root_of_fixed hx)
  have hfix := root_fixed hd x
  rwa [hroot] at hfix

/-- Every element has the root of the first fixed point on its chain, in any relation that contains
the parent edges and is an equivalence. -/
theorem root_related (hc : IsForest c) {r : α → α → Prop} (hr : Equivalence r)
    (hpar : ∀ x, r x (c x)) (x : α) : r x (root c x) := by
  induction x using WellFoundedLT.induction with
  | ind x ih =>
    rcases (hc x).lt_or_eq with h | h
    · rw [← root_parent hc]
      exact hr.trans (hpar x) (ih _ h)
    · rw [root_of_fixed h]
      exact hr.refl x

end Roots

/-! ## Hooking and short-cutting -/

theorem isForest_update {α : Type*} [LinearOrder α] {c : α → α} {x y : α} (hc : IsForest c)
    (h : y ≤ x) : IsForest (Function.update c x y) := by
  intro z
  by_cases hz : z = x
  · subst hz
    simpa using h
  · simpa [hz] using hc z

section Updates

variable {α : Type*} [LinearOrder α] [WellFoundedLT α] {c : α → α} {x y : α}

/-- Hooking the root `x` under the smaller `y` merges the tree of `x` into that of `y`. -/
theorem root_hook (hc : IsForest c) (hx : c x = x) (hy : y < x) (z : α) :
    root (Function.update c x y) z = if root c z = x then root c y else root c z := by
  have hroot : root c y ≠ x := ((root_le hc y).trans_lt hy).ne
  symm
  refine eq_root_of (f := fun z => if root c z = x then root c y else root c z)
    (isForest_update hc hy.le) (fun z hz => ?_) (fun z => ?_) z
  · have hne : z ≠ x := by
      rintro rfl
      simp only [Function.update_self] at hz
      exact hy.ne hz
    rw [Function.update_of_ne hne] at hz
    simp only [root_of_fixed hz, hne, if_false]
  · by_cases hz : z = x
    · subst hz
      simp only [Function.update_self, root_of_fixed hx, hroot, if_false, if_true]
    · simp only [Function.update_of_ne hz, root_parent hc]

/-- Hooking never separates two elements of one tree. -/
theorem root_hook_eq (hc : IsForest c) (hx : c x = x) (hy : y < x) {z w : α}
    (h : root c z = root c w) :
    root (Function.update c x y) z = root (Function.update c x y) w := by
  rw [root_hook hc hx hy, root_hook hc hx hy, h]

/-- Replacing the parent of `x` by another element of its tree that is no larger changes no root. -/
theorem root_shortcut (hc : IsForest c) (hy : y ≤ c x) (hroot : root c y = root c x) (z : α) :
    root (Function.update c x y) z = root c z := by
  symm
  refine eq_root_of (isForest_update hc (hy.trans (hc x))) (fun z hz => ?_) (fun z => ?_) z
  · by_cases hzx : z = x
    · subst hzx
      simp only [Function.update_self] at hz
      exact root_of_fixed (le_antisymm (hc z) (hz ▸ hy))
    · rw [Function.update_of_ne hzx] at hz
      exact root_of_fixed hz
  · by_cases hzx : z = x
    · subst hzx
      simp only [Function.update_self, hroot]
    · simp only [Function.update_of_ne hzx, root_parent hc]

end Updates

end OrderedForest
