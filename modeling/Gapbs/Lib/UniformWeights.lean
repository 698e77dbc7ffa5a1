import Gapbs.Lib.Distance
import Gapbs.Lib.ShortestPath

/-!
# Uniform weights

Where all edges have the same weight the weighted distance is a multiple of the hop distance.
-/

namespace ShortestPath

open HopDistance

variable {α : Type} {E : α → α → Nat → Prop} {R : α → α → Prop} {w : Nat} {s v : α}

theorem walk_iff_steps (hE : ∀ u v x, E u v x ↔ R u v ∧ x = w) {k : Nat} :
    Walk E s v k ↔ ∃ j, Steps R j s v ∧ k = j * w := by
  constructor
  · intro h
    induction h with
    | nil => exact ⟨0, rfl, (Nat.zero_mul w).symm⟩
    | @snoc u v k x _ hx ih =>
      obtain ⟨j, hj, rfl⟩ := ih
      obtain ⟨hR, rfl⟩ := (hE u v x).mp hx
      exact ⟨j + 1, ⟨u, hj, hR⟩, (Nat.succ_mul j x).symm⟩
  · rintro ⟨j, hj, rfl⟩
    induction j generalizing v with
    | zero =>
      obtain rfl : s = v := hj
      rw [Nat.zero_mul]
      exact .nil
    | succ j ih =>
      obtain ⟨u, hu, hR⟩ := hj
      rw [Nat.succ_mul]
      exact .snoc (ih hu) ((hE u v w).mpr ⟨hR, rfl⟩)

theorem distance_of_isDistance (hE : ∀ u v x, E u v x ↔ R u v ∧ x = w) {j : Nat}
    (h : IsDistance R j s v) : distance E s v = (j * w : Nat) := by
  apply le_antisymm
  · exact distance_le ((walk_iff_steps hE).mpr ⟨j, h.1, rfl⟩)
  · apply le_distance
    intro k hk
    obtain ⟨i, hi, rfl⟩ := (walk_iff_steps hE).mp hk
    exact Nat.mul_le_mul_right w (Nat.le_of_not_lt fun hlt => h.2 i hlt hi)

theorem distance_of_unreachable (hE : ∀ u v x, E u v x ↔ R u v ∧ x = w)
    (h : ¬ Relation.ReflTransGen R s v) : distance E s v = ⊤ := by
  rw [distance, iInf_eq_top]
  rintro ⟨k, hk⟩
  obtain ⟨j, hj, -⟩ := (walk_iff_steps hE).mp hk
  exact absurd hj.reachable h

theorem cappedDistance_of_isDistance (hE : ∀ u v x, E u v x ↔ R u v ∧ x = w) {j : Nat}
    (h : IsDistance R j s v) (cap : Nat) : cappedDistance E s cap v = min (j * w) cap := by
  rw [cappedDistance, distance_of_isDistance hE h, ← Nat.mono_cast.map_min, ENat.toNat_natCast]

theorem cappedDistance_of_unreachable (hE : ∀ u v x, E u v x ↔ R u v ∧ x = w)
    (h : ¬ Relation.ReflTransGen R s v) (cap : Nat) : cappedDistance E s cap v = cap := by
  rw [cappedDistance, distance_of_unreachable hE h, min_eq_right le_top, ENat.toNat_natCast]

end ShortestPath
