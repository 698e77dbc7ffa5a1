import Gapbs.Lib.RankFlow
import Mathlib.LinearAlgebra.FiniteDimensional.Basic

/-!
# Damped flow

Every vertex keeps a base amount and receives a part of what arrives over the edges.  The map contracts
in the sum norm, so that it has exactly one fixed vector, and the residual of a vector bounds how far
away that is.  A sweep that replaces the amounts one by one contracts the residual as well, whichever
of its reads see old and which see new shares.
-/

namespace RankFlow

variable {V K : Type} [Field K]

/-- What the map makes of `x`. -/
def damped (out inn : V → List V) (base : V → K) (d : K) (x : V → K) (v : V) : K :=
  base v + d * inflow inn (share out x) v

/-- The amounts without what arrives, which is the base of the map that leaves them as they are. -/
def retained (out inn : V → List V) (d : K) : (V → K) →ₗ[K] (V → K) where
  toFun x v := x v - d * inflow inn (share out x) v
  map_add' x y := by
    funext v
    have hadd : inflow inn (share out (x + y)) v =
        inflow inn (share out x) v + inflow inn (share out y) v := by
      rw [inflow, inflow, inflow, ← List.sum_map_add]
      exact congrArg List.sum (List.map_congr_left fun u _ => add_div _ _ _)
    simp only [hadd, Pi.add_apply]
    ring
  map_smul' c x := by
    funext v
    have hsmul : inflow inn (share out (c • x)) v = c * inflow inn (share out x) v := by
      rw [inflow, inflow, ← List.sum_map_mul_left]
      exact congrArg List.sum (List.map_congr_left fun u _ => mul_div_assoc _ _ _)
    simp only [hsmul, Pi.smul_apply, smul_eq_mul, RingHom.id_apply]
    ring

theorem damped_eq_iff {out inn : V → List V} {d : K} (base x : V → K) :
    damped out inn base d x = x ↔ retained out inn d x = base := by
  rw [funext_iff, funext_iff]
  refine forall_congr' fun v => ?_
  show base v + _ = _ ↔ x v - _ = _
  rw [sub_eq_iff_eq_add, eq_comm]

variable [LinearOrder K]

/-- The distance in the sum norm. -/
def sumDist [Fintype V] (x y : V → K) : K := ∑ v, |y v - x v|

/-- How far the map moves `x`. -/
def residual [Fintype V] (out inn : V → List V) (base : V → K) (d : K) (x : V → K) : K :=
  sumDist x (damped out inn base d x)

theorem sumDist_comm [Fintype V] (x y : V → K) : sumDist x y = sumDist y x :=
  Finset.sum_congr rfl fun _ _ => abs_sub_comm _ _

variable [IsStrictOrderedRing K]

variable {out inn : V → List V} {base : V → K} {d : K}

variable [Fintype V]

theorem sumDist_nonneg (x y : V → K) : 0 ≤ sumDist x y := Finset.sum_nonneg fun _ _ => abs_nonneg _

theorem sumDist_triangle (x y z : V → K) : sumDist x z ≤ sumDist x y + sumDist y z := by
  rw [sumDist, sumDist, sumDist, ← Finset.sum_add_distrib]
  refine Finset.sum_le_sum fun v _ => ?_
  rw [add_comm]
  exact abs_sub_le (z v) (y v) (x v)

theorem eq_of_sumDist_le_zero {x y : V → K} (h : sumDist x y ≤ 0) : x = y := by
  have hzero := le_antisymm h (sumDist_nonneg x y)
  have hterm := (Finset.sum_eq_zero_iff_of_nonneg fun v _ => abs_nonneg (y v - x v)).mp hzero
  funext v
  exact (sub_eq_zero.mp (abs_eq_zero.mp (hterm v (Finset.mem_univ v)))).symm

variable [DecidableEq V]

theorem sumDist_damped_le (base : V → K) (h : Transposed out inn) (hd : 0 ≤ d) (x y : V → K) :
    sumDist (damped out inn base d x) (damped out inn base d y) ≤ d * sumDist x y := by
  have hreads (v : V) : List.Forall₂ (fun w c => c = share out x w ∨ c = share out y w) (inn v)
      ((inn v).map (share out x)) := by
    rw [List.forall₂_map_right_iff]
    exact List.forall₂_same.mpr fun w _ => .inl rfl
  have hterm (v : V) : |damped out inn base d y v - damped out inn base d x v| =
      d * |inflow inn (share out y) v - inflow inn (share out x) v| := by
    rw [damped, damped, add_sub_add_left_eq_sub, ← mul_sub, abs_mul, abs_of_nonneg hd]
  have hsum := sum_abs_inflow_sub_le h hreads
  simp only [sumDist, hterm, ← Finset.mul_sum]
  exact mul_le_mul_of_nonneg_left hsum hd

/-- Vectors that the map hardly moves are close to each other. -/
theorem sumDist_le_residuals (base : V → K) (h : Transposed out inn) (hd : 0 ≤ d) (x y : V → K) :
    (1 - d) * sumDist x y ≤ residual out inn base d x + residual out inn base d y := by
  have hfirst := sumDist_triangle x (damped out inn base d x) y
  have hsecond := sumDist_triangle (damped out inn base d x) (damped out inn base d y) y
  have hmap := sumDist_damped_le base h hd x y
  rw [sumDist_comm (damped out inn base d y) y] at hsecond
  unfold residual
  linarith

theorem fixed_unique (h : Transposed out inn) (hd : 0 ≤ d) (hlt : d < 1) {x y : V → K}
    (hx : damped out inn base d x = x) (hy : damped out inn base d y = y) : x = y := by
  have hle := sumDist_damped_le base h hd x y
  rw [hx, hy] at hle
  have hdist := sumDist_nonneg x y
  exact eq_of_sumDist_le_zero (by nlinarith)

/-- There is exactly one vector that the map does not move. -/
theorem existsUnique_fixed (h : Transposed out inn) (hd : 0 ≤ d) (hlt : d < 1) (base : V → K) :
    ∃! x, damped out inn base d x = x := by
  have hinjective : Function.Injective (retained out inn d : (V → K) →ₗ[K] (V → K)) := by
    intro x y hxy
    exact fixed_unique h hd hlt ((damped_eq_iff _ x).mpr hxy) ((damped_eq_iff _ y).mpr rfl)
  obtain ⟨x, hx⟩ := LinearMap.injective_iff_surjective.mp hinjective base
  have hfixed := (damped_eq_iff base x).mpr hx
  exact ⟨x, hfixed, fun y hy => fixed_unique h hd hlt hy hfixed⟩

/-- A fixed vector is as close as the residual is small. -/
theorem sumDist_fixed_le (h : Transposed out inn) (hd : 0 ≤ d) {p : V → K}
    (hp : damped out inn base d p = p) (x : V → K) :
    (1 - d) * sumDist p x ≤ residual out inn base d x := by
  have hle := sumDist_le_residuals base h hd p x
  have hzero : residual out inn base d p = 0 := by simp [residual, sumDist, hp]
  rwa [hzero, zero_add] at hle

/-! ## A sweep -/

/-- `b` was computed from a mixture of the shares of `a` and of its own. -/
structure Mixes (out inn : V → List V) (base : V → K) (d : K) (a b : V → K) (reads : V → List K) :
    Prop where
  mixed : ∀ v, List.Forall₂ (fun w c => c = share out a w ∨ c = share out b w) (inn v) (reads v)
  value : ∀ v, b v = base v + d * (reads v).sum

variable {a b : V → K} {reads : V → List K}

/-- The residual is what was missed, and the change what was there before and what was seen. -/
theorem Mixes.split (h : Mixes out inn base d a b reads) (hT : Transposed out inn) (hd : 0 ≤ d) :
    ∃ missed seen : K, 0 ≤ missed ∧ 0 ≤ seen ∧ residual out inn base d b ≤ d * missed ∧
      sumDist a b ≤ residual out inn base d a + d * seen ∧ missed + seen ≤ sumDist a b := by
  choose missed seen hmissed hseen hnew hold hsum using fun v => exists_split (h.mixed v)
  refine ⟨∑ v, missed v, ∑ v, seen v, Finset.sum_nonneg fun v _ => hmissed v,
    Finset.sum_nonneg fun v _ => hseen v, ?_, ?_, ?_⟩
  · rw [residual, sumDist, Finset.mul_sum]
    refine Finset.sum_le_sum fun v _ => ?_
    rw [damped, h.value v, add_sub_add_left_eq_sub, ← mul_sub, abs_mul, abs_of_nonneg hd]
    exact mul_le_mul_of_nonneg_left (hnew v) hd
  · rw [residual, sumDist, sumDist, Finset.mul_sum, ← Finset.sum_add_distrib]
    refine Finset.sum_le_sum fun v _ => ?_
    have hread : |b v - damped out inn base d a v| ≤ d * seen v := by
      rw [damped, h.value v, add_sub_add_left_eq_sub, ← mul_sub, abs_mul, abs_of_nonneg hd]
      exact mul_le_mul_of_nonneg_left (hold v) hd
    have htriangle := abs_sub_le (b v) (damped out inn base d a v) (a v)
    linarith
  · rw [← Finset.sum_add_distrib]
    refine (Finset.sum_le_sum fun v _ => (hsum v).le).trans ?_
    exact sum_inflow_share_le hT fun u => abs_nonneg _

/-- A sweep contracts the residual. -/
theorem Mixes.residual_le (h : Mixes out inn base d a b reads) (hT : Transposed out inn) (hd : 0 ≤ d)
    (hlt : d < 1) : residual out inn base d b ≤ d * residual out inn base d a := by
  obtain ⟨missed, seen, hmissed, hseen, hres, hchange, hsum⟩ := h.split hT hd
  have hle : missed ≤ residual out inn base d a := by nlinarith
  exact hres.trans (mul_le_mul_of_nonneg_left hle hd)

theorem Mixes.residual_le_change (h : Mixes out inn base d a b reads) (hT : Transposed out inn) (hd : 0 ≤ d) :
    residual out inn base d b ≤ d * sumDist a b := by
  obtain ⟨missed, seen, hmissed, hseen, hres, hchange, hsum⟩ := h.split hT hd
  exact hres.trans (mul_le_mul_of_nonneg_left (by linarith) hd)

/-- The change of a sweep is bounded by the residual in front of it. -/
theorem Mixes.change_le (h : Mixes out inn base d a b reads) (hT : Transposed out inn) (hd : 0 ≤ d) :
    (1 - d) * sumDist a b ≤ residual out inn base d a := by
  obtain ⟨missed, seen, hmissed, hseen, hres, hchange, hsum⟩ := h.split hT hd
  have hle : seen ≤ sumDist a b := by linarith
  have hscaled := mul_le_mul_of_nonneg_left hle hd
  linarith

end RankFlow
