import Mathlib.Algebra.BigOperators.Field
import Mathlib.Algebra.Order.BigOperators.Group.Finset
import Mathlib.Algebra.Order.Field.Rat
import Mathlib.Data.Set.Card
import Mathlib.Data.Set.Finite.List
import Gapbs.Lib.Distance

/-!
# Shortest paths through a vertex

The number of shortest paths between two vertices, how many of them pass through a third one, and the
dependency of a source on a vertex: over all targets, the share of the shortest paths that pass through
that vertex.  Numbers of paths are sums over the predecessors, and dependencies are sums over the
successors in the graph of all shortest paths.
-/

namespace HopDistance

open scoped Classical in
section

variable {α : Type} (E : α → α → Prop)

/-- `p` lists the vertices of a walk from `s` to `t`, the last one first. -/
inductive IsWalk (s : α) : α → List α → Prop
  | start : IsWalk s s [s]
  | step {u t : α} {p : List α} (walk : IsWalk s u p) (edge : E u t) : IsWalk s t (t :: p)

/-- Walks that no other walk undercuts. -/
def shortestPaths (s t : α) : Set (List α) :=
  { p | IsWalk E s t p ∧ ∀ q, IsWalk E s t q → p.length ≤ q.length }

/-- The number of shortest paths from `s` to `t`. -/
noncomputable def numPaths (s t : α) : Nat := (shortestPaths E s t).ncard

/-- The number of those that pass through `v`. -/
noncomputable def numThrough (s t v : α) : Nat := { p ∈ shortestPaths E s t | v ∈ p }.ncard

/-- The vertices before `t` on the shortest paths from `s`, if these have `k + 1` edges. -/
noncomputable def preds [Fintype α] (s : α) (k : Nat) (t : α) : Finset α :=
  Finset.univ.filter fun u => IsDistance E k s u ∧ E u t

/-- The vertices behind `v` on the shortest paths from `s`, if `v` has distance `k`. -/
noncomputable def succs [Fintype α] (s : α) (k : Nat) (v : α) : Finset α :=
  Finset.univ.filter fun w => IsDistance E (k + 1) s w ∧ E v w

/-- The other vertices that can be reached from `s`. -/
noncomputable def targets [Fintype α] (s v : α) : Finset α :=
  Finset.univ.filter fun t => t ≠ v ∧ Relation.ReflTransGen E s t

/-- The dependency of `s` on `v`. -/
noncomputable def dependency [Fintype α] (s v : α) : ℚ :=
  ∑ t ∈ targets E s v, (numThrough E s t v : ℚ) / numPaths E s t

end

variable {α : Type} {E : α → α → Prop} {s t u v : α} {k : Nat} {p : List α}

/-! ## Walks -/

theorem IsWalk.head (h : IsWalk E s t p) : p.head? = some t := by
  cases h <;> rfl

theorem IsWalk.mem_last (h : IsWalk E s t p) : t ∈ p := List.mem_of_head? h.head

theorem IsWalk.mem_first (h : IsWalk E s t p) : s ∈ p := by
  induction h with
  | start => exact List.mem_singleton_self s
  | step _ _ ih => exact List.mem_cons_of_mem _ ih

theorem steps_iff_isWalk : Steps E k s t ↔ ∃ p, IsWalk E s t p ∧ p.length = k + 1 := by
  constructor
  · intro h
    induction k generalizing t with
    | zero =>
      obtain rfl : s = t := h
      exact ⟨[s], .start, rfl⟩
    | succ k ih =>
      obtain ⟨u, hu, hE⟩ := h
      obtain ⟨p, hp, hlength⟩ := ih hu
      exact ⟨t :: p, hp.step hE, congrArg (· + 1) hlength⟩
  · rintro ⟨p, hp, hlength⟩
    induction hp generalizing k with
    | start =>
      obtain rfl : k = 0 := by simpa using hlength.symm
      exact rfl
    | @step u t p hp hE ih =>
      rw [List.length_cons] at hlength
      cases k with
      | zero =>
        have hempty := List.length_eq_zero_iff.mp (Nat.succ.inj hlength)
        rw [hempty] at hp
        cases hp
      | succ k => exact ⟨u, ih (Nat.succ.inj hlength), hE⟩

/-- The shortest paths are the walks as long as the distance says. -/
theorem IsDistance.mem_shortestPaths (h : IsDistance E k s t) :
    p ∈ shortestPaths E s t ↔ IsWalk E s t p ∧ p.length = k + 1 := by
  obtain ⟨q, hq, hlength⟩ := steps_iff_isWalk.mp h.1
  have hle {r : List α} (hr : IsWalk E s t r) : k + 1 ≤ r.length := by
    have hpos : 0 < r.length := List.length_pos_of_mem hr.mem_last
    by_contra hlt
    exact h.2 (r.length - 1) (by omega) (steps_iff_isWalk.mpr ⟨r, hr, by omega⟩)
  constructor
  · rintro ⟨hp, hmin⟩
    exact ⟨hp, le_antisymm ((hmin q hq).trans hlength.le) (hle hp)⟩
  · rintro ⟨hp, hp'⟩
    exact ⟨hp, fun r hr => hp'.le.trans (hle hr)⟩

theorem exists_isDistance (h : Relation.ReflTransGen E s t) : ∃ k, IsDistance E k s t := by
  classical
  have hex := steps_iff_reflTransGen.mpr h
  exact ⟨Nat.find hex, Nat.find_spec hex, fun j hj => Nat.find_min hex hj⟩

/-- The last vertex but one of a shortest path is at the distance before. -/
theorem IsDistance.of_step {q : List α} (h : IsDistance E (k + 1) s t) (hq : IsWalk E s u q)
    (hE : E u t) (hlength : q.length = k + 1) : IsDistance E k s u := by
  refine ⟨steps_iff_isWalk.mpr ⟨q, hq, hlength⟩, fun j hj hsteps => ?_⟩
  exact h.2 (j + 1) (Nat.succ_lt_succ hj) ⟨u, hsteps, hE⟩

section Count

theorem numPaths_eq_zero (h : ¬ Relation.ReflTransGen E s t) : numPaths E s t = 0 := by
  have hnone : shortestPaths E s t = ∅ := by
    apply Set.eq_empty_of_forall_notMem
    rintro p ⟨hp, -⟩
    have hlength : 0 < p.length := List.length_pos_of_mem hp.mem_last
    have hsteps : Steps E (p.length - 1) s t := steps_iff_isWalk.mpr ⟨p, hp, by omega⟩
    exact h hsteps.reachable
  rw [numPaths, hnone, Set.ncard_empty]

variable [Fintype α]

theorem IsDistance.finite_shortestPaths (h : IsDistance E k s t) : (shortestPaths E s t).Finite :=
  (List.finite_length_eq α (k + 1)).subset fun _ hp => (h.mem_shortestPaths.mp hp).2

theorem mem_targets : t ∈ targets E s v ↔ t ≠ v ∧ Relation.ReflTransGen E s t := by
  simp [targets]

theorem mem_preds {k : Nat} : u ∈ preds E s k t ↔ IsDistance E k s u ∧ E u t := by
  simp [preds]

theorem mem_succs {k : Nat} {w : α} : w ∈ succs E s k v ↔ IsDistance E (k + 1) s w ∧ E v w := by
  simp [succs]

omit [Fintype α] in
/-- Lists that differ in their second element are counted one by one. -/
theorem ncard_cons (P : Finset α) (C : α → Set (List α)) (t : α) (hfin : ∀ u ∈ P, (C u).Finite)
    (hhead : ∀ u, ∀ p ∈ C u, p.head? = some u) :
    { p | ∃ u ∈ P, ∃ q ∈ C u, p = t :: q }.ncard = ∑ u ∈ P, (C u).ncard := by
  classical
  induction P using Finset.induction_on with
  | empty => simp
  | @insert u P hu ih =>
    rw [Finset.forall_mem_insert] at hfin
    have hsplit : { p | ∃ x ∈ insert u P, ∃ q ∈ C x, p = t :: q } =
        (t :: ·) '' C u ∪ { p | ∃ x ∈ P, ∃ q ∈ C x, p = t :: q } := by
      ext p
      simp only [Finset.mem_insert, Set.mem_ofPred_eq, Set.mem_union, Set.mem_image, or_and_right,
        exists_or, exists_eq_left, eq_comm (a := p)]
    have hrest : { p | ∃ x ∈ P, ∃ q ∈ C x, p = t :: q }.Finite := by
      have heq : { p | ∃ x ∈ P, ∃ q ∈ C x, p = t :: q } = ⋃ x ∈ P, (t :: ·) '' C x := by
        ext p
        simp [eq_comm]
      rw [heq]
      exact P.finite_toSet.biUnion fun x hx => (hfin.2 x hx).image _
    have hdisj : Disjoint ((t :: ·) '' C u) { p | ∃ x ∈ P, ∃ q ∈ C x, p = t :: q } := by
      rw [Set.disjoint_left]
      rintro _ ⟨q, hq, rfl⟩ ⟨x, hx, q', hq', heq⟩
      obtain rfl := List.tail_eq_of_cons_eq heq
      have hxu := (hhead u q hq).symm.trans (hhead x q hq')
      exact hu (Option.some.inj hxu ▸ hx)
    rw [hsplit, Set.ncard_union_eq hdisj (hfin.1.image _) hrest, ih hfin.2, Finset.sum_insert hu,
      Set.ncard_image_of_injective _ (List.cons_injective)]

omit [Fintype α] in
theorem head_of_mem_shortestPaths (h : p ∈ shortestPaths E s t) : p.head? = some t := h.1.head

/-- A shortest path goes on from a shortest path to one of the predecessors. -/
theorem IsDistance.mem_shortestPaths_succ (h : IsDistance E (k + 1) s t) :
    p ∈ shortestPaths E s t ↔ ∃ u ∈ preds E s k t, ∃ q ∈ shortestPaths E s u, p = t :: q := by
  rw [h.mem_shortestPaths]
  constructor
  · rintro ⟨hp, hlength⟩
    cases hp with
    | start => exact absurd hlength (by simp)
    | @step u _ q hq hE =>
      have hlength' : q.length = k + 1 := Nat.succ.inj hlength
      have hu := h.of_step hq hE hlength'
      exact ⟨u, mem_preds.mpr ⟨hu, hE⟩, q, hu.mem_shortestPaths.mpr ⟨hq, hlength'⟩, rfl⟩
  · rintro ⟨u, hu, q, hq, rfl⟩
    obtain ⟨hu, hE⟩ := mem_preds.mp hu
    obtain ⟨hq, hlength⟩ := hu.mem_shortestPaths.mp hq
    exact ⟨hq.step hE, congrArg (· + 1) hlength⟩

/-! ## Numbers of paths -/

omit [Fintype α] in
theorem numPaths_self : numPaths E s s = 1 := by
  have hsingle : shortestPaths E s s = {[s]} := by
    have hdist : IsDistance E 0 s s := isDistance_zero.mpr rfl
    ext p
    rw [hdist.mem_shortestPaths, Set.mem_singleton_iff]
    constructor
    · rintro ⟨hp, hlength⟩
      cases hp with
      | start => rfl
      | step hq hE =>
        rw [List.length_cons, Nat.zero_add] at hlength
        have hempty := List.length_eq_zero_iff.mp (Nat.succ.inj hlength)
        rw [hempty] at hq
        cases hq
    · rintro rfl
      exact ⟨.start, rfl⟩
  rw [numPaths, hsingle, Set.ncard_singleton]

theorem IsDistance.numPaths_succ (h : IsDistance E (k + 1) s t) :
    numPaths E s t = ∑ u ∈ preds E s k t, numPaths E s u := by
  have hset : shortestPaths E s t =
      { p | ∃ u ∈ preds E s k t, ∃ q ∈ shortestPaths E s u, p = t :: q } :=
    Set.ext fun p => h.mem_shortestPaths_succ
  rw [numPaths, hset]
  exact ncard_cons _ _ t (fun u hu => (mem_preds.mp hu).1.finite_shortestPaths)
    fun u p hp => head_of_mem_shortestPaths hp

theorem IsDistance.numPaths_pos (h : IsDistance E k s t) : 0 < numPaths E s t := by
  obtain ⟨p, hp, hlength⟩ := steps_iff_isWalk.mp h.1
  exact (Set.ncard_pos h.finite_shortestPaths).mpr ⟨p, h.mem_shortestPaths.mpr ⟨hp, hlength⟩⟩

omit [Fintype α] in
/-- All paths to a vertex pass through it. -/
theorem numThrough_last : numThrough E s t t = numPaths E s t := by
  rw [numThrough, numPaths]
  congr 1
  ext p
  exact and_iff_left_of_imp fun hp => hp.1.mem_last

omit [Fintype α] in
/-- All paths from a vertex pass through it. -/
theorem numThrough_first : numThrough E s t s = numPaths E s t := by
  rw [numThrough, numPaths]
  congr 1
  ext p
  exact and_iff_left_of_imp fun hp => hp.1.mem_first

theorem IsDistance.numThrough_succ (h : IsDistance E (k + 1) s t) (hne : v ≠ t) :
    numThrough E s t v = ∑ u ∈ preds E s k t, numThrough E s u v := by
  have hset : { p ∈ shortestPaths E s t | v ∈ p } =
      { p | ∃ u ∈ preds E s k t, ∃ q ∈ { q ∈ shortestPaths E s u | v ∈ q }, p = t :: q } := by
    ext p
    simp only [Set.mem_ofPred_eq, h.mem_shortestPaths_succ]
    constructor
    · rintro ⟨⟨u, hu, q, hq, rfl⟩, hv⟩
      exact ⟨u, hu, q, ⟨hq, (List.mem_cons.mp hv).resolve_left hne⟩, rfl⟩
    · rintro ⟨u, hu, q, ⟨hq, hv⟩, rfl⟩
      exact ⟨⟨u, hu, q, hq, rfl⟩, List.mem_cons_of_mem _ hv⟩
  rw [numThrough, hset]
  refine ncard_cons _ _ t (fun u hu => ?_) fun u p hp => head_of_mem_shortestPaths hp.1
  exact (mem_preds.mp hu).1.finite_shortestPaths.subset fun p hp => hp.1

/-- No path passes through a vertex that is as far away as the target, or further. -/
theorem IsDistance.numThrough_eq_zero {j : Nat} (hv : IsDistance E j s v) (ht : IsDistance E k s t)
    (hne : v ≠ t) (hkj : k ≤ j) : numThrough E s t v = 0 := by
  induction k generalizing t with
  | zero =>
    obtain rfl := isDistance_zero.mp ht
    rw [numThrough, Set.ncard_eq_zero (ht.finite_shortestPaths.subset fun p hp => hp.1)]
    ext p
    simp only [Set.mem_ofPred_eq, Set.mem_empty_iff_false, iff_false, not_and]
    intro hp hvp
    obtain ⟨hp, hlength⟩ := ht.mem_shortestPaths.mp hp
    obtain ⟨x, hx⟩ := List.length_eq_one_iff.mp hlength
    have hs := hp.mem_first
    rw [hx, List.mem_singleton] at hs hvp
    exact hne (hvp.trans hs.symm)
  | succ k ih =>
    rw [ht.numThrough_succ hne]
    apply Finset.sum_eq_zero
    intro u hu
    have hdist := (mem_preds.mp hu).1
    apply ih hdist _ (by omega)
    rintro rfl
    have hkj' := hv.unique hdist
    omega

/-! ## Dependencies -/

/-- On a level, the only paths through a vertex are those to it. -/
theorem IsDistance.numThrough_level [Decidable (t = v)] (hv : IsDistance E k s v) (ht : IsDistance E k s t) :
    numThrough E s t v = if t = v then numPaths E s v else 0 := by
  split_ifs with h
  · rw [h, numThrough_last]
  · exact hv.numThrough_eq_zero ht (Ne.symm h) le_rfl

/-- The paths through `v` to the next level. -/
theorem IsDistance.numThrough_next [Decidable (E v t)] (hv : IsDistance E k s v)
    (ht : IsDistance E (k + 1) s t) (hne : t ≠ v) :
    numThrough E s t v = if E v t then numPaths E s v else 0 := by
  classical
  rw [ht.numThrough_succ hne.symm]
  have hterm (u : α) (hu : u ∈ preds E s k t) :
      numThrough E s u v = if u = v then numPaths E s v else 0 :=
    hv.numThrough_level (mem_preds.mp hu).1
  rw [Finset.sum_congr rfl hterm, Finset.sum_ite_eq']
  have hmem : v ∈ preds E s k t ↔ E v t := mem_preds.trans (and_iff_right hv)
  split_ifs <;> tauto

/-- The paths through `v` to a vertex further away go through one of its successors. -/
theorem IsDistance.numThrough_succs {j : Nat} (hv : IsDistance E j s v) (ht : IsDistance E k s t)
    (hne : t ≠ v) : (numThrough E s t v : ℚ) =
      ∑ w ∈ succs E s j v, (numPaths E s v : ℚ) / numPaths E s w * numThrough E s t w := by
  classical
  have hdist {w : α} (hw : w ∈ succs E s j v) : IsDistance E (j + 1) s w := (mem_succs.mp hw).1
  induction k generalizing t with
  | zero =>
    rw [hv.numThrough_eq_zero ht hne.symm (Nat.zero_le j), Nat.cast_zero]
    symm
    apply Finset.sum_eq_zero
    intro w hw
    have hwt : w ≠ t := by
      rintro rfl
      exact absurd ((hdist hw).unique ht) (Nat.succ_ne_zero j)
    rw [(hdist hw).numThrough_eq_zero ht hwt (Nat.zero_le _), Nat.cast_zero, mul_zero]
  | succ k ih =>
    rcases lt_trichotomy j k with hlt | rfl | hlt
    · -- all predecessors of `t` are further away than `v`
      have hwt {w : α} (hw : w ∈ succs E s j v) : w ≠ t := by
        rintro rfl
        have heq := (hdist hw).unique ht
        omega
      have hterm (u : α) (hu : u ∈ preds E s k t) : (numThrough E s u v : ℚ) =
          ∑ w ∈ succs E s j v, (numPaths E s v : ℚ) / numPaths E s w * numThrough E s u w := by
        have hu := (mem_preds.mp hu).1
        apply ih hu
        rintro rfl
        exact hlt.ne (hv.unique hu)
      rw [ht.numThrough_succ hne.symm, Nat.cast_sum, Finset.sum_congr rfl hterm, Finset.sum_comm]
      apply Finset.sum_congr rfl
      intro w hw
      rw [ht.numThrough_succ (hwt hw), Nat.cast_sum, Finset.mul_sum]
    · -- `t` is one level behind `v`
      have hterm (w : α) (hw : w ∈ succs E s j v) :
          (numPaths E s v : ℚ) / numPaths E s w * numThrough E s t w =
            if w = t then (numPaths E s v : ℚ) else 0 := by
        rw [(hdist hw).numThrough_level ht]
        by_cases hwt : w = t
        · have hpos : (numPaths E s w : ℚ) ≠ 0 := Nat.cast_ne_zero.mpr (hdist hw).numPaths_pos.ne'
          rw [if_pos hwt.symm, if_pos hwt, div_mul_cancel₀ _ hpos]
        · rw [if_neg (Ne.symm hwt), if_neg hwt, Nat.cast_zero, mul_zero]
      have hmem : t ∈ succs E s j v ↔ E v t := mem_succs.trans (and_iff_right ht)
      rw [hv.numThrough_next ht hne, Finset.sum_congr rfl hterm, Finset.sum_ite_eq']
      simp only [hmem]
      split_ifs <;> simp
    · -- neither `v` nor its successors are on the way
      rw [hv.numThrough_eq_zero ht hne.symm hlt, Nat.cast_zero]
      symm
      apply Finset.sum_eq_zero
      intro w hw
      have hwt : w ≠ t := by
        rintro rfl
        have heq := (hdist hw).unique ht
        omega
      rw [(hdist hw).numThrough_eq_zero ht hwt (by omega), Nat.cast_zero, mul_zero]

theorem dependency_nonneg : 0 ≤ dependency E s v :=
  Finset.sum_nonneg fun _ _ => div_nonneg (Nat.cast_nonneg _) (Nat.cast_nonneg _)

/-- What a successor contributes: its own paths, and its dependency. -/
theorem IsDistance.sum_share {j : Nat} (hv : IsDistance E j s v) {w : α}
    (hw : IsDistance E (j + 1) s w) :
    ∑ t ∈ targets E s v, (numThrough E s t w : ℚ) / numPaths E s t = 1 + dependency E s w := by
  classical
  have hvw : v ≠ w := by
    rintro rfl
    have heq := hv.unique hw
    omega
  have hown : (numThrough E s w w : ℚ) / numPaths E s w = 1 := by
    rw [numThrough_last, div_self (Nat.cast_ne_zero.mpr hw.numPaths_pos.ne')]
  have hnone : (numThrough E s v w : ℚ) / numPaths E s v = 0 := by
    rw [hw.numThrough_eq_zero hv hvw.symm j.le_succ, Nat.cast_zero, zero_div]
  have hwmem : w ∈ targets E s v := mem_targets.mpr ⟨hvw.symm, hw.reachable⟩
  have hvmem : v ∈ targets E s w := mem_targets.mpr ⟨hvw, hv.reachable⟩
  have herase : (targets E s v).erase w = (targets E s w).erase v := by
    ext t
    simp only [Finset.mem_erase, mem_targets]
    tauto
  rw [dependency, ← Finset.add_sum_erase _ _ hwmem, hown, herase, ← Finset.add_sum_erase _ _ hvmem,
    hnone, zero_add]

/-- Dependencies are sums over the successors. -/
theorem IsDistance.dependency_eq {j : Nat} (hv : IsDistance E j s v) :
    dependency E s v = ∑ w ∈ succs E s j v,
      (numPaths E s v : ℚ) / numPaths E s w * (1 + dependency E s w) := by
  have hterm (t : α) (ht : t ∈ targets E s v) :
      (numThrough E s t v : ℚ) / numPaths E s t = ∑ w ∈ succs E s j v,
        (numPaths E s v : ℚ) / numPaths E s w * ((numThrough E s t w : ℚ) / numPaths E s t) := by
    obtain ⟨hne, hreach⟩ := mem_targets.mp ht
    obtain ⟨k, hk⟩ := exists_isDistance hreach
    rw [hv.numThrough_succs hk hne, Finset.sum_div]
    exact Finset.sum_congr rfl fun w _ => mul_div_assoc _ _ _
  rw [dependency, Finset.sum_congr rfl hterm, Finset.sum_comm]
  apply Finset.sum_congr rfl
  intro w hw
  rw [← Finset.mul_sum, hv.sum_share (mem_succs.mp hw).1]

/-- A source with an out-neighbour depends on itself. -/
theorem dependency_self_pos (hE : E s t) (hne : t ≠ s) : 0 < dependency E s s := by
  have hreach : Relation.ReflTransGen E s t := .single hE
  obtain ⟨k, hk⟩ := exists_isDistance hreach
  have hpos : 0 < (numPaths E s t : ℚ) := Nat.cast_pos.mpr hk.numPaths_pos
  apply Finset.sum_pos' fun _ _ => div_nonneg (Nat.cast_nonneg _) (Nat.cast_nonneg _)
  refine ⟨t, mem_targets.mpr ⟨hne, hreach⟩, ?_⟩
  rw [numThrough_first]
  exact div_pos hpos hpos

end Count

end HopDistance
