import Mathlib.Data.Finset.Prod
import Mathlib.Data.Fintype.Basic
import Mathlib.Logic.Relation

/-!
# Hop distances and levels

The hop distance in a directed graph, given by its edge relation, and the level-by-level search that
computes it: each level consists of the vertices that an edge joins to the level before and that have
not been reached yet.
-/

namespace HopDistance

variable {α : Type}

/-- There is a walk of `k` edges. -/
def Steps (E : α → α → Prop) : Nat → α → α → Prop
  | 0, u, v => u = v
  | k + 1, u, w => ∃ v, Steps E k u v ∧ E v w

/-- A shortest walk has `k` edges. -/
def IsDistance (E : α → α → Prop) (k : Nat) (u v : α) : Prop :=
  Steps E k u v ∧ ∀ j < k, ¬ Steps E j u v

variable {E : α → α → Prop}

theorem steps_iff_reflTransGen {u v : α} :
    (∃ k, Steps E k u v) ↔ Relation.ReflTransGen E u v := by
  constructor
  · rintro ⟨k, h⟩
    induction k generalizing v with
    | zero => exact h ▸ .refl
    | succ k ih =>
      obtain ⟨w, hw, hE⟩ := h
      exact (ih hw).tail hE
  · intro h
    induction h with
    | refl => exact ⟨0, rfl⟩
    | tail _ hE ih =>
      obtain ⟨k, hk⟩ := ih
      exact ⟨k + 1, _, hk, hE⟩

theorem IsDistance.unique {j k : Nat} {u v : α} (h : IsDistance E j u v) (h' : IsDistance E k u v) :
    j = k := by
  rcases lt_trichotomy j k with hlt | heq | hlt
  · exact absurd h.1 (h'.2 j hlt)
  · exact heq
  · exact absurd h'.1 (h.2 k hlt)

theorem Steps.reachable {k : Nat} {u v : α} (h : Steps E k u v) : Relation.ReflTransGen E u v :=
  steps_iff_reflTransGen.mp ⟨k, h⟩

/-- Labels that are the lengths of walks and grow by at most one along an edge are distances. -/
theorem isDistance_of_labels {d : α → Nat} {R : α → Prop} {s : α} (hs : R s) (hzero : d s = 0)
    (hclosed : ∀ u v, R u → E u v → R v ∧ d v ≤ d u + 1) (hwalk : ∀ v, R v → Steps E (d v) s v)
    (v : α) : (R v ↔ Relation.ReflTransGen E s v) ∧ (R v → IsDistance E (d v) s v) := by
  have hle (k : Nat) (v : α) (h : Steps E k s v) : R v ∧ d v ≤ k := by
    induction k generalizing v with
    | zero =>
      obtain rfl : s = v := h
      exact ⟨hs, hzero.le⟩
    | succ k ih =>
      obtain ⟨u, hu, hE⟩ := h
      obtain ⟨hR, hd⟩ := ih u hu
      obtain ⟨hRv, hdv⟩ := hclosed u v hR hE
      exact ⟨hRv, hdv.trans (Nat.succ_le_succ hd)⟩
  refine ⟨⟨fun hR => (hwalk v hR).reachable, fun hr => ?_⟩, fun hR => ⟨hwalk v hR, fun j hj h => ?_⟩⟩
  · obtain ⟨k, hk⟩ := steps_iff_reflTransGen.mpr hr
    exact (hle k v hk).1
  · exact absurd (hle j v h).2 (not_le.mpr hj)

/-! ## The levels of a search -/

section Level

variable (E) [Fintype α] [DecidableEq α] [DecidableRel E] (s : α)

/-- What has been reached after `k` rounds, and the level that the last of them has added. -/
def search : Nat → Finset α × Finset α
  | 0 => ({s}, {s})
  | k + 1 =>
    let (reached, level) := search k
    let next := Finset.univ.filter fun v => v ∉ reached ∧ ∃ u ∈ level, E u v
    (reached ∪ next, next)

def reached (k : Nat) : Finset α := (search E s k).1

def level (k : Nat) : Finset α := (search E s k).2

variable {E s}

theorem mem_level_zero {v : α} : v ∈ level E s 0 ↔ v = s := Finset.mem_singleton

theorem mem_level_succ {k : Nat} {v : α} :
    v ∈ level E s (k + 1) ↔ v ∉ reached E s k ∧ ∃ u ∈ level E s k, E u v :=
  Finset.mem_filter.trans (and_iff_right (Finset.mem_univ v))

theorem mem_reached_succ {k : Nat} {v : α} :
    v ∈ reached E s (k + 1) ↔ v ∈ reached E s k ∨ v ∈ level E s (k + 1) :=
  Finset.mem_union

theorem level_subset_reached (k : Nat) : level E s k ⊆ reached E s k := by
  cases k with
  | zero => exact fun v hv => hv
  | succ k => exact fun v hv => mem_reached_succ.mpr (.inr hv)

theorem reached_mono : Monotone (reached E s) :=
  monotone_nat_of_le_succ fun _ _ hv => mem_reached_succ.mpr (.inl hv)

/-- Each level is new. -/
theorem not_mem_level_of_reached {j k : Nat} {v : α} (hv : v ∈ reached E s j) (hjk : j < k) :
    v ∉ level E s k := by
  obtain ⟨k, rfl⟩ := Nat.exists_eq_succ_of_ne_zero (Nat.ne_zero_of_lt hjk)
  exact fun h => (mem_level_succ.mp h).1 (reached_mono (Nat.le_of_lt_succ hjk) hv)

theorem exists_level {k : Nat} {v : α} (hv : v ∈ reached E s k) : ∃ j ≤ k, v ∈ level E s j := by
  induction k with
  | zero => exact ⟨0, le_rfl, hv⟩
  | succ k ih =>
    rcases mem_reached_succ.mp hv with hv | hv
    · obtain ⟨j, hj, hlevel⟩ := ih hv
      exact ⟨j, hj.trans k.le_succ, hlevel⟩
    · exact ⟨k + 1, le_rfl, hv⟩

/-- The out-neighbours of what has been reached are reached in the next round. -/
theorem reached_of_edge {k : Nat} {u v : α} (hu : u ∈ reached E s k) (hE : E u v) :
    v ∈ reached E s (k + 1) := by
  obtain ⟨j, hj, hlevel⟩ := exists_level hu
  by_cases hv : v ∈ reached E s j
  · exact reached_mono (hj.trans k.le_succ) hv
  · have hnext : v ∈ level E s (j + 1) := mem_level_succ.mpr ⟨hv, u, hlevel, hE⟩
    exact reached_mono (Nat.succ_le_succ hj) (level_subset_reached _ hnext)

theorem mem_reached_iff {k : Nat} {v : α} : v ∈ reached E s k ↔ ∃ j ≤ k, Steps E j s v := by
  constructor
  · induction k generalizing v with
    | zero =>
      intro hv
      exact ⟨0, le_rfl, (Finset.mem_singleton.mp hv).symm⟩
    | succ k ih =>
      intro hv
      rcases mem_reached_succ.mp hv with hv | hv
      · obtain ⟨j, hj, hsteps⟩ := ih hv
        exact ⟨j, hj.trans k.le_succ, hsteps⟩
      · obtain ⟨-, u, hu, hE⟩ := mem_level_succ.mp hv
        obtain ⟨j, hj, hsteps⟩ := ih (level_subset_reached k hu)
        exact ⟨j + 1, Nat.succ_le_succ hj, u, hsteps, hE⟩
  · rintro ⟨j, hj, hsteps⟩
    apply reached_mono hj
    clear hj
    induction j generalizing v with
    | zero => exact Finset.mem_singleton.mpr hsteps.symm
    | succ j ih =>
      obtain ⟨u, hu, hE⟩ := hsteps
      exact reached_of_edge (ih hu) hE

/-- Level `k` holds the vertices at distance `k`. -/
theorem mem_level_iff {k : Nat} {v : α} : v ∈ level E s k ↔ IsDistance E k s v := by
  constructor
  · intro hv
    have hnot (j : Nat) (hj : j < k) : ¬ Steps E j s v := fun h =>
      not_mem_level_of_reached (mem_reached_iff.mpr ⟨j, le_rfl, h⟩) hj hv
    obtain ⟨j, hj, hsteps⟩ := mem_reached_iff.mp (level_subset_reached k hv)
    rcases Nat.lt_or_eq_of_le hj with hlt | rfl
    · exact absurd hsteps (hnot j hlt)
    · exact ⟨hsteps, hnot⟩
  · intro ⟨hsteps, hnot⟩
    obtain ⟨j, hj, hlevel⟩ := exists_level (mem_reached_iff.mpr ⟨k, le_rfl, hsteps⟩)
    rcases Nat.lt_or_eq_of_le hj with hlt | rfl
    · obtain ⟨i, hi, hs⟩ := mem_reached_iff.mp (level_subset_reached j hlevel)
      exact absurd hs (hnot i (hi.trans_lt hlt))
    · exact hlevel

/-- When a level is empty, the search has found everything that can be reached. -/
theorem mem_reached_iff_reachable {k : Nat} (hk : level E s k = ∅) {v : α} :
    v ∈ reached E s k ↔ Relation.ReflTransGen E s v := by
  constructor
  · intro hv
    obtain ⟨j, -, hsteps⟩ := mem_reached_iff.mp hv
    exact steps_iff_reflTransGen.mp ⟨j, hsteps⟩
  · intro h
    induction h with
    | refl => exact mem_reached_iff.mpr ⟨0, k.zero_le, rfl⟩
    | tail _ hE ih =>
      rcases mem_reached_succ.mp (reached_of_edge ih hE) with hv | hv
      · exact hv
      · obtain ⟨-, u, hu, -⟩ := mem_level_succ.mp hv
        simp [hk] at hu

/-- Levels are empty from some point on. -/
theorem level_ne_empty {j k : Nat} (hjk : j ≤ k) (hk : level E s k ≠ ∅) : level E s j ≠ ∅ := by
  induction hjk with
  | refl => exact hk
  | @step k _ ih =>
    obtain ⟨v, hv⟩ := Finset.nonempty_iff_ne_empty.mpr hk
    obtain ⟨-, u, hu, -⟩ := mem_level_succ.mp hv
    exact ih (Finset.ne_empty_of_mem hu)

end Level

/-! ## Trees -/

/-- The depth of a vertex in the tree in which `Parent v u` says that `u` is the parent of `v`. -/
inductive Depth (Parent : α → α → Prop) (s : α) : α → Nat → Prop
  | root : Depth Parent s s 0
  | child {u v : α} {k : Nat} (hv : v ≠ s) (hu : Parent v u) (h : Depth Parent s u k) :
      Depth Parent s v (k + 1)

/-- A tree of shortest paths: every vertex but the root that can be reached has a parent, which is
joined to it by an edge and is one step nearer to the root. -/
def IsShortestPathTree (E : α → α → Prop) (Parent : α → α → Prop) (s : α) : Prop :=
  ∀ v, v ≠ s → Relation.ReflTransGen E s v →
    ∃ u, Parent v u ∧ E u v ∧ ∃ k, IsDistance E k s u ∧ IsDistance E (k + 1) s v

theorem isDistance_zero {s v : α} : IsDistance E 0 s v ↔ s = v :=
  ⟨fun h => h.1, fun h => ⟨h, fun _ hj => absurd hj (Nat.not_lt_zero _)⟩⟩

theorem IsDistance.reachable {k : Nat} {s v : α} (h : IsDistance E k s v) :
    Relation.ReflTransGen E s v :=
  steps_iff_reflTransGen.mp ⟨k, h.1⟩

/-- In a tree of shortest paths the depth is the distance. -/
theorem IsShortestPathTree.depth_iff {Parent : α → α → Prop} {s : α}
    (h : IsShortestPathTree E Parent s) (huniq : ∀ v u u', Parent v u → Parent v u' → u = u')
    {v : α} (hv : Relation.ReflTransGen E s v) {k : Nat} :
    Depth Parent s v k ↔ IsDistance E k s v := by
  constructor
  · intro hd
    induction hd with
    | root => exact isDistance_zero.mpr rfl
    | @child u v k hvs hu _ ih =>
      obtain ⟨u', hu', hE, j, hj, hj'⟩ := h v hvs hv
      obtain rfl := huniq v u u' hu hu'
      have hjk := hj.unique (ih hj.reachable)
      exact hjk ▸ hj'
  · intro hd
    induction k generalizing v with
    | zero =>
      obtain rfl := isDistance_zero.mp hd
      exact .root
    | succ k ih =>
      have hvs : v ≠ s := by
        rintro rfl
        exact absurd rfl (hd.2 0 k.succ_pos)
      obtain ⟨u, hu, hE, j, hj, hj'⟩ := h v hvs hv
      have hjk : j = k := Nat.succ.inj (hj'.unique hd)
      exact .child hvs hu (ih hj.reachable (hjk ▸ hj))

end HopDistance
