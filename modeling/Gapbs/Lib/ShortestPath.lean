import Mathlib.Data.ENat.Lattice

/-!
# Shortest paths

Distances in a graph with natural weights, cut off at a bound, and the criterion by which the
label-correcting algorithms find them: labels that are weights of walks and that no edge can improve.
-/

namespace ShortestPath

variable {α : Type}

/-- A walk from `s`, with its total weight; `E u v w` says that there is an edge of weight `w`. -/
inductive Walk (E : α → α → Nat → Prop) (s : α) : α → Nat → Prop
  | nil : Walk E s s 0
  | snoc {u v : α} {k w : Nat} (hk : Walk E s u k) (hw : E u v w) : Walk E s v (k + w)

variable (E : α → α → Nat → Prop) (s : α)

/-- The weight of a shortest walk, infinite when there is none. -/
noncomputable def distance (v : α) : ℕ∞ := ⨅ k : { k : Nat // Walk E s v k }, (k.val : ℕ∞)

/-- `min (distance v) cap` -/
noncomputable def cappedDistance (cap : Nat) (v : α) : Nat := (min (distance E s v) cap).toNat

variable {E s}

theorem distance_le {v : α} {k : Nat} (h : Walk E s v k) : distance E s v ≤ k :=
  iInf_le (fun k : { k : Nat // Walk E s v k } => (k.val : ℕ∞)) ⟨k, h⟩

theorem le_distance {v : α} {x : Nat} (h : ∀ k, Walk E s v k → x ≤ k) : (x : ℕ∞) ≤ distance E s v :=
  le_iInf fun k => Nat.cast_le.mpr (h k.val k.property)

/-- The capped distance is the greatest lower bound of the cap and the weights of the walks. -/
theorem cappedDistance_eq {cap x : Nat} {v : α} (hcap : x ≤ cap) (hle : ∀ k, Walk E s v k → x ≤ k)
    (hx : x = cap ∨ Walk E s v x) : cappedDistance E s cap v = x := by
  have hmin : min (distance E s v) cap = x := by
    apply le_antisymm
    · rcases hx with rfl | hx
      · exact min_le_right _ _
      · exact (min_le_left _ _).trans (distance_le hx)
    · exact le_min (le_distance hle) (Nat.cast_le.mpr hcap)
  rw [cappedDistance, hmin, ENat.toNat_natCast]

/-- Labels that no edge improves bound the weight of every walk from below. -/
theorem label_le {label : α → Nat} (hs : label s = 0)
    (hedge : ∀ u v w, E u v w → label v ≤ label u + w) {v : α} {k : Nat} (h : Walk E s v k) :
    label v ≤ k := by
  induction h with
  | nil => exact hs.le
  | snoc _ hw ih => exact (hedge _ _ _ hw).trans (Nat.add_le_add_right ih _)

/-- The criterion for labels to be the capped distances. -/
theorem cappedDistance_eq_label {cap : Nat} (label : α → Nat) (hs : label s = 0)
    (hedge : ∀ u v w, E u v w → label v ≤ label u + w) (hcap : ∀ v, label v ≤ cap)
    (hwalk : ∀ v, label v = cap ∨ Walk E s v (label v)) (v : α) :
    cappedDistance E s cap v = label v :=
  cappedDistance_eq (hcap v) (fun _ hk => label_le hs hedge hk) (hwalk v)

/-! ## Paths -/

/-- A walk from `s` that meets no vertex twice, with its vertices and the weights up to them. -/
inductive Path (E : α → α → Nat → Prop) (s : α) : α → Nat → List (α × Nat) → Prop
  | nil : Path E s s 0 [(s, 0)]
  | snoc {u v : α} {k w : Nat} {p : List (α × Nat)} (hp : Path E s u k p) (hw : E u v w)
      (hv : ∀ y ∈ p, y.1 ≠ v) : Path E s v (k + w) ((v, k + w) :: p)

/-- The weight of a path from `s` to `v` -/
def IsPathWeight (E : α → α → Nat → Prop) (s v : α) (k : Nat) : Prop := ∃ p, Path E s v k p

theorem Path.le {v : α} {k : Nat} {p : List (α × Nat)} (h : Path E s v k p) : ∀ y ∈ p, y.2 ≤ k := by
  induction h with
  | nil => exact fun y hy => (List.mem_singleton.mp hy) ▸ le_rfl
  | snoc _ _ _ ih =>
    exact List.forall_mem_cons.mpr ⟨le_rfl, fun y hy => (ih y hy).trans (Nat.le_add_right ..)⟩

/-- What holds at the start and goes along the edges holds of all path weights. -/
theorem IsPathWeight.of_closed {C : α → Nat → Prop} (hs : C s 0)
    (hedge : ∀ u v k w, C u k → E u v w → C v (k + w)) {v : α} {k : Nat} (h : IsPathWeight E s v k) :
    C v k := by
  obtain ⟨p, hp⟩ := h
  induction hp with
  | nil => exact hs
  | snoc _ hw _ ih => exact hedge _ _ _ _ ih hw

/-- A path to any other vertex has a last edge. -/
theorem IsPathWeight.exists_edge {v : α} {k : Nat} (h : IsPathWeight E s v k) (hv : v ≠ s) :
    ∃ u w, E u v w := by
  obtain ⟨p, hp⟩ := h
  cases hp with
  | nil => exact absurd rfl hv
  | snoc _ hw _ => exact ⟨_, _, hw⟩

/-- The number is the weight of a path to `v` above whose parts no label is. -/
def Traced (E : α → α → Nat → Prop) (s : α) (label : α → Nat) (v : α) (k : Nat) : Prop :=
  ∃ p, Path E s v k p ∧ ∀ y ∈ p, label y.1 ≤ y.2

namespace Traced

variable {label label' : α → Nat} {u v : α} {k w : Nat}

theorem weight (h : Traced E s label v k) : IsPathWeight E s v k := h.imp fun _ hp => hp.1

theorem mono (h : Traced E s label v k) (hle : ∀ v, label' v ≤ label v) : Traced E s label' v k := by
  obtain ⟨p, hp, hlabel⟩ := h
  exact ⟨p, hp, fun y hy => (hle y.1).trans (hlabel y hy)⟩

theorem start (hs : label s = 0) : Traced E s label s 0 :=
  ⟨_, .nil, fun _ hy => by rw [List.mem_singleton.mp hy]; exact hs.le⟩

/-- A path that improves the label of its end has not met it before. -/
theorem snoc (h : Traced E s label u k) (hw : E u v w) (hlt : k + w < label v) (hle : ∀ v, label' v ≤ label v)
    (hv : label' v = k + w) : Traced E s label' v (k + w) := by
  obtain ⟨p, hp, hlabel⟩ := h
  have hnew : ∀ y ∈ p, y.1 ≠ v := by
    rintro y hy rfl
    have hbefore := hlabel y hy
    have hpart := hp.le y hy
    omega
  refine ⟨_, hp.snoc hw hnew, List.forall_mem_cons.mpr ⟨hv.le, fun y hy => ?_⟩⟩
  exact (hle y.1).trans (hlabel y hy)

end Traced

end ShortestPath
