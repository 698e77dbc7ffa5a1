import Mathlib.Algebra.Group.Fin.Basic
import Gapbs.Conc.Schedule
import Gapbs.Graph.Csr
import Gapbs.Lib.OrderedForest

/-!
# Lock-free linking and path compression

`Link` and `Compress` of `cc.cc` on the shared array `comp`.  The array is an ordered forest: the
parent of a vertex is never larger than the vertex.  `Link` only hooks roots under smaller vertices
and `Compress` only short-cuts paths, so concurrent calls merge trees and never tear one apart.
-/

namespace Gapbs

open Conc OrderedForest VertexFacts

variable {n : Nat}

/-- The shared array `comp`. -/
abbrev Comp (n : Nat) := Fin n → Fin n

def loadComp (x : Fin n) : Prog (Comp n) (Fin n) := .load fun comp => comp x

def storeComp (x v : Fin n) : Prog (Comp n) Unit := .store fun comp => Function.update comp x v

/-- `compare_and_swap(comp[x], old_val, new_val)` -/
def casComp (x oldVal newVal : Fin n) : Prog (Comp n) Bool := .op fun comp =>
  if comp x = oldVal then some (true, Function.update comp x newVal) else some (false, comp)

/-- One turn of the loop of `Link`, on the candidates `p1` and `p2`. -/
def linkTurn (p : Fin n × Fin n) : Prog (Comp n) ((Fin n × Fin n) ⊕ Unit) := do
  if p.1 = p.2 then return .inr ()
  let high := if p.1 > p.2 then p.1 else p.2
  let low := p.1 + (p.2 - high)
  let pHigh ← loadComp high
  -- was already `low` or succeeded in writing `low`
  let done ← if pHigh = low then pure true
    else if pHigh = high then casComp high high low
    else pure false
  if done then return .inr ()
  let parentHigh ← loadComp high
  let p1 ← loadComp parentHigh
  let p2 ← loadComp low
  return .inl (p1, p2)

/-- Place nodes `u` and `v` in same component of lower component ID. -/
def link (u v : Fin n) : Prog (Comp n) Unit := do
  let p1 ← loadComp u
  let p2 ← loadComp v
  Prog.iter linkTurn (p1, p2)

/-- One turn of `while (comp[x] != comp[comp[x]]) comp[x] = comp[comp[x]]`. -/
def compressTurn (x : Fin n) (_ : Unit) : Prog (Comp n) (Unit ⊕ Unit) := do
  let parent ← loadComp x
  let parent' ← loadComp x
  let grandparent ← loadComp parent'
  if parent = grandparent then return .inr ()
  let parent ← loadComp x
  let grandparent ← loadComp parent
  storeComp x grandparent
  return .inl ()

/-- Reduce depth of tree for each component to 1 by crawling up parents. -/
def compress (T : Nat) [NeZero T] : Prog (Comp n) Unit :=
  .parallelFor T n fun x => .iter (compressTurn x) ()

/-! ## The forest invariant -/

section Forest

variable {r : Fin n → Fin n → Prop}

/-- Parents are smaller and related by `r`. -/
structure GoodFor (r : Fin n → Fin n → Prop) (comp : Comp n) : Prop where
  forest : IsForest comp
  related : ∀ x, r x (comp x)

theorem GoodFor.related_root (hr : Equivalence r) {comp : Comp n} (h : GoodFor r comp) (x : Fin n) :
    r x (root comp x) :=
  root_related h.forest hr h.related x

theorem GoodFor.related_of_root (hr : Equivalence r) {comp : Comp n} (h : GoodFor r comp) {x y : Fin n}
    (hxy : root comp x = root comp y) : r x y :=
  hr.trans (h.related_root hr x) (hxy ▸ hr.symm (h.related_root hr y))

/-- What linking may do to the array: values descend and trees are only merged. -/
structure LinksFor (r : Fin n → Fin n → Prop) (comp comp' : Comp n) : Prop where
  good : GoodFor r comp'
  le : ∀ x, comp' x ≤ comp x
  merges : ∀ x y, root comp x = root comp y → root comp' x = root comp' y

/-- What a call of `Link` does to the array: it links, and only a root gets another parent. -/
structure Hooked (r : Fin n → Fin n → Prop) (comp comp' : Comp n) : Prop extends LinksFor r comp comp' where
  roots : ∀ x, comp' x ≠ comp x → comp x = x

theorem Hooked.hook {comp : Comp n} (h : GoodFor r comp) {high low : Fin n} (hroot : comp high = high)
    (hlt : low < high) (hrel : r high low) : Hooked r comp (Function.update comp high low) where
  good.forest := isForest_update h.forest hlt.le
  good.related x := by
    by_cases hx : x = high
    · subst hx
      simpa using hrel
    · simpa [hx] using h.related x
  le x := by
    by_cases hx : x = high
    · subst hx
      simpa [hroot] using hlt.le
    · simp [hx]
  merges x y hxy := root_hook_eq h.forest hroot hlt hxy
  roots x hx := by
    by_cases hxh : x = high
    · rw [hxh, hroot]
    · rw [Function.update_of_ne hxh] at hx
      exact absurd rfl hx

end Forest

/-! ## `Link` -/

/-- The trees of `p.1` and `p.2` are those of `u` and `v`, in one order or the other. -/
def Candidates (comp : Comp n) (u v : Fin n) (p : Fin n × Fin n) : Prop :=
  root comp u = root comp p.1 ∧ root comp v = root comp p.2 ∨
    root comp u = root comp p.2 ∧ root comp v = root comp p.1

theorem high_eq (p1 p2 : Fin n) : (if p1 > p2 then p1 else p2) = max p1 p2 := by
  split
  · next h => rw [max_eq_left h.le]
  · next h => rw [max_eq_right (not_lt.mp h)]

/-- `p1 + (p2 - high)` is the smaller of the two. -/
theorem low_eq (p1 p2 : Fin n) : p1 + (p2 - max p1 p2) = min p1 p2 := by
  have : NeZero n := ⟨by have := p1.isLt; omega⟩
  rcases le_total p1 p2 with h | h
  · rw [max_eq_right h, sub_self, add_zero, min_eq_left h]
  · rw [max_eq_left h, add_sub_cancel, min_eq_right h]

theorem low_add_high (p1 p2 : Fin n) :
    (min p1 p2).val + (max p1 p2).val = p1.val + p2.val := by
  rcases le_total p1 p2 with h | h
  · rw [min_eq_left h, max_eq_right h]
  · rw [min_eq_right h, max_eq_left h, Nat.add_comm]

section Turn

variable {r : Fin n → Fin n → Prop} {u v : Fin n} {p : Fin n × Fin n}

theorem Candidates.links {comp comp' : Comp n} (h : Candidates comp u v p) (hl : LinksFor r comp comp') :
    Candidates comp' u v p :=
  h.imp (fun h => ⟨hl.merges _ _ h.1, hl.merges _ _ h.2⟩)
    fun h => ⟨hl.merges _ _ h.1, hl.merges _ _ h.2⟩

theorem Candidates.joined {comp : Comp n} (h : Candidates comp u v p) (hp : root comp p.1 = root comp p.2) :
    root comp u = root comp v := by
  rcases h with h | h
  · rw [h.1, h.2, hp]
  · rw [h.1, h.2, hp]

/-- The candidates are related as the two vertices are. -/
theorem Candidates.related (hr : Equivalence r) {comp : Comp n} (h : Candidates comp u v p)
    (hgood : GoodFor r comp) (huv : r u v) : r p.1 p.2 := by
  rcases h with ⟨h1, h2⟩ | ⟨h1, h2⟩
  · exact hr.trans (hgood.related_of_root hr h1.symm) (hr.trans huv (hgood.related_of_root hr h2))
  · exact hr.trans (hgood.related_of_root hr h2.symm)
      (hr.trans (hr.symm huv) (hgood.related_of_root hr h1))

theorem Candidates.minMax {comp : Comp n} (h : Candidates comp u v p) :
    Candidates comp u v (max p.1 p.2, min p.1 p.2) := by
  rcases le_total p.1 p.2 with hle | hle
  · rw [max_eq_right hle, min_eq_left hle]
    exact h.symm
  · rwa [max_eq_left hle, min_eq_right hle]

/-- What the other threads may do while a thread links. -/
abbrev LinkRely (r : Fin n → Fin n → Prop) (σ τ : Comp n × Unit) : Prop := LinksFor r σ.1 τ.1

/-- What a thread that links does. -/
abbrev LinkGuar (r : Fin n → Fin n → Prop) (σ τ : Comp n × Unit) : Prop := Hooked r σ.1 τ.1

theorem stable_linksFor {P : Comp n → Prop}
    (h : ∀ comp comp', GoodFor r comp → P comp → LinksFor r comp comp' → P comp') :
    Stable (LinkRely r) fun σ => GoodFor r σ.1 ∧ P σ.1 :=
  fun σ τ hσ hl => ⟨hl.good, h σ.1 τ.1 hσ.1 hσ.2 hl⟩

/-- A turn of `Link` either joins the trees of `u` and `v` or goes on with smaller candidates. -/
def LinkTurnPost (r : Fin n → Fin n → Prop) (u v : Fin n) (p : Fin n × Fin n) :
    (Fin n × Fin n) ⊕ Unit → Comp n × Unit → Prop
  | .inl q, τ => (GoodFor r τ.1 ∧ Candidates τ.1 u v q) ∧ q.1.val + q.2.val < p.1.val + p.2.val
  | .inr _, τ => GoodFor r τ.1 ∧ root τ.1 u = root τ.1 v

theorem linkTurn_exit {σ : Comp n × Unit} (hσ : GoodFor r σ.1 ∧ root σ.1 u = root σ.1 v) :
    WP (LinkRely r) (LinkGuar r) (LinkTurnPost r u v p) (.ret (.inr ())) σ :=
  WP.ret hσ (stable_linksFor fun _ _ _ h hl => hl.merges _ _ h)

/-- The second half of a turn: `high` has lost its root, so both refreshed candidates are smaller in
total, whatever was written meanwhile. -/
theorem linkTurn_refresh {high low : Fin n} (hsum : low.val + high.val = p.1.val + p.2.val)
    {σ : Comp n × Unit}
    (hσ : GoodFor r σ.1 ∧ Candidates σ.1 u v (high, low) ∧ σ.1 high < high) :
    WP (LinkRely r) (LinkGuar r) (LinkTurnPost r u v p)
      ((loadComp high).bind fun parentHigh => (loadComp parentHigh).bind fun p1 =>
        (loadComp low).bind fun p2 => .ret (.inl (p1, p2))) σ := by
  refine WP.load_bind hσ (stable_linksFor (P := fun comp => Candidates comp u v (high, low) ∧
    comp high < high) fun comp comp' _ h hl => ⟨h.1.links hl, (hl.le high).trans_lt h.2⟩) ?_
  rintro comp _ ⟨hgood, hcand, hlt⟩
  -- the parent of `high`, now below it, stands for its tree
  refine WP.load_bind (P := fun σ => GoodFor r σ.1 ∧ Candidates σ.1 u v (comp high, low))
    ⟨hgood, ?_⟩ (stable_linksFor (P := fun c => Candidates c u v (comp high, low))
      fun _ _ _ h hl => h.links hl) ?_
  · simpa only [Candidates, root_parent hgood.forest] using hcand
  rintro comp' _ ⟨hgood', hcand'⟩
  refine WP.load_bind (P := fun σ => GoodFor r σ.1 ∧ Candidates σ.1 u v (comp' (comp high), low))
    ⟨hgood', ?_⟩ (stable_linksFor (P := fun c => Candidates c u v (comp' (comp high), low))
      fun _ _ _ h hl => h.links hl) ?_
  · simpa only [Candidates, root_parent hgood'.forest] using hcand'
  rintro comp'' _ ⟨hgood'', hcand''⟩
  -- the first candidate falls below `high`, the second does not rise above `low`
  have h1 : (comp' (comp high)).val < high.val := (hgood'.forest (comp high)).trans_lt hlt
  have h2 : (comp'' low).val ≤ low.val := hgood''.forest low
  refine WP.ret (Q := LinkTurnPost r u v p) ⟨⟨hgood'', ?_⟩, by simp only; omega⟩ ?_
  · simpa only [Candidates, root_parent hgood''.forest] using hcand''
  · exact fun σ τ h hl => ⟨⟨hl.good, h.1.2.links hl⟩, h.2⟩

theorem linkTurn_wp (hr : Equivalence r) (huv : r u v) (p : Fin n × Fin n)
    (σ : Comp n × Unit) (hσ : GoodFor r σ.1 ∧ Candidates σ.1 u v p) :
    WP (LinkRely r) (LinkGuar r) (LinkTurnPost r u v p) (linkTurn p) σ := by
  simp only [linkTurn, high_eq, low_eq, Prog.bind_eq, Prog.pure_eq]
  split
  · next heq => exact linkTurn_exit ⟨hσ.1, hσ.2.joined (by rw [heq])⟩
  next hne =>
  have hlt : min p.1 p.2 < max p.1 p.2 := min_lt_max.mpr hne
  have hsum := low_add_high p.1 p.2
  have hσ' : GoodFor r σ.1 ∧ Candidates σ.1 u v (max p.1 p.2, min p.1 p.2) := ⟨hσ.1, hσ.2.minMax⟩
  -- from here on only the order of the two candidates and their sum matter
  revert hlt hsum hσ'
  generalize max p.1 p.2 = high
  generalize min p.1 p.2 = low
  intro hlt hsum hσ
  have stable : Stable (LinkRely r) fun σ => GoodFor r σ.1 ∧ Candidates σ.1 u v (high, low) :=
    stable_linksFor (P := fun c => Candidates c u v (high, low)) fun _ _ _ h hl => h.links hl
  refine WP.load_bind hσ stable ?_
  rintro comp _ ⟨hgood, hcand⟩
  split
  · next hlow =>
    -- another thread has hooked `high` under `low` already
    have hjoin : root comp high = root comp low :=
      hlow ▸ (root_parent (c := comp) hgood.forest high).symm
    exact linkTurn_exit ⟨hgood, hcand.joined hjoin⟩
  · split
    · -- `high` is still a root as far as this thread knows: try to hook it
      refine WP.op_bind ⟨hgood, hcand⟩ stable ?_
      rintro comp' _ ⟨hgood', hcand'⟩
      by_cases hroot : comp' high = high
      · have hook := Hooked.hook hgood' hroot hlt (hcand'.related hr hgood' huv)
        refine ⟨true, _, (), if_pos hroot, .inr hook, linkTurn_exit ⟨hook.good, ?_⟩⟩
        refine (hcand'.links hook.toLinksFor).joined ?_
        rw [← root_parent hook.good.forest high, Function.update_self]
      · refine ⟨false, comp', (), if_neg hroot, .inl rfl, ?_⟩
        exact linkTurn_refresh hsum ⟨hgood', hcand', lt_of_le_of_ne (hgood'.forest high) hroot⟩
    · next hmoved =>
      exact linkTurn_refresh hsum ⟨hgood, hcand, lt_of_le_of_ne (hgood.forest high) hmoved⟩

/-- The loop of `Link`, whatever runs its turns. -/
theorem turns_wp {turn : Fin n × Fin n → Prog (Comp n) ((Fin n × Fin n) ⊕ Unit)}
    (hturn : ∀ p σ, GoodFor r σ.1 ∧ Candidates σ.1 u v p →
      WP (LinkRely r) (LinkGuar r) (LinkTurnPost r u v p) (turn p) σ) {σ : Comp n × Unit}
    (hgood : GoodFor r σ.1) :
    WP (LinkRely r) (LinkGuar r) (fun _ σ => GoodFor r σ.1 ∧ root σ.1 u = root σ.1 v)
      ((loadComp u).bind fun p1 => (loadComp v).bind fun p2 => Prog.iter turn (p1, p2)) σ := by
  refine WP.load_bind (P := fun σ => GoodFor r σ.1 ∧ True) ⟨hgood, trivial⟩
    (stable_linksFor (P := fun _ => True) fun _ _ _ h _ => h) ?_
  rintro comp _ ⟨hgood, -⟩
  refine WP.load_bind (P := fun σ => GoodFor r σ.1 ∧ root σ.1 u = root σ.1 (comp u))
    ⟨hgood, (root_parent hgood.forest u).symm⟩
    (stable_linksFor (P := fun c => root c u = root c (comp u)) fun _ _ _ h hl => hl.merges _ _ h) ?_
  rintro comp' _ ⟨hgood', hu⟩
  have hcand : Candidates comp' u v (comp u, comp' v) :=
    .inl ⟨hu, (root_parent hgood'.forest v).symm⟩
  refine WP.iter (fun p σ => GoodFor r σ.1 ∧ Candidates σ.1 u v p)
    (fun p _ => p.1.val + p.2.val) ⟨hgood', hcand⟩ ?_
    (fun _ => stable_linksFor (P := fun c => root c u = root c v) fun _ _ _ h hl => hl.merges _ _ h)
    (fun _ _ _ _ _ => le_rfl) fun p τ hτ => (hturn p τ hτ).mono ?_
  · exact fun p => stable_linksFor (P := fun c => Candidates c u v p) fun _ _ _ h hl => h.links hl
  · rintro (q | _) τ h <;> exact h

/-- `Link(u, v)` returns under any interference by other links, and then `u` and `v` are in one
tree. -/
theorem link_wp_for (hr : Equivalence r) (huv : r u v) {σ : Comp n × Unit} (hgood : GoodFor r σ.1) :
    WP (LinkRely r) (LinkGuar r) (fun _ σ => GoodFor r σ.1 ∧ root σ.1 u = root σ.1 v) (link u v) σ :=
  turns_wp (linkTurn_wp hr huv) hgood

end Turn

/-! ## Links along the edges of a graph -/

/-- Parents are smaller and lie in the same weak component. -/
structure Good (g : Graph n) (comp : Comp n) : Prop where
  forest : IsForest comp
  weak : ∀ x, g.Weak x (comp x)

theorem good_iff {g : Graph n} {comp : Comp n} : Good g comp ↔ GoodFor g.Weak comp :=
  ⟨fun h => ⟨h.forest, h.weak⟩, fun h => ⟨h.forest, h.related⟩⟩

/-- Every vertex by itself. -/
theorem Good.of_id {g : Graph n} {comp : Comp n} (h : ∀ x, comp x = x) : Good g comp :=
  ⟨fun x => (h x).le, fun x => (h x).symm ▸ g.weak_equivalence.refl x⟩

theorem Good.weak_of_root {g : Graph n} {comp : Comp n} (h : Good g comp) {x y : Fin n}
    (hxy : root comp x = root comp y) : g.Weak x y :=
  (good_iff.mp h).related_of_root g.weak_equivalence hxy

/-- What linking may do to the array: values descend and trees are only merged. -/
structure Links (g : Graph n) (comp comp' : Comp n) : Prop where
  good : Good g comp'
  le : ∀ x, comp' x ≤ comp x
  merges : ∀ x y, root comp x = root comp y → root comp' x = root comp' y

theorem links_iff {g : Graph n} {comp comp' : Comp n} : Links g comp comp' ↔ LinksFor g.Weak comp comp' :=
  ⟨fun h => ⟨good_iff.mp h.good, h.le, h.merges⟩, fun h => ⟨good_iff.mpr h.good, h.le, h.merges⟩⟩

/-- Linking actions as a rely or a guarantee. -/
abbrev LinkStep (g : Graph n) (σ τ : Comp n × Unit) : Prop := Links g σ.1 τ.1

theorem stable_links {g : Graph n} {P : Comp n → Prop}
    (h : ∀ comp comp', Good g comp → P comp → Links g comp comp' → P comp') :
    Stable (LinkStep g) fun σ => Good g σ.1 ∧ P σ.1 :=
  fun σ τ hσ hl => ⟨hl.good, h σ.1 τ.1 hσ.1 hσ.2 hl⟩

theorem link_wp {g : Graph n} {u v : Fin n} (huv : g.Weak u v) {comp : Comp n}
    (hgood : Good g comp) :
    WP (Γ := Unit) (LinkStep g) (LinkStep g)
      (fun _ σ => Good g σ.1 ∧ root σ.1 u = root σ.1 v) (link u v) (comp, ()) := by
  have hlink := link_wp_for g.weak_equivalence huv (σ := (comp, ())) (good_iff.mp hgood)
  apply (hlink.weaken (fun _ _ h => links_iff.mp h) fun _ _ h => links_iff.mpr h.toLinksFor).mono
  exact fun _ σ h => ⟨good_iff.mpr h.1, h.2⟩

/-! ## `Compress` -/

/-- What compressing may do to the array: values descend within their trees and no root changes. -/
structure Shortcuts (g : Graph n) (comp comp' : Comp n) : Prop where
  good : Good g comp'
  le : ∀ x, comp' x ≤ comp x
  root_eq : ∀ x, root comp' x = root comp x

theorem Shortcuts.store {g : Graph n} {comp : Comp n} (h : Good g comp) {x y : Fin n}
    (hle : y ≤ comp x) (hroot : root comp y = root comp x) :
    Shortcuts g comp (Function.update comp x y) where
  good.forest := isForest_update h.forest (hle.trans (h.forest x))
  good.weak z := by
    by_cases hz : z = x
    · subst hz
      simpa using h.weak_of_root hroot.symm
    · simpa [hz] using h.weak z
  le z := by
    by_cases hz : z = x
    · subst hz
      simpa using hle
    · simp [hz]
  root_eq z := root_shortcut h.forest hle hroot z

/-- A vertex that points to its root goes on doing so. -/
theorem Shortcuts.flat {g : Graph n} {comp comp' : Comp n} (hs : Shortcuts g comp comp')
    {x : Fin n} (h : comp x = root comp x) : comp' x = root comp' x := by
  refine le_antisymm ?_ ?_
  · rw [hs.root_eq, ← h]
    exact hs.le x
  · rw [← root_parent hs.good.forest]
    exact root_le hs.good.forest _

/-- What the other threads do while one thread compresses the path of `x`. -/
def CompressRely (g : Graph n) (x : Fin n) (σ τ : Comp n × Unit) : Prop :=
  Shortcuts g σ.1 τ.1 ∧ τ.1 x = σ.1 x

/-- What a thread that compresses the path of `x` does. -/
def CompressGuar (g : Graph n) (x : Fin n) (σ τ : Comp n × Unit) : Prop :=
  Shortcuts g σ.1 τ.1 ∧ ∀ y, y ≠ x → τ.1 y = σ.1 y

/-- The array is a forest with the roots of `comp₀`. -/
def SameRoots (g : Graph n) (comp₀ comp : Comp n) : Prop :=
  Good g comp ∧ ∀ y, root comp y = root comp₀ y

theorem SameRoots.shortcuts {g : Graph n} {comp₀ comp comp' : Comp n}
    (h : SameRoots g comp₀ comp) (hs : Shortcuts g comp comp') : SameRoots g comp₀ comp' :=
  ⟨hs.good, fun y => (hs.root_eq y).trans (h.2 y)⟩

theorem stable_compress {g : Graph n} {x : Fin n} {comp₀ : Comp n} {P : Comp n → Prop}
    (h : ∀ comp comp', P comp → Shortcuts g comp comp' → comp' x = comp x → P comp') :
    Stable (CompressRely g x) fun σ => SameRoots g comp₀ σ.1 ∧ P σ.1 :=
  fun σ τ hσ hR => ⟨hσ.1.shortcuts hR.1, h σ.1 τ.1 hσ.2 hR.1 hR.2⟩

/-- A turn of the loop of `Compress` either finds the root of `x` or lowers `comp[x]`. -/
def CompressTurnPost (g : Graph n) (x : Fin n) (comp₀ : Comp n) (a : Fin n) :
    Unit ⊕ Unit → Comp n × Unit → Prop
  | .inl _, τ => SameRoots g comp₀ τ.1 ∧ τ.1 x < a
  | .inr _, τ => SameRoots g comp₀ τ.1 ∧ τ.1 x = root τ.1 x

theorem compressTurn_wp {g : Graph n} {x : Fin n} {comp₀ : Comp n} (σ : Comp n × Unit)
    (hσ : SameRoots g comp₀ σ.1) :
    WP (CompressRely g x) (CompressGuar g x) (CompressTurnPost g x comp₀ (σ.1 x))
      (compressTurn x ()) σ := by
  generalize ha : σ.1 x = a
  have stable : Stable (CompressRely g x) fun σ => SameRoots g comp₀ σ.1 ∧ σ.1 x = a :=
    stable_compress (P := fun c => c x = a) fun _ _ h _ hx => hx.trans h
  simp only [compressTurn, Prog.bind_eq, Prog.pure_eq]
  refine WP.load_bind ⟨hσ, ha⟩ stable ?_
  rintro comp _ ⟨hsame, rfl⟩
  refine WP.load_bind ⟨hsame, rfl⟩ stable ?_
  rintro comp' _ ⟨hsame', hx'⟩
  simp only at hx' ⊢
  refine WP.load_bind ⟨hsame', hx'⟩ stable ?_
  rintro c _ ⟨hsame, hx⟩
  simp only [hx'] at hsame hx ⊢
  generalize comp x = a at hx hx'
  split
  · next hfix =>
    have hroot : c x = root c x := by
      rw [← root_parent hsame.1.forest, hx, root_of_fixed hfix.symm]
    exact WP.ret (Q := CompressTurnPost g x comp₀ a) ⟨hsame, hroot⟩
      (stable_compress (P := fun c => c x = root c x) fun _ _ h hs _ => hs.flat h)
  · next hne =>
    have hlt : c a < a := lt_of_le_of_ne (hsame.1.forest a) (Ne.symm hne)
    have stable' : Stable (CompressRely g x)
        fun σ => SameRoots g comp₀ σ.1 ∧ σ.1 x = a ∧ σ.1 a < a :=
      stable_compress (P := fun c => c x = a ∧ c a < a)
        fun _ _ h hs hx => ⟨hx.trans h.1, (hs.le a).trans_lt h.2⟩
    refine WP.load_bind ⟨hsame, hx, hlt⟩ stable' ?_
    rintro c _ ⟨hsame, hx, hlt⟩
    simp only at hx hlt
    simp only [hx]
    refine WP.load_bind ⟨hsame, hx, hlt⟩ stable' ?_
    rintro c _ ⟨hsame, hx, hlt⟩
    simp only at hx hlt hsame
    -- the grandparent read here lies below `a` and stays in the tree of `x`
    have hb : root c (c a) = root c a := root_parent hsame.1.forest a
    generalize c a = b at hlt hb
    refine WP.store_bind (P := fun σ => SameRoots g comp₀ σ.1 ∧ σ.1 x = a ∧
      root σ.1 b = root σ.1 a) ⟨hsame, hx, hb⟩ (stable_compress
        (P := fun c => c x = a ∧ root c b = root c a) fun _ _ h hs hx => ⟨hx.trans h.1, ?_⟩) ?_
    · rw [hs.root_eq, hs.root_eq, h.2]
    rintro c _ ⟨hsame, hx, hb⟩
    simp only at hx hb hsame
    have hroot : root c b = root c x := by rw [hb, ← hx, root_parent hsame.1.forest]
    have hs : Shortcuts g c (Function.update c x b) :=
      .store hsame.1 (hx ▸ hlt.le) hroot
    refine ⟨(), .inr ⟨hs, fun y hy => Function.update_of_ne hy _ _⟩, ?_⟩
    refine WP.ret (Q := CompressTurnPost g x comp₀ a) ⟨hsame.shortcuts hs, ?_⟩
      (stable_compress (P := fun c => c x < a) fun _ _ h _ hx => hx ▸ h)
    simpa using hlt

theorem compressLoop_wp {g : Graph n} {x : Fin n} {comp₀ : Comp n} {σ : Comp n × Unit}
    (hσ : SameRoots g comp₀ σ.1) :
    WP (CompressRely g x) (CompressGuar g x)
      (fun _ σ => SameRoots g comp₀ σ.1 ∧ σ.1 x = root σ.1 x)
      (.iter (compressTurn x) ()) σ := by
  refine WP.iter (fun _ σ => SameRoots g comp₀ σ.1) (fun _ σ => (σ.1 x).val) hσ
    (fun _ σ τ hσ hR => hσ.shortcuts hR.1)
    (fun _ => stable_compress (P := fun c => c x = root c x) fun _ _ h hs _ => hs.flat h)
    (fun _ σ τ _ (hR : CompressRely g x σ τ) => by rw [hR.2]) fun _ τ hτ => ?_
  refine (compressTurn_wp τ hτ).mono ?_
  rintro (_ | _) τ' h <;> exact h

/-- `Compress` leaves every vertex pointing to its root and changes no root. -/
theorem compress_solo {g : Graph n} {T : Nat} [NeZero T] {comp : Comp n} (h : Good g comp) :
    Solo (compress T) comp fun _ comp' =>
      SameRoots g comp comp' ∧ ∀ x, comp' x = root comp' x := by
  have stable {r : Comp n × Unit → Comp n × Unit → Prop}
      (hr : ∀ σ τ, r σ τ → Shortcuts g σ.1 τ.1) (l : List (Fin n)) :
      Stable r fun σ => SameRoots g comp σ.1 ∧ ∀ x ∈ l, σ.1 x = root σ.1 x :=
    fun σ τ hσ hR => ⟨hσ.1.shortcuts (hr σ τ hR), fun x hx => (hr σ τ hR).flat (hσ.2 x hx)⟩
  refine (Solo.parallelFor (Δ := Unit)
    (fun sched t σ τ => Shortcuts g σ.1 τ.1 ∧ ∀ y, y ∉ sched.work t → τ.1 y = σ.1 y)
    (fun sched t l σ => SameRoots g comp σ.1 ∧ ∀ x ∈ l, σ.1 x = root σ.1 x)
    (fun _ => ()) (fun _ _ => ⟨⟨h, fun _ => rfl⟩, by simp⟩) ?_ ?_).mono ?_
  · intro sched t l
    apply stable
    rintro _ _ ⟨_, _, hs⟩
    exact hs.1
  · intro sched t pre x post τ hwork hτ
    have hx : x ∈ sched.work t := by simp [hwork]
    have hwp := (compressLoop_wp (x := x) hτ.1).frame (P := fun σ => SameRoots g comp σ.1 ∧
      ∀ x ∈ pre, σ.1 x = root σ.1 x) hτ (stable (fun _ _ hs => hs.1) pre)
      (stable (fun _ _ (hs : CompressGuar g x _ _) => hs.1) pre)
    refine (hwp.weaken ?_ ?_).mono ?_
    · rintro σ τ ⟨u, hu, hs, hown⟩
      exact ⟨hs, hown x fun hxu => hu (sched.eq_of_mem hxu hx)⟩
    · exact fun σ τ hs => ⟨hs.1, fun y hy => hs.2 y fun heq => hy (heq ▸ hx)⟩
    · rintro _ σ ⟨⟨hsame, hroot⟩, -, hpre⟩
      refine ⟨hsame, fun y hy => ?_⟩
      rcases List.mem_append.mp hy with hy | hy
      · exact hpre y hy
      · exact List.mem_singleton.mp hy ▸ hroot
  · rintro _ comp' ⟨sched, _, hall⟩
    refine ⟨(hall 0).1, fun x => ?_⟩
    obtain ⟨t, ht⟩ := sched.exists_mem x
    exact (hall t).2 x ht

end Gapbs
