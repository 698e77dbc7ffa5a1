import Mathlib.Data.Multiset.Basic
import Gapbs.Builder.Rows
import Gapbs.Conc.Lens

/-!
# Counting degrees

Edge lists as `builder.h` takes them, and the parallel loop that counts the degrees of the vertices
by `fetch_and_add`.  Counters are of type `NodeID_` and wrap around.
-/

namespace Gapbs

open Conc Function

variable {n : Nat} {D : Type}

/-- `EdgePair<SrcT, DstT>` -/
structure EdgePair (N D : Type) where
  u : N
  v : D
deriving DecidableEq

/-- What the builder asks of a destination type: a vertex id or one with a weight. -/
class Dest (n : outParam Nat) (D : Type) where
  /-- the cast to `NodeID_` -/
  id : D → Fin n
  /-- `GetSource` of an edge, by its two ends -/
  getSource : Fin n → D → D
  /-- `operator<` -/
  lt : D → D → Bool
  /-- `operator==` -/
  eq : D → D → Bool

instance : Dest n (Fin n) where
  id v := v
  getSource u _ := u
  lt u v := u < v
  eq u v := u = v

/-- `fetch_and_add(degrees[v], 1)` -/
def fetchAndAdd (v : Fin n) : Prog (Fin n → Int) Int :=
  .op fun degrees => some (degrees v, update degrees v (toNodeID (degrees v + 1)))

/-- One iteration of the loop of `CountDegrees`. -/
def countEdge [Dest n D] (symmetrize inPlace transpose : Bool) (e : EdgePair (Fin n) D) :
    Prog (Fin n → Int) Unit := do
  if symmetrize || (!symmetrize && !transpose) then
    let _ ← fetchAndAdd e.u
  if (symmetrize && !inPlace) || (!symmetrize && transpose) then
    let _ ← fetchAndAdd (Dest.id e.v)

/-- `CountDegrees(el, transpose)`: the counters are filled with zeros, then the edges are counted. -/
def countDegrees [Dest n D] (T : Nat) [NeZero T] (symmetrize inPlace : Bool)
    (el : List (EdgePair (Fin n) D)) (transpose : Bool) : Prog (Fin n → Int) Unit := do
  .parallelFor T n fun v => .store fun degrees => update degrees v 0
  .parallelFor T el.length fun i => countEdge symmetrize inPlace transpose (el.get i)

/-- The vertices whose counters an edge increases. -/
def countedVertices [Dest n D] (symmetrize inPlace transpose : Bool) (e : EdgePair (Fin n) D) :
    List (Fin n) :=
  (if symmetrize || (!symmetrize && !transpose) then [e.u] else []) ++
    if (symmetrize && !inPlace) || (!symmetrize && transpose) then [Dest.id e.v] else []

/-- How often a vertex is counted. -/
def degreeOf [Dest n D] (symmetrize inPlace transpose : Bool) (el : List (EdgePair (Fin n) D))
    (v : Fin n) : Nat :=
  (el.flatMap (countedVertices symmetrize inPlace transpose)).count v

theorem countEdge_eq [Dest n D] (symmetrize inPlace transpose : Bool) (e : EdgePair (Fin n) D) :
    countEdge symmetrize inPlace transpose e =
      .forEach (countedVertices symmetrize inPlace transpose e) () fun v _ =>
        (fetchAndAdd v).bind fun _ => .ret () := by
  cases symmetrize <;> cases inPlace <;> cases transpose <;> rfl

section

variable {m : Nat} (lists : Fin m → List (Fin n))

/-- The counters hold what the iterations have counted so far, `γ i` vertices by iteration `i`. -/
def Counts (degrees : Fin n → Int) (γ : Fin m → Nat) : Prop :=
  ∀ v, degrees v = toNodeID (∑ i, ((lists i).take (γ i)).count v : Nat)

variable {lists}

theorem Counts.fetchAndAdd {degrees : Fin n → Int} {γ : Fin m → Nat}
    (h : Counts lists degrees γ) {i : Fin m} (hlt : γ i < (lists i).length) :
    Counts lists (update degrees (lists i)[γ i] (toNodeID (degrees (lists i)[γ i] + 1)))
      (update γ i (γ i + 1)) := by
  intro v
  have htake := List.take_succ_eq_append_getElem hlt
  have hother (j : Fin m) (hj : j ≠ i) :
      ((lists j).take (update γ i (γ i + 1) j)).count v = ((lists j).take (γ j)).count v := by
    rw [update_of_ne hj]
  by_cases hv : v = (lists i)[γ i]
  · subst hv
    have hsum := sum_eq_add_of_cell (g := fun j => ((lists j).take (update γ i (γ i + 1) j)).count
      (lists i)[γ i]) i 1 (by rw [update_self, htake, List.count_append, List.count_singleton_self])
      hother
    rw [update_self, hsum, h (lists i)[γ i], toNodeID, toNodeID, toNodeID, Int.bmod_add_bmod]
    push_cast
    rfl
  · have hsum := sum_eq_add_of_cell (g := fun j => ((lists j).take (update γ i (γ i + 1) j)).count v)
      i 0 (by rw [update_self, htake, List.count_append, List.count_singleton, if_neg]; simpa using
        fun heq => hv heq.symm) hother
    rw [update_of_ne hv, hsum, h v, Nat.add_zero]

theorem countLoop_solo {T : Nat} [NeZero T] :
    Solo (.parallelFor T m fun i => .forEach (lists i) () fun v _ =>
      (fetchAndAdd v).bind fun _ => .ret ()) (fun _ => 0) fun _ degrees =>
      ∀ v, degrees v = toNodeID ((∑ i, (lists i).count v : Nat)) := by
  apply (Solo.parallelFor_ghost (fun σ => Counts lists σ.1 σ.2) (fun _ => 0)
    (fun i => (lists i).length) ?_ ?_).mono
  · intro _ degrees h v
    simpa using h v
  · intro v
    simp [toNodeID]
  · intro i σ hσ hfirst
    apply (WP.forEach (l := lists i) (fun pre _ σ => Counts lists σ.1 σ.2 ∧ σ.2 i = pre.length)
      ⟨hσ, hfirst⟩ (fun pre _ => stable_otherCells _ _ _) ?_).mono fun _ _ h => h
    rintro pre v post _ ⟨degrees, γ⟩ hsplit ⟨hcounts, hγ⟩
    apply WP.op_bind (P := fun σ => Counts lists σ.1 σ.2 ∧ σ.2 i = pre.length) ⟨hcounts, hγ⟩
      (stable_otherCells _ _ _)
    rintro degrees γ ⟨hcounts, hγ⟩
    change γ i = pre.length at hγ
    have hlt : γ i < (lists i).length := by simp [hsplit, hγ]
    have hv : (lists i)[γ i] = v := by simp [hsplit, hγ]
    have hnext := hcounts.fetchAndAdd hlt
    rw [hv] at hnext
    refine ⟨_, _, update γ i (γ i + 1), rfl, .inr ⟨fun _ => hnext, fun j hj => update_of_ne hj ..⟩, ?_⟩
    apply WP.ret _ (stable_otherCells _ _ _)
    refine ⟨hnext, ?_⟩
    show update γ i (γ i + 1) i = _
    rw [update_self, hγ, List.length_append, List.length_singleton]

end

/-- Whatever the interleaving, every counter ends with the number of times its vertex is counted. -/
theorem countDegrees_solo [Dest n D] {T : Nat} [NeZero T] {symmetrize inPlace transpose : Bool}
    {el : List (EdgePair (Fin n) D)} (degrees : Fin n → Int) :
    Solo (countDegrees T symmetrize inPlace el transpose) degrees fun _ degrees' =>
      ∀ v, degrees' v = toNodeID (degreeOf symmetrize inPlace transpose el v) := by
  apply Solo.bind
  apply (Solo.parallelFor_store (fun v degrees => update degrees v 0) (fun degrees => degrees)
    (fun _ => 0) (fun v degrees => update_self ..) fun v w degrees hw => update_of_ne hw ..).mono
  intro _ degrees hzero
  obtain rfl : degrees = fun _ => 0 := funext hzero
  simp only [countEdge_eq]
  apply countLoop_solo.mono
  intro _ degrees hdegrees v
  rw [hdegrees v, degreeOf, List.count_flatMap, ← Fin.sum_univ_fun_getElem]
  rfl

end Gapbs
