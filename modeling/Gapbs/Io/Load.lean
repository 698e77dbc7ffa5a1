import Gapbs.Builder.Determined
import Gapbs.Io.EdgeText

/-!
# Loading a text file

`MakeGraph` for a text file: the edge list that `ReadFile` returns is given to the builder, with weights from
the generator if the file had none.
-/

namespace Gapbs

open Conc InStream

/-- An edge with its vertices as the builder takes them; `CountDegrees` would leave its array at a negative
id. -/
def natEdge (e : EdgePair Int Int) : Option (EdgePair Nat Nat) :=
  if 0 ≤ e.u ∧ 0 ≤ e.v then some ⟨e.u.toNat, e.v.toNat⟩ else none

def natWEdge (e : EdgePair Int (Int × Int)) : Option (EdgePair Nat (Nat × Int)) :=
  if 0 ≤ e.u ∧ 0 ≤ e.v.1 then some ⟨e.u.toNat, (e.v.1.toNat, e.v.2)⟩ else none

/-- `InsertWeights` for edges with a weight: the generator is seeded anew for every block, so that what it
gives depends on the position of the edge only. -/
def insertWeights (udist : Nat → Int) (el : List (EdgePair Int (Int × Int))) :
    List (EdgePair Int (Int × Int)) :=
  el.mapIdx fun k e => ⟨e.u, (e.v.1, udist k + 1)⟩

/-- `MakeGraph` behind `ReadFile` without weights; `InsertWeights` does nothing to such a list. -/
def makeGraphOfRead (T : Nat) [NeZero T] (symmetrize : Bool) (el : List (EdgePair Int Int)) :
    Prog (∀ n, BuilderMem n (Fin n)) ((n : Nat) × Graph n) :=
  match el.mapM natEdge with
  | none => .fail
  | some el => makeGraph T symmetrize el

/-- `MakeGraph` behind `ReadFile` with weights -/
def makeWGraphOfRead (udist : Nat → Int) (T : Nat) [NeZero T] (symmetrize needsWeights : Bool)
    (el : List (EdgePair Int (Int × Int))) : Prog (∀ n, BuilderMem n (NodeWeight n)) ((n : Nat) × WGraph n) :=
  match (if needsWeights then insertWeights udist el else el).mapM natWEdge with
  | none => .fail
  | some el => makeWGraph T symmetrize el

/-- Loading the file gives the graph `r`: on any team of threads and in all interleavings, and whatever the
uninitialised variables of the readers hold. -/
def Loads (symmetrize : Bool) (filename bytes : List UInt8) (r : (n : Nat) × Graph n) : Prop :=
  ∀ vars, ∃ el needsWeights, (readFile vars filename (some bytes) false).Returns (.ok (el, needsWeights)) ∧
    ∀ (T : Nat) [NeZero T] (m : ∀ n, BuilderMem n (Fin n)),
      (makeGraphOfRead T symmetrize el).Correct m fun r' _ => r' = r

/-- Loading the file gives the weighted graph `r`, also whatever the generator of weights would give. -/
def WLoads (symmetrize : Bool) (filename bytes : List UInt8) (r : (n : Nat) × WGraph n) : Prop :=
  ∀ vars, ∃ el needsWeights, (readFile vars filename (some bytes) true).Returns (.ok (el, needsWeights)) ∧
    ∀ (udist : Nat → Int) (T : Nat) [NeZero T] (m : ∀ n, BuilderMem n (NodeWeight n)),
      (makeWGraphOfRead udist T symmetrize needsWeights el).Correct m fun r' _ => r' = r

/-! ## Edge lists that are read as they are -/

/-- The edge as a reader returns it. -/
def EdgePair.ints (e : EdgePair Nat Nat) : EdgePair Int Int := ⟨e.u, e.v⟩

def EdgePair.intsW (e : EdgePair Nat (Nat × Int)) : EdgePair Int (Int × Int) := ⟨e.u, (e.v.1, e.v.2)⟩

theorem mapM_natEdge (el : List (EdgePair Nat Nat)) : (el.map EdgePair.ints).mapM natEdge = some el := by
  have hedge (e : EdgePair Nat Nat) : natEdge e.ints = some e := by
    unfold natEdge EdgePair.ints
    rw [if_pos ⟨Int.natCast_nonneg _, Int.natCast_nonneg _⟩]
    rfl
  induction el with
  | nil => rfl
  | cons e el ih =>
    rw [List.map_cons, List.mapM_cons, hedge, ih]
    rfl

theorem mapM_natWEdge (el : List (EdgePair Nat (Nat × Int))) :
    (el.map EdgePair.intsW).mapM natWEdge = some el := by
  have hedge (e : EdgePair Nat (Nat × Int)) : natWEdge e.intsW = some e := by
    unfold natWEdge EdgePair.intsW
    rw [if_pos ⟨Int.natCast_nonneg _, Int.natCast_nonneg _⟩]
    rfl
  induction el with
  | nil => rfl
  | cons e el ih =>
    rw [List.map_cons, List.mapM_cons, hedge, ih]
    rfl

theorem makeGraphOfRead_ints (T : Nat) [NeZero T] (symmetrize : Bool) (el : List (EdgePair Nat Nat)) :
    makeGraphOfRead T symmetrize (el.map EdgePair.ints) = makeGraph T symmetrize el := by
  unfold makeGraphOfRead
  rw [mapM_natEdge]

/-- Weights that have been read stay. -/
theorem makeWGraphOfRead_ints (udist : Nat → Int) (T : Nat) [NeZero T] (symmetrize : Bool)
    (el : List (EdgePair Nat (Nat × Int))) :
    makeWGraphOfRead udist T symmetrize false (el.map EdgePair.intsW) = makeWGraph T symmetrize el := by
  unfold makeWGraphOfRead
  rw [if_neg Bool.false_ne_true, mapM_natWEdge]

theorem Builds.loads {symmetrize : Bool} {el : List (EdgePair Nat Nat)} {r : (n : Nat) × Graph n}
    (h : Builds symmetrize el r) {filename bytes : List UInt8}
    (hread : ∀ vars, ∃ needsWeights, (readFile vars filename (some bytes) false).Returns
      (.ok (el.map EdgePair.ints, needsWeights))) : Loads symmetrize filename bytes r := by
  intro vars
  obtain ⟨needsWeights, hreturns⟩ := hread vars
  refine ⟨_, needsWeights, hreturns, fun T _ m => ?_⟩
  rw [makeGraphOfRead_ints]
  exact h T m

theorem WBuilds.loads {symmetrize : Bool} {el : List (EdgePair Nat (Nat × Int))} {r : (n : Nat) × WGraph n}
    (h : WBuilds symmetrize el r) {filename bytes : List UInt8}
    (hread : ∀ vars, (readFile vars filename (some bytes) true).Returns
      (.ok (el.map EdgePair.intsW, false))) : WLoads symmetrize filename bytes r := by
  intro vars
  refine ⟨_, false, hread vars, fun udist T _ m => ?_⟩
  rw [makeWGraphOfRead_ints]
  exact h T m

end Gapbs
