import Mathlib.Logic.Equiv.Defs
import Gapbs.Conc.Lens
import Gapbs.Io.Fields
import Gapbs.Gen.Blocks
import Gapbs.Gen.Mt19937

/-!
# `Generator`

`MakeUniformEL` and `MakeRMatEL` make the edge list of a synthetic graph, `InsertWeights` overwrites the
weights of a list.  All of them draw block by block from `std::mt19937`, as `NodeID_` has 32 bits.
-/

namespace Gapbs.Gen

open Conc Function

/-- What the generator asks of `DestID_`: that a vertex id can be converted to it and back. -/
class Endpoint (D : Type) extends DestID D where
  nodeID : D → ℤ
  nodeID_ofNodeID : ∀ v, nodeID (ofNodeID v) = v

instance : Endpoint ℤ where
  nodeID v := v
  nodeID_ofNodeID _ := rfl

instance : Endpoint (ℤ × ℤ) where
  nodeID v := v.1
  nodeID_ofNodeID _ := rfl

open Endpoint DestID

/-- Its members fit in a `NodeID_`. -/
structure Generator where
  scale : ℕ
  numNodes : ℕ
  numEdges : ℕ
  numNodes_eq : numNodes = 2 ^ scale
  numNodes_le : numNodes ≤ 2 ^ 31 - 1

/-- The constructor, which leaves the program if the vertices do not fit in a `NodeID_`.  There is no
generator either if `1l << scale` is undefined, or if a list of that many edges cannot be allocated. -/
def Generator.new (scale degree : ℤ) : Option Generator :=
  if h : 0 ≤ scale ∧ 0 ≤ degree ∧ 2 ^ scale.toNat ≤ 2 ^ 31 - 1 then
    some ⟨scale.toNat, 2 ^ scale.toNat, 2 ^ scale.toNat * degree.toNat, rfl, h.2.2⟩
  else none

variable {D : Type} [Endpoint D]

/-! ## Uniform edges -/

/-- `Edge(udist(), udist())`: which of the two calls comes first is up to the compiler. -/
def uniformEdge (rightFirst : Bool) (udist : UniDist) (rng : RandomEngine) (state : rng.State) :
    Fueled (EdgePair ℤ D × rng.State) := do
  let (first, state) ← udist.call rng state
  let (second, state) ← udist.call rng state
  return (if rightFirst then ⟨second, ofNodeID first⟩ else ⟨first, ofNodeID second⟩, state)

/-- `MakeUniformEL()` -/
def Generator.makeUniformEL (gen : Generator) (rightFirst : Bool) (T : ℕ)
    (sched : Schedule T (blockCount gen.numEdges blockSize)) :
    Prog (ListMem (EdgePair ℤ D) gen.numEdges) Unit :=
  let udist := uniDist mt19937.bits (gen.numNodes - 1)
  drawBlocks mt19937 (uniformEdge rightFirst udist mt19937) (fun edge _ => edge) T sched

/-! ## R-MAT edges -/

/-- `A`, which is `0.57*max` without its fraction.  No sum of the three exceeds 32 bits. -/
def rmatA : ℕ := 57 * rngMax 32 / 100

/-- `B` -/
def rmatB : ℕ := 19 * rngMax 32 / 100

/-- `C` -/
def rmatC : ℕ := 19 * rngMax 32 / 100

example : rmatA = 2448131358 ∧ rmatA + rmatB + rmatC < 2 ^ 32 := by decide

/-- One turn of the loop over the depth, for `src` and `dst`. -/
def descend (randPoint : ℕ) (src dst : ℤ) : ℤ × ℤ :=
  let src := 2 * src
  let dst := 2 * dst
  if randPoint < rmatA + rmatB then
    if rmatA < randPoint then (src, dst + 1) else (src, dst)
  else if rmatA + rmatB + rmatC < randPoint then (src + 1, dst + 1) else (src + 1, dst)

/-- The loop over the depth. -/
def descent (rng : RandomEngine) : ℕ → ℤ × ℤ → rng.State → (ℤ × ℤ) × rng.State
  | 0, ids, state => (ids, state)
  | depth + 1, (src, dst), state =>
    let (randPoint, state) := rng.next state
    descent rng depth (descend randPoint src dst) state

/-- The body of the loop over the slots of a block -/
def rmatEdge (scale : ℕ) (rng : RandomEngine) (state : rng.State) : Fueled (EdgePair ℤ D × rng.State) :=
  let ((src, dst), state) := descent rng scale (0, 0) state
  pure (⟨src, ofNodeID dst⟩, state)

/-- The loops of `MakeRMatEL()` -/
def Generator.rmatBlocks (gen : Generator) (T : ℕ) (sched : Schedule T (blockCount gen.numEdges blockSize)) :
    Prog (ListMem (EdgePair ℤ D) gen.numEdges) Unit :=
  drawBlocks mt19937 (rmatEdge gen.scale mt19937) (fun edge _ => edge) T sched

/-- The list and the array that `PermuteIDs` allocates, whose first contents are arbitrary. -/
structure RMatMem (D : Type) (numNodes numEdges : ℕ) where
  list : ListMem (EdgePair ℤ D) numEdges
  permutation : Fin numNodes → ℤ

section

variable {numNodes numEdges : ℕ}

def RMatMem.listLens : Lens (RMatMem D numNodes numEdges) (ListMem (EdgePair ℤ D) numEdges) where
  get m := m.list
  set list m := { m with list }
  get_set _ _ := rfl
  set_get _ := rfl
  set_set _ _ _ := rfl

/-- `permutation[v]` -/
def RMatMem.permutationAt (m : RMatMem D numNodes numEdges) (v : ℤ) : Option ℤ :=
  if h : 0 ≤ v ∧ v < numNodes then some (m.permutation ⟨v.toNat, by omega⟩) else none

/-- `el[e] = Edge(permutation[el[e].u], permutation[el[e].v])` -/
def renameSlot (e : Fin numEdges) : Prog (RMatMem D numNodes numEdges) Unit := do
  let u ← .load fun m => (m.list.el e).u
  let u ← .loadAt fun m => m.permutationAt u
  let v ← .load fun m => nodeID (m.list.el e).v
  let v ← .loadAt fun m => m.permutationAt v
  .store fun m => { m with list := m.list.write e ⟨u, ofNodeID v⟩ }

/-- `PermuteIDs(el)`.  `shuffle` is `std::shuffle`, which puts the element `shuffle state n i` of a range of
`n` elements at place `i`; where that is depends on the state of the engine. -/
def permuteIDs (shuffle : mt19937.State → (n : ℕ) → Equiv.Perm (Fin n)) (T : ℕ) [NeZero T] :
    Prog (RMatMem D numNodes numEdges) Unit := do
  let rng := mt19937.seed kRandSeed
  .parallelFor T numNodes fun n => .store fun m =>
    { m with permutation := update m.permutation n (n.val : ℤ) }
  .store fun m => { m with permutation := m.permutation ∘ shuffle rng numNodes }
  .parallelFor T numEdges renameSlot

end

/-- `MakeRMatEL()` -/
def Generator.makeRMatEL (gen : Generator) (shuffle : mt19937.State → (n : ℕ) → Equiv.Perm (Fin n)) (T : ℕ)
    [NeZero T] (sched : Schedule T (blockCount gen.numEdges blockSize)) :
    Prog (RMatMem D gen.numNodes gen.numEdges) Unit := do
  (gen.rmatBlocks T sched).zoom RMatMem.listLens
  permuteIDs shuffle T

/-! ## Weights -/

/-- `static_cast<WeightT_>(udist()+1)` -/
def drawWeight (rng : RandomEngine) (state : rng.State) : Fueled (ℤ × rng.State) := do
  let (x, state) ← (uniDist rng.bits 254).call rng state
  return (toNodeID (x + 1), state)

/-- `InsertWeights(el)`, for a list with weights -/
def insertWeights {size : ℕ} (T : ℕ) (sched : Schedule T (blockCount size blockSize)) :
    Prog (ListMem (EdgePair ℤ (ℤ × ℤ)) size) Unit :=
  drawBlocks mt19937 (drawWeight mt19937) (fun w edge => { edge with v := (edge.v.1, w) }) T sched

end Gapbs.Gen
