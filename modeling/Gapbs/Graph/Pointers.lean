import Gapbs.Conc.Reduce
import Gapbs.Graph.Csr
import Gapbs.Lib.Owners

/-!
# The pointers of a graph

`CSRGraph` of `graph.h` as it stands in memory: two flags and counts, and four raw pointers, which own an
array of pointers and an array of neighbours for each direction that is stored.  A graph is moved but
never copied.
-/

namespace Gapbs

open Conc Function BlockHeap

/-- The members of a `CSRGraph`. -/
structure GraphVar where
  directed : Bool
  numNodes : Int
  numEdges : Int
  outIndex : Ptr
  outNeighbors : Ptr
  inIndex : Ptr
  inNeighbors : Ptr

namespace GraphVar

/-- `CSRGraph()` -/
def null : GraphVar := ⟨false, -1, -1, none, none, none, none⟩

/-- What a move leaves of the other graph, which stays directed. -/
def moved (v : GraphVar) : GraphVar := { null with directed := v.directed }

def numEdgesDirected (v : GraphVar) : Int := if v.directed then v.numEdges else 2 * v.numEdges

end GraphVar

variable {ι DestID : Type}

/-- The arrays of pointers, the arrays of neighbours, and the graphs that are alive, by their names. -/
structure GraphMem (ι DestID : Type) where
  indices : Heap Ptr
  neighbors : Heap DestID
  vars : ι → Option GraphVar

namespace GraphMem

/-- No graph has been constructed. -/
def empty : GraphMem ι DestID := ⟨.empty, .empty, fun _ => none⟩

def setIndices (m : GraphMem ι DestID) (indices : Heap Ptr) : GraphMem ι DestID := { m with indices }

def setNeighbors (m : GraphMem ι DestID) (neighbors : Heap DestID) : GraphMem ι DestID :=
  { m with neighbors }

def setVar [DecidableEq ι] (m : GraphMem ι DestID) (x : ι) (v : Option GraphVar) : GraphMem ι DestID :=
  { m with vars := update m.vars x v }

/-- `index[k]`, which has to be written before it is read. -/
def indexAt (m : GraphMem ι DestID) (index : Ptr) (k : Nat) : Option Ptr :=
  (m.indices.add index k).bind fun p => (m.indices.read p).join

/-- `index[k] = p` -/
def setIndexAt (m : GraphMem ι DestID) (index : Ptr) (k : Nat) (p : Ptr) : Option (GraphMem ι DestID) :=
  (m.indices.add index k).bind fun q => (Heap.write q (some p) m.indices).map m.setIndices

/-- `index[k] - index[j]` -/
def indexDiff (m : GraphMem ι DestID) (index : Ptr) (k j : Nat) : Option Int :=
  (m.indexAt index k).bind fun q => (m.indexAt index j).bind fun p => ptrDiff q p

/-- What `Neighborhood(n, g_index, start_offset)` runs through, from `begin()` to `end()`. -/
def neighborhood (m : GraphMem ι DestID) (gIndex : Ptr) (n startOffset : Nat) :
    Option (List (Option DestID)) := do
  let maxOffset := diffSize (← m.indexDiff gIndex (n + 1) n)
  let first ← m.indexAt gIndex n
  let last ← m.indexAt gIndex (n + 1)
  m.neighbors.range (← m.neighbors.add first (min startOffset maxOffset)) last

def outDegree (m : GraphMem ι DestID) (v : GraphVar) (u : Nat) : Option Int :=
  m.indexDiff v.outIndex (u + 1) u

def inDegree (m : GraphMem ι DestID) (v : GraphVar) (u : Nat) : Option Int :=
  m.indexDiff v.inIndex (u + 1) u

def outNeigh (m : GraphMem ι DestID) (v : GraphVar) (u : Nat) (startOffset : Nat := 0) :
    Option (List (Option DestID)) := m.neighborhood v.outIndex u startOffset

def inNeigh (m : GraphMem ι DestID) (v : GraphVar) (u : Nat) (startOffset : Nat := 0) :
    Option (List (Option DestID)) := m.neighborhood v.inIndex u startOffset

/-- Entry `n` of `VertexOffsets(in_graph)`. -/
def vertexOffset (m : GraphMem ι DestID) (v : GraphVar) (inGraph : Bool) (n : Nat) : Option Int :=
  m.indexDiff (if inGraph then v.inIndex else v.outIndex) n 0

end GraphMem

/-! ## The program

A function returns `none` or `false` when an allocation in it throws, which `fitsIndex` and `fitsNeighs`
decide; nothing catches the exception.  With `invert` false there is no second direction. -/

namespace CSRGraph

open GraphMem

variable (fitsIndex : Heap Ptr → Nat → Bool) (fitsNeighs : Heap DestID → Nat → Bool) (T : Nat) [NeZero T]
  (invert : Bool)

/-- The members of `*this`. -/
def this (x : ι) : Prog (GraphMem ι DestID) GraphVar := .loadAt fun m => m.vars x

/-- `new DestID_*[length]` -/
def newIndex (length : Nat) : Prog (GraphMem ι DestID) (Option Ptr) :=
  .op fun m => match Heap.new fitsIndex length m.indices with
    | none => some (none, m)
    | some (p, indices) => some (some p, m.setIndices indices)

/-- `new DestID_[num_edges]` -/
def newNeighs (numEdges : Nat) : Prog (GraphMem ι DestID) (Option Ptr) :=
  .op fun m => match Heap.new fitsNeighs numEdges m.neighbors with
    | none => some (none, m)
    | some (p, neighbors) => some (some p, m.setNeighbors neighbors)

/-- `if (index != nullptr) delete[] index` -/
def deleteIndex (index : Ptr) : Prog (GraphMem ι DestID) Unit :=
  if index ≠ none then .storeAt fun m => (Heap.delete index m.indices).map m.setIndices else return ()

/-- `if (neighs != nullptr) delete[] neighs` -/
def deleteNeighs (neighs : Ptr) : Prog (GraphMem ι DestID) Unit :=
  if neighs ≠ none then .storeAt fun m => (Heap.delete neighs m.neighbors).map m.setNeighbors
  else return ()

/-- `GenIndex(offsets, neighs)` -/
def genIndex (offsets : List Nat) (neighs : Ptr) : Prog (GraphMem ι DestID) (Option Ptr) := do
  let index ← newIndex fitsIndex offsets.length
  match index with
  | none => return none
  | some index =>
    .parallelFor T offsets.length fun n => do
      let p ← .loadAt fun m => m.neighbors.add neighs offsets[n]
      .storeAt fun m => m.setIndexAt index n p
    return some index

/-- `neighs[k] = v` for the `k` elements of the list, in their order. -/
def fillNeighs (neighs : Ptr) (vs : List DestID) : Prog (GraphMem ι DestID) Unit :=
  .forEach (List.finRange vs.length) () fun k _ => .storeAt fun m =>
    (m.neighbors.add neighs k).bind fun p => (Heap.write p (some vs[k]) m.neighbors).map m.setNeighbors

/-- The arrays of one direction: allocate the neighbours, fill them, and point into them. -/
def makeArrays {n : Nat} (c : Csr n DestID) : Prog (GraphMem ι DestID) (Option (Ptr × Ptr)) := do
  let neighs ← newNeighs fitsNeighs c.neighbors.length
  match neighs with
  | none => return none
  | some neighs =>
    fillNeighs neighs c.neighbors
    let index ← genIndex fitsIndex T (List.ofFn c.index) neighs
    return index.map fun index => (index, neighs)

variable [DecidableEq ι]

/-- `CSRGraph(num_nodes, index, neighs)` -/
def constructUndirected (x : ι) (numNodes : Nat) (index neighs : Ptr) :
    Prog (GraphMem ι DestID) Bool := do
  let diff ← .loadAt fun m => m.indexDiff index numNodes 0
  .store fun m => m.setVar x (some ⟨false, numNodes, diff.tdiv 2, index, neighs, index, neighs⟩)
  return true

/-- `CSRGraph(num_nodes, out_index, out_neighs, in_index, in_neighs)` -/
def constructDirected (x : ι) (numNodes : Nat) (outIndex outNeighs inIndex inNeighs : Ptr) :
    Prog (GraphMem ι DestID) Bool := do
  let diff ← .loadAt fun m => m.indexDiff outIndex numNodes 0
  .store fun m => m.setVar x (some ⟨true, numNodes, diff, outIndex, outNeighs, inIndex, inNeighs⟩)
  return true

/-- A new graph over arrays of its own, as `ReadSerializedGraph` makes it. -/
def build (x : ι) {n : Nat} (g : CSRGraph n DestID) : Prog (GraphMem ι DestID) Bool := do
  let out ← makeArrays fitsIndex fitsNeighs T g.out
  match out with
  | none => return false
  | some out =>
    if g.directed then
      if invert then
        let inv ← makeArrays fitsIndex fitsNeighs T g.inn
        match inv with
        | none => return false
        | some inv => constructDirected x n out.1 out.2 inv.1 inv.2
      else constructDirected x n out.1 out.2 none none
    else constructUndirected x n out.1 out.2

/-- The arrays of one direction are freed. -/
def releaseArrays (index neighs : Ptr) : Prog (GraphMem ι DestID) Unit := do
  deleteIndex index
  deleteNeighs neighs

/-- `ReleaseResources()` -/
def releaseResources (x : ι) : Prog (GraphMem ι DestID) Unit := do
  let v ← this x
  releaseArrays v.outIndex v.outNeighbors
  if v.directed then releaseArrays v.inIndex v.inNeighbors else return ()

def assign (x : ι) (f : GraphVar → GraphVar) : Prog (GraphMem ι DestID) Unit :=
  .storeAt fun m => (m.vars x).map fun v => m.setVar x (some (f v))

/-- `CSRGraph()` -/
def construct (x : ι) : Prog (GraphMem ι DestID) Bool := do
  .store fun m => m.setVar x (some .null)
  return true

/-- `CSRGraph(CSRGraph&& other)` -/
def constructMove (x other : ι) : Prog (GraphMem ι DestID) Bool := do
  let v ← this other
  .store fun m => m.setVar x (some v)
  assign other .moved
  return true

/-- `operator=(CSRGraph&& other)` -/
def moveAssign (x other : ι) : Prog (GraphMem ι DestID) Bool := do
  if x ≠ other then
    releaseResources x
    let v ← this other
    assign x fun _ => v
    assign other .moved
    return true
  else return true

/-- `~CSRGraph()` -/
def destruct (x : ι) : Prog (GraphMem ι DestID) Bool := do
  releaseResources x
  .store fun m => m.setVar x none
  return true

end CSRGraph

/-- What a program does with its graphs. -/
inductive GraphOp (ι DestID : Type)
  | construct (x : ι)
  | build (x : ι) {n : Nat} (g : CSRGraph n DestID)
  | constructMove (x y : ι)
  | moveAssign (x y : ι)
  | destruct (x : ι)

/-- What a graph stands for: nothing before one is assigned to it and after it has been moved. -/
abbrev GraphContent (DestID : Type) := Option ((n : Nat) × CSRGraph n DestID)

namespace GraphOp

variable [DecidableEq ι]

def exec (fitsIndex : Heap Ptr → Nat → Bool) (fitsNeighs : Heap DestID → Nat → Bool) (T : Nat) [NeZero T]
    (invert : Bool) : GraphOp ι DestID → Prog (GraphMem ι DestID) Bool
  | construct x => CSRGraph.construct x
  | build x g => CSRGraph.build fitsIndex fitsNeighs T invert x g
  | constructMove x y => CSRGraph.constructMove x y
  | moveAssign x y => CSRGraph.moveAssign x y
  | destruct x => CSRGraph.destruct x

/-- A constructor makes a new object, and the other methods need one. -/
def Allowed (m : GraphMem ι DestID) : GraphOp ι DestID → Prop
  | construct x | build x _ => m.vars x = none
  | constructMove x y => m.vars x = none ∧ m.vars y ≠ none
  | moveAssign x y => m.vars x ≠ none ∧ m.vars y ≠ none
  | destruct x => m.vars x ≠ none

instance decidableAllowed (m : GraphMem ι DestID) (op : GraphOp ι DestID) : Decidable (op.Allowed m) :=
  match op with
  | construct x | build x _ => inferInstanceAs (Decidable (m.vars x = none))
  | constructMove x y => inferInstanceAs (Decidable (m.vars x = none ∧ m.vars y ≠ none))
  | moveAssign x y => inferInstanceAs (Decidable (m.vars x ≠ none ∧ m.vars y ≠ none))
  | destruct x => inferInstanceAs (Decidable (m.vars x ≠ none))

/-- Only a constructor that allocates may throw. -/
def mayThrow : GraphOp ι DestID → Bool
  | build .. => true
  | _ => false

/-- What an operation that returns makes of the graphs that the objects stand for. -/
def contents (V : ι → Option (GraphContent DestID)) : GraphOp ι DestID → ι → Option (GraphContent DestID)
  | construct x => update V x (some none)
  | build x (n := n) g => update V x (some (some ⟨n, g⟩))
  | constructMove x y => update (update V x (V y)) y (some none)
  | moveAssign x y => if x = y then V else update (update V x (V y)) y (some none)
  | destruct x => update V x none

end GraphOp

end Gapbs
