import Gapbs.Conc.Reduce
import Gapbs.Lib.BlockHeap

/-!
# The vector of three pointers

`pvector` of `pvector.h`: storage that is not initialised when it is allocated, owned through three raw
pointers that the operations update one by one.
-/

namespace Gapbs

open Conc Function RawArray BlockHeap

/-- The members of a `pvector`. -/
structure Pvector where
  start : Ptr
  endSize : Ptr
  endCapacity : Ptr

namespace Pvector

/-- `pvector()` -/
def null : Pvector := ⟨none, none, none⟩

def capacity (v : Pvector) : Option Nat := (ptrDiff v.endCapacity v.start).map diffSize

def size (v : Pvector) : Option Nat := (ptrDiff v.endSize v.start).map diffSize

/-- `empty()` -/
def isEmpty (v : Pvector) : Bool := v.endSize = v.start

/-- `begin()` -/
def iterBegin (v : Pvector) : Ptr := v.start

/-- `end()` -/
def iterEnd (v : Pvector) : Ptr := v.endSize

def growthFactor : Nat := 2

end Pvector

variable {ι E : Type} [DecidableEq ι]

/-- The heap and the vectors that are alive, by their names. -/
structure PvectorMem (ι E : Type) where
  heap : Heap E
  vars : ι → Option Pvector

namespace PvectorMem

/-- No vector has been constructed. -/
def empty : PvectorMem ι E := ⟨.empty, fun _ => none⟩

def setHeap (m : PvectorMem ι E) (heap : Heap E) : PvectorMem ι E := { m with heap }

def setVar (m : PvectorMem ι E) (x : ι) (v : Option Pvector) : PvectorMem ι E :=
  { m with vars := update m.vars x v }

/-- `start_ + i` -/
def elementPtr (m : PvectorMem ι E) (x : ι) (i : Nat) : Option Ptr :=
  (m.vars x).bind fun v => m.heap.add v.start i

/-- `*p = val` -/
def storeAt (m : PvectorMem ι E) (p : Ptr) (val : Option E) : Option (PvectorMem ι E) :=
  (Heap.write p val m.heap).map m.setHeap

/-- The elements from `begin()` up to `end()`. -/
def lists (m : PvectorMem ι E) (x : ι) : Option (List (Option E)) :=
  (m.vars x).bind fun v => m.heap.range v.iterBegin v.iterEnd

end PvectorMem

/-! ## The program

A method returns `false` when the allocation in it throws, which `fits` decides.  To copy an element that
has not been written leaves its copy unwritten. -/

namespace Pvector

open PvectorMem

variable (fits : Heap E → Nat → Bool) (T : Nat) [NeZero T]

/-- The members of `*this`. -/
def this (x : ι) : Prog (PvectorMem ι E) Pvector := .loadAt fun m => m.vars x

def assign (x : ι) (f : Pvector → Pvector) : Prog (PvectorMem ι E) Unit :=
  .storeAt fun m => (m.vars x).map fun v => m.setVar x (some (f v))

def capacityOf (x : ι) : Prog (PvectorMem ι E) Nat := .loadAt fun m => (m.vars x).bind capacity

def sizeOf (x : ι) : Prog (PvectorMem ι E) Nat := .loadAt fun m => (m.vars x).bind size

/-- `new T_[num_elements]` -/
def newArray (numElements : Nat) : Prog (PvectorMem ι E) (Option Ptr) :=
  .op fun m => match Heap.new fits numElements m.heap with
    | none => some (none, m)
    | some (p, heap) => some (some p, m.setHeap heap)

/-- `delete[] p` -/
def deleteArray (p : Ptr) : Prog (PvectorMem ι E) Unit :=
  .storeAt fun m => (Heap.delete p m.heap).map m.setHeap

def fill (x : ι) (initVal : E) : Prog (PvectorMem ι E) Bool := do
  -- the trip count is worked out before the threads start
  let count ← .loadAt fun m => (m.vars x).bind fun v => (ptrDiff v.endSize v.start).map Int.toNat
  .parallelFor T count fun i => do
    let ptr ← .loadAt fun m => m.elementPtr x i
    .storeAt fun m => m.storeAt ptr (some initVal)
  return true

/-- `pvector(num_elements)` -/
def constructSized (x : ι) (numElements : Nat) : Prog (PvectorMem ι E) Bool := do
  let start ← newArray fits numElements
  match start with
  | none => return false
  | some start =>
    let endSize ← .loadAt fun m => m.heap.add start numElements
    .store fun m => m.setVar x (some ⟨start, endSize, endSize⟩)
    return true

/-- `pvector(num_elements, init_val)` -/
def constructFilled (x : ι) (numElements : Nat) (initVal : E) : Prog (PvectorMem ι E) Bool := do
  let done ← constructSized fits x numElements
  if done then fill T x initVal else return false

/-- `pvector(copy_begin, copy_end)` -/
def constructCopy (x : ι) (copyBegin copyEnd : Ptr) : Prog (PvectorMem ι E) Bool := do
  let count ← .loadAt fun _ => (ptrDiff copyEnd copyBegin).map diffSize
  let done ← constructSized fits x count
  if done then
    -- the loop runs up to the capacity, which is the size of a new vector
    let capacity ← capacityOf x
    .parallelFor T capacity fun i => do
      let val ← .loadAt fun m => (m.heap.add copyBegin i).bind m.heap.read
      .storeAt fun m => (m.elementPtr x i).bind fun p => m.storeAt p val
    return true
  else return false

/-- `pvector(pvector &&other)` -/
def constructMove (x other : ι) : Prog (PvectorMem ι E) Bool := do
  let v ← this other
  .store fun m => m.setVar x (some v)
  assign other fun _ => null
  return true

/-- `ReleaseResources()` -/
def releaseResources (x : ι) : Prog (PvectorMem ι E) Unit := do
  let v ← this x
  if v.start ≠ none then deleteArray v.start else return ()

/-- `operator=(pvector &&other)` -/
def moveAssign (x other : ι) : Prog (PvectorMem ι E) Bool := do
  if x ≠ other then
    releaseResources x
    let v ← this other
    assign x fun _ => v
    assign other fun _ => null
    return true
  else return true

/-- `~pvector()` -/
def destruct (x : ι) : Prog (PvectorMem ι E) Bool := do
  releaseResources x
  .store fun m => m.setVar x none
  return true

/-- not thread-safe -/
def reserve (x : ι) (numElements : Nat) : Prog (PvectorMem ι E) Bool := do
  let capacity ← capacityOf x
  if capacity < numElements then
    let newRange ← newArray fits numElements
    match newRange with
    -- the exception leaves the vector as it is
    | none => return false
    | some newRange =>
      let size ← sizeOf x
      .parallelFor T size fun i => do
        let val ← .loadAt fun m => (m.elementPtr x i).bind m.heap.read
        .storeAt fun m => (m.heap.add newRange i).bind fun p => m.storeAt p val
      let size ← sizeOf x
      let endSize ← .loadAt fun m => m.heap.add newRange size
      assign x fun v => { v with endSize }
      let v ← this x
      deleteArray v.start
      assign x fun v => { v with start := newRange }
      let endCapacity ← .loadAt fun m => m.elementPtr x numElements
      assign x fun v => { v with endCapacity }
      return true
  else return true

/-- prevents internal storage from being freed when this pvector is desctructed -/
def leak (x : ι) : Prog (PvectorMem ι E) Bool := do
  -- `end_size_` and `end_capacity_` stay where they are
  assign x fun v => { v with start := none }
  return true

def clear (x : ι) : Prog (PvectorMem ι E) Bool := do
  assign x fun v => { v with endSize := v.start }
  return true

def resize (x : ι) (numElements : Nat) : Prog (PvectorMem ι E) Bool := do
  let done ← reserve fits T x numElements
  if done then
    let endSize ← .loadAt fun m => m.elementPtr x numElements
    assign x fun v => { v with endSize }
    return true
  else return false

/-- `(*this)[n] = val` -/
def setAt (x : ι) (n : Nat) (val : E) : Prog (PvectorMem ι E) Bool := do
  .storeAt fun m => (m.elementPtr x n).bind fun p => m.storeAt p (some val)
  return true

def pushBack (x : ι) (val : E) : Prog (PvectorMem ι E) Bool := do
  let size ← sizeOf x
  let capacity ← capacityOf x
  -- the product is one of `size_t` numbers
  let newSize := if capacity = 0 then 1 else capacity * growthFactor % 2 ^ 64
  let done ← (if size = capacity then reserve fits T x newSize else pure true)
  if done then
    let v ← this x
    .storeAt fun m => m.storeAt v.endSize (some val)
    let endSize ← .loadAt fun m => m.heap.add v.endSize 1
    assign x fun v => { v with endSize }
    return true
  else return false

def swap (x other : ι) : Prog (PvectorMem ι E) Bool := do
  let v ← this x
  let w ← this other
  assign x fun _ => ⟨w.start, w.endSize, w.endCapacity⟩
  assign other fun _ => ⟨v.start, v.endSize, v.endCapacity⟩
  return true

end Pvector

/-- What a program does with its vectors. -/
inductive PvectorOp (ι E : Type)
  | construct (x : ι)
  | constructSized (x : ι) (numElements : Nat)
  | constructFilled (x : ι) (numElements : Nat) (initVal : E)
  /-- from `y.begin() + lo` up to `y.begin() + hi` -/
  | constructCopy (x y : ι) (lo hi : Nat)
  | constructMove (x y : ι)
  | moveAssign (x y : ι)
  | destruct (x : ι)
  | reserve (x : ι) (numElements : Nat)
  | leak (x : ι)
  | clear (x : ι)
  | resize (x : ι) (numElements : Nat)
  | setAt (x : ι) (n : Nat) (val : E)
  | pushBack (x : ι) (val : E)
  | fill (x : ι) (initVal : E)
  | swap (x y : ι)

namespace PvectorOp

variable (fits : Heap E → Nat → Bool) (T : Nat) [NeZero T]

def exec : PvectorOp ι E → Prog (PvectorMem ι E) Bool
  | construct x => do
    .store fun m => m.setVar x (some .null)
    return true
  | constructSized x numElements => Pvector.constructSized fits x numElements
  | constructFilled x numElements initVal => Pvector.constructFilled fits T x numElements initVal
  | constructCopy x y lo hi => do
    let copyBegin ← .loadAt fun m => m.elementPtr y lo
    let copyEnd ← .loadAt fun m => m.elementPtr y hi
    Pvector.constructCopy fits T x copyBegin copyEnd
  | constructMove x y => Pvector.constructMove x y
  | moveAssign x y => Pvector.moveAssign x y
  | destruct x => Pvector.destruct x
  | reserve x numElements => Pvector.reserve fits T x numElements
  | leak x => Pvector.leak x
  | clear x => Pvector.clear x
  | resize x numElements => Pvector.resize fits T x numElements
  | setAt x n val => Pvector.setAt x n val
  | pushBack x val => Pvector.pushBack fits T x val
  | fill x initVal => Pvector.fill T x initVal
  | swap x y => Pvector.swap x y

/-- A constructor makes a new object, the other methods need one, and elements are accessed in their
range. -/
def Allowed (m : PvectorMem ι E) : PvectorOp ι E → Prop
  | construct x | constructSized x _ | constructFilled x _ _ => m.vars x = none
  | constructCopy x y lo hi => m.vars x = none ∧ lo ≤ hi ∧ ∃ ys, m.lists y = some ys ∧ hi ≤ ys.length
  | constructMove x y => m.vars x = none ∧ m.vars y ≠ none
  | moveAssign x y | swap x y => m.vars x ≠ none ∧ m.vars y ≠ none
  | setAt x n _ => ∃ xs, m.lists x = some xs ∧ n < xs.length
  | destruct x | reserve x _ | leak x | clear x | resize x _ | pushBack x _ | fill x _ =>
    m.vars x ≠ none

/-! ## The list model -/

/-- The methods that allocate may throw. -/
def mayThrow : PvectorOp ι E → Bool
  | constructSized .. | constructFilled .. | constructCopy .. => true
  | reserve .. | resize .. | pushBack .. => true
  | _ => false

/-- What an operation that returns makes of the lists.  New elements of `resize` have any values, and
`leak` leaves an empty list. -/
def ListStep (L L' : ι → Option (List (Option E))) : PvectorOp ι E → Prop
  | construct x => L' = update L x (some [])
  | constructSized x numElements => ∃ xs, xs.length = numElements ∧ L' = update L x (some xs)
  | constructFilled x numElements initVal =>
    L' = update L x (some (List.replicate numElements (some initVal)))
  | constructCopy x y lo hi => ∃ ys, L y = some ys ∧ L' = update L x (some (slice ys lo hi))
  | constructMove x y => L' = update (update L x (L y)) y (some [])
  | moveAssign x y => L' = if x = y then L else update (update L x (L y)) y (some [])
  | destruct x => L' = update L x none
  | reserve _ _ => L' = L
  | leak x | clear x => L' = update L x (some [])
  | resize x numElements => ∃ xs ys, L x = some xs ∧ ys.length = numElements ∧
    ys.take xs.length = xs.take numElements ∧ L' = update L x (some ys)
  | setAt x n val => ∃ xs, L x = some xs ∧ L' = update L x (some (xs.set n (some val)))
  | pushBack x val => ∃ xs, L x = some xs ∧ L' = update L x (some (xs ++ [some val]))
  | fill x initVal => ∃ xs, L x = some xs ∧
    L' = update L x (some (List.replicate xs.length (some initVal)))
  | swap x y => L' = update (update L x (L y)) y (L x)

/-- What any operation makes of the lists: one that throws leaves them as they are. -/
def ListOutcome (op : PvectorOp ι E) (done : Bool) (L L' : ι → Option (List (Option E))) : Prop :=
  if done then ListStep L L' op else op.mayThrow = true ∧ L' = L

end PvectorOp

end Gapbs
