import Mathlib.Algebra.Order.Field.Rat
import Gapbs.Conc.Reduce
import Gapbs.Graph.Csr
import Gapbs.Mem.Bitmap
import Gapbs.Mem.SlidingQueue

/-!
# Betweenness centrality

`Brandes` of `bc.cc` searches from each source in turn, counts the shortest paths and marks the edges on
them, and then goes back through the levels and adds up the dependencies.  Counts and scores are
rational numbers here.
-/

namespace Gapbs

open Conc Function

/-- The arrays of `Brandes` and of `PBFS`; iterators into the queue are offsets into its array. -/
structure BcMem (n m : Nat) where
  depths : Fin n → Int
  pathCounts : Fin n → ℚ
  succ : Bitmap m
  queue : SlidingQueue (Fin n) n
  depthIndex : List Nat
  deltas : Fin n → ℚ
  scores : Fin n → ℚ

/-- Memory that has not been initialised. -/
def blankBcMem (n m : Nat) : BcMem n m :=
  ⟨fun _ => 0, fun _ => 0, ⟨fun _ => 0⟩, .new, [], fun _ => 0, fun _ => 0⟩

namespace BcMem

variable {n m : Nat}

def depthsLens : Lens (BcMem n m) (Fin n → Int) where
  get s := s.depths
  set a s := { s with depths := a }
  get_set _ _ := rfl
  set_get _ := rfl
  set_set _ _ _ := rfl

def pathCountsLens : Lens (BcMem n m) (Fin n → ℚ) where
  get s := s.pathCounts
  set a s := { s with pathCounts := a }
  get_set _ _ := rfl
  set_get _ := rfl
  set_set _ _ _ := rfl

def succLens : Lens (BcMem n m) (Bitmap m) where
  get s := s.succ
  set a s := { s with succ := a }
  get_set _ _ := rfl
  set_get _ := rfl
  set_set _ _ _ := rfl

def queueLens : Lens (BcMem n m) (SlidingQueue (Fin n) n) where
  get s := s.queue
  set a s := { s with queue := a }
  get_set _ _ := rfl
  set_get _ := rfl
  set_set _ _ _ := rfl

def deltasLens : Lens (BcMem n m) (Fin n → ℚ) where
  get s := s.deltas
  set a s := { s with deltas := a }
  get_set _ _ := rfl
  set_get _ := rfl
  set_set _ _ _ := rfl

def scoresLens : Lens (BcMem n m) (Fin n → ℚ) where
  get s := s.scores
  set a s := { s with scores := a }
  get_set _ _ := rfl
  set_get _ := rfl
  set_set _ _ _ := rfl

/-- `depths[v] = d` -/
def setDepth (s : BcMem n m) (v : Fin n) (d : Int) : BcMem n m :=
  { s with depths := update s.depths v d }

/-- `path_counts[v] += count` -/
def addPaths (s : BcMem n m) (v : Fin n) (count : ℚ) : BcMem n m :=
  { s with pathCounts := update s.pathCounts v (s.pathCounts v + count) }

/-- `depth_index.push_back(queue.begin())` -/
def pushIndex (s : BcMem n m) : BcMem n m :=
  { s with depthIndex := s.depthIndex ++ [s.queue.sharedOutStart] }

end BcMem

/-- `reset()` -/
def SlidingQueue.reset {α : Type} {capacity : Nat} (q : SlidingQueue α capacity) :
    SlidingQueue α capacity :=
  { q with sharedIn := 0, sharedOutStart := 0, sharedOutEnd := 0 }

/-- `shared[k]`, which must have been written. -/
def SlidingQueue.slot {α : Type} {capacity : Nat} (q : SlidingQueue α capacity) (k : Nat) : Option α :=
  if k < capacity then q.shared k else none

variable {n m : Nat}

/-- `out_neigh(u)`, with the positions of the elements in the array of all neighbours. -/
def CSRGraph.outSlots {DestID : Type} (g : CSRGraph n DestID) (u : Fin n) : List (DestID × Nat) :=
  (g.outNeigh u).zipIdx (g.out.index u.castSucc)

/-- `fill(init_val)` of an array in the memory -/
def fill {S X : Type} (T : Nat) [NeZero T] (array : Lens S (Fin n → X)) (initVal : X) : Prog S Unit :=
  .parallelFor T n fun v => .store fun s => array.set (update (array.get s) v initVal) s

/-! ## `PBFS` -/

/-- `compare_and_swap(depths[v], -1, depth)` -/
def casDepth (v : Fin n) (depth : Int) : Prog (BcMem n m) Bool :=
  .op fun s => if s.depths v = -1 then some (true, s.setDepth v depth) else some (false, s)

/-- The vertex is claimed if it has no depth yet. -/
def claimVertex (depth : Int) (v : Fin n) (lqueue : List (Fin n)) : Prog (BcMem n m) (List (Fin n)) := do
  let d ← .load fun s => s.depths v
  if d = -1 then
    let swapped ← casDepth v depth
    if swapped then (QueueBuffer.pushBack QueueBuffer.defaultSize lqueue v).zoom BcMem.queueLens
    else return lqueue
  else return lqueue

/-- `succ.set_bit_atomic(pos)` -/
def setSucc (pos : Nat) : Prog (BcMem n m) Unit :=
  if h : pos < m then (Bitmap.setBitAtomic ⟨pos, h⟩).zoom BcMem.succLens else .fail

/-- The edge is marked and counted if it leads to the next level. -/
def countPath (depth : Int) (u v : Fin n) (pos : Nat) : Prog (BcMem n m) Unit := do
  let d ← .load fun s => s.depths v
  if d = depth then
    setSucc pos
    let count ← .load fun s => s.pathCounts u
    .store fun s => s.addPaths v count
  else return ()

/-- The loop over the neighbours of `u`. -/
def expandVertex (g : Graph n) (depth : Int) (u : Fin n) (lqueue : List (Fin n)) :
    Prog (BcMem n m) (List (Fin n)) :=
  .forEach (g.outSlots u) lqueue fun (v, pos) lqueue => do
    let lqueue ← claimVertex depth v lqueue
    countPath depth u v pos
    return lqueue

/-- What a thread does in a round. -/
def pbfsWorker (g : Graph n) (depth : Int) (len : Nat) (work : List (Fin len)) :
    Prog (BcMem n m) Unit := do
  let lqueue ← .forEach work [] fun i lqueue => do
    let u ← .loadAt fun s => s.queue.window i
    expandVertex g depth u lqueue
  (QueueBuffer.flush lqueue).zoom BcMem.queueLens

/-- The body of the `while` loop; its barrier joins the threads, and one of them goes on alone. -/
def pbfsRound (T : Nat) [NeZero T] (g : Graph n) (depth : Int) : Prog (BcMem n m) Unit := do
  let len ← .load fun s => s.queue.size
  let sched ← .pick (Schedule.serial T len)
  let _ ← .fork fun t => pbfsWorker g depth len (sched.work t)
  .store fun s => s.pushIndex
  .store fun s => { s with queue := s.queue.slideWindow }

def pbfs (T : Nat) [NeZero T] (g : Graph n) (source : Fin n) : Prog (BcMem n m) Unit := do
  fill T BcMem.depthsLens (-1)
  .store fun s => s.setDepth source 0
  .store fun s => { s with pathCounts := update s.pathCounts source 1 }
  .storeAt fun s => (s.queue.pushBack source).map fun q => { s with queue := q }
  .store fun s => s.pushIndex
  .store fun s => { s with queue := s.queue.slideWindow }
  .iter (fun depth => do
    let empty ← .load fun s => s.queue.empty
    if empty then return .inr ()
    pbfsRound T g (depth + 1)
    return .inl (depth + 1)) (0 : Int)
  .store fun s => s.pushIndex

/-! ## `Brandes` -/

/-- `succ.get_bit(pos)` -/
def getSucc (pos : Nat) : Prog (BcMem n m) Bool :=
  .loadAt fun s => if h : pos < m then some (s.succ.getBit ⟨pos, h⟩) else none

/-- The loop over the neighbours of `u`, which adds up `delta_u`. -/
def gatherDelta (g : Graph n) (u : Fin n) : Prog (BcMem n m) ℚ :=
  .forEach (g.outSlots u) (0 : ℚ) fun (v, pos) deltaU => do
    let bit ← getSucc pos
    if bit then
      let countU ← .load fun s => s.pathCounts u
      let countV ← .load fun s => s.pathCounts v
      let deltaV ← .load fun s => s.deltas v
      if countV = 0 then .fail else return deltaU + countU / countV * (1 + deltaV)
    else return deltaU

/-- One iteration of the parallel loop over a level. -/
def backVertex (g : Graph n) (k : Nat) : Prog (BcMem n m) Unit := do
  let u ← .loadAt fun s => s.queue.slot k
  let deltaU ← gatherDelta g u
  .store fun s => { s with deltas := update s.deltas u deltaU }
  let scoreU ← .load fun s => s.scores u
  .store fun s => { s with scores := update s.scores u (scoreU + deltaU) }

/-- The loop over the levels, the deepest one first. -/
def backPropagate (T : Nat) [NeZero T] (g : Graph n) : Prog (BcMem n m) Unit := do
  let size ← .load fun s => s.depthIndex.length
  .forEach (List.range (size - 1)).reverse () fun d _ => do
    let first ← .loadAt fun s => s.depthIndex[d]?
    let last ← .loadAt fun s => s.depthIndex[d + 1]?
    .parallelFor T (last - first) fun i => backVertex g (first + i)

/-- One iteration of the loop over the sources. -/
def brandesIter (T : Nat) [NeZero T] (g : Graph n) (source : Fin n) : Prog (BcMem n m) Unit := do
  fill T BcMem.pathCountsLens 0
  .store fun s => { s with depthIndex := [] }
  .store fun s => { s with queue := s.queue.reset }
  .store fun s => { s with succ := s.succ.reset }
  pbfs T g source
  fill T BcMem.deltasLens 0
  backPropagate T g

/-- The loop with `reduction(max : biggest_score)`; the maximum is taken with the 0 that the variable
had before, so that the threads may as well begin with it. -/
def biggestScore (T : Nat) [NeZero T] : Prog (BcMem n m) ℚ := do
  let sched ← .pick (Schedule.serial T n)
  let parts ← .fork fun t : Fin T => .forEach (sched.work t) (0 : ℚ) fun v biggest => do
    let score ← .load fun s => s.scores v
    return max biggest score
  return (List.ofFn parts).foldl max 0

/-- `Brandes` for the sources that are picked.  The scores before the normalisation and
`biggest_score` are reported; the result is left in `scores`. -/
def brandes (T : Nat) [NeZero T] (g : Graph n) (sources : List (Fin n)) :
    Prog (BcMem n g.numEdgesDirected) ((Fin n → ℚ) × ℚ) := do
  fill T BcMem.scoresLens 0
  .forEach sources () fun source _ => brandesIter T g source
  let raw ← .load fun s => s.scores
  let biggest ← biggestScore T
  .parallelFor T n fun v => do
    let score ← .load fun s => s.scores v
    if biggest = 0 then .fail
    else .store fun s => { s with scores := update s.scores v (score / biggest) }
  return (raw, biggest)

end Gapbs
