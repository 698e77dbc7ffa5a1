import Gapbs.Conc.Schedule
import Gapbs.Sssp.Verifier

/-!
# The shortest-path kernel

`DeltaStep` keeps the vertices whose distance has been lowered in bins of width `delta`.  Every thread has
bins of its own; the team works on one index after the other, and between two of them the threads vote for
the next one and copy their bins of it into the shared frontier.
-/

namespace Gapbs

open Conc Function

variable {n T : Nat}

/-- `numeric_limits<size_t>::max()/2` -/
def kMaxBin : Nat := 2 ^ 63 - 1

def kBinSizeThreshold : Nat := 1000

/-- Product of two weights; an overflow is undefined. -/
def mulWeight (a b : Int) : Option Int :=
  if -2 ^ 31 ≤ a * b ∧ a * b < 2 ^ 31 then some (a * b) else none

/-- Quotient of two weights, rounded towards zero. -/
def divWeight (a b : Int) : Option Int :=
  if b = 0 ∨ a = -2 ^ 31 ∧ b = -1 then none else some (a.tdiv b)

/-- Conversion of a weight to `size_t`. -/
def toSizeT (k : Int) : Nat := (k % 2 ^ 64).toNat

/-- Conversion of a `size_t` to a weight. -/
def toWeight (k : Nat) : Int := (k : Int).bmod (2 ^ 32)

/-- The bin of a distance. -/
def binOf (delta x : Int) : Nat := (x / delta).toNat

section

variable {delta x : Int} (hdelta : 1 ≤ delta)

include hdelta

theorem le_binOf_iff (hx : 0 ≤ x) {k : Nat} : k ≤ binOf delta x ↔ delta * k ≤ x := by
  have hquot : 0 ≤ x / delta := Int.ediv_nonneg hx (by omega)
  rw [binOf, Int.le_toNat hquot, Int.le_ediv_iff_mul_le (by omega), mul_comm]

theorem mul_binOf_le (hx : 0 ≤ x) : delta * binOf delta x ≤ x :=
  (le_binOf_iff hdelta hx).mp le_rfl

theorem divWeight_eq (hx : 0 ≤ x) : divWeight x delta = some (x / delta) := by
  have hnonzero : ¬ (delta = 0 ∨ x = -2 ^ 31 ∧ delta = -1) := by omega
  rw [divWeight, if_neg hnonzero, Int.tdiv_eq_ediv_of_nonneg hx]

theorem toSizeT_div (hx : 0 ≤ x ∧ x ≤ kDistInf) : toSizeT (x / delta) = binOf delta x := by
  have hquot : 0 ≤ x / delta := Int.ediv_nonneg hx.1 (by omega)
  have hle : x / delta ≤ x := Int.ediv_le_self delta hx.1
  rw [kDistInf] at hx
  rw [toSizeT, binOf, Int.emod_eq_of_lt hquot (by omega)]

theorem le_of_mul_le {k : Nat} (h : delta * k ≤ kDistInf) : k ≤ kDistInf := by
  have hle := Int.mul_le_mul_of_nonneg_right hdelta (Int.natCast_nonneg k)
  rw [one_mul] at hle
  omega

/-- The product in the test of a frontier entry does not overflow. -/
theorem mulWeight_eq {k : Nat} (h : delta * k ≤ kDistInf) :
    mulWeight delta (toWeight k) = some (delta * k) := by
  have hk := le_of_mul_le hdelta h
  have hnonneg : 0 ≤ delta * (k : Int) := Int.mul_nonneg (by omega) (Int.natCast_nonneg k)
  rw [kDistInf] at h hk
  have hcast : toWeight k = k := by
    unfold toWeight
    rw [Int.bmod_eq_of_le] <;> omega
  rw [mulWeight, hcast]
  exact if_pos ⟨by omega, by omega⟩

end

/-! ## Bins -/

section

variable {α : Type}

/-- `local_bins[j]`, empty where there is none. -/
def binAt (bins : List (List α)) (j : Nat) : List α := bins[j]?.getD []

/-- `local_bins.resize(j+1)` if there are fewer bins, and `local_bins[j].push_back(x)` -/
def pushBin (bins : List (List α)) (j : Nat) (x : α) : List (List α) :=
  (bins ++ List.replicate (j + 1 - bins.length) []).modify j (· ++ [x])

/-- `local_bins[j].resize(0)` -/
def clearBin (bins : List (List α)) (j : Nat) : List (List α) := bins.set j []

/-- The first bin from `lo` up that is not empty. -/
def firstBin (bins : List (List α)) (lo : Nat) : Option Nat :=
  (List.range' lo (bins.length - lo)).find? fun i => binAt bins i ≠ []

/-- The number of entries of all bins. -/
def binEntries (bins : List (List α)) : Nat := (bins.map List.length).sum

variable {bins : List (List α)}

theorem lt_of_binAt_ne {j : Nat} (h : binAt bins j ≠ []) : j < bins.length := by
  by_contra hge
  apply h
  rw [binAt, List.getElem?_eq_none (Nat.le_of_not_lt hge), Option.getD_none]

theorem binAt_pushBin (bins : List (List α)) (j : Nat) (x : α) (i : Nat) :
    binAt (pushBin bins j x) i = if i = j then binAt bins j ++ [x] else binAt bins i := by
  have hresize : binAt (bins ++ List.replicate (j + 1 - bins.length) []) i = binAt bins i := by
    unfold binAt
    rcases Nat.lt_or_ge i bins.length with hi | hi
    · rw [List.getElem?_append_left hi]
    · rw [List.getElem?_append_right hi, List.getElem?_eq_none hi, List.getElem?_replicate]
      split <;> rfl
  have hlength : j < (bins ++ List.replicate (j + 1 - bins.length) []).length := by
    rw [List.length_append, List.length_replicate]
    omega
  by_cases hij : i = j
  · subst hij
    rw [if_pos rfl, ← hresize]
    unfold pushBin binAt
    rw [List.getElem?_modify, List.getElem?_eq_getElem hlength]
    simp
  · rw [if_neg hij, ← hresize]
    unfold pushBin binAt
    rw [List.getElem?_modify]
    simp [Ne.symm hij]

theorem binAt_clearBin (bins : List (List α)) (j i : Nat) :
    binAt (clearBin bins j) i = if i = j then [] else binAt bins i := by
  unfold clearBin binAt
  by_cases hij : i = j
  · subst hij
    rw [if_pos rfl, List.getElem?_set_self']
    cases bins[i]? <;> rfl
  · rw [if_neg hij, List.getElem?_set_ne (Ne.symm hij)]

theorem binEntries_pushBin (bins : List (List α)) (j : Nat) (x : α) :
    binEntries (pushBin bins j x) = binEntries bins + 1 := by
  have hmodify (l : List (List α)) (j : Nat) (hj : j < l.length) :
      binEntries (l.modify j (· ++ [x])) = binEntries l + 1 := by
    unfold binEntries
    induction l generalizing j with
    | nil => simp at hj
    | cons bin l ih =>
      cases j with
      | zero => simp; omega
      | succ j =>
        have hrest := ih j (Nat.lt_of_succ_lt_succ hj)
        simp at hrest ⊢
        omega
  have hresize : binEntries (bins ++ List.replicate (j + 1 - bins.length) []) = binEntries bins := by
    simp [binEntries]
  rw [pushBin, hmodify, hresize]
  rw [List.length_append, List.length_replicate]
  omega

theorem binEntries_clearBin (bins : List (List α)) (j : Nat) :
    binEntries (clearBin bins j) + (binAt bins j).length = binEntries bins := by
  unfold binEntries clearBin binAt
  induction bins generalizing j with
  | nil => simp
  | cons bin bins ih =>
    cases j with
    | zero => simp; omega
    | succ j =>
      have hrest := ih j
      simp at hrest ⊢
      omega

theorem length_binAt_le (bins : List (List α)) (j : Nat) : (binAt bins j).length ≤ binEntries bins := by
  have hclear := binEntries_clearBin bins j
  omega

theorem firstBin_eq_some {lo i : Nat} (h : firstBin bins lo = some i) :
    lo ≤ i ∧ binAt bins i ≠ [] ∧ ∀ j, lo ≤ j → binAt bins j ≠ [] → i ≤ j := by
  obtain ⟨hi, l, l', hsplit, hl⟩ := List.find?_eq_some_iff_append.mp h
  have hmem : i ∈ List.range' lo (bins.length - lo) := by
    rw [hsplit]
    simp
  refine ⟨(List.mem_range'_1.mp hmem).1, of_decide_eq_true hi, fun j hj hne => ?_⟩
  have hlt := lt_of_binAt_ne hne
  have hjmem : j ∈ l ++ i :: l' := by
    rw [← hsplit, List.mem_range'_1]
    omega
  have hsorted : (l ++ i :: l').Pairwise (· < ·) := by
    rw [← hsplit]
    exact List.pairwise_lt_range'
  rcases List.mem_append.mp hjmem with hjl | hjl
  · exact absurd (hl j hjl) (by simpa using hne)
  · rcases List.mem_cons.mp hjl with rfl | hjl
    · exact le_rfl
    · exact (List.rel_of_pairwise_cons (List.pairwise_append.mp hsorted).2.1 hjl).le

theorem firstBin_eq_none {lo : Nat} (h : firstBin bins lo = none) {j : Nat} (hj : lo ≤ j) :
    binAt bins j = [] := by
  by_contra hne
  have hlt := lt_of_binAt_ne hne
  have hnot := List.find?_eq_none.mp h j (List.mem_range'_1.mpr ⟨hj, by omega⟩)
  exact hnot (decide_eq_true hne)

end

/-! ## The memory -/

/-- The memory of `DeltaStep`; the bins are private to the threads, and so is `iter`, of which all have the
same copy. -/
structure DeltaMem (T n : Nat) where
  dist : Fin n → Int
  frontier : Nat → Option (Fin n)
  sharedIndexes : Fin 2 → Nat
  frontierTails : Fin 2 → Nat
  localBins : Fin T → List (List (Fin n))
  /-- `none` outside the parallel region -/
  iter : Option Nat

namespace DeltaMem

def setDist (s : DeltaMem T n) (v : Fin n) (d : Int) : DeltaMem T n := { s with dist := update s.dist v d }

def setIndex (s : DeltaMem T n) (c : Fin 2) (k : Nat) : DeltaMem T n :=
  { s with sharedIndexes := update s.sharedIndexes c k }

def setTail (s : DeltaMem T n) (c : Fin 2) (k : Nat) : DeltaMem T n :=
  { s with frontierTails := update s.frontierTails c k }

def setBins (s : DeltaMem T n) (t : Fin T) (bins : List (List (Fin n))) : DeltaMem T n :=
  { s with localBins := update s.localBins t bins }

/-- A store to the buffer, which has `room` entries. -/
def setFrontier (s : DeltaMem T n) (room i : Nat) (u : Fin n) : Option (DeltaMem T n) :=
  if i < room then some { s with frontier := update s.frontier i u } else none

end DeltaMem

/-! ## The program -/

/-- `compare_and_swap(dist[v], old_dist, new_dist)` -/
def casDist (v : Fin n) (oldDist newDist : Int) : Prog (DeltaMem T n) Bool :=
  .op fun s => if s.dist v = oldDist then some (true, s.setDist v newDist) else some (false, s)

/-- A turn of the loop in `RelaxEdges` -/
def attempt (t : Fin T) (delta : Int) (v : Fin n) (newDist oldDist : Int) :
    Prog (DeltaMem T n) (Int ⊕ Unit) := do
  if newDist < oldDist then
    let swapped ← casDist v oldDist newDist
    if swapped then
      let destBin ← .loadAt fun _ => divWeight newDist delta
      .store fun s => s.setBins t (pushBin (s.localBins t) (toSizeT destBin) v)
      return .inr ()
    else
      -- swap failed, recheck dist update & retry
      let oldDist ← .load fun s => s.dist v
      return .inl oldDist
  else return .inr ()

def relaxEdges (g : WGraph n) (t : Fin T) (delta : Int) (u : Fin n) : Prog (DeltaMem T n) Unit :=
  .forEach (g.outNeigh u) () fun wn _ => do
    let oldDist ← .load fun s => s.dist wn.v
    let newDist ← .loadAt fun s => addWeight (s.dist u) wn.w
    .iter (attempt t delta wn.v newDist) oldDist

/-- The loop over the frontier -/
def searchFrontier (g : WGraph n) (t : Fin T) (delta : Int) (curr : Fin 2) {tail : Nat}
    (work : List (Fin tail)) : Prog (DeltaMem T n) Unit :=
  .forEach work () fun i _ => do
    let u ← .loadAt fun s => s.frontier i
    let dist ← .load fun s => s.dist u
    let bound ← .loadAt fun s => mulWeight delta (toWeight (s.sharedIndexes curr))
    if bound ≤ dist then relaxEdges g t delta u else return ()

/-- The loop over the thread's own bin -/
def fuseBins (g : WGraph n) (t : Fin T) (delta : Int) (curr : Fin 2) : Prog (DeltaMem T n) Unit :=
  .iter (fun _ => do
    let currBinIndex ← .load fun s => s.sharedIndexes curr
    let bins ← .load fun s => s.localBins t
    let bin := binAt bins currBinIndex
    if currBinIndex < bins.length ∧ bin ≠ [] ∧ bin.length < kBinSizeThreshold then
      .store fun s => s.setBins t (clearBin (s.localBins t) currBinIndex)
      .forEach bin () fun u _ => relaxEdges g t delta u
      return .inl ()
    else return .inr ()) ()

/-- The vote for the next index -/
def vote (t : Fin T) (curr next : Fin 2) : Prog (DeltaMem T n) Unit := do
  let currBinIndex ← .load fun s => s.sharedIndexes curr
  let bins ← .load fun s => s.localBins t
  match firstBin bins currBinIndex with
  | none => return ()
  | some i => .store fun s => s.setIndex next (min (s.sharedIndexes next) i)

/-- A turn of a thread up to the first barrier, if it has not left the loop -/
def searchPhase (g : WGraph n) (delta : Int) (curr next : Fin 2) (t : Fin T) {tail : Nat}
    (work : List (Fin tail)) : Prog (DeltaMem T n) Bool := do
  let currBinIndex ← .load fun s => s.sharedIndexes curr
  if currBinIndex = kMaxBin then return false
  else
    searchFrontier g t delta curr work
    fuseBins g t delta curr
    vote t curr next
    return true

/-- The `single` block -/
def reset (curr : Fin 2) (single t : Fin T) : Prog (DeltaMem T n) Unit := do
  if t = single then
    .store fun s => s.setIndex curr kMaxBin
    .store fun s => s.setTail curr 0
  else return ()

/-- The thread's bin of the next index is copied to the frontier. -/
def copyBin (room : Nat) (next : Fin 2) (t : Fin T) : Prog (DeltaMem T n) Unit := do
  let nextBinIndex ← .load fun s => s.sharedIndexes next
  let bins ← .load fun s => s.localBins t
  if nextBinIndex < bins.length then
    let bin := binAt bins nextBinIndex
    let copyStart ← .op fun s =>
      some (s.frontierTails next, s.setTail next (s.frontierTails next + bin.length))
    .forEach (bin.zipIdx copyStart) () fun x _ => .storeAt fun s => s.setFrontier room x.2 x.1
    .store fun s => s.setBins t (clearBin (s.localBins t) nextBinIndex)
  else return ()

/-- A turn of a thread between the barriers; one of the threads is in the `single` block. -/
def copyPhase (room : Nat) (curr next : Fin 2) (single t : Fin T) : Prog (DeltaMem T n) Unit := do
  reset curr single t
  copyBin room next t

open VertexFacts in
/-- `iter&1` -/
def parity (iter : Nat) : Fin 2 := Fin.ofNat 2 iter

/-- A turn of the loop in the parallel region.  All threads are in it or none, as they meet at barriers. -/
def deltaTurn (g : WGraph n) (delta : Int) (room T : Nat) [NeZero T] : Prog (DeltaMem T n) (Unit ⊕ Unit) := do
  let iter ← .loadAt fun s => s.iter
  let curr := parity iter
  let next := parity (iter + 1)
  let tail ← .load fun s => s.frontierTails curr
  let sched ← .pick (Schedule.serial T tail)
  let stay ← .fork fun t => searchPhase g delta curr next t (sched.work t)
  if ∀ t, stay t = true then
    let single ← .pick 0
    let _ ← .fork fun t => copyPhase room curr next single t
    .store fun s => { s with iter := some (iter + 1) }
    return .inl ()
  else if ∀ t, stay t = false then return .inr () else .fail

/-- The memory when `DeltaStep` is called: its variables hold anything. -/
def DeltaMem.atCall (s : DeltaMem T n) : DeltaMem T n := { s with iter := none }

/-- `DeltaStep` with a frontier of `room` entries -/
def deltaStepIn (room : Nat) (g : WGraph n) (source : Fin n) (delta : Int) (T : Nat) [NeZero T] :
    Prog (DeltaMem T n) (Fin n → Int) := do
  .store fun s => { s with dist := fun _ => kDistInf }
  .store fun s => s.setDist source 0
  .store fun s => { s with frontier := fun _ => none }
  .store fun s => { s with sharedIndexes := ![0, kMaxBin] }
  .store fun s => { s with frontierTails := ![1, 0] }
  .storeAt fun s => s.setFrontier room 0 source
  .store fun s => { s with localBins := fun _ => [], iter := some 0 }
  .iter (fun _ => deltaTurn g delta room T) ()
  .load fun s => s.dist

/-- `DeltaStep`, whose frontier has an entry for every directed edge -/
def deltaStep (g : WGraph n) (source : Fin n) (delta : Int) (T : Nat) [NeZero T] :
    Prog (DeltaMem T n) (Fin n → Int) :=
  deltaStepIn g.numEdgesDirected g source delta T

end Gapbs
