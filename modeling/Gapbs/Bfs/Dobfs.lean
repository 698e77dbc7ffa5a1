import Gapbs.Bfs.BottomUp
import Gapbs.Bfs.TopDown
import Gapbs.Lib.Distance

/-!
# Direction-optimizing breadth-first search

`DOBFS` advances one level of the graph at a time, top-down from a queue or bottom-up from a bitmap,
and switches between the two on heuristics.  The invariant ties the arrays to the levels: the visited
vertices are those within the current level, and a stale bit of `front` belongs to a vertex all of
whose out-neighbours have been visited.
-/

namespace Gapbs

open Conc Function HopDistance

variable {n : Nat}

/-- What can be observed of one step: the vertices that it has visited and the counts after it. -/
inductive StepRecord (n : Nat)
  | topDown (newly : Finset (Fin n)) (scoutCount edgesToCheck : Int)
  | bottomUp (newly : Finset (Fin n)) (awakeCount : Int)
deriving DecidableEq

/-- The vertices with a non-negative entry. -/
def visited (parent : Fin n → Int) : Finset (Fin n) := Finset.univ.filter fun v => 0 ≤ parent v

/-- A step together with the vertices that it visits. -/
def observe (step : Prog (BfsMem n) Int) : Prog (BfsMem n) (Int × Finset (Fin n)) := do
  let before ← .load fun s => visited s.parent
  let count ← step
  let after ← .load fun s => visited s.parent
  return (count, after \ before)

/-- The condition of the bottom-up loop; the division is reached only when the tests before it leave
the answer open. -/
def buAgain (n : Nat) (beta maxBuIters buIters awakeCount oldAwakeCount : Int) : Option Bool :=
  if maxBuIters = 0 ∨ buIters < maxBuIters then
    if oldAwakeCount ≤ awakeCount then some true
    else if beta = 0 then none
    else some (Int.tdiv n beta < awakeCount)
  else some false

/-- The bottom-up loop. -/
def buLoop (p : Port) (T : Nat) [NeZero T] (g : Graph n) (beta maxBuIters : Int) (awakeCount : Int)
    (log : List (StepRecord n)) : Prog (BfsMem n) (List (StepRecord n)) :=
  .iter (fun (oldAwakeCount, buIters, log) => do
    let (awakeCount, newly) ← observe (buStep p T g)
    -- `front.swap(curr)`
    .store fun s => { s with front := s.curr, curr := s.front }
    let log := log ++ [.bottomUp newly awakeCount]
    match buAgain n beta maxBuIters (buIters + 1) awakeCount oldAwakeCount with
    | none => .fail
    | some true => return .inl (awakeCount, buIters + 1, log)
    | some false => return .inr log) (awakeCount, (0 : Int), log)

/-- One turn of the main loop. -/
def dobfsTurn (p : Port) (T : Nat) [NeZero T] (g : Graph n) (alpha beta maxBuIters : Int)
    (edgesToCheck scoutCount : Int) (log : List (StepRecord n)) :
    Prog (BfsMem n) ((Int × Int × List (StepRecord n)) ⊕ List (StepRecord n)) := do
  let empty ← .load fun s => s.queue.empty
  if empty then return .inr log
  -- the division by `alpha`
  if alpha = 0 then .fail
  else if Int.tdiv edgesToCheck alpha < scoutCount then
    queueToBitmap p T
    let awakeCount ← .load fun s => (s.queue.size : Int)
    .store fun s => { s with queue := s.queue.slideWindow }
    let log ← buLoop p T g beta maxBuIters awakeCount log
    bitmapToQueue p T
    -- `scout_count = 1`, and `edges_to_check` is not lowered by a bottom-up phase
    return .inl (edgesToCheck, 1, log)
  else
    let edgesToCheck := edgesToCheck - scoutCount
    let (scoutCount, newly) ← observe (tdStep p T g)
    .store fun s => { s with queue := s.queue.slideWindow }
    return .inl (edgesToCheck, scoutCount, log ++ [.topDown newly scoutCount edgesToCheck])

/-- `DOBFS`; the parents are left in the memory, and the steps are reported. -/
def dobfs (p : Port) (T : Nat) [NeZero T] (g : Graph n) (source : Fin n)
    (alpha beta maxBuIters : Int) : Prog (BfsMem n) (List (StepRecord n)) := do
  initParent p T g
  .store fun s => s.setParent source source
  .store fun s => { s with queue := .new }
  .storeAt fun s => (s.queue.pushBack source).map fun q => { s with queue := q }
  .store fun s => { s with queue := s.queue.slideWindow }
  .store fun s => { s with curr := s.curr.reset }
  .store fun s => { s with front := s.front.reset }
  let log ← .iter (fun (edgesToCheck, scoutCount, log) =>
    dobfsTurn p T g alpha beta maxBuIters edgesToCheck scoutCount log)
    ((g.numEdgesDirected : Int), (g.outDegree source : Int), [])
  cleanupParent p T
  return log

/-! ## Other programs in the place of the steps

A program that is put in the place of `BUStep` or `BitmapToQueue` is told the steps before it. -/

/-- The bottom-up loop with `step` in the place of `BUStep`. -/
def buLoopWith (step : List (StepRecord n) → Prog (BfsMem n) Int) (beta maxBuIters awakeCount : Int)
    (log : List (StepRecord n)) : Prog (BfsMem n) (List (StepRecord n)) :=
  .iter (fun (oldAwakeCount, buIters, log) => do
    let (awakeCount, newly) ← observe (step log)
    .store fun s => { s with front := s.curr, curr := s.front }
    let log := log ++ [.bottomUp newly awakeCount]
    match buAgain n beta maxBuIters (buIters + 1) awakeCount oldAwakeCount with
    | none => .fail
    | some true => return .inl (awakeCount, buIters + 1, log)
    | some false => return .inr log) (awakeCount, (0 : Int), log)

/-- The bottom-up phase of a turn of the main loop. -/
def buPhaseWith (p : Port) (T : Nat) [NeZero T] (step : List (StepRecord n) → Prog (BfsMem n) Int)
    (toQueue : List (StepRecord n) → Prog (BfsMem n) Unit) (beta maxBuIters edgesToCheck : Int)
    (log : List (StepRecord n)) :
    Prog (BfsMem n) ((Int × Int × List (StepRecord n)) ⊕ List (StepRecord n)) := do
  queueToBitmap p T
  let awakeCount ← .load fun s => (s.queue.size : Int)
  .store fun s => { s with queue := s.queue.slideWindow }
  let log ← buLoopWith step beta maxBuIters awakeCount log
  toQueue log
  return .inl (edgesToCheck, 1, log)

/-- One turn of the main loop. -/
def dobfsTurnWith (p : Port) (T : Nat) [NeZero T] (g : Graph n)
    (step : List (StepRecord n) → Prog (BfsMem n) Int)
    (toQueue : List (StepRecord n) → Prog (BfsMem n) Unit)
    (alpha beta maxBuIters edgesToCheck scoutCount : Int) (log : List (StepRecord n)) :
    Prog (BfsMem n) ((Int × Int × List (StepRecord n)) ⊕ List (StepRecord n)) := do
  let empty ← .load fun s => s.queue.empty
  if empty then return .inr log
  if alpha = 0 then .fail
  else if Int.tdiv edgesToCheck alpha < scoutCount then
    buPhaseWith p T step toQueue beta maxBuIters edgesToCheck log
  else
    let edgesToCheck := edgesToCheck - scoutCount
    let (scoutCount, newly) ← observe (tdStep p T g)
    .store fun s => { s with queue := s.queue.slideWindow }
    return .inl (edgesToCheck, scoutCount, log ++ [.topDown newly scoutCount edgesToCheck])

/-- `DOBFS` with `step` in the place of `BUStep` and `toQueue` in the place of `BitmapToQueue`. -/
def dobfsWith (p : Port) (T : Nat) [NeZero T] (g : Graph n)
    (step : List (StepRecord n) → Prog (BfsMem n) Int)
    (toQueue : List (StepRecord n) → Prog (BfsMem n) Unit) (source : Fin n)
    (alpha beta maxBuIters : Int) : Prog (BfsMem n) (List (StepRecord n)) := do
  initParent p T g
  .store fun s => s.setParent source source
  .store fun s => { s with queue := .new }
  .storeAt fun s => (s.queue.pushBack source).map fun q => { s with queue := q }
  .store fun s => { s with queue := s.queue.slideWindow }
  .store fun s => { s with curr := s.curr.reset }
  .store fun s => { s with front := s.front.reset }
  let log ← .iter (fun (edgesToCheck, scoutCount, log) =>
    dobfsTurnWith p T g step toQueue alpha beta maxBuIters edgesToCheck scoutCount log)
    ((g.numEdgesDirected : Int), (g.outDegree source : Int), [])
  cleanupParent p T
  return log

/-- `DOBFS` is the instance for its own steps. -/
theorem dobfsWith_self (p : Port) (T : Nat) [NeZero T] (g : Graph n) (source : Fin n)
    (alpha beta maxBuIters : Int) :
    dobfsWith p T g (fun _ => buStep p T g) (fun _ => bitmapToQueue p T) source alpha beta maxBuIters =
      dobfs p T g source alpha beta maxBuIters :=
  rfl

/-! ## The levels -/

/-- A breadth-first tree: the entries of the vertices that can be reached name a neighbour that is one
step nearer to the source. -/
structure IsBfsTree (g : Graph n) (source : Fin n) (parent : Fin n → Int) : Prop where
  root : parent source = source.val
  unreached : ∀ v, parent v = -1 ↔ ¬ Relation.ReflTransGen g.Edge source v
  tree : IsShortestPathTree g.Edge (fun v u => parent v = (u.val : Int)) source

section

variable (g : Graph n) (source : Fin n)

/-- The scout count of a level. -/
def scoutOf (k : Nat) : Int := ∑ v ∈ level g.Edge source k, ((max 1 (g.outDegree v) : Nat) : Int)

/-- The bottom-up steps from level `k` on, as the counts determine them. -/
inductive Sweeps (beta maxBuIters : Int) : Nat → Int → Int → List (StepRecord n) → Nat → Prop
  | last {k : Nat} {old iters : Int}
      (h : buAgain n beta maxBuIters (iters + 1) (level g.Edge source (k + 1)).card old =
        some false) :
      Sweeps beta maxBuIters k old iters
        [.bottomUp (level g.Edge source (k + 1)) (level g.Edge source (k + 1)).card] (k + 1)
  | again {k k' : Nat} {old iters : Int} {log : List (StepRecord n)}
      (h : buAgain n beta maxBuIters (iters + 1) (level g.Edge source (k + 1)).card old = some true)
      (hrest : Sweeps beta maxBuIters (k + 1) (level g.Edge source (k + 1)).card (iters + 1) log k') :
      Sweeps beta maxBuIters k old iters
        (.bottomUp (level g.Edge source (k + 1)) (level g.Edge source (k + 1)).card :: log) k'

/-- The steps of a traversal from level `k` on, as the counts determine them. -/
inductive Traversal (alpha beta maxBuIters : Int) : Nat → Int → Int → List (StepRecord n) → Prop
  | done {k : Nat} {edges scout : Int} (h : level g.Edge source k = ∅) :
      Traversal alpha beta maxBuIters k edges scout []
  | topDown {k : Nat} {edges scout : Int} {log : List (StepRecord n)}
      (h : level g.Edge source k ≠ ∅) (hscout : ¬ Int.tdiv edges alpha < scout)
      (hrest : Traversal alpha beta maxBuIters (k + 1) (edges - scout) (scoutOf g source (k + 1)) log) :
      Traversal alpha beta maxBuIters k edges scout (.topDown (level g.Edge source (k + 1))
        (scoutOf g source (k + 1)) (edges - scout) :: log)
  | bottomUp {k k' : Nat} {edges scout : Int} {log log' : List (StepRecord n)}
      (h : level g.Edge source k ≠ ∅) (hscout : Int.tdiv edges alpha < scout)
      (hsweeps : Sweeps g source beta maxBuIters k (level g.Edge source k).card 0 log k')
      (hrest : Traversal alpha beta maxBuIters k' edges 1 log') :
      Traversal alpha beta maxBuIters k edges scout (log ++ log')

/-- The main loop comes to level `k` with these counts. -/
inductive LoopHead (alpha beta maxBuIters : Int) : Nat → Int → Int → Prop
  | start : LoopHead alpha beta maxBuIters 0 g.numEdgesDirected (g.outDegree source)
  | topDown {k : Nat} {edges scout : Int} (hhead : LoopHead alpha beta maxBuIters k edges scout)
      (h : level g.Edge source k ≠ ∅) (hscout : ¬ Int.tdiv edges alpha < scout) :
      LoopHead alpha beta maxBuIters (k + 1) (edges - scout) (scoutOf g source (k + 1))
  | bottomUp {k k' : Nat} {edges scout : Int} {log : List (StepRecord n)}
      (hhead : LoopHead alpha beta maxBuIters k edges scout) (h : level g.Edge source k ≠ ∅)
      (hscout : Int.tdiv edges alpha < scout)
      (hsweeps : Sweeps g source beta maxBuIters k (level g.Edge source k).card 0 log k') :
      LoopHead alpha beta maxBuIters k' edges 1

/-- Under these tunables a bottom-up phase that starts at level `k` comes to its end: either there is a
limit to its steps or an empty level fails the test on the awake count, and where the test would divide
by zero the levels do not shrink before the limit is reached. -/
structure PhaseEnds (beta maxBuIters : Int) (k : Nat) : Prop where
  bounded : maxBuIters ≠ 0 ∨ 0 < beta ∨ beta < -n
  defined : beta = 0 → ∀ j : Nat, (j + 1 : Int) < maxBuIters →
    (level g.Edge source (k + j)).card ≤ (level g.Edge source (k + (j + 1))).card

/-- Under these tunables every bottom-up phase that the traversal enters comes to its end. -/
structure Terminating (alpha beta maxBuIters : Int) : Prop where
  alpha_ne : alpha ≠ 0
  phases : ∀ k edges scout, LoopHead g source alpha beta maxBuIters k edges scout →
    level g.Edge source k ≠ ∅ → Int.tdiv edges alpha < scout → PhaseEnds g source beta maxBuIters k

/-- The parent array when the levels up to `k` have been visited. -/
structure ParentsAt (k : Nat) (parent : Fin n → Int) : Prop where
  unvisited : ∀ v, v ∉ reached g.Edge source k → parent v = initParentOf g v
  root : parent source = source.val
  tree : ∀ j < k, ∀ v ∈ level g.Edge source (j + 1),
    ∃ u ∈ level g.Edge source j, g.Edge u v ∧ parent v = (u.val : Int)

/-- The bits of `front` between two bottom-up phases: what is left of an earlier level has nothing
left to awaken. -/
def FrontAt (k : Nat) (front : Bitmap n) : Prop :=
  ∀ v, front.getBit v = true → v ∈ reached g.Edge source k ∧
    (v ∈ level g.Edge source k ∨ ∀ x, g.Edge v x → x ∈ reached g.Edge source k)

end

/-- The queue holds `old` and then its window `w`. -/
structure QueueAt (old w : List (Fin n)) (q : SlidingQueue (Fin n) n) : Prop where
  start : q.sharedOutStart = old.length
  stop : q.sharedOutEnd = old.length + w.length
  sharedIn : q.sharedIn = old.length + w.length
  slots : ∀ k x, (old ++ w)[k]? = some x → q.shared k = some x

theorem length_le_of_nodup {l : List (Fin n)} (h : l.Nodup) : l.length ≤ n := by
  have hle := List.Nodup.length_le_card h
  rwa [Fintype.card_fin] at hle

namespace QueueAt

variable {old w l : List (Fin n)} {q : SlidingQueue (Fin n) n}

theorem holdsWindow (h : QueueAt old w q) (hnodup : (old ++ w).Nodup) : q.HoldsWindow w := by
  refine ⟨?_, ?_, fun i x hx => ?_⟩
  · rw [SlidingQueue.size, h.start, h.stop]
    omega
  · rw [h.stop, h.sharedIn]
  · have hlt := (List.getElem?_eq_some_iff.mp hx).1
    have hle := length_le_of_nodup hnodup
    rw [List.length_append] at hle
    rw [SlidingQueue.window, h.start, if_pos (by omega)]
    apply h.slots
    rw [List.getElem?_append_right (by omega), Nat.add_sub_cancel_left, hx]

theorem empty_iff (h : QueueAt old w q) : q.empty = true ↔ w = [] := by
  rw [SlidingQueue.empty, decide_eq_true_eq, h.start, h.stop, ← List.length_eq_zero_iff]
  omega

theorem slide (h : QueueAt old w q) : QueueAt (old ++ w) [] q.slideWindow := by
  refine ⟨?_, ?_, ?_, ?_⟩
  · simp [SlidingQueue.slideWindow, h.stop]
  · simp [SlidingQueue.slideWindow, h.sharedIn]
  · simp [SlidingQueue.slideWindow, h.sharedIn]
  · rw [List.append_nil]
    exact h.slots

/-- What has been put behind the window becomes the next one. -/
theorem extend {q' : SlidingQueue (Fin n) n} (h : QueueAt old w q)
    (hkept : QueueBuffer.Kept q.sharedIn q q') (hin : q'.sharedIn = q.sharedIn + l.length)
    (hslots : ∀ k x, l[k]? = some x → q'.shared (q.sharedIn + k) = some x) :
    QueueAt (old ++ w) l q'.slideWindow := by
  refine ⟨?_, ?_, ?_, fun k x hk => ?_⟩
  · show q'.sharedOutEnd = _
    rw [hkept.stop, h.stop, List.length_append]
  · show q'.sharedIn = _
    rw [hin, h.sharedIn, List.length_append]
  · show q'.sharedIn = _
    rw [hin, h.sharedIn, List.length_append]
  · show q'.shared k = some x
    rcases lt_or_ge k (old ++ w).length with hlt | hge
    · rw [List.getElem?_append_left hlt] at hk
      rw [hkept.below k (by rwa [h.sharedIn, ← List.length_append])]
      exact h.slots k x hk
    · rw [List.getElem?_append_right hge] at hk
      have hslot := hslots _ x hk
      rw [h.sharedIn, ← List.length_append, Nat.add_sub_cancel' hge] at hslot
      exact hslot

theorem append {s s' : BfsMem n} (h : QueueAt old w s.queue) (happ : Appended l s s') :
    QueueAt (old ++ w) l s'.queue.slideWindow :=
  h.extend happ.kept happ.sharedIn happ.slots

end QueueAt

section Levels

variable {g : Graph n} {source : Fin n} {k : Nat}

theorem ParentsAt.nonneg {parent : Fin n → Int} (h : ParentsAt g source k parent) {v : Fin n}
    (hv : v ∈ reached g.Edge source k) : 0 ≤ parent v := by
  obtain ⟨j, hj, hlevel⟩ := exists_level hv
  cases j with
  | zero =>
    rw [mem_level_zero.mp hlevel, h.root]
    exact Int.natCast_nonneg _
  | succ j =>
    obtain ⟨u, -, -, hu⟩ := h.tree j hj v hlevel
    rw [hu]
    exact Int.natCast_nonneg _

theorem ParentsAt.neg_iff (hdeg : ∀ v, g.outDegree v < 2 ^ 31) {parent : Fin n → Int}
    (h : ParentsAt g source k parent) {v : Fin n} :
    parent v < 0 ↔ v ∉ reached g.Edge source k := by
  constructor
  · exact fun hv hr => absurd (h.nonneg hr) (not_le.mpr hv)
  · intro hv
    rw [h.unvisited v hv]
    exact initParentOf_neg (hdeg v)

theorem ParentsAt.visited_eq (hdeg : ∀ v, g.outDegree v < 2 ^ 31) {parent : Fin n → Int}
    (h : ParentsAt g source k parent) : visited parent = reached g.Edge source k := by
  ext v
  have hiff := h.neg_iff hdeg (v := v)
  rw [visited, Finset.mem_filter]
  constructor
  · rintro ⟨-, hv⟩
    by_contra hnot
    exact absurd hv (not_le.mpr (hiff.mpr hnot))
  · exact fun hv => ⟨Finset.mem_univ v, h.nonneg hv⟩

theorem ParentsAt.gt_min (hdeg : ∀ v, g.outDegree v < 2 ^ 31) {parent : Fin n → Int}
    (h : ParentsAt g source k parent) (v : Fin n) : -2 ^ 31 < parent v := by
  by_cases hv : v ∈ reached g.Edge source k
  · have hnonneg := h.nonneg hv
    omega
  · have hlt := hdeg v
    rw [h.unvisited v hv, initParentOf_eq hlt]
    omega

/-- The next level has been visited. -/
theorem ParentsAt.step {parent parent' : Fin n → Int} (h : ParentsAt g source k parent)
    (hsame : ∀ v, v ∉ level g.Edge source (k + 1) → parent' v = parent v)
    (hnew : ∀ v ∈ level g.Edge source (k + 1),
      ∃ u ∈ level g.Edge source k, g.Edge u v ∧ parent' v = (u.val : Int)) :
    ParentsAt g source (k + 1) parent' := by
  have hold {v : Fin n} (hv : v ∈ reached g.Edge source k) : parent' v = parent v :=
    hsame v (not_mem_level_of_reached hv (Nat.lt_succ_self k))
  refine ⟨fun v hv => ?_, ?_, fun j hj v hv => ?_⟩
  · rw [mem_reached_succ, not_or] at hv
    rw [hsame v hv.2, h.unvisited v hv.1]
  · rw [hold (reached_mono k.zero_le (level_subset_reached 0 (mem_level_zero.mpr rfl))), h.root]
  · rcases Nat.lt_succ_iff_lt_or_eq.mp hj with hlt | rfl
    · rw [hold (reached_mono hlt (level_subset_reached _ hv))]
      exact h.tree j hlt v hv
    · exact hnew v hv

/-- The vertices that a step to the next level visits. -/
theorem reached_sdiff : reached g.Edge source (k + 1) \ reached g.Edge source k =
    level g.Edge source (k + 1) := by
  ext v
  rw [Finset.mem_sdiff, mem_reached_succ]
  constructor
  · rintro ⟨hv | hv, hnot⟩
    · exact absurd hv hnot
    · exact hv
  · exact fun hv => ⟨.inr hv, (mem_level_succ.mp hv).1⟩

theorem FrontAt.step {front : Bitmap n} (h : FrontAt g source k front) :
    FrontAt g source (k + 1) front := by
  intro v hv
  obtain ⟨hr, hout⟩ := h v hv
  refine ⟨reached_mono k.le_succ hr, .inr fun x hE => ?_⟩
  exact reached_of_edge hr hE

theorem frontAt_of_level {front : Bitmap n}
    (h : ∀ v, front.getBit v = true ↔ v ∈ level g.Edge source k) : FrontAt g source k front :=
  fun v hv => ⟨level_subset_reached k ((h v).mp hv), .inl ((h v).mp hv)⟩

/-- There is room in the queue for all vertices that have not been visited. -/
theorem room_of_nonneg {parent : Fin n → Int} {l : List (Fin n)} (hl : l.Nodup)
    (hmem : ∀ v ∈ l, 0 ≤ parent v) :
    l.length + (Finset.univ.filter fun v => parent v < 0).card ≤ n := by
  have hdisj : Disjoint l.toFinset (Finset.univ.filter fun v => parent v < 0) := by
    rw [Finset.disjoint_left]
    intro v hv hneg
    exact absurd (Finset.mem_filter.mp hneg).2 (not_lt.mpr (hmem v (List.mem_toFinset.mp hv)))
  have hcard := Finset.card_le_univ (l.toFinset ∪ Finset.univ.filter fun v => parent v < 0)
  rwa [Finset.card_union_of_disjoint hdisj, List.toFinset_card_of_nodup hl, Fintype.card_fin] at hcard

end Levels

/-! ## One step of the traversal -/

section Step

variable (g : Graph n) (source : Fin n)

/-- Between two turns of the main loop. -/
structure AtLevel (k : Nat) (s : BfsMem n) : Prop where
  parents : ParentsAt g source k s.parent
  front : FrontAt g source k s.front
  queue : ∃ old w, QueueAt old w s.queue ∧ (old ++ w).Nodup ∧
    (∀ v ∈ old, v ∈ reached g.Edge source k) ∧ ∀ v, v ∈ w ↔ v ∈ level g.Edge source k

/-- Before a bottom-up step: the bitmap holds the level, and the window is empty. -/
structure SweepAt (k : Nat) (s : BfsMem n) : Prop where
  parents : ParentsAt g source k s.parent
  front : FrontAt g source k s.front
  bits : ∀ v ∈ level g.Edge source k, s.front.getBit v = true
  queue : ∃ old, QueueAt old [] s.queue ∧ old.Nodup ∧ ∀ v ∈ old, v ∈ reached g.Edge source k

/-- After a bottom-up step: the bitmap is the new level, which the queue has not seen yet. -/
structure SweptAt (k : Nat) (s : BfsMem n) : Prop where
  parents : ParentsAt g source (k + 1) s.parent
  front : ∀ v, s.front.getBit v = true ↔ v ∈ level g.Edge source (k + 1)
  queue : ∃ old, QueueAt old [] s.queue ∧ old.Nodup ∧ ∀ v ∈ old, v ∈ reached g.Edge source k

variable {g source} {k : Nat}

theorem SweptAt.sweepAt {s : BfsMem n} (h : SweptAt g source k s) : SweepAt g source (k + 1) s := by
  obtain ⟨old, hold, hnodup, hmem⟩ := h.queue
  exact ⟨h.parents, frontAt_of_level h.front, fun v hv => (h.front v).mpr hv,
    old, hold, hnodup, fun v hv => reached_mono k.le_succ (hmem v hv)⟩

/-- A bottom-up step awakens the next level, each vertex from the current one. -/
theorem SweepAt.awakener_spec (hg : g.Transposed) (hdeg : ∀ v, g.outDegree v < 2 ^ 31) {s : BfsMem n}
    (h : SweepAt g source k s) (u : Fin n) :
    ((awakener g s u).isSome = true ↔ u ∈ level g.Edge source (k + 1)) ∧
      ∀ v, awakener g s u = some v → v ∈ level g.Edge source k ∧ g.Edge v u := by
  have hneg := h.parents.neg_iff hdeg (v := u)
  have hsome (v : Fin n) (hv : awakener g s u = some v) :
      u ∉ reached g.Edge source k ∧ v ∈ level g.Edge source k ∧ g.Edge v u := by
    rw [awakener] at hv
    split at hv
    · next hlt =>
      have hbit := List.find?_some hv
      have hE : g.Edge v u := (hg v u).mp (List.mem_of_find?_eq_some hv)
      obtain ⟨-, hlevel | hout⟩ := h.front v hbit
      · exact ⟨hneg.mp hlt, hlevel, hE⟩
      · exact absurd (hout u hE) (hneg.mp hlt)
    · simp at hv
  refine ⟨⟨fun hu => ?_, fun hu => ?_⟩, fun v hv => (hsome v hv).2⟩
  · obtain ⟨v, hv⟩ := Option.isSome_iff_exists.mp hu
    obtain ⟨hnot, hlevel, hE⟩ := hsome v hv
    exact mem_level_succ.mpr ⟨hnot, v, hlevel, hE⟩
  · obtain ⟨hnot, v, hlevel, hE⟩ := mem_level_succ.mp hu
    rw [awakener, if_pos (hneg.mpr hnot), List.find?_isSome]
    exact ⟨v, (hg v u).mpr hE, h.bits v hlevel⟩

theorem SweepAt.swept (hg : g.Transposed) (hdeg : ∀ v, g.outDegree v < 2 ^ 31) {s s' : BfsMem n}
    (h : SweepAt g source k s) (hstep : BottomUp g s s') :
    SweptAt g source k { s' with front := s'.curr, curr := s'.front } := by
  obtain ⟨old, hold, hnodup, hmem⟩ := h.queue
  refine ⟨h.parents.step (fun u hu => ?_) fun u hu => ?_, fun u => ?_, old, ?_, hnodup, hmem⟩
  · have hnone : awakener g s u = none := by
      rw [← Option.not_isSome_iff_eq_none]
      exact fun hsome => hu ((h.awakener_spec hg hdeg u).1.mp hsome)
    show s'.parent u = s.parent u
    rw [hstep.parent, hnone]
    rfl
  · obtain ⟨v, hv⟩ := Option.isSome_iff_exists.mp ((h.awakener_spec hg hdeg u).1.mpr hu)
    obtain ⟨hlevel, hE⟩ := (h.awakener_spec hg hdeg u).2 v hv
    refine ⟨v, hlevel, hE, ?_⟩
    show s'.parent u = _
    rw [hstep.parent, hv]
    rfl
  · show s'.curr.getBit u = true ↔ _
    rw [hstep.curr]
    exact (h.awakener_spec hg hdeg u).1
  · show QueueAt old [] s'.queue
    rw [hstep.queue]
    exact hold

theorem SweepAt.awake_card (hg : g.Transposed) (hdeg : ∀ v, g.outDegree v < 2 ^ 31) {s : BfsMem n}
    (h : SweepAt g source k s) :
    (Finset.univ.filter fun u => (awakener g s u).isSome) = level g.Edge source (k + 1) := by
  ext u
  rw [Finset.mem_filter]
  exact (and_iff_right (Finset.mem_univ u)).trans (h.awakener_spec hg hdeg u).1

/-- `front` is brought up to date before the first bottom-up step. -/
theorem AtLevel.sweepAt {s s' : BfsMem n} {w old : List (Fin n)} (hq : QueueAt old w s.queue)
    (hnodup : (old ++ w).Nodup) (hold : ∀ v ∈ old, v ∈ reached g.Edge source k)
    (hw : ∀ v, v ∈ w ↔ v ∈ level g.Edge source k) (h : AtLevel g source k s)
    (hrest : s' = { s with front := s'.front })
    (hbits : ∀ v, s'.front.getBit v = true ↔ s.front.getBit v = true ∨ v ∈ w) :
    SweepAt g source k { s' with queue := s'.queue.slideWindow } := by
  refine ⟨?_, fun v hv => ?_, fun v hv => (hbits v).mpr (.inr ((hw v).mpr hv)), old ++ w, ?_, hnodup,
    fun v hv => ?_⟩
  · show ParentsAt g source k s'.parent
    rw [hrest]
    exact h.parents
  · rcases (hbits v).mp hv with hv | hv
    · exact h.front v hv
    · exact ⟨level_subset_reached k ((hw v).mp hv), .inl ((hw v).mp hv)⟩
  · show QueueAt (old ++ w) [] s'.queue.slideWindow
    rw [hrest]
    exact hq.slide
  · rcases List.mem_append.mp hv with hv | hv
    · exact hold v hv
    · exact level_subset_reached k ((hw v).mp hv)

/-- A top-down step visits the next level. -/
theorem AtLevel.topDown (hdeg : ∀ v, g.outDegree v < 2 ^ 31) {s s' : BfsMem n}
    {old w l : List (Fin n)} (hq : QueueAt old w s.queue) (hnodup : (old ++ w).Nodup)
    (hold : ∀ v ∈ old, v ∈ reached g.Edge source k)
    (hw : ∀ v, v ∈ w ↔ v ∈ level g.Edge source k) (h : AtLevel g source k s)
    (hstep : TopDown g w l s s') :
    (∀ v, v ∈ l ↔ v ∈ level g.Edge source (k + 1)) ∧
      AtLevel g source (k + 1) { s' with queue := s'.queue.slideWindow } := by
  have hl (v : Fin n) : v ∈ l ↔ v ∈ level g.Edge source (k + 1) := by
    rw [hstep.mem, mem_level_succ, h.parents.neg_iff hdeg]
    simp only [hw]
  have hqueued (v : Fin n) (hv : v ∈ old ++ w) : v ∈ reached g.Edge source k := by
    rcases List.mem_append.mp hv with hv | hv
    · exact hold v hv
    · exact level_subset_reached k ((hw v).mp hv)
  refine ⟨hl, h.parents.step (fun v hv => hstep.other v fun hvl => hv ((hl v).mp hvl)) fun v hv => ?_,
    ?_, old ++ w, l, ?_, ?_, fun v hv => reached_mono k.le_succ (hqueued v hv), hl⟩
  · obtain ⟨u, hu, hE, hpar⟩ := hstep.parent v ((hl v).mpr hv)
    exact ⟨u, (hw u).mp hu, hE, hpar⟩
  · show FrontAt g source (k + 1) s'.front
    rw [hstep.appended.rest]
    exact h.front.step
  · exact QueueAt.append (s := { s with parent := s'.parent }) hq hstep.appended
  · apply hnodup.append hstep.nodup
    intro v hv hvl
    exact (mem_level_succ.mp ((hl v).mp hvl)).1 (hqueued v hv)

/-- The bitmap goes back into the queue. -/
theorem SweptAt.atLevel {s s₁ : BfsMem n} {bits l : List (Fin n)} (h : SweptAt g source k s)
    (hbits : bits.Nodup) (hmem : ∀ v, v ∈ bits ↔ s.front.getBit v = true) (hl : l.Perm bits)
    (happ : Appended l s s₁) :
    AtLevel g source (k + 1) { s₁ with queue := s₁.queue.slideWindow } := by
  obtain ⟨old, hq, hnodup, hold⟩ := h.queue
  have hlevel (v : Fin n) : v ∈ l ↔ v ∈ level g.Edge source (k + 1) := by
    rw [hl.mem_iff, hmem, h.front]
  have hrest : s₁ = _ := happ.rest
  refine ⟨?_, ?_, old, l, ?_, ?_, fun v hv => reached_mono k.le_succ (hold v hv), hlevel⟩
  · show ParentsAt g source (k + 1) s₁.parent
    rw [hrest]
    exact h.parents
  · show FrontAt g source (k + 1) s₁.front
    rw [hrest]
    exact frontAt_of_level h.front
  · have happend := hq.append happ
    rwa [List.append_nil] at happend
  · apply hnodup.append (hl.nodup_iff.mpr hbits)
    intro v hv hvl
    exact not_mem_level_of_reached (hold v hv) k.lt_succ_self ((hlevel v).mp hvl)

/-! ## The whole run -/

theorem level_pos (h : level g.Edge source k ≠ ∅) : 0 < ((level g.Edge source k).card : Int) := by
  exact_mod_cast Finset.card_pos.mpr (Finset.nonempty_iff_ne_empty.mpr h)

/-- Every level that is not empty adds to what has been reached. -/
theorem card_reached_lt {k' : Nat} (hk : k < k') (h : level g.Edge source k' ≠ ∅) :
    (reached g.Edge source k).card < (reached g.Edge source k').card := by
  apply Finset.card_lt_card
  rw [Finset.ssubset_iff_subset_ne]
  refine ⟨reached_mono hk.le, fun heq => h (Finset.eq_empty_of_forall_notMem fun v hv => ?_)⟩
  exact not_mem_level_of_reached (heq ▸ level_subset_reached k' hv) hk hv

theorem card_visited_le (parent : Fin n → Int) : (visited parent).card ≤ n := by
  have hle := Finset.card_le_univ (visited parent)
  rwa [Fintype.card_fin] at hle

theorem phaseEnds_of_pos {beta : Int} (hbeta : 1 ≤ beta) (maxBuIters : Int) (k : Nat) :
    PhaseEnds g source beta maxBuIters k :=
  ⟨.inr (.inl hbeta), fun hzero => absurd hzero (by omega)⟩

theorem terminating_of_pos {alpha beta : Int} (halpha : 1 ≤ alpha) (hbeta : 1 ≤ beta) (maxBuIters : Int) :
    Terminating g source alpha beta maxBuIters :=
  ⟨by omega, fun k _ _ _ _ _ => phaseEnds_of_pos hbeta maxBuIters k⟩

theorem tdiv_nonneg_iff {beta : Int} (hbeta : beta ≠ 0) :
    0 ≤ Int.tdiv n beta ↔ 0 < beta ∨ beta < -n := by
  rcases Int.lt_or_gt_of_ne hbeta with hneg | hpos
  · -- for a negative divisor the quotient is 0 or negative
    have hflip : Int.tdiv n beta = -Int.tdiv n (-beta) := by rw [Int.tdiv_neg, neg_neg]
    rw [hflip]
    by_cases hlt : beta < -n
    · rw [Int.tdiv_eq_zero_of_lt (Int.natCast_nonneg n) (by omega)]
      exact iff_of_true le_rfl (.inr hlt)
    · have hone : 1 ≤ Int.tdiv n (-beta) := Int.le_tdiv_of_mul_le (by omega) (by omega)
      exact iff_of_false (by omega) (by omega)
  · exact iff_of_true (Int.tdiv_nonneg (Int.natCast_nonneg n) hpos.le) (.inl hpos)

/-- When the bottom-up loop goes on without a limit, it has awakened something. -/
theorem awake_of_again {beta iters awake old : Int} (hbeta : 0 < beta ∨ beta < -n) (hold : 0 < old)
    (h : buAgain n beta 0 iters awake old = some true) : 0 < awake := by
  simp only [buAgain, true_or, if_true] at h
  split at h
  · omega
  · split at h
    · cases h
    · next hne =>
      have hdiv := (tdiv_nonneg_iff hne).mpr hbeta
      rw [Option.some.injEq, decide_eq_true_eq] at h
      omega

/-- When it goes on, the limit has not been reached. -/
theorem lt_of_again {beta maxBuIters iters awake old : Int} (hmax : maxBuIters ≠ 0)
    (h : buAgain n beta maxBuIters iters awake old = some true) : iters < maxBuIters := by
  simp only [buAgain, hmax, false_or] at h
  split at h
  · assumption
  · cases h

/-- In a phase that comes to its end there is no division by zero. -/
theorem PhaseEnds.buAgain_isSome {beta maxBuIters : Int} (h : PhaseEnds g source beta maxBuIters k)
    (j : Nat) : buAgain n beta maxBuIters (j + 1) (level g.Edge source (k + (j + 1))).card
      (level g.Edge source (k + j)).card ≠ none := by
  intro hnone
  simp only [buAgain] at hnone
  split_ifs at hnone with hmax hle hzero
  have hlimit : maxBuIters ≠ 0 := by
    rcases h.bounded with hne | hbeta | hbeta
    · exact hne
    · omega
    · omega
  have hcard := h.defined hzero j (hmax.resolve_left hlimit)
  omega

/-- A program that does what a bottom-up step does, as it is observed. -/
theorem SweepAt.observe_solo {step : Prog (BfsMem n) Int} (hg : g.Transposed)
    (hdeg : ∀ v, g.outDegree v < 2 ^ 31) {s : BfsMem n} (h : SweepAt g source k s)
    (hstep : Solo step s fun awake s' => BottomUp g s s' ∧
      awake = ((Finset.univ.filter fun u => (awakener g s u).isSome).card : Int)) :
    Solo (observe step) s fun r s' =>
      r = (((level g.Edge source (k + 1)).card : Int), level g.Edge source (k + 1)) ∧
        SweptAt g source k { s' with front := s'.curr, curr := s'.front } := by
  apply Solo.load_bind
  apply Solo.bind
  apply hstep.mono
  rintro awake s' ⟨hstep, hawake⟩
  have hswept := h.swept hg hdeg hstep
  apply Solo.load_bind
  refine Solo.ret ⟨?_, hswept⟩
  have hparents : ParentsAt g source (k + 1) s'.parent := hswept.parents
  rw [hawake, h.awake_card hg hdeg, hparents.visited_eq hdeg, h.parents.visited_eq hdeg, reached_sdiff]

theorem observe_buStep_solo (p : Port) {T : Nat} [NeZero T] (hg : g.Transposed)
    (hdeg : ∀ v, g.outDegree v < 2 ^ 31) {s : BfsMem n} (h : SweepAt g source k s) :
    Solo (observe (buStep p T g)) s fun r s' =>
      r = (((level g.Edge source (k + 1)).card : Int), level g.Edge source (k + 1)) ∧
        SweptAt g source k { s' with front := s'.curr, curr := s'.front } :=
  h.observe_solo hg hdeg (buStep_solo p g s)

/-- The report of the bottom-up step from level `k`. -/
def sweepRecord (g : Graph n) (source : Fin n) (k : Nat) : StepRecord n :=
  .bottomUp (level g.Edge source (k + 1)) (level g.Edge source (k + 1)).card

/-- What the bottom-up loop knows after `j` steps, when it has started at level `k` and has reported
the steps `log`. -/
structure Sweeping (g : Graph n) (source : Fin n) (beta maxBuIters : Int) (k : Nat)
    (log₀ : List (StepRecord n)) (awake iters : Int) (log : List (StepRecord n)) (j : Nat)
    (s : BfsMem n) : Prop where
  sweepAt : SweepAt g source (k + j) s
  count : awake = (level g.Edge source (k + j)).card
  steps : iters = j
  log : ∃ recs, log = log₀ ++ recs ∧ ∀ recs' k',
    Sweeps g source beta maxBuIters (k + j) awake iters recs' k' →
      Sweeps g source beta maxBuIters k (level g.Edge source k).card 0 (recs ++ recs') k'

section Sweeping

variable {beta maxBuIters old iters : Int} {log₀ log : List (StepRecord n)} {j : Nat} {s s' : BfsMem n}

theorem sweeping_start (h : SweepAt g source k s) :
    Sweeping g source beta maxBuIters k log (level g.Edge source k).card 0 log 0 s :=
  ⟨h, rfl, rfl, [], by simp, fun _ _ hrecs => hrecs⟩

/-- The loop goes on. -/
theorem Sweeping.again (h : Sweeping g source beta maxBuIters k log₀ old iters log j s)
    (hswept : SweptAt g source (k + j) s')
    (hagain : buAgain n beta maxBuIters (iters + 1) (level g.Edge source (k + j + 1)).card old =
      some true) :
    Sweeping g source beta maxBuIters k log₀ (level g.Edge source (k + j + 1)).card (iters + 1)
      (log ++ [sweepRecord g source (k + j)]) (j + 1) s' := by
  obtain ⟨recs, hlog, hrecs⟩ := h.log
  refine ⟨hswept.sweepAt, rfl, ?_, recs ++ [sweepRecord g source (k + j)], ?_, fun recs' k' hrecs' => ?_⟩
  · rw [h.steps]
    rfl
  · rw [hlog, List.append_assoc]
  · rw [List.append_assoc]
    exact hrecs _ k' (.again hagain hrecs')

/-- The loop comes to its end. -/
theorem Sweeping.last (h : Sweeping g source beta maxBuIters k log₀ old iters log j s)
    (hagain : buAgain n beta maxBuIters (iters + 1) (level g.Edge source (k + j + 1)).card old =
      some false) :
    ∃ recs, log ++ [sweepRecord g source (k + j)] = log₀ ++ recs ∧
      Sweeps g source beta maxBuIters k (level g.Edge source k).card 0 recs (k + j + 1) := by
  obtain ⟨recs, hlog, hrecs⟩ := h.log
  refine ⟨recs ++ [sweepRecord g source (k + j)], ?_, hrecs _ _ (.last hagain)⟩
  rw [hlog, List.append_assoc]

end Sweeping

/-- The work that is left for the bottom-up loop: the steps up to the limit or, where there is none, the
vertices that have not been visited. -/
def sweepsLeft (maxBuIters iters : Int) (s : BfsMem n) : Nat :=
  if maxBuIters = 0 then n - (visited s.parent).card else (maxBuIters - iters).toNat

theorem SweptAt.sweepsLeft_lt (hdeg : ∀ v, g.outDegree v < 2 ^ 31) {s s' : BfsMem n}
    (h : SweepAt g source k s) (h' : SweptAt g source k s') {beta maxBuIters iters old : Int}
    (hends : maxBuIters = 0 → level g.Edge source (k + 1) ≠ ∅)
    (hagain : buAgain n beta maxBuIters (iters + 1) (level g.Edge source (k + 1)).card old = some true) :
    sweepsLeft maxBuIters (iters + 1) s' < sweepsLeft maxBuIters iters s := by
  by_cases hmax : maxBuIters = 0
  · have hlt := card_reached_lt k.lt_add_one (hends hmax)
    have hle := card_visited_le s'.parent
    rw [sweepsLeft, sweepsLeft, if_pos hmax, if_pos hmax, h.parents.visited_eq hdeg]
    rw [h'.parents.visited_eq hdeg] at hle ⊢
    omega
  · have hlt := lt_of_again hmax hagain
    rw [sweepsLeft, sweepsLeft, if_neg hmax, if_neg hmax]
    omega

/-- The report of the top-down step from level `k`. -/
def descentRecord (g : Graph n) (source : Fin n) (edges : Int) (k : Nat) : StepRecord n :=
  .topDown (level g.Edge source (k + 1)) (scoutOf g source (k + 1)) edges

/-- Programs that do what `BUStep` and `BitmapToQueue` do, as long as `Told` holds of the steps that
they are told. -/
structure StandIns (g : Graph n) (source : Fin n) (Told : Nat → List (StepRecord n) → Prop)
    (step : List (StepRecord n) → Prog (BfsMem n) Int)
    (toQueue : List (StepRecord n) → Prog (BfsMem n) Unit) : Prop where
  start : Told 0 []
  bottomUp : ∀ k log, Told k log → Told (k + 1) (log ++ [sweepRecord g source k])
  topDown : ∀ k log edges, Told k log → Told (k + 1) (log ++ [descentRecord g source edges k])
  step : ∀ k log s, Told k log → SweepAt g source k s → Solo (step log) s fun awake s' =>
    BottomUp g s s' ∧ awake = ((Finset.univ.filter fun u => (awakener g s u).isSome).card : Int)
  toQueue : ∀ k log s bits, Told (k + 1) log → SweptAt g source k s → bits.Nodup →
    (∀ v, v ∈ bits ↔ s.front.getBit v = true) → s.queue.sharedIn + bits.length ≤ n →
    Solo (toQueue log) s fun _ s' => ∃ l s₁, l.Perm bits ∧ Appended l s s₁ ∧
      s' = { s₁ with queue := s₁.queue.slideWindow }

theorem standIns_self (p : Port) (T : Nat) [NeZero T] :
    StandIns g source (fun _ _ => True) (fun _ => buStep p T g) fun _ => bitmapToQueue p T :=
  ⟨trivial, fun _ _ _ => trivial, fun _ _ _ _ => trivial, fun _ _ s _ _ => buStep_solo p g s,
    fun _ _ _ _ _ _ hbits hmem hroom => bitmapToQueue_solo p hbits hmem hroom⟩

section StandIns

variable {Told : Nat → List (StepRecord n) → Prop} {step : List (StepRecord n) → Prog (BfsMem n) Int}
  {toQueue : List (StepRecord n) → Prog (BfsMem n) Unit}

theorem buLoopWith_solo (H : StandIns g source Told step toQueue) (hg : g.Transposed)
    (hdeg : ∀ v, g.outDegree v < 2 ^ 31) {beta maxBuIters : Int}
    (hends : PhaseEnds g source beta maxBuIters k) {log : List (StepRecord n)} {s : BfsMem n}
    (h : SweepAt g source k s) (hk : level g.Edge source k ≠ ∅) (htold : Told k log) :
    Solo (buLoopWith step beta maxBuIters (level g.Edge source k).card log) s fun log' s' =>
      ∃ k', k ≤ k' ∧ SweptAt g source k' s' ∧ Told (k' + 1) log' ∧ ∃ recs, log' = log ++ recs ∧
        Sweeps g source beta maxBuIters k (level g.Edge source k).card 0 recs (k' + 1) := by
  let Inv (x : Int × Int × List (StepRecord n)) (s : BfsMem n) : Prop :=
    ∃ j, Sweeping g source beta maxBuIters k log x.1 x.2.1 x.2.2 j s ∧ Told (k + j) x.2.2 ∧
      (maxBuIters = 0 → 0 < x.1)
  have hstart : Inv ((level g.Edge source k).card, 0, log) s :=
    ⟨0, sweeping_start h, htold, fun _ => level_pos hk⟩
  apply Solo.iter Inv (fun x s => sweepsLeft maxBuIters x.2.1 s) hstart
  rintro ⟨old, iters, log₁⟩ s₁ ⟨j, hs₁, htold₁, hpos⟩
  obtain ⟨hsweep, hold, hiters, -⟩ := id hs₁
  change old = _ at hold
  change iters = _ at hiters
  apply Solo.bind
  apply (hsweep.observe_solo hg hdeg (H.step (k + j) log₁ s₁ htold₁ hsweep)).mono
  rintro _ s₂ ⟨rfl, hswept⟩
  apply Solo.store_bind
  have htold₂ : Told (k + j + 1) (log₁ ++ [sweepRecord g source (k + j)]) := H.bottomUp _ _ htold₁
  have hdefined := hends.buAgain_isSome j
  rw [← hiters, ← hold] at hdefined
  cases hagain : buAgain n beta maxBuIters (iters + 1) (level g.Edge source (k + j + 1)).card old with
  | none => exact absurd hagain hdefined
  | some again =>
    cases again with
    | true =>
      have hpos' (hmax : maxBuIters = 0) : 0 < ((level g.Edge source (k + j + 1)).card : Int) := by
        have hbeta := hends.bounded.resolve_left (not_not.mpr hmax)
        exact awake_of_again hbeta (hpos hmax) (hmax ▸ hagain)
      have hne (hmax : maxBuIters = 0) : level g.Edge source (k + j + 1) ≠ ∅ := by
        intro hempty
        have hcard := hpos' hmax
        simp [hempty] at hcard
      exact Solo.ret ⟨⟨j + 1, hs₁.again hswept hagain, htold₂, hpos'⟩,
        hswept.sweepsLeft_lt hdeg hsweep hne hagain⟩
    | false => exact Solo.ret ⟨k + j, k.le_add_right j, hswept, htold₂, hs₁.last hagain⟩

end StandIns

/-- One top-down step, as it is observed. -/
theorem observe_tdStep_solo (p : Port) {T : Nat} [NeZero T] (hdeg : ∀ v, g.outDegree v < 2 ^ 31)
    {s : BfsMem n} (h : AtLevel g source k s) :
    Solo (observe (tdStep p T g)) s fun r s' =>
      r = (scoutOf g source (k + 1), level g.Edge source (k + 1)) ∧
        AtLevel g source (k + 1) { s' with queue := s'.queue.slideWindow } := by
  obtain ⟨old, w, hq, hnodup, hold, hw⟩ := h.queue
  have hroom : s.queue.sharedIn + (discovered g w s).card ≤ n := by
    refine (Nat.add_le_add_left (card_discovered_le g w s) _).trans ?_
    rw [hq.sharedIn, ← List.length_append]
    refine room_of_nonneg hnodup fun v hv => h.parents.nonneg ?_
    rcases List.mem_append.mp hv with hv | hv
    · exact hold v hv
    · exact level_subset_reached k ((hw v).mp hv)
  apply Solo.load_bind
  apply Solo.bind
  apply (tdStep_solo p g (hq.holdsWindow hnodup) (fun v _ => h.parents.gt_min hdeg v) hroom).mono
  rintro scout s' ⟨l, hstep, hscout⟩
  obtain ⟨hl, hnext⟩ := h.topDown hdeg hq hnodup hold hw hstep
  apply Solo.load_bind
  refine Solo.ret ⟨?_, hnext⟩
  have hparents : ParentsAt g source (k + 1) s'.parent := hnext.parents
  have hset : l.toFinset = level g.Edge source (k + 1) := by
    ext v
    rw [List.mem_toFinset, hl]
  have hsum : scout = scoutOf g source (k + 1) := by
    rw [hscout, ← List.sum_toFinset _ hstep.nodup, hset]
    apply Finset.sum_congr rfl
    intro v hv
    rw [h.parents.unvisited v (mem_level_succ.mp hv).1, initParentOf_eq (hdeg v), neg_neg]
  rw [hsum, hparents.visited_eq hdeg, h.parents.visited_eq hdeg, reached_sdiff]

theorem QueueAt.size_eq {old w : List (Fin n)} {q : SlidingQueue (Fin n) n} (h : QueueAt old w q)
    (hnodup : (old ++ w).Nodup) (hw : ∀ v, v ∈ w ↔ v ∈ level g.Edge source k) :
    (q.size : Int) = (level g.Edge source k).card := by
  have hset : w.toFinset = level g.Edge source k := by
    ext v
    rw [List.mem_toFinset, hw]
  rw [(h.holdsWindow hnodup).size, ← hset, List.toFinset_card_of_nodup (List.nodup_append.mp hnodup).2.1]

/-- From the queue to bottom-up steps and back. -/
theorem buPhaseWith_solo (p : Port) {T : Nat} [NeZero T]
    {Told : Nat → List (StepRecord n) → Prop} {step : List (StepRecord n) → Prog (BfsMem n) Int}
    {toQueue : List (StepRecord n) → Prog (BfsMem n) Unit}
    (H : StandIns g source Told step toQueue) (hg : g.Transposed)
    (hdeg : ∀ v, g.outDegree v < 2 ^ 31) {beta maxBuIters : Int}
    (hends : PhaseEnds g source beta maxBuIters k) (edges : Int) {log : List (StepRecord n)}
    {s : BfsMem n} (h : AtLevel g source k s) (hk : level g.Edge source k ≠ ∅) (htold : Told k log) :
    Solo (buPhaseWith p T step toQueue beta maxBuIters edges log) s
      fun r s' => ∃ k' recs, r = .inl (edges, 1, log ++ recs) ∧ k < k' ∧ AtLevel g source k' s' ∧
        Told k' (log ++ recs) ∧ Sweeps g source beta maxBuIters k (level g.Edge source k).card 0 recs k' := by
  obtain ⟨old, w, hq, hnodup, hold, hw⟩ := h.queue
  have hwindow := hq.holdsWindow hnodup
  apply Solo.bind
  apply (queueToBitmap_solo p hwindow).mono
  rintro _ s₁ ⟨hrest, hbits⟩
  have hsweep := h.sweepAt hq hnodup hold hw hrest hbits
  have hsize : (s₁.queue.size : Int) = (level g.Edge source k).card := by
    rw [hrest]
    exact hq.size_eq hnodup hw
  apply Solo.load_bind
  apply Solo.store_bind
  rw [hsize]
  apply Solo.bind
  apply (buLoopWith_solo H hg hdeg hends hsweep hk htold).mono
  rintro _ s₂ ⟨k', hkk', hswept, htold', recs, rfl, hsweeps⟩
  -- the vertices of the bitmap have never been in the queue
  let bits := (Finset.univ.filter fun v => s₂.front.getBit v = true).toList
  have hbits (v : Fin n) : v ∈ bits ↔ s₂.front.getBit v = true := by
    simp [bits]
  have hbitsNodup : bits.Nodup := Finset.nodup_toList _
  have hroom : s₂.queue.sharedIn + bits.length ≤ n := by
    obtain ⟨old, hq, hnodup, hold⟩ := hswept.queue
    rw [hq.sharedIn, List.length_nil, Nat.add_zero, ← List.length_append]
    apply length_le_of_nodup
    apply hnodup.append hbitsNodup
    intro v hv hvb
    exact not_mem_level_of_reached (hold v hv) k'.lt_succ_self
      ((hswept.front v).mp ((hbits v).mp hvb))
  apply Solo.bind
  apply (H.toQueue k' _ s₂ bits htold' hswept hbitsNodup hbits hroom).mono
  rintro _ _ ⟨l, s₃, hl, happ, rfl⟩
  apply Solo.ret
  exact ⟨k' + 1, recs, rfl, Nat.lt_succ_of_le hkk', hswept.atLevel hbitsNodup hbits hl happ, htold', hsweeps⟩

/-- What the main loop knows at level `k`, after the steps `log`. -/
structure Traversing (g : Graph n) (source : Fin n) (alpha beta maxBuIters edges scout : Int)
    (log : List (StepRecord n)) (k : Nat) (s : BfsMem n) : Prop where
  atLevel : AtLevel g source k s
  head : LoopHead g source alpha beta maxBuIters k edges scout
  log : ∀ recs, Traversal g source alpha beta maxBuIters k edges scout recs →
    Traversal g source alpha beta maxBuIters 0 g.numEdgesDirected (g.outDegree source) (log ++ recs)

/-- The work that is left: two for each vertex that has not been visited, one for a window to look
at. -/
def workLeft (s : BfsMem n) : Nat :=
  2 * (n - (visited s.parent).card) + if s.queue.empty then 0 else 1

theorem AtLevel.empty_iff {s : BfsMem n} (h : AtLevel g source k s) :
    s.queue.empty = true ↔ level g.Edge source k = ∅ := by
  obtain ⟨old, w, hq, -, -, hw⟩ := h.queue
  rw [hq.empty_iff, List.eq_nil_iff_forall_not_mem, Finset.eq_empty_iff_forall_notMem]
  simp only [hw]

/-- Going on to a later level is progress. -/
theorem AtLevel.workLeft_lt (hdeg : ∀ v, g.outDegree v < 2 ^ 31) {s s' : BfsMem n} {k' : Nat}
    (h : AtLevel g source k s) (h' : AtLevel g source k' s') (hkk' : k < k')
    (hk : level g.Edge source k ≠ ∅) : workLeft s' < workLeft s := by
  have hle := card_visited_le s'.parent
  have hmono := Finset.card_le_card (reached_mono (E := g.Edge) (s := source) hkk'.le)
  rw [workLeft, workLeft, if_neg (fun he => hk (h.empty_iff.mp he)), h.parents.visited_eq hdeg]
  rw [h'.parents.visited_eq hdeg] at hle ⊢
  by_cases hk' : level g.Edge source k' = ∅
  · rw [if_pos (h'.empty_iff.mpr hk')]
    omega
  · have hlt := card_reached_lt hkk' hk'
    split <;> omega

theorem dobfsTurnWith_solo (p : Port) {T : Nat} [NeZero T]
    {Told : Nat → List (StepRecord n) → Prop} {step : List (StepRecord n) → Prog (BfsMem n) Int}
    {toQueue : List (StepRecord n) → Prog (BfsMem n) Unit}
    (H : StandIns g source Told step toQueue) (hg : g.Transposed)
    (hdeg : ∀ v, g.outDegree v < 2 ^ 31) {alpha beta maxBuIters edges scout : Int} (halpha : alpha ≠ 0)
    (hends : level g.Edge source k ≠ ∅ → Int.tdiv edges alpha < scout →
      PhaseEnds g source beta maxBuIters k) {log : List (StepRecord n)} {s : BfsMem n}
    (h : Traversing g source alpha beta maxBuIters edges scout log k s) (htold : Told k log) :
    Solo (dobfsTurnWith p T g step toQueue alpha beta maxBuIters edges scout log) s
      fun r s' => match r with
      | .inl x => (∃ k', Traversing g source alpha beta maxBuIters x.1 x.2.1 x.2.2 k' s' ∧
            Told k' x.2.2) ∧ workLeft s' < workLeft s
      | .inr log => ∃ k', AtLevel g source k' s' ∧ level g.Edge source k' = ∅ ∧
          Traversal g source alpha beta maxBuIters 0 g.numEdgesDirected (g.outDegree source) log := by
  apply Solo.load_bind
  by_cases hempty : s.queue.empty = true
  · rw [if_pos hempty]
    have hk := h.atLevel.empty_iff.mp hempty
    have hlog := h.log [] (.done hk)
    rw [List.append_nil] at hlog
    exact Solo.ret ⟨k, h.atLevel, hk, hlog⟩
  · have hk : level g.Edge source k ≠ ∅ := fun hk => hempty (h.atLevel.empty_iff.mpr hk)
    rw [if_neg hempty, if_neg halpha]
    by_cases hscout : Int.tdiv edges alpha < scout
    · rw [if_pos hscout]
      apply (buPhaseWith_solo p H hg hdeg (hends hk hscout) edges h.atLevel hk htold).mono
      rintro _ s' ⟨k', recs, rfl, hkk', hat, htold', hsweeps⟩
      refine ⟨⟨k', ⟨hat, h.head.bottomUp hk hscout hsweeps, fun recs' hrecs' => ?_⟩, htold'⟩,
        h.atLevel.workLeft_lt hdeg hat hkk' hk⟩
      rw [List.append_assoc]
      exact h.log _ (.bottomUp hk hscout hsweeps hrecs')
    · rw [if_neg hscout]
      apply Solo.bind
      apply (observe_tdStep_solo p hdeg h.atLevel).mono
      rintro _ s' ⟨rfl, hat⟩
      apply Solo.store_bind
      refine Solo.ret ⟨⟨k + 1, ⟨hat, h.head.topDown hk hscout, fun recs' hrecs' => ?_⟩,
        H.topDown k log (edges - scout) htold⟩, h.atLevel.workLeft_lt hdeg hat k.lt_succ_self hk⟩
      show Traversal g source alpha beta maxBuIters 0 _ _ ((log ++ [_]) ++ recs')
      rw [List.append_assoc]
      exact h.log _ (.topDown hk hscout hrecs')

theorem dobfsTurn_solo (p : Port) {T : Nat} [NeZero T] (hg : g.Transposed)
    (hdeg : ∀ v, g.outDegree v < 2 ^ 31) {alpha beta maxBuIters edges scout : Int} (halpha : alpha ≠ 0)
    (hends : level g.Edge source k ≠ ∅ → Int.tdiv edges alpha < scout →
      PhaseEnds g source beta maxBuIters k) {log : List (StepRecord n)} {s : BfsMem n}
    (h : Traversing g source alpha beta maxBuIters edges scout log k s) :
    Solo (dobfsTurn p T g alpha beta maxBuIters edges scout log) s fun r s' => match r with
      | .inl x => (∃ k', Traversing g source alpha beta maxBuIters x.1 x.2.1 x.2.2 k' s') ∧
          workLeft s' < workLeft s
      | .inr log => ∃ k', AtLevel g source k' s' ∧ level g.Edge source k' = ∅ ∧
          Traversal g source alpha beta maxBuIters 0 g.numEdgesDirected (g.outDegree source) log := by
  apply (dobfsTurnWith_solo p (standIns_self p T) hg hdeg halpha hends h trivial).mono
  rintro (x | log') s' hx
  · obtain ⟨⟨k', hk', -⟩, hlt⟩ := hx
    exact ⟨⟨k', hk'⟩, hlt⟩
  · exact hx

/-- The queue after the source has been pushed. -/
def sourceQueue (source : Fin n) : SlidingQueue (Fin n) n :=
  ⟨update (fun _ => none) 0 (some source), 1, 0, 0⟩

theorem pushBack_new (source : Fin n) :
    (SlidingQueue.new : SlidingQueue (Fin n) n).pushBack source = some (sourceQueue source) := by
  have hn : 0 < n := source.pos
  simp [SlidingQueue.pushBack, SlidingQueue.put, SlidingQueue.new, hn, sourceQueue]

theorem queueAt_source (source : Fin n) : QueueAt [] [source] (sourceQueue source).slideWindow := by
  refine ⟨rfl, rfl, rfl, fun k x hk => ?_⟩
  show update (fun _ => none) 0 (some source) k = some x
  cases k with
  | zero => simpa using hk
  | succ k => simp at hk

/-- The state in which the main loop is entered. -/
theorem atLevel_zero {s : BfsMem n} (hparent : s.parent = update (initParentOf g) source source.val)
    (hqueue : QueueAt [] [source] s.queue) (hfront : s.front = s.front.reset) :
    AtLevel g source 0 s := by
  refine ⟨⟨fun v hv => ?_, ?_, fun j hj => absurd hj (Nat.not_lt_zero j)⟩, fun v hv => ?_,
    [], [source], hqueue, by simp, by simp, fun v => ?_⟩
  · have hne : v ≠ source := fun heq =>
      hv (level_subset_reached 0 (mem_level_zero.mpr heq))
    rw [hparent, update_of_ne hne]
  · rw [hparent, update_self]
  · rw [hfront, Bitmap.getBit_reset] at hv
    exact absurd hv (by simp)
  · rw [List.mem_singleton, mem_level_zero]

/-- The array that is returned when a level is empty. -/
theorem ParentsAt.isBfsTree (hdeg : ∀ v, g.outDegree v < 2 ^ 31) {parent : Fin n → Int}
    (h : ParentsAt g source k parent) (hk : level g.Edge source k = ∅) :
    IsBfsTree g source fun v => if parent v < -1 then -1 else parent v := by
  have hreach (v : Fin n) := mem_reached_iff_reachable hk (v := v)
  have hnonneg {v : Fin n} (hv : Relation.ReflTransGen g.Edge source v) : ¬ parent v < -1 := by
    have hle := h.nonneg ((hreach v).mpr hv)
    omega
  refine ⟨?_, fun v => ⟨fun hv hr => ?_, fun hv => ?_⟩, fun v hvs hr => ?_⟩
  · show (if parent source < -1 then -1 else parent source) = _
    rw [if_neg (hnonneg .refl), h.root]
  · change (if parent v < -1 then -1 else parent v) = -1 at hv
    rw [if_neg (hnonneg hr)] at hv
    have hle := h.nonneg ((hreach v).mpr hr)
    omega
  · have hneg := (h.neg_iff hdeg).mpr fun hmem => hv ((hreach v).mp hmem)
    show (if parent v < -1 then -1 else parent v) = -1
    split <;> omega
  · obtain ⟨j, hj, hlevel⟩ := exists_level ((hreach v).mpr hr)
    cases j with
    | zero => exact absurd (mem_level_zero.mp hlevel) hvs
    | succ j =>
      obtain ⟨u, hu, hE, hpar⟩ := h.tree j hj v hlevel
      refine ⟨u, ?_, hE, j, mem_level_iff.mp hu, mem_level_iff.mp hlevel⟩
      show (if parent v < -1 then -1 else parent v) = _
      rw [if_neg (hnonneg hr), hpar]

/-- `DOBFS` returns a breadth-first tree, and its steps are those that the counts determine. -/
theorem dobfsWith_solo (p : Port) {T : Nat} [NeZero T] {Told : Nat → List (StepRecord n) → Prop}
    {step : List (StepRecord n) → Prog (BfsMem n) Int}
    {toQueue : List (StepRecord n) → Prog (BfsMem n) Unit}
    (H : StandIns g source Told step toQueue) (hg : g.Transposed)
    (hdeg : ∀ v, g.outDegree v < 2 ^ 31) {alpha beta maxBuIters : Int}
    (hterm : Terminating g source alpha beta maxBuIters) (s₀ : BfsMem n) :
    Solo (dobfsWith p T g step toQueue source alpha beta maxBuIters) s₀ fun log s =>
      IsBfsTree g source s.parent ∧
        Traversal g source alpha beta maxBuIters 0 g.numEdgesDirected (g.outDegree source) log := by
  apply Solo.bind
  apply (initParent_solo p g s₀).mono
  rintro _ s₁ rfl
  apply Solo.store_bind
  apply Solo.store_bind
  refine Solo.storeAt_bind (congrArg (Option.map _) (pushBack_new source)) ?_
  apply Solo.store_bind
  apply Solo.store_bind
  apply Solo.store_bind
  apply Solo.bind
  let Inv (x : Int × Int × List (StepRecord n)) (s : BfsMem n) : Prop :=
    ∃ k, Traversing g source alpha beta maxBuIters x.1 x.2.1 x.2.2 k s ∧ Told k x.2.2
  apply Solo.iter Inv (fun _ s => workLeft s)
    ⟨0, ⟨atLevel_zero rfl (queueAt_source source) rfl, .start, fun _ h => h⟩, H.start⟩
  rintro ⟨edges, scout, log⟩ s ⟨k, hs, htold⟩
  apply (dobfsTurnWith_solo p H hg hdeg hterm.alpha_ne (hterm.phases k edges scout hs.head) hs htold).mono
  rintro (x | log') s' h
  · exact h
  · obtain ⟨k', hat, hk', hlog⟩ := h
    apply Solo.bind
    apply (cleanupParent_solo p s').mono
    rintro _ _ rfl
    exact Solo.ret ⟨hat.parents.isBfsTree hdeg hk', hlog⟩

theorem dobfs_solo (p : Port) {T : Nat} [NeZero T] (hg : g.Transposed)
    (hdeg : ∀ v, g.outDegree v < 2 ^ 31) {alpha beta maxBuIters : Int}
    (hterm : Terminating g source alpha beta maxBuIters) (s₀ : BfsMem n) :
    Solo (dobfs p T g source alpha beta maxBuIters) s₀ fun log s =>
      IsBfsTree g source s.parent ∧
        Traversal g source alpha beta maxBuIters 0 g.numEdgesDirected (g.outDegree source) log :=
  dobfsWith_self p T g source alpha beta maxBuIters ▸
    dobfsWith_solo p (standIns_self p T) hg hdeg hterm s₀

/-- The pthread program, for every team, every setting of the tunables and every interleaving. -/
theorem dobfs_correct {n : Nat} (g : Graph n) (hg : g.Transposed)
    (hdeg : ∀ v, g.outDegree v < 2 ^ 31) (source : Fin n) (T : Nat) [NeZero T] (alpha beta : Int)
    (halpha : 1 ≤ alpha) (hbeta : 1 ≤ beta) (maxBuIters : Int) (s₀ : BfsMem n) :
    (dobfs .pthread T g source alpha beta maxBuIters).Correct s₀ fun _ s =>
      IsBfsTree g source s.parent :=
  ((dobfs_solo .pthread hg hdeg (terminating_of_pos halpha hbeta maxBuIters) s₀).mono fun _ _ h => h.1).correct

theorem dobfs_correct_pair :
    (dobfs .pthread 2 pairGraph 0 15 18 0).Correct (blankMem 2) fun _ s =>
      IsBfsTree pairGraph 0 s.parent :=
  dobfs_correct pairGraph (by decide) (by decide) 0 2 15 18 (by decide) (by decide) 0 (blankMem 2)

end Step

end Gapbs
