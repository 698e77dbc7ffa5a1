import Gapbs.Bfs.Port
import Gapbs.Graph.Csr
import Gapbs.Mem.Bitmap
import Gapbs.Mem.SlidingQueue

/-!
# The memory of a traversal

The arrays that the parallel regions of `bfs_pthread.cc` and of the two `bfs.cc` share, and the two
regions that work on the parent array alone.  A negative entry of `parent` marks a vertex that has not
been visited; its absolute value is the vertex's degree.
-/

namespace Gapbs

open Conc Function

/-- `nextIndex` is the cursor of a bottom-up step. -/
structure BfsMem (n : Nat) where
  parent : Fin n → Int
  queue : SlidingQueue (Fin n) n
  front : Bitmap n
  curr : Bitmap n
  nextIndex : Nat

/-- Memory that has not been initialised. -/
def blankMem (n : Nat) : BfsMem n := ⟨fun _ => 0, .new, ⟨fun _ => 0⟩, ⟨fun _ => 0⟩, 0⟩

namespace BfsMem

variable {n : Nat}

def queueLens : Lens (BfsMem n) (SlidingQueue (Fin n) n) where
  get s := s.queue
  set q s := { s with queue := q }
  get_set _ _ := rfl
  set_get _ := rfl
  set_set _ _ _ := rfl

def frontLens : Lens (BfsMem n) (Bitmap n) where
  get s := s.front
  set b s := { s with front := b }
  get_set _ _ := rfl
  set_get _ := rfl
  set_set _ _ _ := rfl

def currLens : Lens (BfsMem n) (Bitmap n) where
  get s := s.curr
  set b s := { s with curr := b }
  get_set _ _ := rfl
  set_get _ := rfl
  set_set _ _ _ := rfl

def nextIndexLens : Lens (BfsMem n) Nat where
  get s := s.nextIndex
  set k s := { s with nextIndex := k }
  get_set _ _ := rfl
  set_get _ := rfl
  set_set _ _ _ := rfl

/-- `parent[v] = val` -/
def setParent (s : BfsMem n) (v : Fin n) (val : Int) : BfsMem n :=
  { s with parent := update s.parent v val }

@[simp] theorem parent_setParent_self (s : BfsMem n) (v : Fin n) (val : Int) :
    (s.setParent v val).parent v = val := update_self ..

theorem parent_setParent_of_ne (s : BfsMem n) {u v : Fin n} (h : u ≠ v) (val : Int) :
    (s.setParent v val).parent u = s.parent u := update_of_ne h ..

end BfsMem

variable {n : Nat}

/-- What `InitParent` writes for a vertex. -/
def initParentOf (g : Graph n) (v : Fin n) : Int :=
  toNodeID (if g.outDegree v ≠ 0 then -g.outDegree v else -1)

def initParent (p : Port) (T : Nat) [NeZero T] (g : Graph n) : Prog (BfsMem n) Unit := do
  let _ ← p.share T n fun work => .forEach work () fun v _ =>
    .store fun s => s.setParent v (initParentOf g v)
  return ()

/-- The closing sweep of `DOBFS`. -/
def cleanupParent (p : Port) (T : Nat) [NeZero T] : Prog (BfsMem n) Unit := do
  let _ ← p.share T n fun work => .forEach work () fun v _ => do
    let val ← .load fun s => s.parent v
    if val < -1 then .store fun s => s.setParent v (-1) else return ()
  return ()

/-- Degrees that fit a `NodeID` are stored as they are. -/
theorem initParentOf_eq {g : Graph n} {v : Fin n} (h : g.outDegree v < 2 ^ 31) :
    initParentOf g v = -((max 1 (g.outDegree v) : Nat) : Int) := by
  rw [initParentOf, toNodeID]
  split
  · rw [Int.bmod_eq_of_le] <;> omega
  · rw [Int.bmod_eq_of_le] <;> omega

theorem initParentOf_neg {g : Graph n} {v : Fin n} (h : g.outDegree v < 2 ^ 31) :
    initParentOf g v < 0 := by
  rw [initParentOf_eq h]
  omega

/-- The writes of an iteration that owns the entry of `v`. -/
def OwnParent (v : Fin n) (s s' : BfsMem n) : Prop :=
  s' = { s with parent := s'.parent } ∧ ∀ u, u ≠ v → s'.parent u = s.parent u

theorem ownParent_setParent (v : Fin n) (s : BfsMem n) (val : Int) :
    OwnParent v s (s.setParent v val) :=
  ⟨rfl, fun _ hu => s.parent_setParent_of_ne hu val⟩

/-- A region in which every vertex replaces its own entry of `parent`. -/
theorem parentLoop_solo (p : Port) {T : Nat} [NeZero T] {body : Fin n → Prog (BfsMem n) Unit}
    (f : Fin n → Int → Int) (s₀ : BfsMem n)
    (iteration : ∀ v s, s.parent v = s₀.parent v →
      WP (Γ := Unit) (fun σ τ => ∃ u, u ≠ v ∧ OwnParent u σ.1 τ.1) (fun σ τ => OwnParent v σ.1 τ.1)
        (fun _ σ => σ.1.parent v = f v (s₀.parent v)) (body v) (s, ())) :
    Solo ((p.share T n fun work => .forEach work () fun v _ => body v).bind fun _ => .ret ()) s₀
      fun _ s' => s' = { s₀ with parent := fun v => f v (s₀.parent v) } := by
  have hsep : Separate (OwnParent (n := n)) (fun s => s = { s₀ with parent := s.parent })
      (fun v s => s.parent v = s₀.parent v) (fun v s => s.parent v = f v (s₀.parent v)) := by
    refine ⟨fun v s s' hs hown => ?_, fun u v s s' huv _ hu hown => (hown.2 u huv).trans hu,
      fun u v s s' huv _ hu hown => (hown.2 u huv).trans hu⟩
    rw [hown.1, hs]
  apply Solo.bind
  apply p.share_solo
  intro sched
  have hthread (v : Fin n) (x : Unit) (s : BfsMem n) (hpre : s.parent v = s₀.parent v) :
      WP (Γ := Unit) (fun σ τ => ∃ u, u ≠ v ∧ OwnParent u σ.1 τ.1) (fun σ τ => OwnParent v σ.1 τ.1)
        (fun y σ => y = x + () ∧ σ.1.parent v = f v (s₀.parent v)) (body v) (s, ()) :=
    (iteration v s hpre).mono fun _ _ h => ⟨rfl, h⟩
  apply (Solo.share_of_own sched hsep (s := s₀) rfl (fun _ => rfl)
    fun v x s _ hpre => hthread v x s hpre).mono
  rintro r s' ⟨-, hs', hpost⟩
  apply Solo.ret
  rw [hs']
  congr 1
  funext v
  exact hpost v

theorem initParent_solo (p : Port) {T : Nat} [NeZero T] (g : Graph n) (s : BfsMem n) :
    Solo (initParent p T g) s fun _ s' => s' = { s with parent := initParentOf g } := by
  refine parentLoop_solo p (fun v _ => initParentOf g v) s fun v s₁ _ => ?_
  apply WP.store (P := fun _ => True) trivial fun _ _ _ _ => trivial
  · intro _ σ τ hσ ⟨u, hu, hown⟩
    exact (hown.2 v hu.symm).trans hσ
  · exact fun s _ _ => ⟨(), .inr (ownParent_setParent v s _), s.parent_setParent_self v _⟩

theorem cleanupParent_solo (p : Port) {T : Nat} [NeZero T] (s : BfsMem n) :
    Solo (cleanupParent p T) s fun _ s' =>
      s' = { s with parent := fun v => if s.parent v < -1 then -1 else s.parent v } := by
  refine parentLoop_solo p (fun _ val => if val < -1 then -1 else val) s fun v s₁ hs₁ => ?_
  have hstable (val : Int) : Stable (fun σ τ : BfsMem n × Unit => ∃ u, u ≠ v ∧ OwnParent u σ.1 τ.1)
      fun σ => σ.1.parent v = val :=
    fun σ τ hσ ⟨u, hu, hown⟩ => (hown.2 v hu.symm).trans hσ
  apply WP.load_bind (P := fun σ => σ.1.parent v = s.parent v) hs₁ (hstable _)
  intro s₂ _ hs₂
  change s₂.parent v = s.parent v at hs₂
  rw [hs₂]
  split
  · apply WP.store (P := fun _ => True) trivial (fun _ _ _ _ => trivial) fun _ => hstable _
    exact fun s _ _ => ⟨(), .inr (ownParent_setParent v s _), s.parent_setParent_self v _⟩
  · exact WP.ret hs₂ (hstable _)

end Gapbs
