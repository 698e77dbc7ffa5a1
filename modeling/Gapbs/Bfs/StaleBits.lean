import Gapbs.Bfs.Dobfs

/-!
# The bits that are left in `front`

`front` and `curr` are swapped after every bottom-up step, `QueueToBitmap` only adds bits, and nothing
clears `front` between two bottom-up phases.  The program below is `DOBFS` with an assertion before and
after every call of `BUStep` and before every call of `BitmapToQueue`: a bit that is left over never
awakens a vertex.
-/

namespace Gapbs

open Conc HopDistance

variable {n : Nat}

/-- The vertices that a step has visited. -/
def StepRecord.newly : StepRecord n → Finset (Fin n)
  | .topDown newly _ _ => newly
  | .bottomUp newly _ => newly

/-- The vertices that the last step has visited: the source before the first step. -/
def currentLevel (source : Fin n) (log : List (StepRecord n)) : Finset (Fin n) :=
  log.getLast?.elim {source} StepRecord.newly

/-- The bits of `front` that are set: the current level, and visited vertices with nothing left to
awaken. -/
def HoldsLevel (g : Graph n) (current : Finset (Fin n)) (s : BfsMem n) : Prop :=
  (∀ v ∈ current, s.front.getBit v = true) ∧ ∀ v, s.front.getBit v = true → v ∉ current →
    0 ≤ s.parent v ∧ ∀ x ∈ g.outNeigh v, 0 ≤ s.parent x

instance (g : Graph n) (current : Finset (Fin n)) : DecidablePred (HoldsLevel g current) :=
  fun s => inferInstanceAs (Decidable ((∀ v ∈ current, s.front.getBit v = true) ∧
    ∀ v, s.front.getBit v = true → v ∉ current → 0 ≤ s.parent v ∧ ∀ x ∈ g.outNeigh v, 0 ≤ s.parent x))

/-- What a bottom-up step has awakened: the vertices marked in `curr`, each with a parent in the current
level. -/
def AwakenedFrom (g : Graph n) (current before : Finset (Fin n)) (s : BfsMem n) : Prop :=
  ∀ u, (s.curr.getBit u = true ↔ u ∈ visited s.parent \ before) ∧
    (u ∈ visited s.parent \ before → ∃ v ∈ current, u ∈ g.outNeigh v ∧ s.parent u = (v.val : Int))

instance (g : Graph n) (current before : Finset (Fin n)) : DecidablePred (AwakenedFrom g current before) :=
  fun s => inferInstanceAs (Decidable (∀ u, (s.curr.getBit u = true ↔ u ∈ visited s.parent \ before) ∧
    (u ∈ visited s.parent \ before → ∃ v ∈ current, u ∈ g.outNeigh v ∧ s.parent u = (v.val : Int))))

/-- `BUStep` between its two assertions.  The current level is at as many steps from the source as there
have been steps. -/
def checkedBuStep (p : Port) (T : Nat) [NeZero T] (g : Graph n) (source : Fin n)
    (log : List (StepRecord n)) : Prog (BfsMem n) Int := do
  .check fun _ => currentLevel source log = level g.Edge source log.length
  .check fun s => HoldsLevel g (currentLevel source log) s
  let before ← .load fun s => visited s.parent
  let awakeCount ← buStep p T g
  .check fun s => AwakenedFrom g (currentLevel source log) before s
  return awakeCount

/-- `BitmapToQueue` is called on what the last step has awakened. -/
def checkedBitmapToQueue (p : Port) (T : Nat) [NeZero T] (source : Fin n) (log : List (StepRecord n)) :
    Prog (BfsMem n) Unit := do
  .check fun s => ∀ v, s.front.getBit v = true ↔ v ∈ currentLevel source log
  bitmapToQueue p T

/-- `DOBFS` with the assertions. -/
def checkedDobfs (p : Port) (T : Nat) [NeZero T] (g : Graph n) (source : Fin n)
    (alpha beta maxBuIters : Int) : Prog (BfsMem n) (List (StepRecord n)) :=
  dobfsWith p T g (checkedBuStep p T g source) (checkedBitmapToQueue p T source) source alpha beta
    maxBuIters

section

variable {g : Graph n} {source : Fin n} {k : Nat} {log : List (StepRecord n)} {s s' : BfsMem n}

/-- What the reported steps say of the level. -/
def ReportedLevel (g : Graph n) (source : Fin n) (k : Nat) (log : List (StepRecord n)) : Prop :=
  log.length = k ∧ currentLevel source log = level g.Edge source k

theorem currentLevel_concat (log : List (StepRecord n)) (r : StepRecord n) :
    currentLevel source (log ++ [r]) = r.newly := by
  rw [currentLevel, List.getLast?_concat]
  rfl

theorem reportedLevel_zero : ReportedLevel g source 0 [] := by
  refine ⟨rfl, ?_⟩
  ext v
  rw [mem_level_zero]
  exact Finset.mem_singleton

theorem ReportedLevel.step (h : ReportedLevel g source k log) {r : StepRecord n}
    (hr : r.newly = level g.Edge source (k + 1)) : ReportedLevel g source (k + 1) (log ++ [r]) := by
  constructor
  · rw [List.length_append, h.1]
    rfl
  · rw [currentLevel_concat, hr]

/-- Before a bottom-up step. -/
theorem SweepAt.holdsLevel (h : SweepAt g source k s) :
    HoldsLevel g (level g.Edge source k) s := by
  have hvisited {v : Fin n} (hv : v ∈ reached g.Edge source k) : 0 ≤ s.parent v := h.parents.nonneg hv
  refine ⟨h.bits, fun v hbit hv => ?_⟩
  obtain ⟨hreached, hlevel | hout⟩ := h.front v hbit
  · -- a bit left from an older level: all neighbours have been visited since
    exact absurd hlevel hv
  · exact ⟨hvisited hreached, fun x hx => hvisited (hout x hx)⟩

/-- After a bottom-up step. -/
theorem SweepAt.awakenedFrom (hg : g.Transposed) (hdeg : ∀ v, g.outDegree v < 2 ^ 31)
    (h : SweepAt g source k s) (hstep : BottomUp g s s') :
    AwakenedFrom g (level g.Edge source k) (visited s.parent) s' := by
  have hparents : ParentsAt g source (k + 1) s'.parent := (h.swept hg hdeg hstep).parents
  have hnewly : visited s'.parent \ visited s.parent = level g.Edge source (k + 1) := by
    rw [hparents.visited_eq hdeg, h.parents.visited_eq hdeg, reached_sdiff]
  intro u
  obtain ⟨hsome, hfrom⟩ := h.awakener_spec hg hdeg u
  rw [hnewly, hstep.curr]
  refine ⟨hsome, fun hu => ?_⟩
  obtain ⟨v, hv⟩ := Option.isSome_iff_exists.mp (hsome.mpr hu)
  obtain ⟨hlevel, hE⟩ := hfrom v hv
  refine ⟨v, hlevel, hE, ?_⟩
  rw [hstep.parent, hv]
  rfl

/-- The assertions around a bottom-up step hold. -/
theorem checkedBuStep_solo (p : Port) {T : Nat} [NeZero T] (hg : g.Transposed)
    (hdeg : ∀ v, g.outDegree v < 2 ^ 31) (hlog : ReportedLevel g source k log)
    (h : SweepAt g source k s) :
    Solo (checkedBuStep p T g source log) s fun awake s' => BottomUp g s s' ∧
      awake = ((Finset.univ.filter fun u => (awakener g s u).isSome).card : Int) := by
  obtain ⟨rfl, hcurrent⟩ := hlog
  unfold checkedBuStep
  rw [hcurrent]
  apply Solo.check_bind
  · rfl
  apply Solo.check_bind h.holdsLevel
  apply Solo.load_bind
  apply Solo.bind
  apply (buStep_solo p g s).mono
  rintro awake s' ⟨hstep, hawake⟩
  apply Solo.check_bind (h.awakenedFrom hg hdeg hstep)
  exact Solo.ret ⟨hstep, hawake⟩

theorem standIns_checked (p : Port) (T : Nat) [NeZero T] (hg : g.Transposed)
    (hdeg : ∀ v, g.outDegree v < 2 ^ 31) :
    StandIns g source (ReportedLevel g source) (checkedBuStep p T g source)
      (checkedBitmapToQueue p T source) := by
  refine ⟨reportedLevel_zero, fun k log h => h.step rfl, fun k log edges h => h.step rfl,
    fun k log s hlog h => checkedBuStep_solo p hg hdeg hlog h,
    fun k log s bits hlog h hbits hmem hroom => ?_⟩
  apply Solo.check_bind
  · rw [hlog.2]
    exact h.front
  · exact bitmapToQueue_solo p hbits hmem hroom

end

/-- No assertion fails, for any team and in any interleaving. -/
theorem staleBits_harmless (p : Port) (g : Graph n) (hg : g.Transposed)
    (hdeg : ∀ v, g.outDegree v < 2 ^ 31) (source : Fin n) (T : Nat) [NeZero T] (alpha beta : Int)
    (halpha : 1 ≤ alpha) (hbeta : 1 ≤ beta) (maxBuIters : Int) (s₀ : BfsMem n) :
    (checkedDobfs p T g source alpha beta maxBuIters).Correct s₀ fun _ s => IsBfsTree g source s.parent :=
  ((dobfsWith_solo p (standIns_checked p T hg hdeg) hg hdeg (terminating_of_pos halpha hbeta maxBuIters)
    s₀).mono fun _ _ h => h.1).correct

theorem staleBits_harmless_pair :
    (checkedDobfs .pthread 2 pairGraph 0 15 18 0).Correct (blankMem 2) fun _ s =>
      IsBfsTree pairGraph 0 s.parent :=
  staleBits_harmless .pthread pairGraph (by decide) (by decide) 0 2 15 18 (by decide) (by decide) 0
    (blankMem 2)

end Gapbs
