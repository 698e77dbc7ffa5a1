import Mathlib.Data.List.Pairwise
import Mathlib.Data.Rat.Defs
import Mathlib.Algebra.Order.Field.Rat
import Mathlib.Order.Fin.Basic
import Mathlib.Tactic.Linarith

/-!
# Bursts of memory bandwidth

`detect_memory_bursts` finds the runs of samples above a threshold, drops the short ones and merges
those that are close to each other.  Times are exact; a bandwidth is a floating-point number, of
which only the comparison with the threshold matters.
-/

namespace Gapbs.Imc

/-- A bandwidth, which may also be infinite or not a number. -/
inductive Bandwidth where
  | nan
  | negInf
  | mibPerS (value : ℚ)
  | posInf

/-- `bw >= threshold_mibs` -/
def Bandwidth.atLeast (thresholdMibs : ℚ) : Bandwidth → Bool
  | nan => false
  | negInf => false
  | mibPerS value => decide (thresholdMibs ≤ value)
  | posInf => true

/-- The columns of the data frame; the one of the sampling intervals may be missing. -/
structure Trace (n : ℕ) where
  elapsedUs : Fin n → ℚ
  bw : Fin n → Bandwidth
  intervalUs : Option (Fin n → ℚ)

variable {n : ℕ}

/-- `while i < n and above[i]: i += 1` -/
def skipAbove (above : Fin n → Bool) (i : ℕ) : ℕ :=
  if h : i < n then
    if above ⟨i, h⟩ then skipAbove above (i + 1) else i
  else i
termination_by n - i

/-! ## Where a run ends -/

theorem skipAbove_of_above {above : Fin n → Bool} {i : ℕ} (h : i < n) (ha : above ⟨i, h⟩ = true) :
    skipAbove above i = skipAbove above (i + 1) := by
  rw [skipAbove, dif_pos h, if_pos ha]

theorem le_skipAbove (above : Fin n → Bool) (i : ℕ) : i ≤ skipAbove above i := by
  fun_induction skipAbove above i with
  | case1 i h ha ih => omega
  | case2 i h ha => exact Nat.le_refl i
  | case3 i h => exact Nat.le_refl i

theorem skipAbove_le (above : Fin n → Bool) (i : ℕ) (hi : i ≤ n) : skipAbove above i ≤ n := by
  fun_induction skipAbove above i with
  | case1 i h ha ih => exact ih h
  | case2 i h ha => exact hi
  | case3 i h => exact hi

theorem lt_skipAbove {above : Fin n → Bool} {i : ℕ} (h : i < n) (ha : above ⟨i, h⟩ = true) :
    i < skipAbove above i := by
  rw [skipAbove_of_above h ha]
  exact le_skipAbove above (i + 1)

theorem above_of_lt_skipAbove (above : Fin n → Bool) (i : ℕ) (k : Fin n) (hi : i ≤ k)
    (hk : k < skipAbove above i) : above k = true := by
  fun_induction skipAbove above i with
  | case1 i h ha ih =>
    rcases Nat.eq_or_lt_of_le hi with heq | hlt
    · subst heq
      exact ha
    · exact ih hlt hk
  | case2 i h ha => omega
  | case3 i h => omega

theorem not_above_skipAbove (above : Fin n → Bool) (i : ℕ) (k : Fin n) (hk : k = skipAbove above i) :
    above k = false := by
  fun_induction skipAbove above i with
  | case1 i h ha ih => exact ih hk
  | case2 i h ha =>
    subst hk
    exact Bool.eq_false_of_not_eq_true ha
  | case3 i h => omega

/-! ## The runs of the trace -/

namespace Trace

variable (t : Trace n)

/-- `elapsed[start_idx]` -/
def tStart (startIdx : Fin n) : ℚ := t.elapsedUs startIdx

/-- `elapsed[end_idx]`, and the length of that sample if it is known -/
def tEnd (endIdx : Fin n) : ℚ :=
  match t.intervalUs with
  | none => t.elapsedUs endIdx
  | some interval => t.elapsedUs endIdx + interval endIdx

end Trace

/-- The loop over the samples, from index `i` on: the runs that last long enough. -/
def rawBursts (t : Trace n) (above : Fin n → Bool) (minDurationUs : ℚ) (i : ℕ) : List (ℚ × ℚ) :=
  if h : i < n then
    if ha : above ⟨i, h⟩ then
      let next := skipAbove above i
      have hnext : next - 1 < n := by
        have := lt_skipAbove h ha
        have := skipAbove_le above i h.le
        omega
      let tStart := t.tStart ⟨i, h⟩
      let tEnd := t.tEnd ⟨next - 1, hnext⟩
      if tEnd - tStart ≥ minDurationUs then
        (tStart, tEnd) :: rawBursts t above minDurationUs next
      else rawBursts t above minDurationUs next
    else rawBursts t above minDurationUs (i + 1)
  else []
termination_by n - i
decreasing_by
  all_goals
    try have := lt_skipAbove h ha
    omega

/-- The loop that merges; `last` is `merged[-1]`. -/
def mergeBursts (minSeparationUs : ℚ) (last : ℚ × ℚ) : List (ℚ × ℚ) → List (ℚ × ℚ)
  | [] => [last]
  | (tStart, tEnd) :: raw =>
    let gapUs := tStart - last.2
    if gapUs < minSeparationUs then mergeBursts minSeparationUs (last.1, max last.2 tEnd) raw
    else last :: mergeBursts minSeparationUs (tStart, tEnd) raw

def detectMemoryBursts (t : Trace n) (thresholdMibs minDurationUs minSeparationUs : ℚ) :
    List (ℚ × ℚ) :=
  let above := fun i => (t.bw i).atLeast thresholdMibs
  if n = 0 ∨ ∀ i, above i = false then []
  else match rawBursts t above minDurationUs 0 with
    | [] => []
    | first :: raw => mergeBursts minSeparationUs first raw

/-! ## What a burst is -/

/-- Samples `s` to `e` are above the threshold and those next to them are not. -/
structure MaximalRun (above : Fin n → Bool) (s e : Fin n) : Prop where
  le : s ≤ e
  inside : ∀ k, s ≤ k → k ≤ e → above k = true
  before : ∀ k : Fin n, (k : ℕ) + 1 = s → above k = false
  after : ∀ k : Fin n, (k : ℕ) = e + 1 → above k = false

/-- A maximal run that lasted long enough. -/
structure LongRun (t : Trace n) (thresholdMibs minDurationUs : ℚ) (s e : Fin n) : Prop where
  run : MaximalRun (fun i => (t.bw i).atLeast thresholdMibs) s e
  long : t.tEnd e - t.tStart s ≥ minDurationUs

/-! ## The runs found by the loop -/

section Runs

variable {above : Fin n → Bool} {s e : Fin n} {i : ℕ}

/-- A run that begins at `i` or later does not begin before `i`. -/
def Boundary (above : Fin n → Bool) (i : ℕ) : Prop :=
  ∀ k : Fin n, (k : ℕ) + 1 = i → ∀ h : i < n, above ⟨i, h⟩ = true → above k = false

theorem boundary_zero (above : Fin n → Bool) : Boundary above 0 :=
  fun _ hk => absurd hk (Nat.succ_ne_zero _)

theorem boundary_skipAbove (above : Fin n → Bool) (i : ℕ) : Boundary above (skipAbove above i) := by
  intro k _ h ha
  rw [not_above_skipAbove above i ⟨_, h⟩ rfl] at ha
  cases ha

theorem boundary_succ (h : i < n) (ha : ¬ above ⟨i, h⟩ = true) : Boundary above (i + 1) := by
  intro k hk _ _
  have hki : k = ⟨i, h⟩ := Fin.ext (Nat.succ_injective hk)
  rw [hki]
  exact Bool.eq_false_of_not_eq_true ha

theorem MaximalRun.end_unique {e' : Fin n} (h : MaximalRun above s e) (h' : MaximalRun above s e') :
    e = e' := by
  have hle : ∀ {e e' : Fin n}, MaximalRun above s e → MaximalRun above s e' → e' ≤ e := by
    intro e e' h h'
    by_contra hlt
    rw [not_le, Fin.lt_def] at hlt
    have hnext : (e : ℕ) + 1 < n := by omega
    have hin := h'.inside ⟨e + 1, hnext⟩ (Nat.le_succ_of_le h.le) hlt
    rw [h.after ⟨e + 1, hnext⟩ rfl] at hin
    cases hin
  exact le_antisymm (hle h' h) (hle h h')

theorem maximalRun_skipAbove (hstart : Boundary above i) (h : i < n) (ha : above ⟨i, h⟩ = true)
    (hnext : skipAbove above i - 1 < n) : MaximalRun above ⟨i, h⟩ ⟨skipAbove above i - 1, hnext⟩ where
  le := by
    have := lt_skipAbove h ha
    rw [Fin.mk_le_mk]
    omega
  inside k hik hk := by
    have := lt_skipAbove h ha
    have hk : (k : ℕ) ≤ skipAbove above i - 1 := hk
    exact above_of_lt_skipAbove above i k hik (by omega)
  before k hk := hstart k hk h ha
  after k hk := by
    have := lt_skipAbove h ha
    have hk : (k : ℕ) = skipAbove above i - 1 + 1 := hk
    exact not_above_skipAbove above i k (by omega)

/-- A run does not begin inside another one. -/
theorem MaximalRun.start_ge (hrun : MaximalRun above s e) (hs : i < s) : skipAbove above i ≤ s := by
  by_contra hlt
  rw [not_le] at hlt
  have hpred : (s : ℕ) - 1 < n := by omega
  have habove := above_of_lt_skipAbove above i ⟨s - 1, hpred⟩ (by simp; omega) (by simp; omega)
  rw [hrun.before ⟨s - 1, hpred⟩ (by simp; omega)] at habove
  cases habove

/-- The runs from an above sample on: the one that begins there, and those after its end. -/
theorem exists_run_iff (hstart : Boundary above i) (h : i < n) (ha : above ⟨i, h⟩ = true)
    (hnext : skipAbove above i - 1 < n) (P : Fin n → Fin n → Prop) :
    (∃ s e : Fin n, i ≤ s ∧ MaximalRun above s e ∧ P s e) ↔
      P ⟨i, h⟩ ⟨skipAbove above i - 1, hnext⟩ ∨
        ∃ s e : Fin n, skipAbove above i ≤ s ∧ MaximalRun above s e ∧ P s e := by
  have hfirst := maximalRun_skipAbove hstart h ha hnext
  constructor
  · rintro ⟨s, e, his, hrun, hP⟩
    rcases Nat.eq_or_lt_of_le his with heq | hlt
    · obtain rfl : (⟨i, h⟩ : Fin n) = s := Fin.ext heq
      rw [hrun.end_unique hfirst] at hP
      exact .inl hP
    · exact .inr ⟨s, e, hrun.start_ge hlt, hrun, hP⟩
  · rintro (hP | ⟨s, e, hs, hrun, hP⟩)
    · exact ⟨⟨i, h⟩, _, Nat.le_refl i, hfirst, hP⟩
    · exact ⟨s, e, (le_skipAbove above i).trans hs, hrun, hP⟩

theorem mem_rawBursts (t : Trace n) (above : Fin n → Bool) (minDurationUs : ℚ) (i : ℕ)
    (hstart : Boundary above i) (x : ℚ × ℚ) :
    x ∈ rawBursts t above minDurationUs i ↔ ∃ s e : Fin n, i ≤ s ∧ MaximalRun above s e ∧
      t.tEnd e - t.tStart s ≥ minDurationUs ∧ x = (t.tStart s, t.tEnd e) := by
  fun_induction rawBursts t above minDurationUs i with
  | case1 i h ha next hnext tStart tEnd hlong ih =>
    rw [List.mem_cons, ih (boundary_skipAbove above i), exists_run_iff hstart h ha hnext]
    exact or_congr_left (and_iff_right hlong).symm
  | case2 i h ha next hnext tStart tEnd hlong ih =>
    rw [ih (boundary_skipAbove above i), exists_run_iff hstart h ha hnext]
    exact (or_iff_right fun hfirst => hlong hfirst.1).symm
  | case3 i h ha ih =>
    rw [ih (boundary_succ h ha)]
    constructor
    · rintro ⟨s, e, hs, hrest⟩
      exact ⟨s, e, Nat.le_of_succ_le hs, hrest⟩
    · rintro ⟨s, e, hs, hrun, hrest⟩
      refine ⟨s, e, Nat.lt_of_le_of_ne hs fun heq => ?_, hrun, hrest⟩
      obtain rfl : (⟨i, h⟩ : Fin n) = s := Fin.ext heq
      exact ha (hrun.inside _ le_rfl hrun.le)
  | case4 i h =>
    constructor
    · exact fun hx => nomatch hx
    · rintro ⟨s, e, hs, -⟩
      exact absurd (Nat.lt_of_le_of_lt hs s.isLt) h

/-- The runs are found from left to right. -/
theorem rawBursts_sorted {t : Trace n} (helapsed : StrictMono t.elapsedUs) (above : Fin n → Bool)
    (minDurationUs : ℚ) (i : ℕ) (hstart : Boundary above i) :
    (rawBursts t above minDurationUs i).Pairwise fun a b => a.1 < b.1 := by
  fun_induction rawBursts t above minDurationUs i with
  | case1 i h ha next hnext tStart tEnd hlong ih =>
    refine List.pairwise_cons.mpr ⟨fun x hx => ?_, ih (boundary_skipAbove above i)⟩
    obtain ⟨s, e, hs, -, -, rfl⟩ := (mem_rawBursts t above _ _ (boundary_skipAbove above i) x).mp hx
    exact helapsed (Nat.lt_of_lt_of_le (lt_skipAbove h ha) hs)
  | case2 i h ha next hnext tStart tEnd hlong ih => exact ih (boundary_skipAbove above i)
  | case3 i h ha ih => exact ih (boundary_succ h ha)
  | case4 i h => exact .nil

end Runs

/-! ## Merging -/

section Merge

variable {minSeparationUs : ℚ}

/-- The result of a merge against the list `raw` it was made from. -/
structure Merged (minSeparationUs : ℚ) (raw merged : List (ℚ × ℚ)) : Prop where
  ordered : ∀ b ∈ merged, b.1 ≤ b.2
  separated : merged.Pairwise fun a b => a.2 + minSeparationUs ≤ b.1
  starts : ∀ b ∈ merged, ∃ r ∈ raw, r.1 = b.1
  ends : ∀ b ∈ merged, ∃ r ∈ raw, r.2 = b.2
  covers : ∀ r ∈ raw, ∃ b ∈ merged, b.1 ≤ r.1 ∧ r.2 ≤ b.2

theorem Merged.single {last : ℚ × ℚ} (h : last.1 ≤ last.2) : Merged minSeparationUs [last] [last] where
  ordered b hb := by rwa [List.mem_singleton.mp hb]
  separated := List.pairwise_singleton _ _
  starts b hb := ⟨b, hb, rfl⟩
  ends b hb := ⟨b, hb, rfl⟩
  covers r hr := ⟨r, hr, le_rfl, le_rfl⟩

/-- A burst that begins too early is merged with the one before it. -/
theorem Merged.extend {last r : ℚ × ℚ} {raw merged : List (ℚ × ℚ)} (hlast : last.1 ≤ r.1)
    (h : Merged minSeparationUs ((last.1, max last.2 r.2) :: raw) merged) :
    Merged minSeparationUs (last :: r :: raw) merged where
  ordered := h.ordered
  separated := h.separated
  starts b hb := by
    obtain ⟨x, hx, heq⟩ := h.starts b hb
    rcases List.mem_cons.mp hx with rfl | hx
    · exact ⟨last, by simp, heq⟩
    · exact ⟨x, by simp [hx], heq⟩
  ends b hb := by
    obtain ⟨x, hx, heq⟩ := h.ends b hb
    rcases List.mem_cons.mp hx with rfl | hx
    · rcases max_choice last.2 r.2 with hmax | hmax
      · exact ⟨last, by simp, hmax.symm.trans heq⟩
      · exact ⟨r, by simp, hmax.symm.trans heq⟩
    · exact ⟨x, by simp [hx], heq⟩
  covers x hx := by
    obtain ⟨b, hb, hstart, hend⟩ := h.covers _ List.mem_cons_self
    rcases List.mem_cons.mp hx with rfl | hx
    · exact ⟨b, hb, hstart, (le_max_left _ _).trans hend⟩
    rcases List.mem_cons.mp hx with rfl | hx
    · exact ⟨b, hb, hstart.trans hlast, (le_max_right _ _).trans hend⟩
    · exact h.covers x (by simp [hx])

/-- A burst that begins late enough starts an interval of its own. -/
theorem Merged.cons {last r : ℚ × ℚ} {raw merged : List (ℚ × ℚ)} (hlast : last.1 ≤ last.2)
    (hgap : last.2 + minSeparationUs ≤ r.1) (hsorted : ∀ x ∈ raw, r.1 < x.1)
    (h : Merged minSeparationUs (r :: raw) merged) :
    Merged minSeparationUs (last :: r :: raw) (last :: merged) where
  ordered b hb := by
    rcases List.mem_cons.mp hb with rfl | hb
    · exact hlast
    · exact h.ordered b hb
  separated := by
    refine List.pairwise_cons.mpr ⟨fun b hb => ?_, h.separated⟩
    obtain ⟨x, hx, heq⟩ := h.starts b hb
    rw [← heq]
    rcases List.mem_cons.mp hx with rfl | hx
    · exact hgap
    · exact hgap.trans (hsorted x hx).le
  starts b hb := by
    rcases List.mem_cons.mp hb with rfl | hb
    · exact ⟨b, List.mem_cons_self, rfl⟩
    · obtain ⟨x, hx, heq⟩ := h.starts b hb
      exact ⟨x, List.mem_cons_of_mem _ hx, heq⟩
  ends b hb := by
    rcases List.mem_cons.mp hb with rfl | hb
    · exact ⟨b, List.mem_cons_self, rfl⟩
    · obtain ⟨x, hx, heq⟩ := h.ends b hb
      exact ⟨x, List.mem_cons_of_mem _ hx, heq⟩
  covers x hx := by
    rcases List.mem_cons.mp hx with rfl | hx
    · exact ⟨x, List.mem_cons_self, le_rfl, le_rfl⟩
    · obtain ⟨b, hb, hcov⟩ := h.covers x hx
      exact ⟨b, List.mem_cons_of_mem _ hb, hcov⟩

theorem mergeBursts_merged {last : ℚ × ℚ} {raw : List (ℚ × ℚ)}
    (hordered : ∀ r ∈ last :: raw, r.1 ≤ r.2) (hsorted : (last :: raw).Pairwise fun a b => a.1 < b.1) :
    Merged minSeparationUs (last :: raw) (mergeBursts minSeparationUs last raw) := by
  induction raw generalizing last with
  | nil => exact .single (hordered last List.mem_cons_self)
  | cons r raw ih =>
    obtain ⟨hlastSorted, hrest⟩ := List.pairwise_cons.mp hsorted
    have hlast : last.1 ≤ last.2 := hordered last List.mem_cons_self
    have hlt : last.1 < r.1 := hlastSorted r List.mem_cons_self
    by_cases hgap : r.1 - last.2 < minSeparationUs
    · rw [mergeBursts, if_pos hgap]
      refine .extend hlt.le (ih (fun x hx => ?_) (List.pairwise_cons.mpr ⟨fun x hx => ?_, hrest.of_cons⟩))
      · rcases List.mem_cons.mp hx with rfl | hx
        · exact hlast.trans (le_max_left _ _)
        · exact hordered x (by simp [hx])
      · exact hlastSorted x (List.mem_cons_of_mem _ hx)
    · rw [mergeBursts, if_neg hgap]
      have hsep : last.2 + minSeparationUs ≤ r.1 := by linarith
      exact .cons hlast hsep (List.pairwise_cons.mp hrest).1
        (ih (fun x hx => hordered x (List.mem_cons_of_mem _ hx)) hrest)

theorem Merged.apart {raw merged : List (ℚ × ℚ)} (h : Merged minSeparationUs raw merged)
    {b b' : ℚ × ℚ} (hb : b ∈ merged) (hb' : b' ∈ merged) (hne : b ≠ b') :
    b.2 + minSeparationUs ≤ b'.1 ∨ b'.2 + minSeparationUs ≤ b.1 := by
  have : Std.Symm fun a c : ℚ × ℚ => a.2 + minSeparationUs ≤ c.1 ∨ c.2 + minSeparationUs ≤ a.1 :=
    ⟨fun _ _ hac => hac.symm⟩
  have hapart : merged.Pairwise fun a c => a.2 + minSeparationUs ≤ c.1 ∨ c.2 + minSeparationUs ≤ a.1 :=
    h.separated.imp Or.inl
  exact hapart.forall hb hb' hne

/-- Separate intervals have no burst in common. -/
theorem Merged.covers_unique {raw merged : List (ℚ × ℚ)} (h : Merged minSeparationUs raw merged)
    (hpos : 0 < minSeparationUs) {r b b' : ℚ × ℚ} (hr : r.1 ≤ r.2) (hb : b ∈ merged)
    (hb' : b' ∈ merged) (hcov : b.1 ≤ r.1 ∧ r.2 ≤ b.2) (hcov' : b'.1 ≤ r.1 ∧ r.2 ≤ b'.2) : b = b' := by
  by_contra hne
  rcases h.apart hb hb' hne with hlt | hlt
  · linarith [hcov.2, hcov'.1]
  · linarith [hcov.1, hcov'.2]

end Merge

/-! ## The whole function -/

section Detect

variable {t : Trace n} {thresholdMibs minDurationUs minSeparationUs : ℚ}

theorem Trace.elapsedUs_le_tEnd (hinterval : ∀ interval ∈ t.intervalUs, ∀ i, 0 ≤ interval i)
    (e : Fin n) : t.elapsedUs e ≤ t.tEnd e := by
  unfold tEnd
  split
  · exact le_rfl
  · next interval hi => exact le_add_of_nonneg_right (hinterval interval hi e)

/-- The runs that are merged are the long ones. -/
theorem mem_rawBursts_iff (x : ℚ × ℚ) :
    x ∈ rawBursts t (fun i => (t.bw i).atLeast thresholdMibs) minDurationUs 0 ↔
      ∃ s e, LongRun t thresholdMibs minDurationUs s e ∧ x = (t.tStart s, t.tEnd e) := by
  rw [mem_rawBursts t _ _ 0 (boundary_zero _)]
  constructor
  · rintro ⟨s, e, -, hrun, hlong, rfl⟩
    exact ⟨s, e, ⟨hrun, hlong⟩, rfl⟩
  · rintro ⟨s, e, ⟨hrun, hlong⟩, rfl⟩
    exact ⟨s, e, Nat.zero_le _, hrun, hlong, rfl⟩

theorem detectMemoryBursts_merged (helapsed : StrictMono t.elapsedUs)
    (hinterval : ∀ interval ∈ t.intervalUs, ∀ i, 0 ≤ interval i) :
    Merged minSeparationUs (rawBursts t (fun i => (t.bw i).atLeast thresholdMibs) minDurationUs 0)
      (detectMemoryBursts t thresholdMibs minDurationUs minSeparationUs) := by
  have hordered : ∀ r ∈ rawBursts t (fun i => (t.bw i).atLeast thresholdMibs) minDurationUs 0,
      r.1 ≤ r.2 := by
    intro r hr
    obtain ⟨s, e, hrun, rfl⟩ := (mem_rawBursts_iff r).mp hr
    exact (helapsed.monotone hrun.run.le).trans (Trace.elapsedUs_le_tEnd hinterval e)
  have hsorted := rawBursts_sorted helapsed (fun i => (t.bw i).atLeast thresholdMibs) minDurationUs 0
    (boundary_zero _)
  unfold detectMemoryBursts
  rcases hraw : rawBursts t (fun i => (t.bw i).atLeast thresholdMibs) minDurationUs 0 with _ | ⟨first, raw⟩
  · simp only [hraw, ite_self]
    exact ⟨by simp, .nil, by simp, by simp, by simp⟩
  · rw [hraw] at hordered hsorted
    have habove : ¬ (n = 0 ∨ ∀ i, (t.bw i).atLeast thresholdMibs = false) := by
      obtain ⟨s, e, hrun, -⟩ := (mem_rawBursts_iff first).mp (hraw ▸ List.mem_cons_self)
      have hs := hrun.run.inside s le_rfl hrun.run.le
      rintro (rfl | hnone)
      · exact s.elim0
      · rw [hnone s] at hs
        cases hs
    simp only [hraw, if_neg habove]
    exact mergeBursts_merged hordered hsorted

/-- The intervals are sorted and separated, they begin and end where long runs do, and every long
run lies inside exactly one of them. -/
theorem detectMemoryBursts_correct (t : Trace n) (thresholdMibs minDurationUs minSeparationUs : ℚ)
    (helapsed : StrictMono t.elapsedUs)
    (hinterval : ∀ interval ∈ t.intervalUs, ∀ i, 0 ≤ interval i) (hsep : 0 < minSeparationUs) :
    let bursts := detectMemoryBursts t thresholdMibs minDurationUs minSeparationUs
    (bursts.Pairwise fun a b => a.1 < b.1) ∧
      (bursts.Pairwise fun a b => a.2 + minSeparationUs ≤ b.1) ∧
      (∀ b ∈ bursts, (∃ s e, LongRun t thresholdMibs minDurationUs s e ∧ t.tStart s = b.1) ∧
        ∃ s e, LongRun t thresholdMibs minDurationUs s e ∧ t.tEnd e = b.2) ∧
      ∀ s e, LongRun t thresholdMibs minDurationUs s e →
        ∃! b, b ∈ bursts ∧ b.1 ≤ t.tStart s ∧ t.tEnd e ≤ b.2 := by
  have hmerged : Merged minSeparationUs _
      (detectMemoryBursts t thresholdMibs minDurationUs minSeparationUs) :=
    detectMemoryBursts_merged helapsed hinterval
  refine ⟨?_, hmerged.separated, fun b hb => ⟨?_, ?_⟩, fun s e hrun => ?_⟩
  · refine hmerged.separated.imp_of_mem fun {a b} ha _ hab => ?_
    linarith [hmerged.ordered a ha]
  · obtain ⟨r, hr, heq⟩ := hmerged.starts b hb
    obtain ⟨s, e, hrun, rfl⟩ := (mem_rawBursts_iff r).mp hr
    exact ⟨s, e, hrun, heq⟩
  · obtain ⟨r, hr, heq⟩ := hmerged.ends b hb
    obtain ⟨s, e, hrun, rfl⟩ := (mem_rawBursts_iff r).mp hr
    exact ⟨s, e, hrun, heq⟩
  · have hr : (t.tStart s, t.tEnd e) ∈ _ := mem_rawBursts_iff _ |>.mpr ⟨s, e, hrun, rfl⟩
    obtain ⟨b, hb, hcov⟩ := hmerged.covers _ hr
    have hle : t.tStart s ≤ t.tEnd e :=
      (helapsed.monotone hrun.run.le).trans (Trace.elapsedUs_le_tEnd hinterval e)
    refine ⟨b, ⟨hb, hcov⟩, fun b' ⟨hb', hcov'⟩ => ?_⟩
    exact hmerged.covers_unique (r := (t.tStart s, t.tEnd e)) hsep hle hb' hb hcov' hcov

/-- Irregular readings; the sampling intervals are longer than the samples are apart. -/
def overlappingTrace : Trace 4 where
  elapsedUs i := 10 * i
  bw i := [.mibPerS 500, .nan, .posInf, .negInf][i]
  intervalUs := some fun _ => 12

theorem overlappingTrace_elapsedUs : StrictMono overlappingTrace.elapsedUs := by
  intro i j hij
  have hcast : ((i : ℕ) : ℚ) < (j : ℕ) := Nat.cast_lt.mpr hij
  change (10 : ℚ) * (i : ℕ) < 10 * (j : ℕ)
  linarith

theorem detectMemoryBursts_correct_overlapping :
    let bursts := detectMemoryBursts overlappingTrace 400 5 3
    (bursts.Pairwise fun a b => a.1 < b.1) ∧ (bursts.Pairwise fun a b => a.2 + 3 ≤ b.1) ∧
      (∀ b ∈ bursts, (∃ s e, LongRun overlappingTrace 400 5 s e ∧ overlappingTrace.tStart s = b.1) ∧
        ∃ s e, LongRun overlappingTrace 400 5 s e ∧ overlappingTrace.tEnd e = b.2) ∧
      ∀ s e, LongRun overlappingTrace 400 5 s e →
        ∃! b, b ∈ bursts ∧ b.1 ≤ overlappingTrace.tStart s ∧ overlappingTrace.tEnd e ≤ b.2 := by
  refine detectMemoryBursts_correct overlappingTrace 400 5 3 overlappingTrace_elapsedUs ?_ (by decide)
  intro interval hi i
  obtain rfl := Option.mem_some_iff.mp hi
  exact (by decide : (0 : ℚ) ≤ 12)

end Detect

end Gapbs.Imc
