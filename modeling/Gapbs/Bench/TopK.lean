import Mathlib.Data.List.Sort
import Mathlib.Data.Prod.Lex
import Mathlib.Algebra.Ring.Int.Defs

/-!
# The pairs with the largest values

`TopK` keeps the best `k` pairs in descending order while it goes through the list, and remembers
the value of the last of them as the threshold for the next pair.
-/

namespace Gapbs.Bench

variable {K V : Type} [LinearOrder K] [LinearOrder V]

/-- A pair as `TopK` returns it: the value first, compared before the key. -/
def valueFirst (kvp : K × V) : V ×ₗ K := toLex (kvp.2, kvp.1)

/-- `std::sort` with `std::greater` -/
def sortDescending (topK : List (V ×ₗ K)) : List (V ×ₗ K) := topK.insertionSort (· ≥ ·)

/-- `push_back`, `sort` and `resize`. -/
def insertPair (k : ℕ) (topK : List (V ×ₗ K)) (kvp : K × V) : List (V ×ₗ K) :=
  let sorted := sortDescending (topK ++ [valueFirst kvp])
  if sorted.length > k then sorted.take k else sorted

/-- One turn of the loop over `to_sort`; `back` of an empty vector is undefined. -/
def topKStep (k : ℕ) (state : List (V ×ₗ K) × V) (kvp : K × V) : Option (List (V ×ₗ K) × V) :=
  let (topK, minSoFar) := state
  if topK.length < k ∨ kvp.2 > minSoFar then
    let topK := insertPair k topK kvp
    topK.getLast?.map fun back => (topK, (ofLex back).1)
  else
    some (topK, minSoFar)

def topK [Zero V] (toSort : List (K × V)) (k : ℕ) : Option (List (V ×ₗ K)) :=
  (toSort.foldlM (topKStep k) ([], 0)).map Prod.fst

/-- `top` are `k` pairs of `l` with the largest values, or all of them, and `leftOut` are the others. -/
structure Selects (k : ℕ) (l : List (K × V)) (top : List (V ×ₗ K)) (leftOut : List (K × V)) :
    Prop where
  length : top.length = min k l.length
  sorted : top.Pairwise (· ≥ ·)
  perm : (top ++ leftOut.map valueFirst).Perm (l.map valueFirst)
  largest : ∀ p ∈ leftOut, ∀ r ∈ top, p.2 ≤ (ofLex r).1

/-! ## One pair -/

theorem sortDescending_perm (topK : List (V ×ₗ K)) : (sortDescending topK).Perm topK :=
  List.perm_insertionSort _ topK

theorem sortDescending_sorted (topK : List (V ×ₗ K)) : (sortDescending topK).Pairwise (· ≥ ·) :=
  List.pairwise_insertionSort _ topK

theorem insertPair_eq_take (k : ℕ) (topK : List (V ×ₗ K)) (kvp : K × V) :
    insertPair k topK kvp = (sortDescending (topK ++ [valueFirst kvp])).take k := by
  by_cases h : (sortDescending (topK ++ [valueFirst kvp])).length > k
  · exact if_pos h
  · rw [List.take_of_length_le (Nat.not_lt.mp h)]
    exact if_neg h

/-- Descending order of the returned pairs puts their values in descending order. -/
theorem value_le_of_le {p q : V ×ₗ K} (h : p ≤ q) : (ofLex p).1 ≤ (ofLex q).1 := by
  rcases (Prod.Lex.le_iff).mp h with hlt | ⟨heq, _⟩
  · exact hlt.le
  · exact heq.le

namespace Selects

variable {k : ℕ} {l : List (K × V)} {top : List (V ×ₗ K)} {leftOut : List (K × V)} {kvp : K × V}

theorem length_add (h : Selects k l top leftOut) : top.length + leftOut.length = l.length := by
  simpa using h.perm.length_eq

theorem leftOut_eq_nil (h : Selects k l top leftOut) (hlt : top.length < k) : leftOut = [] := by
  have hlength := h.length
  have hadd := h.length_add
  rw [← List.length_eq_zero_iff]
  omega

/-- What is cut off joins the pairs left out. -/
theorem insertPair (h : Selects k l top leftOut) (hnew : ∀ p ∈ leftOut, p.2 ≤ kvp.2) :
    ∃ leftOut', Selects k (l ++ [kvp]) (Bench.insertPair k top kvp) leftOut' := by
  rw [insertPair_eq_take]
  generalize hs : sortDescending (top ++ [valueFirst kvp]) = sorted
  have hperm : sorted.Perm (top ++ [valueFirst kvp]) := hs ▸ sortDescending_perm _
  have hsorted : (sorted.take k ++ sorted.drop k).Pairwise (· ≥ ·) := by
    rw [List.take_append_drop]
    exact hs ▸ sortDescending_sorted _
  obtain ⟨htake, -, hcut⟩ := List.pairwise_append.mp hsorted
  -- `resize` cuts off these, turned back to pairs of the list
  let cut := (sorted.drop k).map fun r => ((ofLex r).2, (ofLex r).1)
  have hcutMap : cut.map valueFirst = sorted.drop k := by simp [cut, valueFirst, Function.comp_def]
  refine ⟨leftOut ++ cut, ?_, htake, ?_, ?_⟩
  · have hlength := h.length
    have := hperm.length_eq
    simp only [List.length_append, List.length_singleton, List.length_take] at this ⊢
    omega
  · rw [List.map_append, List.map_append, hcutMap]
    have hrest : (sorted.take k ++ (leftOut.map valueFirst ++ sorted.drop k)).Perm
        (sorted ++ leftOut.map valueFirst) := by
      conv_rhs => rw [← List.take_append_drop k sorted, List.append_assoc]
      exact List.perm_append_comm.append_left _
    have hkept : (sorted ++ leftOut.map valueFirst).Perm
        (top ++ leftOut.map valueFirst ++ [valueFirst kvp]) := by
      refine (hperm.append_right _).trans ?_
      rw [List.append_assoc, List.append_assoc]
      exact List.perm_append_comm.append_left _
    exact hrest.trans (hkept.trans (h.perm.append_right _))
  · intro p hp r hr
    rcases List.mem_append.mp hp with hp | hp
    · have hr' := hperm.mem_iff.mp (List.mem_of_mem_take hr)
      rcases List.mem_append.mp hr' with hr' | hr'
      · exact h.largest p hp r hr'
      · rw [List.mem_singleton.mp hr']
        exact hnew p hp
    · obtain ⟨d, hd, rfl⟩ := List.mem_map.mp hp
      exact value_le_of_le (hcut r hr d hd)

/-- A full list stays as it is when no value of it is below the new one. -/
theorem skip (h : Selects k l top leftOut) (hfull : k ≤ top.length)
    (hle : ∀ r ∈ top, kvp.2 ≤ (ofLex r).1) : Selects k (l ++ [kvp]) top (leftOut ++ [kvp]) where
  length := by
    have hlength := h.length
    rw [List.length_append]
    omega
  sorted := h.sorted
  perm := by
    rw [List.map_append, List.map_append, ← List.append_assoc]
    exact h.perm.append_right _
  largest p hp r hr := by
    rcases List.mem_append.mp hp with hp | hp
    · exact h.largest p hp r hr
    · rw [List.mem_singleton.mp hp]
      exact hle r hr

end Selects

/-! ## The whole list -/

/-- Between two turns: the threshold is the value of the last pair kept. -/
structure Scanned (k : ℕ) (l : List (K × V)) (state : List (V ×ₗ K) × V) : Prop where
  selects : ∃ leftOut, Selects k l state.1 leftOut
  threshold : ∀ back ∈ state.1.getLast?, (ofLex back).1 = state.2

theorem le_of_mem_of_getLast {top : List (V ×ₗ K)} {back r : V ×ₗ K} (h : top.Pairwise (· ≥ ·))
    (hback : top.getLast? = some back) (hr : r ∈ top) : (ofLex back).1 ≤ (ofLex r).1 := by
  obtain ⟨front, rfl⟩ := List.getLast?_eq_some_iff.mp hback
  rcases List.mem_append.mp hr with hr | hr
  · exact value_le_of_le ((List.pairwise_append.mp h).2.2 r hr back (List.mem_singleton_self _))
  · rw [List.mem_singleton.mp hr]

theorem Scanned.step {k : ℕ} (hk : 1 ≤ k) {l : List (K × V)} {state : List (V ×ₗ K) × V}
    (h : Scanned k l state) (kvp : K × V) :
    ∃ state', topKStep k state kvp = some state' ∧ Scanned k (l ++ [kvp]) state' := by
  obtain ⟨top, minSoFar⟩ := state
  obtain ⟨⟨leftOut, hsel⟩, hmin⟩ := h
  by_cases hcond : top.length < k ∨ kvp.2 > minSoFar
  · have hnew : ∀ p ∈ leftOut, p.2 ≤ kvp.2 := by
      intro p hp
      rcases hcond with hlt | hgt
      · simp [hsel.leftOut_eq_nil hlt] at hp
      · rcases hback : top.getLast? with _ | back
        · -- nothing is left out of an empty list
          have hlength := hsel.length
          have hadd := hsel.length_add
          have := List.length_pos_of_mem hp
          rw [List.getLast?_eq_none_iff.mp hback, List.length_nil] at hlength hadd
          omega
        · have hle := hsel.largest p hp back (List.mem_of_getLast? hback)
          rw [hmin back hback] at hle
          exact hle.trans hgt.le
    obtain ⟨leftOut', hsel'⟩ := hsel.insertPair hnew
    have hpos : insertPair k top kvp ≠ [] := by
      apply List.ne_nil_of_length_pos
      rw [hsel'.length, List.length_append, List.length_singleton]
      omega
    refine ⟨(insertPair k top kvp, (ofLex ((insertPair k top kvp).getLast hpos)).1), ?_,
      ⟨leftOut', hsel'⟩, ?_⟩
    · simp only [topKStep, if_pos hcond, List.getLast?_eq_some_getLast hpos, Option.map_some]
    · intro back hback
      rw [List.getLast?_eq_some_getLast hpos] at hback
      rw [Option.mem_some_iff.mp hback]
  · obtain ⟨hfull, hle⟩ := not_or.mp hcond
    rw [Nat.not_lt] at hfull
    rw [gt_iff_lt, not_lt] at hle
    refine ⟨(top, minSoFar), if_neg hcond, ⟨_, hsel.skip hfull fun r hr => ?_⟩, hmin⟩
    -- the last pair is the smallest one, and its value is the threshold
    have hback := List.getLast?_eq_some_getLast (List.ne_nil_of_mem hr)
    generalize top.getLast (List.ne_nil_of_mem hr) = back at hback
    have hthreshold : (ofLex back).1 = minSoFar := hmin back hback
    rw [← hthreshold] at hle
    exact hle.trans (le_of_mem_of_getLast hsel.sorted hback hr)

theorem Scanned.run {k : ℕ} (hk : 1 ≤ k) {pre : List (K × V)} {state : List (V ×ₗ K) × V}
    (h : Scanned k pre state) (l : List (K × V)) :
    ∃ state', l.foldlM (topKStep k) state = some state' ∧ Scanned k (pre ++ l) state' := by
  induction l generalizing pre state with
  | nil => exact ⟨state, rfl, by rwa [List.append_nil]⟩
  | cons kvp l ih =>
    obtain ⟨mid, hmid, hscan⟩ := h.step hk kvp
    obtain ⟨state', hrun, hscan'⟩ := ih hscan
    refine ⟨state', ?_, by rwa [List.append_assoc] at hscan'⟩
    rw [List.foldlM_cons, hmid]
    exact hrun

/-- `TopK` returns `k` of the pairs with the largest values, in descending order, and each position
of the list at most once. -/
theorem topK_selects [Zero V] (toSort : List (K × V)) (k : ℕ) (hk : 1 ≤ k) :
    ∃ top leftOut, topK toSort k = some top ∧ Selects k toSort top leftOut := by
  have hstart : Scanned k ([] : List (K × V)) (([] : List (V ×ₗ K)), (0 : V)) :=
    ⟨⟨[], by simp, .nil, .nil, nofun⟩, nofun⟩
  obtain ⟨⟨top, minSoFar⟩, hrun, ⟨leftOut, hsel⟩, -⟩ := hstart.run hk toSort
  exact ⟨top, leftOut, by rw [topK, hrun, Option.map_some], hsel⟩

/-- Negative values, a tie at the threshold and a key that decides between equal values. -/
theorem topK_selects_three :
    ∃ top leftOut, topK [(1, -5), (2, -3), (3, -3), (4, -7), (5, -3)] 2 = some top ∧
      Selects 2 [(1, -5), (2, -3), (3, -3), (4, -7), ((5 : ℕ), (-3 : ℤ))] top leftOut :=
  topK_selects _ 2 (by decide)

end Gapbs.Bench
