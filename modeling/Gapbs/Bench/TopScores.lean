import Gapbs.Bench.TopK
import Gapbs.Bench.SourcePicker

/-!
# The best vertices

`PrintTopScores` of `bc` and `pr` shows the five best scores, and the programs for components show the
five biggest clusters.  No key is in their lists twice, and then the pairs returned are ranked strictly.
-/

namespace Gapbs.Bench

theorem valueFirst_injective {K V : Type} : Function.Injective (valueFirst : K × V → V ×ₗ K) := by
  intro p q h
  have heq : (p.2, p.1) = (q.2, q.1) := toLex.injective h
  exact Prod.ext (congrArg Prod.snd heq) (congrArg Prod.fst heq)

variable {K V : Type} [LinearOrder K] [LinearOrder V]

/-- The first `k` places go to the pairs with the largest values. -/
structure Ranks (k : ℕ) (l : List (K × V)) (top : List (V ×ₗ K)) : Prop where
  length : top.length = min k l.length
  sorted : top.Pairwise (· > ·)
  mem : ∀ r ∈ top, ((ofLex r).2, (ofLex r).1) ∈ l
  best : ∀ p ∈ l, valueFirst p ∉ top → ∀ r ∈ top, p.2 ≤ (ofLex r).1

theorem Selects.ranks {k : ℕ} {l : List (K × V)} {top : List (V ×ₗ K)} {leftOut : List (K × V)}
    (h : Selects k l top leftOut) (hnodup : (l.map Prod.fst).Nodup) : Ranks k l top := by
  have hall : (top ++ leftOut.map valueFirst).Nodup :=
    h.perm.nodup_iff.mpr (hnodup.of_map.map valueFirst_injective)
  refine ⟨h.length, ?_, fun r hr => ?_, fun p hp hnot => ?_⟩
  · have hdistinct : top.Pairwise (· ≠ ·) := hall.of_append_left
    exact hdistinct.imp₂ (fun a b hne hle => lt_of_le_of_ne hle hne.symm) h.sorted
  · obtain ⟨p, hp, rfl⟩ := List.mem_map.mp (h.perm.mem_iff.mp (List.mem_append_left _ hr))
    exact hp
  · have hmem := h.perm.mem_iff.mpr (List.mem_map_of_mem hp)
    obtain ⟨q, hq, heq⟩ := List.mem_map.mp ((List.mem_append.mp hmem).resolve_left hnot)
    obtain rfl := valueFirst_injective heq
    exact h.largest q hq

theorem topK_ranks [Zero V] {l : List (K × V)} (hnodup : (l.map Prod.fst).Nodup) {k : ℕ} (hk : 1 ≤ k) :
    ∃ top, topK l k = some top ∧ Ranks k l top := by
  have hstart : Scanned k ([] : List (K × V)) (([] : List (V ×ₗ K)), (0 : V)) :=
    ⟨⟨[], by simp, .nil, .nil, by simp⟩, by simp⟩
  obtain ⟨⟨top, minSoFar⟩, hrun, ⟨leftOut, hselects⟩, -⟩ := hstart.run hk l
  exact ⟨top, by rw [topK, hrun, Option.map_some], hselects.ranks hnodup⟩

/-- `score_pairs` of `PrintTopScores` -/
def scorePairs {n : ℕ} (scores : Fin n → V) : List (Fin n × V) :=
  (List.finRange n).map fun v => (v, scores v)

/-- What `PrintTopScores` prints. -/
def printTopScores [Zero V] {n : ℕ} (scores : Fin n → V) : Option (List (V ×ₗ Fin n)) :=
  topK (scorePairs scores) 5

theorem printTopScores_ranks [Zero V] {n : ℕ} (scores : Fin n → V) :
    ∃ top, printTopScores scores = some top ∧ Ranks 5 (scorePairs scores) top := by
  refine topK_ranks ?_ (by decide)
  have hkeys : (scorePairs scores).map Prod.fst = List.finRange n := by simp [scorePairs, Function.comp_def]
  rw [hkeys]
  exact List.nodup_finRange n

end Gapbs.Bench
