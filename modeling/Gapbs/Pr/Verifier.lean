import Mathlib.Algebra.BigOperators.Fin
import Gapbs.Graph.Csr
import Gapbs.Lib.RankFlow

/-!
# `PRVerifier`

The verifier makes one more iteration in push direction and adds up how much it changes the scores.
Scores are rational numbers here, and a quotient by a zero out-degree is a value that must not be
read.
-/

namespace Gapbs

open RankFlow

variable {n : ℕ}

/-- `in_neigh` lists every edge as often as `out_neigh` does. -/
def Graph.TransposedEdges (g : Graph n) : Prop :=
  RankFlow.Transposed (fun u => g.outNeigh u) fun v => g.inNeigh v

instance (g : Graph n) : Decidable g.TransposedEdges :=
  inferInstanceAs (Decidable (∀ u v, (g.inNeigh v).count u = (g.outNeigh u).count v))

theorem Graph.TransposedEdges.edge {g : Graph n} (hg : g.TransposedEdges) {u v : Fin n}
    (h : u ∈ g.inNeigh v) : g.Edge u v := by
  have hcount : 0 < (g.outNeigh u).count v := (hg u v) ▸ List.count_pos_iff.mpr h
  exact List.count_pos_iff.mp hcount

theorem danglingOut_zero : ![0, 2, 3, 3] (0 : Fin (3 + 1)) = 0 := rfl

theorem danglingIn_zero : ![0, 0, 1, 3] (0 : Fin (3 + 1)) = 0 := rfl

open VertexFacts in
/-- The edges from 0 to 1, from 0 to 2 and from 1 to 2; no edge leaves the last vertex. -/
def danglingGraph : Graph 3 :=
  .ofDirected
    { index := ![0, 2, 3, 3]
      neighbors := [1, 2, 2]
      index_zero := danglingOut_zero
      index_mono := by decide
      index_last := rfl }
    { index := ![0, 0, 1, 3]
      neighbors := [0, 0, 1]
      index_zero := danglingIn_zero
      index_mono := by decide
      index_last := rfl } tripleIndex_lt

/-- A score divided by an out-degree. -/
def quotient (score : ℚ) (degree : ℕ) : Option ℚ := if degree = 0 then none else some (score / degree)

def initScore (n : ℕ) : ℚ := 1 / n

def baseScore (kDamp : ℚ) (n : ℕ) : ℚ := (1 - kDamp) / n

/-- What the first loop of `PRVerifier` does for `u`. -/
def pushContrib (g : Graph n) (scores : Fin n → ℚ) (incomingSums : Fin n → ℚ) (u : Fin n) :
    Option (Fin n → ℚ) :=
  let outgoingContrib := quotient (scores u) (g.outDegree u)
  (g.outNeigh u).foldlM
    (fun sums v => outgoingContrib.map fun contrib => Function.update sums v (sums v + contrib))
    incomingSums

/-- What the second loop does for `v`. -/
def addError (kDamp : ℚ) (scores : Fin n → ℚ) (state : ℚ × (Fin n → ℚ)) (v : Fin n) :
    ℚ × (Fin n → ℚ) :=
  let (error, incomingSums) := state
  (error + |baseScore kDamp n + kDamp * incomingSums v - scores v|, Function.update incomingSums v 0)

def prVerifier (g : Graph n) (kDamp : ℚ) (scores : Fin n → ℚ) (targetError : ℚ) : Option Bool := do
  let incomingSums ← (List.finRange n).foldlM (pushContrib g scores) fun _ => 0
  let (error, _) := (List.finRange n).foldl (addError kDamp scores) (0, incomingSums)
  return decide (error < targetError)

/-! ## What the verifier computes -/

/-- An equal part of the score of `u` for each of its outgoing edges. -/
def contrib (g : Graph n) (scores : Fin n → ℚ) : Fin n → ℚ :=
  RankFlow.share (fun u => g.outNeigh u) scores

/-- What arrives at `v` over its incoming edges. -/
def incoming (g : Graph n) (scores : Fin n → ℚ) : Fin n → ℚ :=
  RankFlow.inflow (fun v => g.inNeigh v) (contrib g scores)

theorem quotient_of_edge {g : Graph n} {u v : Fin n} (h : g.Edge u v) (scores : Fin n → ℚ) :
    quotient (scores u) (g.outDegree u) = some (contrib g scores u) := by
  have hne : g.outDegree u ≠ 0 := by
    rw [← g.length_outNeigh]
    exact (List.length_pos_of_mem h).ne'
  rw [quotient, if_neg hne, contrib, RankFlow.share, g.length_outNeigh]

theorem foldlM_push {c : ℚ} (l : List (Fin n)) (sums : Fin n → ℚ) :
    l.foldlM (fun sums v => (some c).map fun c => Function.update sums v (sums v + c)) sums =
      some fun v => sums v + l.count v • c := by
  induction l generalizing sums with
  | nil => simp
  | cons w l ih =>
    rw [List.foldlM_cons, Option.map_some]
    refine (ih _).trans (congrArg some (funext fun v => ?_))
    by_cases h : v = w
    · subst h
      rw [Function.update_self, List.count_cons_self, succ_nsmul', add_assoc]
    · rw [Function.update_of_ne h, List.count_cons_of_ne (Ne.symm h)]

theorem pushContrib_eq (g : Graph n) (scores sums : Fin n → ℚ) (u : Fin n) :
    pushContrib g scores sums u =
      some fun v => sums v + (g.outNeigh u).count v • contrib g scores u := by
  unfold pushContrib
  rcases hout : g.outNeigh u with _ | ⟨v, l⟩
  · simp
  · have hedge : g.Edge u v := by
      rw [Graph.Edge, hout]
      exact List.mem_cons_self
    simp only [quotient_of_edge hedge]
    exact foldlM_push (v :: l) sums

theorem foldlM_pushContrib (g : Graph n) (scores sums : Fin n → ℚ) (us : List (Fin n)) :
    us.foldlM (pushContrib g scores) sums =
      some fun v => sums v + (us.map fun u => (g.outNeigh u).count v • contrib g scores u).sum := by
  induction us generalizing sums with
  | nil => simp
  | cons u us ih =>
    rw [List.foldlM_cons, pushContrib_eq]
    refine (ih _).trans (congrArg some (funext fun v => ?_))
    rw [List.map_cons, List.sum_cons, add_assoc]

theorem foldl_addError (kDamp : ℚ) (scores : Fin n → ℚ) {vs : List (Fin n)} (h : vs.Nodup) (error : ℚ)
    (sums : Fin n → ℚ) : (vs.foldl (addError kDamp scores) (error, sums)).1 =
      error + (vs.map fun v => |baseScore kDamp n + kDamp * sums v - scores v|).sum := by
  induction vs generalizing error sums with
  | nil => simp
  | cons v vs ih =>
    obtain ⟨hv, hvs⟩ := List.nodup_cons.mp h
    rw [List.foldl_cons, addError, ih hvs, List.map_cons, List.sum_cons, add_assoc]
    congr 3
    refine List.map_congr_left fun w hw => ?_
    have hwv : w ≠ v := fun heq => hv (heq ▸ hw)
    rw [Function.update_of_ne hwv]

/-- The verifier compares the residual of the scores with `target_error`. -/
theorem prVerifier_eq {g : Graph n} (hg : g.TransposedEdges) (kDamp : ℚ) (scores : Fin n → ℚ)
    (targetError : ℚ) : prVerifier g kDamp scores targetError =
      some (decide (∑ v, |baseScore kDamp n + kDamp * incoming g scores v - scores v| < targetError)) := by
  have hsums (v : Fin n) :
      ((List.finRange n).map fun u => (g.outNeigh u).count v • contrib g scores u).sum =
        incoming g scores v := by
    rw [← List.ofFn_eq_map, List.sum_ofFn, incoming, RankFlow.inflow, sum_map_eq_sum_count]
    exact Finset.sum_congr rfl fun u _ => by rw [hg u v]
  rw [prVerifier, foldlM_pushContrib]
  simp only [hsums, zero_add, Option.bind_eq_bind, Option.bind_some]
  have herror := foldl_addError kDamp scores (List.nodup_finRange n) 0 (incoming g scores)
  rw [zero_add, ← List.ofFn_eq_map, List.sum_ofFn] at herror
  rw [← herror]
  rfl

end Gapbs
