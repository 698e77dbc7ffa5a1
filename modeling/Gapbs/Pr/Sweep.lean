import Gapbs.Conc.Reduce
import Gapbs.Pr.Verifier

/-!
# One vertex of a PageRank sweep

Both kernels update a vertex in the same way: they add up the contributions of its incoming
neighbours, replace its score, and add the change of the score to the error.
-/

namespace Gapbs

open Conc RankFlow

variable {n : ℕ}

/-- The two arrays of the kernels; a contribution is `none` before it is written and when it is a
quotient by zero. -/
structure PrMem (n : ℕ) where
  scores : Fin n → ℚ
  outgoingContrib : Fin n → Option ℚ

namespace PrMem

def setScore (m : PrMem n) (u : Fin n) (score : ℚ) : PrMem n :=
  { m with scores := Function.update m.scores u score }

def setContrib (m : PrMem n) (u : Fin n) (contrib : Option ℚ) : PrMem n :=
  { m with outgoingContrib := Function.update m.outgoingContrib u contrib }

@[simp] theorem setScore_self (m : PrMem n) (u : Fin n) (x : ℚ) : (m.setScore u x).scores u = x :=
  Function.update_self ..

@[simp] theorem setScore_contrib (m : PrMem n) (u : Fin n) (x : ℚ) :
    (m.setScore u x).outgoingContrib = m.outgoingContrib := rfl

@[simp] theorem setContrib_self (m : PrMem n) (u : Fin n) (c : Option ℚ) :
    (m.setContrib u c).outgoingContrib u = c :=
  Function.update_self ..

@[simp] theorem setContrib_scores (m : PrMem n) (u : Fin n) (c : Option ℚ) :
    (m.setContrib u c).scores = m.scores := rfl

theorem setScore_of_ne (m : PrMem n) {u v : Fin n} (h : v ≠ u) (x : ℚ) :
    (m.setScore u x).scores v = m.scores v :=
  Function.update_of_ne h ..

theorem setContrib_of_ne (m : PrMem n) {u v : Fin n} (h : v ≠ u) (c : Option ℚ) :
    (m.setContrib u c).outgoingContrib v = m.outgoingContrib v :=
  Function.update_of_ne h ..

end PrMem

/-- `scores(g.num_nodes(), init_score)` -/
def fillScores (T n : ℕ) [NeZero T] : Prog (PrMem n) Unit :=
  .parallelFor T n fun v => .store fun m => m.setScore v (initScore n)

/-- `outgoing_contrib[u] = scores[u] / g.out_degree(u)` -/
def writeContrib (g : Graph n) (u : Fin n) : Prog (PrMem n) Unit := do
  let score ← .load fun m => m.scores u
  .store fun m => m.setContrib u (quotient score (g.outDegree u))

/-- `for (NodeID v : g.in_neigh(u)) incoming_total += outgoing_contrib[v];` -/
def incomingTotal (g : Graph n) (read : Fin n → Prog (PrMem n) ℚ) (u : Fin n) : Prog (PrMem n) ℚ :=
  .forEach (g.inNeigh u) 0 fun v total => do
    let contrib ← read v
    return total + contrib

/-- Replace the score of `u` and add its change to the error. -/
def updateScore (kDamp : ℚ) (u : Fin n) (incomingTotal error : ℚ) : Prog (PrMem n) ℚ := do
  let oldScore ← .load fun m => m.scores u
  .store fun m => m.setScore u (baseScore kDamp n + kDamp * incomingTotal)
  let newScore ← .load fun m => m.scores u
  return error + |newScore - oldScore|

/-! ## What the parts do -/

variable {Γ : Type} {R G : PrMem n × Γ → PrMem n × Γ → Prop}

/-- What the others leave alone is stable. -/
theorem stable_others {Own : Fin n → PrMem n → PrMem n → Prop} {i : Fin n} {P : PrMem n → Prop}
    (h : ∀ j, j ≠ i → ∀ m m', P m → Own j m m' → P m') :
    Stable (Γ := Unit) (fun σ τ => ∃ j, j ≠ i ∧ Own j σ.1 τ.1) fun σ => P σ.1 :=
  fun _ _ hσ ⟨j, hj, hown⟩ => h j hj _ _ hσ hown

/-- The total of what the reads saw; `Seen v c` stays true of a value `c` read at `v`. -/
theorem incomingTotal_wp {g : Graph n} {read : Fin n → Prog (PrMem n) ℚ} {u : Fin n}
    {σ : PrMem n × Γ} (I : PrMem n × Γ → Prop) (Seen : Fin n → ℚ → PrMem n × Γ → Prop) (hσ : I σ)
    (hI : Stable R I) (hseen : ∀ v c σ τ, I σ → Seen v c σ → R σ τ → Seen v c τ)
    (hread : ∀ v σ, v ∈ g.inNeigh u → I σ →
      WP R (fun _ _ => False) (fun c τ => I τ ∧ Seen v c τ) (read v) σ) :
    WP R G (fun total τ => I τ ∧ ∃ reads, total = reads.sum ∧
      List.Forall₂ (fun v c => Seen v c τ) (g.inNeigh u) reads) (incomingTotal g read u) σ := by
  let Known (pre : List (Fin n)) (total : ℚ) (τ : PrMem n × Γ) : Prop :=
    I τ ∧ ∃ reads, total = reads.sum ∧ List.Forall₂ (fun v c => Seen v c τ) pre reads
  have hstable (pre : List (Fin n)) (total : ℚ) : Stable R (Known pre total) := by
    rintro σ τ ⟨hσ, reads, htotal, hreads⟩ hR
    exact ⟨hI σ τ hσ hR, reads, htotal, hreads.imp fun v c h => hseen v c σ τ hσ h hR⟩
  apply WP.forEach Known ⟨hσ, [], rfl, .nil⟩ hstable
  intro pre v post total τ hsplit hτ
  have hv : v ∈ g.inNeigh u := by simp [hsplit]
  -- what was read before stays read
  have hframe := (hread v τ hv hτ.1).frame hτ (hstable pre total) fun _ _ _ h => h.elim
  refine WP.bind ((hframe.weaken (fun _ _ h => h) fun _ _ h => h.elim).mono ?_)
  rintro c υ ⟨⟨-, hc⟩, hυ, reads, htotal, hreads⟩
  refine WP.ret ⟨hυ, reads ++ [c], ?_, ?_⟩ (hstable _ _)
  · rw [htotal, List.sum_append, List.sum_singleton]
  · exact List.rel_append hreads (.cons hc .nil)

/-- The error grows by the change of the score. -/
theorem updateScore_wp {kDamp : ℚ} {u : Fin n} {total error old : ℚ} {σ : PrMem n × Γ}
    (Before After : PrMem n × Γ → Prop) (hσ : Before σ) (hbefore : Stable R Before)
    (hafter : Stable R After) (hold : ∀ τ, Before τ → τ.1.scores u = old)
    (hnew : ∀ τ, After τ → τ.1.scores u = baseScore kDamp n + kDamp * total)
    (hstore : ∀ m γ, Before (m, γ) → ∃ γ',
      G (m, γ) (m.setScore u (baseScore kDamp n + kDamp * total), γ') ∧
        After (m.setScore u (baseScore kDamp n + kDamp * total), γ')) :
    WP R G (fun y τ => y = error + |baseScore kDamp n + kDamp * total - old| ∧ After τ)
      (updateScore kDamp u total error) σ := by
  refine WP.load_bind hσ hbefore fun m γ hm => ?_
  rw [hold _ hm]
  refine WP.store_bind hm hbefore fun m γ hm => ?_
  obtain ⟨γ', hG, hdone⟩ := hstore m γ hm
  refine ⟨γ', .inr hG, WP.load_bind hdone hafter fun m γ hm => ?_⟩
  rw [hnew _ hm]
  exact WP.ret ⟨rfl, hm⟩ fun _ _ h hR => ⟨h.1, hafter _ _ h.2 hR⟩

theorem fillScores_solo {T : ℕ} [NeZero T] (s : PrMem n) :
    Solo (fillScores T n) s fun _ m => ∀ v, m.scores v = initScore n :=
  Solo.parallelFor_store _ PrMem.scores _ (fun v m => m.setScore_self v _)
    fun _ _ m h => m.setScore_of_ne h _

end Gapbs
