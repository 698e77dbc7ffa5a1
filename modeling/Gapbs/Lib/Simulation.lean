import Mathlib.Logic.Relation

/-!
# Stuttering simulations

A concrete system `stepC` implements an abstract one `stepA` when every concrete step either is an
abstract step or leaves the abstract state alone and lowers a rank.  Runs of the implementation are
then runs of the abstract system, and where the latter has no infinite run the former has none.
-/

namespace Stuttering

universe u v

variable {C : Type u} {A : Type v}

/-- The steps of `stepC` from states that satisfy `Inv`, seen through `abs`. -/
structure Simulates (stepC : C → C → Prop) (stepA : A → A → Prop) (abs : C → A) (Inv : C → Prop)
    (rank : C → Nat) : Prop where
  inv : ∀ c d, Inv c → stepC c d → Inv d
  step : ∀ c d, Inv c → stepC c d → stepA (abs c) (abs d) ∨ (abs d = abs c ∧ rank d < rank c)

variable {stepC : C → C → Prop} {stepA : A → A → Prop} {abs : C → A} {Inv : C → Prop}
  {rank : C → Nat}

theorem Simulates.reach (h : Simulates stepC stepA abs Inv rank) {c d : C} (hc : Inv c)
    (hr : Relation.ReflTransGen stepC c d) : Inv d ∧ Relation.ReflTransGen stepA (abs c) (abs d) := by
  induction hr with
  | refl => exact ⟨hc, .refl⟩
  | @tail d e _ hstep ih =>
    obtain ⟨hd, habs⟩ := ih
    refine ⟨h.inv d e hd hstep, ?_⟩
    rcases h.step d e hd hstep with hmatched | ⟨hstays, -⟩
    · exact habs.tail hmatched
    · rwa [hstays]

/-- The implementation of a terminating system terminates: between two abstract steps it can only
lower its rank. -/
theorem Simulates.terminates (h : Simulates stepC stepA abs Inv rank) {c : C} (hc : Inv c)
    (hacc : Acc (fun b a => stepA a b) (abs c)) : Acc (fun d c => stepC c d) c := by
  generalize ha : abs c = a at hacc
  induction hacc generalizing c with
  | intro a _ ihAbs =>
    generalize hk : rank c = k
    induction k using Nat.strongRecOn generalizing c with
    | ind k ihRank =>
      refine ⟨c, fun d hstep => ?_⟩
      have hd := h.inv c d hc hstep
      rcases h.step c d hc hstep with hmatched | ⟨hstays, hlt⟩
      · exact ihAbs (abs d) (ha ▸ hmatched) hd rfl
      · exact ihRank (rank d) (hk ▸ hlt) hd (hstays.trans ha) rfl

/-! ## Nothing is lost -/

/-- The implementation can do nothing more before the next abstract step. -/
def Quiet (stepC : C → C → Prop) (abs : C → A) (rank : C → Nat) (c : C) : Prop :=
  ∀ d, stepC c d → ¬ (abs d = abs c ∧ rank d < rank c)

theorem Simulates.quiesces (h : Simulates stepC stepA abs Inv rank) {c : C} (hc : Inv c) :
    ∃ d, Relation.ReflTransGen stepC c d ∧ Inv d ∧ abs d = abs c ∧ Quiet stepC abs rank d := by
  generalize hk : rank c = k
  induction k using Nat.strongRecOn generalizing c with
  | ind k ih =>
    by_cases hquiet : Quiet stepC abs rank c
    · exact ⟨c, .refl, hc, rfl, hquiet⟩
    · obtain ⟨d, hd⟩ := Classical.not_forall.mp hquiet
      obtain ⟨hstep, hmoves⟩ := Classical.not_imp.mp hd
      obtain ⟨hstays, hlt⟩ := Classical.not_not.mp hmoves
      obtain ⟨e, hreach, he, habs, hquiet⟩ := ih (rank d) (hk ▸ hlt) (h.inv c d hc hstep) rfl
      exact ⟨e, .head hstep hreach, he, habs.trans hstays, hquiet⟩

/-- An implementation that can take every step of the abstract system once it is quiet. -/
structure Covers (stepC : C → C → Prop) (stepA : A → A → Prop) (abs : C → A) (Inv : C → Prop)
    (rank : C → Nat) : Prop extends Simulates stepC stepA abs Inv rank where
  realises : ∀ c a, Inv c → Quiet stepC abs rank c → stepA (abs c) a → ∃ d, stepC c d ∧ abs d = a

theorem Covers.next (h : Covers stepC stepA abs Inv rank) {c : C} (hc : Inv c) {a : A}
    (hstep : stepA (abs c) a) :
    ∃ d, Relation.TransGen stepC c d ∧ Inv d ∧ abs d = a := by
  obtain ⟨d, hreach, hd, habs, hquiet⟩ := h.quiesces hc
  obtain ⟨e, hlast, he⟩ := h.realises d a hd hquiet (habs ▸ hstep)
  exact ⟨e, .tail' hreach hlast, h.inv d e hd hlast, he⟩

/-- Where the implementation is stuck the abstract system is. -/
theorem Covers.stuck (h : Covers stepC stepA abs Inv rank) {c : C} (hc : Inv c)
    (hstuck : ∀ d, ¬ stepC c d) (a : A) : ¬ stepA (abs c) a := by
  intro hstep
  obtain ⟨d, hd, -⟩ := h.realises c a hc (fun d hd => absurd hd (hstuck d)) hstep
  exact hstuck d hd

/-- Every abstract run is the view of a run of the implementation. -/
theorem Covers.reaches (h : Covers stepC stepA abs Inv rank) {c : C} (hc : Inv c) {a : A}
    (hr : Relation.ReflTransGen stepA (abs c) a) :
    ∃ d, Relation.ReflTransGen stepC c d ∧ Inv d ∧ abs d = a := by
  induction hr with
  | refl => exact ⟨c, .refl, hc, rfl⟩
  | tail _ hstep ih =>
    obtain ⟨d, hreach, hd, rfl⟩ := ih
    obtain ⟨e, hmore, he, habs⟩ := h.next hd hstep
    exact ⟨e, hreach.trans hmore.to_reflTransGen, he, habs⟩

theorem Covers.acc (h : Covers stepC stepA abs Inv rank) {c : C} (hc : Inv c)
    (hacc : Acc (fun d c => stepC c d) c) : Acc (fun b a => stepA a b) (abs c) := by
  have htrans := hacc.transGen
  induction htrans with
  | intro c _ ih =>
    refine ⟨abs c, fun a hstep => ?_⟩
    obtain ⟨d, hreach, hd, rfl⟩ := h.next hc hstep
    have hback : Relation.TransGen (fun d c => stepC c d) d c := Relation.transGen_swap.mpr hreach
    exact ih d hback hd (hacc.inv_of_transGen hback)

end Stuttering
