import Mathlib.Data.Fin.Basic

/-!
# Counting loops

Serial `for` loops over a state whose body may perform an undefined operation, and the rules that
carry an invariant through them.
-/

namespace Loop

variable {σ : Type}

/-- `for (i = 0; i < m; i++)` -/
def upTo (body : Nat → σ → Option σ) : Nat → σ → Option σ
  | 0, s => some s
  | m + 1, s => (upTo body m s).bind (body m)

/-- `for (i = m - 1; i >= 0; i--)` -/
def downFrom (body : Nat → σ → Option σ) : Nat → σ → Option σ
  | 0, s => some s
  | m + 1, s => (body m s).bind (downFrom body m)

theorem upTo_invariant {body : Nat → σ → Option σ} {m : Nat} {s : σ} (Inv : Nat → σ → Prop)
    (h : Inv 0 s) (step : ∀ i s, i < m → Inv i s → ∃ t, body i s = some t ∧ Inv (i + 1) t) :
    ∃ t, upTo body m s = some t ∧ Inv m t := by
  induction m with
  | zero => exact ⟨s, rfl, h⟩
  | succ m ih =>
    obtain ⟨t, ht, hinv⟩ := ih fun i s hi => step i s (Nat.lt_succ_of_lt hi)
    obtain ⟨u, hu, hinv'⟩ := step m t (Nat.lt_succ_self m) hinv
    exact ⟨u, by rw [upTo, ht, Option.bind_some, hu], hinv'⟩

/-- The invariant holds in front of every turn. -/
theorem upTo_invariant_of_eq {body : Nat → σ → Option σ} {m j : Nat} {s t : σ} (Inv : Nat → σ → Prop)
    (h : Inv 0 s) (step : ∀ i s, i < m → Inv i s → ∃ t, body i s = some t ∧ Inv (i + 1) t)
    (hj : j ≤ m) (ht : upTo body j s = some t) : Inv j t := by
  obtain ⟨t', ht', hinv⟩ := upTo_invariant Inv h fun i s hi => step i s (Nat.lt_of_lt_of_le hi hj)
  rw [ht] at ht'
  exact Option.some.inj ht' ▸ hinv

theorem downFrom_invariant {body : Nat → σ → Option σ} {m : Nat} {s : σ} (Inv : Nat → σ → Prop)
    (h : Inv m s) (step : ∀ i s, i < m → Inv (i + 1) s → ∃ t, body i s = some t ∧ Inv i t) :
    ∃ t, downFrom body m s = some t ∧ Inv 0 t := by
  induction m generalizing s with
  | zero => exact ⟨s, rfl, h⟩
  | succ m ih =>
    obtain ⟨t, ht, hinv⟩ := step m s (Nat.lt_succ_self m) h
    obtain ⟨u, hu, hinv'⟩ := ih hinv fun i s hi => step i s (Nat.lt_succ_of_lt hi)
    exact ⟨u, by rw [downFrom, ht, Option.bind_some, hu], hinv'⟩

variable {n : Nat}

/-- Run a loop body on the index it belongs to. -/
def atFin (body : Fin n → σ → Option σ) (i : Nat) (s : σ) : Option σ :=
  if h : i < n then body ⟨i, h⟩ s else none

/-- The loop over all indices in increasing order. -/
def overFin (body : Fin n → σ → Option σ) : σ → Option σ := upTo (atFin body) n

/-- The loop over all indices in decreasing order. -/
def overFinDown (body : Fin n → σ → Option σ) : σ → Option σ := downFrom (atFin body) n

theorem overFin_invariant {body : Fin n → σ → Option σ} {s : σ} (Inv : Nat → σ → Prop) (h : Inv 0 s)
    (step : ∀ (i : Fin n) s, Inv i s → ∃ t, body i s = some t ∧ Inv (i + 1) t) :
    ∃ t, overFin body s = some t ∧ Inv n t := by
  apply upTo_invariant Inv h
  intro i s hi hinv
  rw [atFin, dif_pos hi]
  exact step ⟨i, hi⟩ s hinv

theorem overFin_invariant_of_eq {body : Fin n → σ → Option σ} {s t : σ} {k : Nat} (Inv : Nat → σ → Prop)
    (h : Inv 0 s) (step : ∀ (i : Fin n) s, Inv i s → ∃ t, body i s = some t ∧ Inv (i + 1) t)
    (hk : k ≤ n) (ht : upTo (atFin body) k s = some t) : Inv k t := by
  apply upTo_invariant_of_eq Inv h _ hk ht
  intro i s hi hinv
  rw [atFin, dif_pos hi]
  exact step ⟨i, hi⟩ s hinv

theorem overFinDown_invariant {body : Fin n → σ → Option σ} {s : σ} (Inv : Nat → σ → Prop)
    (h : Inv n s) (step : ∀ (i : Fin n) s, Inv (i + 1) s → ∃ t, body i s = some t ∧ Inv i t) :
    ∃ t, overFinDown body s = some t ∧ Inv 0 t := by
  apply downFrom_invariant Inv h
  intro i s hi hinv
  rw [atFin, dif_pos hi]
  exact step ⟨i, hi⟩ s hinv

end Loop
