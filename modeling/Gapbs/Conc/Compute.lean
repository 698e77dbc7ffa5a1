import Gapbs.Conc.Logic
import Gapbs.Lib.Fueled

/-!
# Local computations

A thread computes something that may take for ever and does not touch the memory.
-/

namespace Conc

variable {S Γ α β : Type}

/-- Run `p` with more and more fuel until it returns. -/
def Prog.compute (p : Fueled β) : Prog S β :=
  .iter (fun fuel => .ret (match p.run fuel with
    | some b => .inr b
    | none => .inl (fuel + 1))) 0

/-- What does not depend on the other threads is known when a computation has returned. -/
theorem WP.compute_bind {R G : S × Γ → S × Γ → Prop} {Q : α → S × Γ → Prop} {P : S × Γ → Prop}
    {p : Fueled β} {b : β} {k : β → Prog S α} {σ : S × Γ} (hb : p.Returns b) (hσ : P σ)
    (hst : Stable R P) (hk : ∀ τ, P τ → WP R G Q (k b) τ) : WP R G Q ((Prog.compute p).bind k) σ := by
  have hb' := hb
  obtain ⟨enough, henough⟩ := hb'
  apply WP.iter_bind (fun _ => P) (fun fuel _ => enough - fuel) hσ (fun _ => hst) (fun _ _ _ _ _ => le_rfl)
  intro fuel τ hτ
  rcases hrun : p.run fuel with _ | c
  · -- the fuel did not suffice
    have hlt : fuel < enough := by
      by_contra hle
      have hmore := p.mono (Nat.le_of_not_lt hle) henough
      rw [hrun] at hmore
      cases hmore
    apply WP.ret ⟨hτ, show enough - (fuel + 1) < enough - fuel by omega⟩
    exact fun υ υ' hυ hR => ⟨hst υ υ' hυ.1 hR, hυ.2⟩
  · obtain rfl : c = b := Fueled.Returns.unique ⟨fuel, hrun⟩ hb
    apply WP.ret (hk τ hτ)
    intro υ υ' hυ hR
    exact hυ.env (.single hR)

end Conc
