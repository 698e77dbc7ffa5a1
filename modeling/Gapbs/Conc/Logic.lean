import Mathlib.SetTheory.Ordinal.Family
import Mathlib.Data.DFinsupp.WellFounded
import Gapbs.Conc.Prog

/-!
# Rely-guarantee reasoning with ghost state

`WP R G Q p σ` says that the thread `p`, started in the memory and ghost state `σ`, always returns,
performs only defined operations and ends in `Q`, while the other threads may at any moment take
any number of steps related by `R`; in return each of its own steps is related by `G`.  The ghost
state is chosen by the proof at every step and is no part of the program.

Termination is wait-freedom: `WP` is an inductive predicate, so a thread makes finitely many steps
whatever the others do in between.  `Solo.fork` composes the threads of a parallel block, and
`Solo.correct` turns the result into a statement about all interleavings.
-/

namespace Conc

open Relation

variable {S Γ Δ α β : Type}

/-- No interference related by `R` invalidates `P`. -/
def Stable (R : S × Γ → S × Γ → Prop) (P : S × Γ → Prop) : Prop :=
  ∀ σ τ, P σ → R σ τ → P τ

theorem Stable.star {R : S × Γ → S × Γ → Prop} {P : S × Γ → Prop} (h : Stable R P)
    {σ τ : S × Γ} (hσ : P σ) (hR : ReflTransGen R σ τ) : P τ := by
  induction hR with
  | refl => exact hσ
  | tail _ hstep ih => exact h _ _ ih hstep

theorem Stable.and {R : S × Γ → S × Γ → Prop} {P P' : S × Γ → Prop} (h : Stable R P)
    (h' : Stable R P') : Stable R fun σ => P σ ∧ P' σ :=
  fun σ τ hσ hR => ⟨h σ τ hσ.1 hR, h' σ τ hσ.2 hR⟩

/-- The thread `p` returns in `Q` under interference `R`, and its own steps keep to `G`. -/
inductive WP (R G : S × Γ → S × Γ → Prop) (Q : α → S × Γ → Prop) : Prog S α → S × Γ → Prop
  | intro {p : Prog S α} {σ : S × Γ} (ghost : S × Γ → Prog S α → S → Γ)
      (safe : ∀ τ, ReflTransGen R σ τ → ¬ p.Fails τ.1)
      (post : ∀ τ, ReflTransGen R σ τ → ∀ a, p = .ret a → Q a τ)
      (guar : ∀ τ, ReflTransGen R σ τ → ∀ q t, p.Step τ.1 q t →
        (t, ghost τ q t) = τ ∨ G τ (t, ghost τ q t))
      (next : ∀ τ, ReflTransGen R σ τ → ∀ q t, p.Step τ.1 q t → WP R G Q q (t, ghost τ q t)) :
      WP R G Q p σ

namespace WP

variable {R G : S × Γ → S × Γ → Prop} {Q : α → S × Γ → Prop}

/-- `WP` from a ghost update found at each step. -/
theorem of_steps {p : Prog S α} {σ : S × Γ}
    (h : ∀ τ, ReflTransGen R σ τ → ¬ p.Fails τ.1 ∧ (∀ a, p = .ret a → Q a τ) ∧
      ∀ q t, p.Step τ.1 q t → ∃ γ, ((t, γ) = τ ∨ G τ (t, γ)) ∧ WP R G Q q (t, γ)) :
    WP R G Q p σ := by
  classical
  have hγ : ∀ (τ : S × Γ) (q : Prog S α) (t : S), ∃ γ, ReflTransGen R σ τ → p.Step τ.1 q t →
      ((t, γ) = τ ∨ G τ (t, γ)) ∧ WP R G Q q (t, γ) := by
    intro τ q t
    by_cases hc : ReflTransGen R σ τ ∧ p.Step τ.1 q t
    · obtain ⟨γ, hγ⟩ := (h τ hc.1).2.2 q t hc.2
      exact ⟨γ, fun _ _ => hγ⟩
    · exact ⟨τ.2, fun h1 h2 => absurd ⟨h1, h2⟩ hc⟩
  choose ghost hghost using hγ
  exact .intro ghost (fun τ hτ => (h τ hτ).1) (fun τ hτ => (h τ hτ).2.1)
    (fun τ hτ q t hs => (hghost τ q t hτ hs).1) (fun τ hτ q t hs => (hghost τ q t hτ hs).2)

theorem step {p : Prog S α} {σ : S × Γ} (h : WP R G Q p σ) {τ : S × Γ} (hτ : ReflTransGen R σ τ)
    {q : Prog S α} {t : S} (hs : p.Step τ.1 q t) :
    ∃ γ, ((t, γ) = τ ∨ G τ (t, γ)) ∧ WP R G Q q (t, γ) := by
  obtain ⟨ghost, -, -, guar, next⟩ := h
  exact ⟨ghost τ q t, guar τ hτ q t hs, next τ hτ q t hs⟩

/-- Interference does not invalidate what is known about the rest of a thread. -/
theorem env {p : Prog S α} {σ τ : S × Γ} (h : WP R G Q p σ) (hR : ReflTransGen R σ τ) :
    WP R G Q p τ := by
  obtain ⟨ghost, safe, post, guar, next⟩ := h
  exact .intro ghost (fun υ hυ => safe υ (hR.trans hυ)) (fun υ hυ => post υ (hR.trans hυ))
    (fun υ hυ => guar υ (hR.trans hυ)) (fun υ hυ => next υ (hR.trans hυ))

theorem mono {p : Prog S α} {σ : S × Γ} {Q' : α → S × Γ → Prop} (h : WP R G Q p σ)
    (hQ : ∀ a τ, Q a τ → Q' a τ) : WP R G Q' p σ := by
  induction h with
  | intro ghost safe post guar _ ih =>
    exact .intro ghost safe (fun τ hτ a ha => hQ a τ (post τ hτ a ha)) guar ih

/-- A thread may be put where there is less interference or more is allowed. -/
theorem weaken {U V : S × Γ → S × Γ → Prop} {p : Prog S α} {σ : S × Γ} (h : WP R G Q p σ)
    (hR : ∀ σ τ, U σ τ → R σ τ) (hG : ∀ σ τ, G σ τ → V σ τ) : WP U V Q p σ := by
  induction h with
  | intro ghost safe post guar _ ih =>
    have hstar : ∀ {σ τ}, ReflTransGen U σ τ → ReflTransGen R σ τ := fun h => ReflTransGen.mono hR _ _ h
    exact .intro ghost (fun τ hτ => safe τ (hstar hτ)) (fun τ hτ => post τ (hstar hτ))
      (fun τ hτ q t hs => (guar τ (hstar hτ) q t hs).imp_right (hG _ _))
      (fun τ hτ q t hs => ih τ (hstar hτ) q t hs)

/-- What neither the thread nor the others destroy still holds at the end. -/
theorem frame {P : S × Γ → Prop} {p : Prog S α} {σ : S × Γ} (h : WP R G Q p σ) (hP : P σ)
    (hR : Stable R P) (hG : ∀ σ τ, P σ → G σ τ → P τ) :
    WP R G (fun a τ => Q a τ ∧ P τ) p σ := by
  induction h with
  | intro ghost safe post guar _ ih =>
    refine .intro ghost safe (fun τ hτ a ha => ⟨post τ hτ a ha, hR.star hP hτ⟩) guar ?_
    intro τ hτ q t hs
    have hPτ : P τ := hR.star hP hτ
    refine ih τ hτ q t hs ?_
    rcases guar τ hτ q t hs with heq | hA
    · rwa [heq]
    · exact hG _ _ hPτ hA

/-! ## Rules for the constructs of a thread -/

theorem ret {a : α} {σ : S × Γ} (hσ : Q a σ) (hst : Stable R (Q a)) : WP R G Q (.ret a) σ := by
  refine of_steps fun τ hτ => ⟨id, ?_, fun q t hs => hs.elim⟩
  rintro b ⟨⟩
  exact hst.star hσ hτ

theorem bind {p : Prog S β} {f : β → Prog S α} {σ : S × Γ}
    (h : WP R G (fun b τ => WP R G Q (f b) τ) p σ) : WP R G Q (p.bind f) σ := by
  induction h with
  | @intro p σ ghost safe post guar next ih =>
    cases p with
    | ret b => exact post σ .refl b rfl
    | atomic g k =>
      refine of_steps fun τ hτ => ⟨safe τ hτ, nofun, ?_⟩
      rintro q t ⟨b, hb, rfl⟩
      exact ⟨_, guar τ hτ _ t ⟨b, hb, rfl⟩, ih τ hτ _ t ⟨b, hb, rfl⟩⟩
    | choose d k =>
      refine of_steps fun τ hτ => ⟨safe τ hτ, nofun, ?_⟩
      rintro q t ⟨b, rfl, rfl⟩
      exact ⟨_, guar τ hτ _ _ ⟨b, rfl, rfl⟩, ih τ hτ _ _ ⟨b, rfl, rfl⟩⟩
    | loop body x k =>
      refine of_steps fun τ hτ => ⟨safe τ hτ, nofun, ?_⟩
      rintro q t ⟨rfl, rfl⟩
      refine ⟨_, guar τ hτ _ _ ⟨rfl, rfl⟩, ?_⟩
      have hnext := ih τ hτ _ _ ⟨rfl, rfl⟩
      rw [Prog.bind_assoc] at hnext
      have hunroll : (fun r => (Prog.unroll body k r).bind f) =
          Prog.unroll body fun b => (k b).bind f := by
        funext r
        cases r <;> rfl
      rwa [hunroll] at hnext
    | par ps k =>
      refine of_steps fun τ hτ => ⟨safe τ hτ, nofun, ?_⟩
      rintro q t (⟨i, p', hi, rfl⟩ | ⟨r, hr, rfl, rfl⟩)
      · exact ⟨_, guar τ hτ _ t (.inl ⟨i, p', hi, rfl⟩), ih τ hτ _ t (.inl ⟨i, p', hi, rfl⟩)⟩
      · exact ⟨_, guar τ hτ _ _ (.inr ⟨r, hr, rfl, rfl⟩), ih τ hτ _ _ (.inr ⟨r, hr, rfl, rfl⟩)⟩

/-- An atomic operation, from a stable assertion `P` that holds before it. -/
theorem op_bind {f : S → Option (β × S)} {k : β → Prog S α} {σ : S × Γ} {P : S × Γ → Prop}
    (hσ : P σ) (hst : Stable R P)
    (h : ∀ s γ, P (s, γ) → ∃ b t γ', f s = some (b, t) ∧
      ((t, γ') = (s, γ) ∨ G (s, γ) (t, γ')) ∧ WP R G Q (k b) (t, γ')) :
    WP R G Q ((Prog.op f).bind k) σ := by
  refine of_steps fun τ hτ => ?_
  obtain ⟨b, t, γ', hf, hG, hk⟩ := h τ.1 τ.2 (hst.star hσ hτ)
  refine ⟨?_, nofun, ?_⟩
  · change ¬ f τ.1 = none
    simp [hf]
  · rintro q u ⟨b', hb', rfl⟩
    obtain ⟨rfl, rfl⟩ := Prod.mk.inj (Option.some.inj (hf.symm.trans hb'))
    exact ⟨γ', hG, hk⟩

/-- An atomic operation at the end of a thread. -/
theorem op {f : S → Option (α × S)} {σ : S × Γ} {P : S × Γ → Prop} (hσ : P σ) (hst : Stable R P)
    (hQ : ∀ a, Stable R (Q a))
    (h : ∀ s γ, P (s, γ) → ∃ a t γ', f s = some (a, t) ∧
      ((t, γ') = (s, γ) ∨ G (s, γ) (t, γ')) ∧ Q a (t, γ')) :
    WP R G Q (Prog.op f) σ := by
  have hop := op_bind (f := f) (k := .ret) (G := G) (Q := Q) hσ hst fun s γ hP => by
    obtain ⟨a, t, γ', hf, hG, ha⟩ := h s γ hP
    exact ⟨a, t, γ', hf, hG, ret ha (hQ a)⟩
  exact hop

theorem store {upd : S → S} {Q : Unit → S × Γ → Prop} {σ : S × Γ} {P : S × Γ → Prop} (hσ : P σ)
    (hst : Stable R P) (hQ : ∀ a, Stable R (Q a))
    (h : ∀ s γ, P (s, γ) → ∃ γ', ((upd s, γ') = (s, γ) ∨ G (s, γ) (upd s, γ')) ∧
      Q () (upd s, γ')) :
    WP R G Q (Prog.store upd) σ :=
  op hσ hst hQ fun s γ hP => by
    obtain ⟨γ', hG, hk⟩ := h s γ hP
    exact ⟨(), upd s, γ', rfl, hG, hk⟩

theorem storeAt {upd : S → Option S} {Q : Unit → S × Γ → Prop} {σ : S × Γ} {P : S × Γ → Prop}
    (hσ : P σ) (hst : Stable R P) (hQ : ∀ a, Stable R (Q a))
    (h : ∀ s γ, P (s, γ) → ∃ t γ', upd s = some t ∧ ((t, γ') = (s, γ) ∨ G (s, γ) (t, γ')) ∧
      Q () (t, γ')) :
    WP R G Q (Prog.storeAt upd) σ :=
  op hσ hst hQ fun s γ hP => by
    obtain ⟨t, γ', ht, hG, hk⟩ := h s γ hP
    exact ⟨(), t, γ', by simp [ht], hG, hk⟩

theorem load_bind {get : S → β} {k : β → Prog S α} {σ : S × Γ} {P : S × Γ → Prop}
    (hσ : P σ) (hst : Stable R P) (h : ∀ s γ, P (s, γ) → WP R G Q (k (get s)) (s, γ)) :
    WP R G Q ((Prog.load get).bind k) σ :=
  op_bind hσ hst fun s γ hP => ⟨get s, s, γ, rfl, .inl rfl, h s γ hP⟩

theorem loadAt_bind {get : S → Option β} {k : β → Prog S α} {σ : S × Γ} {P : S × Γ → Prop}
    (hσ : P σ) (hst : Stable R P)
    (h : ∀ s γ, P (s, γ) → ∃ b, get s = some b ∧ WP R G Q (k b) (s, γ)) :
    WP R G Q ((Prog.loadAt get).bind k) σ :=
  op_bind hσ hst fun s γ hP => by
    obtain ⟨b, hb, hk⟩ := h s γ hP
    exact ⟨b, s, γ, by simp [hb], .inl rfl, hk⟩

theorem check_bind {C : S → Prop} [DecidablePred C] {k : Unit → Prog S α} {σ : S × Γ}
    {P : S × Γ → Prop} (hσ : P σ) (hst : Stable R P) (hC : ∀ s γ, P (s, γ) → C s)
    (h : ∀ s γ, P (s, γ) → WP R G Q (k ()) (s, γ)) : WP R G Q ((Prog.check C).bind k) σ :=
  loadAt_bind hσ hst fun s γ hP => ⟨(), if_pos (hC s γ hP), h s γ hP⟩

theorem store_bind {upd : S → S} {k : Unit → Prog S α} {σ : S × Γ} {P : S × Γ → Prop}
    (hσ : P σ) (hst : Stable R P)
    (h : ∀ s γ, P (s, γ) → ∃ γ', ((upd s, γ') = (s, γ) ∨ G (s, γ) (upd s, γ')) ∧
      WP R G Q (k ()) (upd s, γ')) :
    WP R G Q ((Prog.store upd).bind k) σ :=
  op_bind hσ hst fun s γ hP => by
    obtain ⟨γ', hG, hk⟩ := h s γ hP
    exact ⟨(), upd s, γ', rfl, hG, hk⟩

theorem storeAt_bind {upd : S → Option S} {k : Unit → Prog S α} {σ : S × Γ} {P : S × Γ → Prop}
    (hσ : P σ) (hst : Stable R P)
    (h : ∀ s γ, P (s, γ) → ∃ t γ', upd s = some t ∧ ((t, γ') = (s, γ) ∨ G (s, γ) (t, γ')) ∧
      WP R G Q (k ()) (t, γ')) :
    WP R G Q ((Prog.storeAt upd).bind k) σ :=
  op_bind hσ hst fun s γ hP => by
    obtain ⟨t, γ', ht, hG, hk⟩ := h s γ hP
    exact ⟨(), t, γ', by simp [ht], hG, hk⟩

theorem pick_bind {d : β} {k : β → Prog S α} {σ : S × Γ}
    (h : ∀ b, WP R G Q (k b) σ) : WP R G Q ((Prog.pick d).bind k) σ := by
  refine of_steps fun τ hτ => ⟨id, nofun, ?_⟩
  rintro q t ⟨b, rfl, rfl⟩
  exact ⟨τ.2, .inl rfl, (h b).env hτ⟩

/-- `while`, from an invariant of the local state and a measure that interference cannot increase
and that each turn decreases. -/
theorem iter_bind {σ W : Type} [Preorder W] [WellFoundedLT W] {body : σ → Prog S (σ ⊕ β)} {x : σ}
    {k : β → Prog S α} {υ : S × Γ} (Inv : σ → S × Γ → Prop) (μ : σ → S × Γ → W)
    (hx : Inv x υ) (hst : ∀ y, Stable R (Inv y))
    (hμ : ∀ y τ τ', Inv y τ → R τ τ' → μ y τ' ≤ μ y τ)
    (hbody : ∀ y τ, Inv y τ → WP R G (fun r τ' => match r with
      | .inl z => Inv z τ' ∧ μ z τ' < μ y τ
      | .inr b => WP R G Q (k b) τ') (body y) τ) :
    WP R G Q ((Prog.iter body x).bind k) υ := by
  have main : ∀ w y τ, Inv y τ → μ y τ ≤ w → WP R G Q (Prog.loop body y k) τ := by
    intro w
    induction w using WellFoundedLT.induction with
    | ind w ih =>
      intro y τ hy hw
      have hinv : ∀ υ, ReflTransGen R τ υ → Inv y υ ∧ μ y υ ≤ w := by
        intro υ hυ
        induction hυ with
        | refl => exact ⟨hy, hw⟩
        | tail _ hR ih => exact ⟨hst y _ _ ih.1 hR, (hμ y _ _ ih.1 hR).trans ih.2⟩
      refine of_steps fun υ hυ => ⟨id, nofun, ?_⟩
      rintro q t ⟨rfl, rfl⟩
      refine ⟨υ.2, .inl rfl, bind ((hbody y υ (hinv υ hυ).1).mono ?_)⟩
      rintro (z | b) τ' h
      · exact ih (μ z τ') (h.2.trans_le (hinv υ hυ).2) z τ' h.1 le_rfl
      · exact h
  exact main _ x υ hx le_rfl

theorem iter {σ W : Type} [Preorder W] [WellFoundedLT W] {body : σ → Prog S (σ ⊕ α)} {x : σ}
    {υ : S × Γ} (Inv : σ → S × Γ → Prop) (μ : σ → S × Γ → W)
    (hx : Inv x υ) (hst : ∀ y, Stable R (Inv y)) (hQ : ∀ a, Stable R (Q a))
    (hμ : ∀ y τ τ', Inv y τ → R τ τ' → μ y τ' ≤ μ y τ)
    (hbody : ∀ y τ, Inv y τ → WP R G (fun r τ' => match r with
      | .inl z => Inv z τ' ∧ μ z τ' < μ y τ
      | .inr a => Q a τ') (body y) τ) :
    WP R G Q (Prog.iter body x) υ := by
  have h := iter_bind (G := G) (Q := Q) (k := .ret) Inv μ hx hst hμ fun y τ hy =>
    (hbody y τ hy).mono fun r τ' h => by
      rcases r with z | a
      · exact h
      · exact ret (Q := Q) h (hQ a)
  exact h

/-- `for b in l`, from an invariant indexed by the elements already processed. -/
theorem forEach {σ : Type} {l : List β} {x : σ} {body : β → σ → Prog S σ} {υ : S × Γ}
    (Inv : List β → σ → S × Γ → Prop) (hx : Inv [] x υ)
    (hst : ∀ l y, Stable R (Inv l y))
    (hbody : ∀ pre b post y τ, l = pre ++ b :: post → Inv pre y τ →
      WP R G (fun z τ' => Inv (pre ++ [b]) z τ') (body b y) τ) :
    WP R G (fun y τ => Inv l y τ) (Prog.forEach l x body) υ := by
  suffices h : ∀ post pre y τ, l = pre ++ post → Inv pre y τ →
      WP R G (fun y τ => Inv l y τ) (Prog.forEach post y body) τ from h l [] x υ rfl hx
  intro post
  induction post with
  | nil =>
    intro pre y τ hl hy
    rw [List.append_nil] at hl
    subst hl
    exact ret hy (hst _ _)
  | cons b post ih =>
    intro pre y τ hl hy
    refine bind ((hbody pre b post y τ hl hy).mono fun z τ' hz => ?_)
    exact ih (pre ++ [b]) z τ' (by simp [hl]) hz

/-- `for b in l` with a `break`. -/
theorem forBreak {σ ρ : Type} {l : List β} {x : σ} {body : β → σ → Prog S (σ ⊕ ρ)} {υ : S × Γ}
    (Inv : List β → σ → S × Γ → Prop) (Brk : ρ → S × Γ → Prop) (hx : Inv [] x υ)
    (hst : ∀ l y, Stable R (Inv l y)) (hbrk : ∀ r, Stable R (Brk r))
    (hbody : ∀ pre b post y τ, l = pre ++ b :: post → Inv pre y τ →
      WP R G (fun r τ' => match r with
        | .inl z => Inv (pre ++ [b]) z τ'
        | .inr r => Brk r τ') (body b y) τ) :
    WP R G (fun r τ => match r with
      | .inl y => Inv l y τ
      | .inr r => Brk r τ) (Prog.forBreak l x body) υ := by
  suffices h : ∀ post pre y τ, l = pre ++ post → Inv pre y τ →
      WP R G (fun r τ => match r with
        | .inl y => Inv l y τ
        | .inr r => Brk r τ) (Prog.forBreak post y body) τ from h l [] x υ rfl hx
  intro post
  induction post with
  | nil =>
    intro pre y τ hl hy
    rw [List.append_nil] at hl
    subst hl
    exact ret hy (hst _ _)
  | cons b post ih =>
    intro pre y τ hl hy
    refine bind ((hbody pre b post y τ hl hy).mono ?_)
    rintro (z | r) τ' hz
    · exact ih (pre ++ [b]) z τ' (by simp [hl]) hz
    · exact ret hz (hbrk r)

end WP

/-! ## Threads that run alone -/

/-- `p` runs without interference, always returns and ends in `Q`. -/
def Solo (p : Prog S α) (s : S) (Q : α → S → Prop) : Prop :=
  WP (Γ := Unit) (fun _ _ => False) (fun _ _ => True) (fun a σ => Q a σ.1) p (s, ())

theorem stable_false (P : S × Γ → Prop) : Stable (fun _ _ => False) P :=
  fun _ _ _ h => h.elim

namespace Solo

variable {p : Prog S α} {s : S} {Q : α → S → Prop}

theorem mono {Q' : α → S → Prop} (h : Solo p s Q) (hQ : ∀ a t, Q a t → Q' a t) : Solo p s Q' :=
  WP.mono h fun a τ => hQ a τ.1

theorem ret {a : α} (h : Q a s) : Solo (.ret a) s Q :=
  WP.ret h (stable_false _)

theorem bind {q : Prog S β} {f : β → Prog S α} (h : Solo q s fun b t => Solo (f b) t Q) :
    Solo (q.bind f) s Q :=
  WP.bind h

theorem op_bind {f : S → Option (β × S)} {k : β → Prog S α} {b : β} {t : S}
    (hf : f s = some (b, t)) (h : Solo (k b) t Q) : Solo ((Prog.op f).bind k) s Q := by
  refine WP.op_bind (P := fun σ => σ = (s, ())) rfl (stable_false _) ?_
  rintro _ _ ⟨⟩
  exact ⟨b, t, (), hf, .inr trivial, h⟩

theorem op {f : S → Option (α × S)} {a : α} {t : S} (hf : f s = some (a, t)) (h : Q a t) :
    Solo (Prog.op f) s Q := by
  have hop := op_bind (f := f) (k := .ret) hf (ret h)
  exact hop

theorem load_bind {get : S → β} {k : β → Prog S α} (h : Solo (k (get s)) s Q) :
    Solo ((Prog.load get).bind k) s Q :=
  op_bind rfl h

theorem loadAt_bind {get : S → Option β} {k : β → Prog S α} {b : β} (hb : get s = some b)
    (h : Solo (k b) s Q) : Solo ((Prog.loadAt get).bind k) s Q :=
  op_bind (by simp [hb]) h

theorem loadAt {get : S → Option α} {a : α} (ha : get s = some a) (h : Q a s) :
    Solo (Prog.loadAt get) s Q :=
  op (by simp [ha]) h

theorem check_bind {C : S → Prop} [DecidablePred C] {k : Unit → Prog S α} (hC : C s)
    (h : Solo (k ()) s Q) : Solo ((Prog.check C).bind k) s Q :=
  loadAt_bind (if_pos hC) h

theorem store {upd : S → S} {Q : Unit → S → Prop} (h : Q () (upd s)) : Solo (Prog.store upd) s Q :=
  op rfl h

theorem store_bind {upd : S → S} {k : Unit → Prog S α} (h : Solo (k ()) (upd s) Q) :
    Solo ((Prog.store upd).bind k) s Q :=
  op_bind rfl h

theorem storeAt {upd : S → Option S} {Q : Unit → S → Prop} {t : S} (ht : upd s = some t)
    (h : Q () t) : Solo (Prog.storeAt upd) s Q :=
  op (by simp [ht]) h

theorem storeAt_bind {upd : S → Option S} {k : Unit → Prog S α} {t : S} (ht : upd s = some t)
    (h : Solo (k ()) t Q) : Solo ((Prog.storeAt upd).bind k) s Q :=
  op_bind (by simp [ht]) h

theorem pick_bind {d : β} {k : β → Prog S α} (h : ∀ b, Solo (k b) s Q) :
    Solo ((Prog.pick d).bind k) s Q :=
  WP.pick_bind h

/-- `while`, from an invariant and a measure that each turn decreases. -/
theorem iter_bind {σ W : Type} [Preorder W] [WellFoundedLT W] {body : σ → Prog S (σ ⊕ β)} {x : σ}
    {k : β → Prog S α} (Inv : σ → S → Prop) (μ : σ → S → W) (hx : Inv x s)
    (hbody : ∀ y t, Inv y t → Solo (body y) t fun r t' => match r with
      | .inl z => Inv z t' ∧ μ z t' < μ y t
      | .inr b => Solo (k b) t' Q) :
    Solo ((Prog.iter body x).bind k) s Q := by
  refine WP.iter_bind (fun y σ => Inv y σ.1) (fun y σ => μ y σ.1) hx (fun _ => stable_false _)
    (fun _ _ _ _ h => h.elim) fun y τ hy => WP.mono (hbody y τ.1 hy) ?_
  rintro (z | b) t h <;> exact h

theorem iter {σ W : Type} [Preorder W] [WellFoundedLT W] {body : σ → Prog S (σ ⊕ α)} {x : σ}
    (Inv : σ → S → Prop) (μ : σ → S → W) (hx : Inv x s)
    (hbody : ∀ y t, Inv y t → Solo (body y) t fun r t' => match r with
      | .inl z => Inv z t' ∧ μ z t' < μ y t
      | .inr a => Q a t') :
    Solo (Prog.iter body x) s Q := by
  have hloop := iter_bind (Q := Q) (k := .ret) Inv μ hx fun y t hy => (hbody y t hy).mono fun r t' h => by
    rcases r with z | a
    · exact h
    · exact ret h
  exact hloop

/-- `for b in l`, from an invariant indexed by the elements already processed. -/
theorem forEach {σ : Type} {l : List β} {x : σ} {body : β → σ → Prog S σ}
    (Inv : List β → σ → S → Prop) (hx : Inv [] x s)
    (hbody : ∀ pre b post y t, l = pre ++ b :: post → Inv pre y t →
      Solo (body b y) t fun z t' => Inv (pre ++ [b]) z t') :
    Solo (Prog.forEach l x body) s fun y t => Inv l y t :=
  WP.forEach (fun l y σ => Inv l y σ.1) hx (fun _ _ => stable_false _)
    fun pre b post y τ hl hy => hbody pre b post y τ.1 hl hy

/-- `for b in l` with a `break`. -/
theorem forBreak {σ ρ : Type} {l : List β} {x : σ} {body : β → σ → Prog S (σ ⊕ ρ)}
    (Inv : List β → σ → S → Prop) (Brk : ρ → S → Prop) (hx : Inv [] x s)
    (hbody : ∀ pre b post y t, l = pre ++ b :: post → Inv pre y t →
      Solo (body b y) t fun r t' => match r with
        | .inl z => Inv (pre ++ [b]) z t'
        | .inr r => Brk r t') :
    Solo (Prog.forBreak l x body) s fun r t => match r with
      | .inl y => Inv l y t
      | .inr r => Brk r t := by
  have hloop := WP.forBreak (υ := (s, ())) (R := fun _ _ => False) (G := fun _ _ => True)
    (fun l y σ => Inv l y σ.1) (fun r σ => Brk r σ.1) hx (fun _ _ => stable_false _)
    (fun _ => stable_false _) fun pre b post y τ hl hy =>
      WP.mono (hbody pre b post y τ.1 hl hy) fun r _ h => by cases r <;> exact h
  exact WP.mono hloop fun r _ h => by cases r <;> exact h

theorem reach (h : Solo p s Q) {q : Prog S α} {t : S} (hr : Prog.Reach (p, s) (q, t)) :
    Solo q t Q := by
  generalize hd : (q, t) = d at hr
  induction hr generalizing q t with
  | refl =>
    obtain ⟨rfl, rfl⟩ := Prod.mk.inj hd
    exact h
  | @tail c e _ hstep ih =>
    obtain ⟨rfl, rfl⟩ := Prod.mk.inj hd.symm
    obtain ⟨⟨⟩, -, hw⟩ := WP.step (ih rfl) .refl hstep
    exact hw

/-- Adequacy: what is proved about a program that runs alone holds of all its interleavings. -/
theorem correct (h : Solo p s Q) : p.Correct s Q where
  terminates := by
    have acc : ∀ (q : Prog S α) (σ : S × Unit), WP (Γ := Unit) (fun _ _ => False)
        (fun _ _ => True) (fun a σ => Q a σ.1) q σ → Acc (fun d c => Prog.Next c d) (q, σ.1) := by
      intro q σ hw
      induction hw with
      | @intro q σ ghost _ _ _ _ ih => exact ⟨_, fun d hd => ih σ .refl d.1 d.2 hd⟩
    exact acc p (s, ()) h
  safe q t hr := by
    obtain ⟨ghost, safe, -, -, -⟩ := h.reach hr
    exact safe _ .refl
  result a t hr := by
    obtain ⟨ghost, -, post, -, -⟩ := h.reach hr
    exact post _ .refl a rfl

end Solo

/-! ## Parallel composition -/

/-- `WP` with an ordinal that decreases at every step of the thread. -/
def Ranked (R G : S × Γ → S × Γ → Prop) (Q : α → S × Γ → Prop) (o : Ordinal.{1}) (p : Prog S α)
    (σ : S × Γ) : Prop :=
  ∀ τ, ReflTransGen R σ τ → ¬ p.Fails τ.1 ∧ (∀ a, p = .ret a → Q a τ) ∧
    ∀ q t, p.Step τ.1 q t → ∃ γ, ((t, γ) = τ ∨ G τ (t, γ)) ∧
      ∃ o', ∃ _ : o' < o, Ranked R G Q o' q (t, γ)
termination_by o

theorem Ranked.env {R G : S × Γ → S × Γ → Prop} {Q : α → S × Γ → Prop} {o : Ordinal.{1}}
    {p : Prog S α} {σ τ : S × Γ} (h : Ranked R G Q o p σ) (hR : ReflTransGen R σ τ) :
    Ranked R G Q o p τ := by
  rw [Ranked] at h ⊢
  exact fun υ hυ => h υ (hR.trans hυ)

theorem WP.ranked {R G : S × Γ → S × Γ → Prop} {Q : α → S × Γ → Prop} {p : Prog S α}
    {σ : S × Γ} (h : WP R G Q p σ) : ∃ o, Ranked R G Q o p σ := by
  induction h with
  | @intro p σ ghost safe post guar next ih =>
    let Succ : Type 1 := { x : (S × Γ) × Prog S α × S // ReflTransGen R σ x.1 ∧ p.Step x.1.1 x.2.1 x.2.2 }
    choose rank hrank using fun x : Succ => ih x.1.1 x.2.1 x.1.2.1 x.1.2.2 x.2.2
    refine ⟨⨆ x, Order.succ (rank x), ?_⟩
    rw [Ranked]
    refine fun τ hτ => ⟨safe τ hτ, post τ hτ, fun q t hs => ⟨_, guar τ hτ q t hs, ?_⟩⟩
    let x : Succ := ⟨(τ, q, t), hτ, hs⟩
    have hle : Order.succ (rank x) ≤ ⨆ y, Order.succ (rank y) :=
      Ordinal.le_iSup.{1, 1} (fun y => Order.succ (rank y)) x
    exact ⟨rank x, (Order.lt_succ _).trans_le hle, hrank x⟩

/-- What the other threads may do, when thread `j` keeps to `A j`. -/
def Rely {n : Nat} (A : Fin n → S × Γ → S × Γ → Prop) (i : Fin n) (σ τ : S × Γ) : Prop :=
  ∃ j, j ≠ i ∧ A j σ τ

theorem Stable.rely {n : Nat} {A : Fin n → S × Γ → S × Γ → Prop} {i : Fin n}
    {P : S × Γ → Prop} (h : ∀ j, j ≠ i → ∀ σ τ, P σ → A j σ τ → P τ) : Stable (Rely A i) P :=
  fun σ τ hσ ⟨j, hj, hA⟩ => h j hj σ τ hσ hA

/-- `p` runs without interference, always returns and ends in `Q`, and each of its steps is one of `A`. -/
def Within (A : S → S → Prop) (p : Prog S α) (s : S) (Q : α → S → Prop) : Prop :=
  WP (Γ := Unit) (fun _ _ => False) (fun σ τ => A σ.1 τ.1) (fun a σ => Q a σ.1) p (s, ())

namespace Within

variable {A : S → S → Prop} {p : Prog S α} {s : S} {Q : α → S → Prop}

theorem solo (h : Within A p s Q) : Solo p s Q :=
  WP.weaken h (fun _ _ hR => hR) fun _ _ _ => trivial

theorem mono {Q' : α → S → Prop} (h : Within A p s Q) (hQ : ∀ a t, Q a t → Q' a t) : Within A p s Q' :=
  WP.mono h fun a τ => hQ a τ.1

theorem ret {a : α} (h : Q a s) : Within A (.ret a) s Q :=
  WP.ret h (stable_false _)

theorem bind {q : Prog S β} {f : β → Prog S α} (h : Within A q s fun b t => Within A (f b) t Q) :
    Within A (q.bind f) s Q :=
  WP.bind h

theorem op_bind {f : S → Option (β × S)} {k : β → Prog S α} {b : β} {t : S} (hf : f s = some (b, t))
    (hA : t = s ∨ A s t) (h : Within A (k b) t Q) : Within A ((Prog.op f).bind k) s Q := by
  refine WP.op_bind (P := fun σ => σ = (s, ())) rfl (stable_false _) ?_
  rintro _ _ ⟨⟩
  exact ⟨b, t, (), hf, hA.imp_left fun heq => congrArg (·, ()) heq, h⟩

theorem load_bind {get : S → β} {k : β → Prog S α} (h : Within A (k (get s)) s Q) :
    Within A ((Prog.load get).bind k) s Q :=
  op_bind rfl (.inl rfl) h

theorem load {get : S → α} (h : Q (get s) s) : Within A (Prog.load get) s Q :=
  load_bind (k := .ret) (ret h)

theorem loadAt_bind {get : S → Option β} {k : β → Prog S α} {b : β} (hb : get s = some b)
    (h : Within A (k b) s Q) : Within A ((Prog.loadAt get).bind k) s Q :=
  op_bind (by simp [hb]) (.inl rfl) h

theorem store_bind {upd : S → S} {k : Unit → Prog S α} (hA : A s (upd s))
    (h : Within A (k ()) (upd s) Q) : Within A ((Prog.store upd).bind k) s Q :=
  op_bind rfl (.inr hA) h

theorem storeAt_bind {upd : S → Option S} {k : Unit → Prog S α} {t : S} (ht : upd s = some t)
    (hA : A s t) (h : Within A (k ()) t Q) : Within A ((Prog.storeAt upd).bind k) s Q :=
  op_bind (by simp [ht]) (.inr hA) h

theorem pick_bind {d : β} {k : β → Prog S α} (h : ∀ b, Within A (k b) s Q) :
    Within A ((Prog.pick d).bind k) s Q :=
  WP.pick_bind h

/-- `while`, from an invariant and a measure that each turn decreases. -/
theorem iter_bind {σ W : Type} [Preorder W] [WellFoundedLT W] {body : σ → Prog S (σ ⊕ β)} {x : σ}
    {k : β → Prog S α} (Inv : σ → S → Prop) (μ : σ → S → W) (hx : Inv x s)
    (hbody : ∀ y t, Inv y t → Within A (body y) t fun r t' => match r with
      | .inl z => Inv z t' ∧ μ z t' < μ y t
      | .inr b => Within A (k b) t' Q) :
    Within A ((Prog.iter body x).bind k) s Q := by
  refine WP.iter_bind (fun y σ => Inv y σ.1) (fun y σ => μ y σ.1) hx (fun _ => stable_false _)
    (fun _ _ _ _ h => h.elim) fun y τ hy => WP.mono (hbody y τ.1 hy) ?_
  rintro (z | b) t h <;> exact h

end Within

/-- Threads that keep to their actions compose: the block ends with all their postconditions, and an
invariant `J` of them all shows that each of the actions is one of `B`. -/
theorem Within.fork {n : Nat} {ps : Fin n → Prog S β} {s : S} {B : S → S → Prop} (hB : ∀ s, B s s)
    (A : Fin n → S × Δ → S × Δ → Prop) (Q : Fin n → β → S × Δ → Prop) (J : S × Δ → Prop) (δ : Δ)
    (hJ : J (s, δ)) (h : ∀ i, WP (Rely A i) (A i) (Q i) (ps i) (s, δ))
    (hact : ∀ i σ τ, J σ → A i σ τ → J τ ∧ B σ.1 τ.1) :
    Within B (Prog.fork ps) s fun r t => ∃ δ, J (t, δ) ∧ ∀ i, Q i (r i) (t, δ) := by
  have main : ∀ (o : Fin n → Ordinal.{1}) (ps : Fin n → Prog S β) (s : S) (δ : Δ), J (s, δ) →
      (∀ i, Ranked (Rely A i) (A i) (Q i) (o i) (ps i) (s, δ)) →
      Within B (Prog.fork ps) s fun r t => ∃ δ, J (t, δ) ∧ ∀ i, Q i (r i) (t, δ) := by
    intro o
    induction o using WellFoundedLT.induction with
    | ind o ih =>
      intro ps s δ hJ hps
      refine WP.of_steps fun τ hτ => ?_
      have hτs : τ = (s, ()) := by
        rcases ReflTransGen.cases_head hτ with h | ⟨_, h, _⟩
        · exact h.symm
        · exact h.elim
      subst hτs
      refine ⟨?_, nofun, ?_⟩
      · rintro ⟨i, hi⟩
        have hr := hps i
        rw [Ranked] at hr
        exact (hr _ .refl).1 hi
      · rintro q t (⟨i, p, hi, rfl⟩ | ⟨r, hr, rfl, rfl⟩)
        · -- thread `i` moves: its rank drops, the others see interference only
          have hri := hps i
          rw [Ranked] at hri
          obtain ⟨δ', hA, o', ho', hp⟩ := (hri _ .refl).2.2 p t hi
          have hkept : J (t, δ') ∧ B s t := by
            rcases hA with heq | hA
            · obtain ⟨rfl, rfl⟩ := Prod.mk.inj heq
              exact ⟨hJ, hB _⟩
            · exact hact i _ _ hJ hA
          refine ⟨(), .inr hkept.2, ih (Function.update o i o') ?_ _ t δ' hkept.1 fun j => ?_⟩
          · exact update_lt_self_iff.mpr ho'
          · by_cases hj : j = i
            · subst hj
              simpa using hp
            · rw [Function.update_of_ne hj, Function.update_of_ne hj]
              rcases hA with heq | hA
              · exact heq ▸ hps j
              · exact (hps j).env (.single ⟨i, Ne.symm hj, hA⟩)
        · refine ⟨(), .inl rfl, WP.ret ⟨δ, hJ, fun i => ?_⟩ (stable_false _)⟩
          have hri := hps i
          rw [Ranked] at hri
          exact (hri _ .refl).2.1 (r i) (hr i)
  choose o ho using fun i => (h i).ranked
  exact main o ps s δ hJ ho

/-- The special case without an invariant. -/
theorem Solo.fork {n : Nat} {ps : Fin n → Prog S β} {s : S} (A : Fin n → S × Δ → S × Δ → Prop)
    (Q : Fin n → β → S × Δ → Prop) (δ : Δ)
    (h : ∀ i, WP (Rely A i) (A i) (Q i) (ps i) (s, δ)) :
    Solo (Prog.fork ps) s fun r t => ∃ δ, ∀ i, Q i (r i) (t, δ) := by
  have hfork := Within.fork (B := fun _ _ => True) (fun _ => trivial) A Q (fun _ => True) δ trivial h
    fun _ _ _ _ _ => ⟨trivial, trivial⟩
  exact WP.mono hfork fun _ _ ⟨δ, _, hQ⟩ => ⟨δ, hQ⟩

end Conc
