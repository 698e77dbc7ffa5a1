import Gapbs.Conc.Logic

/-!
# Parts of the memory

A `Lens S A` picks a part of type `A` out of a memory of type `S`.  A program over the part runs on
the whole memory by `zoom`, and what is proved about it there holds here.
-/

namespace Conc

/-- A part of the memory, with the laws of reading and writing it. -/
structure Lens (S A : Type) where
  get : S → A
  set : A → S → S
  get_set : ∀ a s, get (set a s) = a
  set_get : ∀ s, set (get s) s = s
  set_set : ∀ a b s, set b (set a s) = set b s

attribute [simp] Lens.get_set Lens.set_get Lens.set_set

variable {S A α β : Type}

namespace Prog

/-- Run a program over a part of the memory on the whole memory. -/
def zoom (l : Lens S A) : {α : Type} → Prog A α → Prog S α
  | _, ret a => ret a
  | _, atomic f k => atomic (fun s => (f (l.get s)).map fun r => (r.1, l.set r.2 s))
      fun b => (k b).zoom l
  | _, choose d k => choose d fun b => (k b).zoom l
  | _, loop body x k => loop (fun y => (body y).zoom l) x fun b => (k b).zoom l
  | _, par ps k => par (fun i => (ps i).zoom l) fun r => (k r).zoom l

@[simp] theorem zoom_ret (l : Lens S A) (a : α) : (ret a : Prog A α).zoom l = ret a := rfl

@[simp] theorem zoom_atomic (l : Lens S A) (f : A → Option (β × A)) (k : β → Prog A α) :
    (atomic f k).zoom l = atomic (fun s => (f (l.get s)).map fun r => (r.1, l.set r.2 s))
      fun b => (k b).zoom l := rfl

@[simp] theorem zoom_choose (l : Lens S A) (d : β) (k : β → Prog A α) :
    (choose d k).zoom l = choose d fun b => (k b).zoom l := rfl

@[simp] theorem zoom_loop (l : Lens S A) {σ : Type} (body : σ → Prog A (σ ⊕ β)) (x : σ)
    (k : β → Prog A α) :
    (loop body x k).zoom l = loop (fun y => (body y).zoom l) x fun b => (k b).zoom l := rfl

@[simp] theorem zoom_par (l : Lens S A) {n : Nat} (ps : Fin n → Prog A β)
    (k : (Fin n → β) → Prog A α) :
    (par ps k).zoom l = par (fun i => (ps i).zoom l) fun r => (k r).zoom l := rfl

theorem zoom_bind (l : Lens S A) (p : Prog A α) (f : α → Prog A β) :
    (p.bind f).zoom l = (p.zoom l).bind fun a => (f a).zoom l := by
  induction p with
  | ret a => rfl
  | atomic g k ih => simp only [bind, zoom_atomic, ih]
  | choose d k ih => simp only [bind, zoom_choose, ih]
  | loop body x k _ ih => simp only [bind, zoom_loop, ih]
  | par ps k _ ih => simp only [bind, zoom_par, ih]

theorem zoom_eq_ret {l : Lens S A} {p : Prog A α} {a : α} (h : p.zoom l = ret a) : p = ret a := by
  cases p <;> simp_all

theorem fails_zoom {l : Lens S A} {p : Prog A α} {s : S} (h : (p.zoom l).Fails s) :
    p.Fails (l.get s) := by
  induction p with
  | ret a => exact h
  | atomic f k _ => simpa [Fails] using h
  | choose d k _ => exact h
  | loop body x k _ _ => exact h
  | par ps k ih _ =>
    obtain ⟨i, hi⟩ := h
    exact ⟨i, ih i hi⟩

/-- The steps of a program on a part of the memory are its steps on the part. -/
theorem step_zoom {l : Lens S A} {p : Prog A α} {s t : S} {q : Prog S α}
    (h : (p.zoom l).Step s q t) :
    ∃ p' a, p.Step (l.get s) p' a ∧ q = p'.zoom l ∧ t = l.set a s := by
  induction p with
  | ret a => exact h.elim
  | atomic f k _ =>
    obtain ⟨b, hb, rfl⟩ := h
    obtain ⟨r, hr, heq⟩ := Option.map_eq_some_iff.mp hb
    obtain ⟨rfl, rfl⟩ := Prod.mk.inj heq
    exact ⟨k r.1, r.2, ⟨r.1, hr, rfl⟩, rfl, rfl⟩
  | choose d k _ =>
    obtain ⟨b, rfl, rfl⟩ := h
    exact ⟨k b, l.get t, ⟨b, rfl, rfl⟩, rfl, (l.set_get t).symm⟩
  | loop body x k _ _ =>
    obtain ⟨rfl, rfl⟩ := h
    refine ⟨(body x).bind (unroll body k), l.get t, ⟨rfl, rfl⟩, ?_, (l.set_get t).symm⟩
    rw [zoom_bind]
    congr 1
    funext r
    cases r <;> rfl
  | par ps k ih _ =>
    rcases h with ⟨i, q', hi, rfl⟩ | ⟨r, hr, rfl, rfl⟩
    · obtain ⟨p', a, hp, rfl, rfl⟩ := ih i hi
      refine ⟨par (Function.update ps i p') k, a, .inl ⟨i, p', hp, rfl⟩, ?_, rfl⟩
      rw [zoom_par]
      congr 1
      funext j
      by_cases hj : j = i
      · subst hj
        simp
      · simp [hj]
    · refine ⟨k r, l.get t, .inr ⟨r, fun i => ?_, rfl, rfl⟩, rfl, (l.set_get t).symm⟩
      exact zoom_eq_ret (hr i)

theorem Step.zoom {l : Lens S A} {p q : Prog A α} {s : S} {a : A} (h : p.Step (l.get s) q a) :
    (p.zoom l).Step s (q.zoom l) (l.set a s) := by
  induction p with
  | ret a => exact h.elim
  | atomic f k _ =>
    obtain ⟨b, hb, rfl⟩ := h
    exact ⟨b, congrArg (Option.map fun r => (r.1, l.set r.2 s)) hb, rfl⟩
  | choose d k _ =>
    obtain ⟨b, rfl, rfl⟩ := h
    exact ⟨b, rfl, l.set_get s⟩
  | loop body x k _ _ =>
    obtain ⟨rfl, rfl⟩ := h
    refine ⟨?_, l.set_get s⟩
    rw [zoom_bind]
    congr 1
    funext r
    cases r <;> rfl
  | par ps k ih _ =>
    rcases h with ⟨i, p', hi, rfl⟩ | ⟨r, hr, rfl, rfl⟩
    · refine .inl ⟨i, p'.zoom l, ih i hi, ?_⟩
      rw [zoom_par]
      congr 1
      funext j
      by_cases hj : j = i
      · subst hj
        simp
      · simp [hj]
    · exact .inr ⟨r, fun i => congrArg (Prog.zoom l) (hr i), rfl, l.set_get s⟩

theorem Fails.zoom {l : Lens S A} {p : Prog A α} {s : S} (h : p.Fails (l.get s)) :
    (p.zoom l).Fails s := by
  induction p with
  | ret a => exact h
  | atomic f k _ =>
    change (f (l.get s)).map _ = none
    rw [show f (l.get s) = none from h]
    rfl
  | choose d k _ => exact h
  | loop body x k _ _ => exact h
  | par ps k ih _ =>
    obtain ⟨i, hi⟩ := h
    exact ⟨i, ih i hi⟩

theorem CanFail.zoom {l : Lens S A} {p : Prog A α} {s : S} (h : p.CanFail (l.get s)) :
    (p.zoom l).CanFail s := by
  obtain ⟨q, a, hr, hf⟩ := h
  have main : ∀ c d : Prog A α × A, Reach c d → ∀ t, l.get t = c.2 →
      Reach (c.1.zoom l, t) (d.1.zoom l, l.set d.2 t) := by
    intro c d hcd
    induction hcd using Relation.ReflTransGen.head_induction_on with
    | refl =>
      intro t ht
      rw [← ht, l.set_get]
    | @head c e hstep _ ih =>
      intro t ht
      have hnext : c.1.Step (l.get t) e.1 e.2 := by
        rw [ht]
        exact hstep
      have hfirst := Step.zoom hnext
      have hrest := ih _ (l.get_set _ t)
      rw [l.set_set] at hrest
      exact .head (b := (e.1.zoom l, l.set e.2 t)) hfirst hrest
  refine ⟨_, _, main _ _ hr s rfl, Fails.zoom ?_⟩
  rwa [l.get_set]

end Prog

namespace Lens

variable {B : Type}

/-- The whole memory. -/
def id : Lens S S where
  get s := s
  set a _ := a
  get_set _ _ := rfl
  set_get _ := rfl
  set_set _ _ _ := rfl

/-- Nothing of the memory. -/
def unit : Lens S Unit where
  get _ := ()
  set _ s := s
  get_set _ _ := rfl
  set_get _ := rfl
  set_set _ _ _ := rfl

/-- A part of each of two memories. -/
def prod (l : Lens S A) {T : Type} (g : Lens T B) : Lens (S × T) (A × B) where
  get s := (l.get s.1, g.get s.2)
  set a s := (l.set a.1 s.1, g.set a.2 s.2)
  get_set _ _ := by simp
  set_get _ := by simp
  set_set _ _ _ := by simp

end Lens

theorem Prog.zoom_id (p : Prog S α) : p.zoom Lens.id = p := by
  induction p with
  | ret a => rfl
  | atomic f k ih =>
    simp only [zoom_atomic, ih]
    congr 1
    funext s
    exact Option.map_id' (x := f s)
  | choose d k ih => simp only [zoom_choose, ih]
  | loop body x k ihbody ih => simp only [zoom_loop, ihbody, ih]
  | par ps k ihps ih => simp only [zoom_par, ihps, ih]

section

variable {Γ Δ : Type} {R G : S × Γ → S × Γ → Prop} {R' G' : A × Δ → A × Δ → Prop}

/-- A thread that works on parts of the memory and of the ghost state.  `P` is what is known about
the whole besides: the others keep it, and so does every step of the thread on its part. -/
theorem WP.zoom (l : Lens S A) (g : Lens Γ Δ) {P : S × Γ → Prop} {p : Prog A α}
    {Q : α → A × Δ → Prop} {σ : S × Γ} (h : WP R' G' Q p ((l.prod g).get σ)) (hP : P σ)
    (hstable : Stable R P)
    (hrely : ∀ σ τ, P σ → R σ τ →
      (l.prod g).get τ = (l.prod g).get σ ∨ R' ((l.prod g).get σ) ((l.prod g).get τ))
    (hguar : ∀ σ a, P σ → G' ((l.prod g).get σ) a →
      G σ ((l.prod g).set a σ) ∧ P ((l.prod g).set a σ)) :
    WP R G (fun r τ => Q r ((l.prod g).get τ) ∧ P τ) (p.zoom l) σ := by
  generalize hpart : (l.prod g).get σ = ρ at h
  induction h generalizing σ with
  | @intro p ρ ghost safe post guar next ih =>
    subst hpart
    refine WP.of_steps fun τ hτ => ?_
    have hboth : P τ ∧ Relation.ReflTransGen R' ((l.prod g).get σ) ((l.prod g).get τ) := by
      induction hτ with
      | refl => exact ⟨hP, .refl⟩
      | @tail υ τ _ hstep ih =>
        refine ⟨hstable υ τ ih.1 hstep, ?_⟩
        rcases hrely υ τ ih.1 hstep with heq | hR
        · rw [heq]
          exact ih.2
        · exact ih.2.tail hR
    obtain ⟨hPτ, hpart⟩ := hboth
    refine ⟨fun hf => safe _ hpart (Prog.fails_zoom hf), fun a ha => ?_, fun q t hs => ?_⟩
    · exact ⟨post _ hpart a (Prog.zoom_eq_ret ha), hPτ⟩
    · obtain ⟨p', b, hp, rfl, rfl⟩ := Prog.step_zoom hs
      refine ⟨g.set (ghost ((l.prod g).get τ) p' b) τ.2, ?_⟩
      rcases guar _ hpart p' b hp with heq | hG
      · -- the thread's part is the same as before
        have hsame : (l.set b τ.1, g.set (ghost ((l.prod g).get τ) p' b) τ.2) = τ := by
          have hset := (l.prod g).set_get τ
          rwa [← heq] at hset
        refine ⟨.inl hsame, ih _ hpart p' b hp ?_ ?_⟩
        · rwa [hsame]
        · rw [hsame, heq]
      · obtain ⟨hG, hP'⟩ := hguar τ _ hPτ hG
        exact ⟨.inr hG, ih _ hpart p' b hp hP' ((l.prod g).get_set (b, _) τ)⟩

end

/-- A program that runs alone on a part of the memory leaves the rest as it is. -/
theorem Within.zoom {l : Lens S A} {B : A → A → Prop} {p : Prog A α} {s : S} {Q : α → A → Prop}
    (h : Within B p (l.get s) Q) :
    Within (fun s t => B (l.get s) (l.get t) ∧ t = l.set (l.get t) s) (p.zoom l) s fun a t =>
      Q a (l.get t) ∧ t = l.set (l.get t) s := by
  apply WP.zoom l (.unit : Lens Unit Unit) (P := fun σ => σ.1 = l.set (l.get σ.1) s)
    (Q := fun a ρ => Q a ρ.1) (σ := (s, ())) h
  · exact (l.set_get s).symm
  · exact stable_false _
  · exact fun _ _ _ hR => hR.elim
  · intro σ a hσ hB
    have hget : l.get (l.set a.1 σ.1) = a.1 := l.get_set a.1 σ.1
    refine ⟨⟨?_, ?_⟩, ?_⟩
    · show B (l.get σ.1) (l.get (l.set a.1 σ.1))
      rw [hget]
      exact hB
    · show l.set a.1 σ.1 = l.set (l.get (l.set a.1 σ.1)) σ.1
      rw [hget]
    · change l.set a.1 σ.1 = l.set (l.get (l.set a.1 σ.1)) s
      rw [hget, hσ, l.set_set]

theorem Solo.zoom {l : Lens S A} {p : Prog A α} {s : S} {Q : α → A → Prop}
    (h : Solo p (l.get s) Q) :
    Solo (p.zoom l) s fun a t => Q a (l.get t) ∧ t = l.set (l.get t) s :=
  Within.solo (Within.zoom (B := fun _ _ => True) h)

end Conc
