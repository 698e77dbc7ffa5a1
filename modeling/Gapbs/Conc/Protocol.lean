import Gapbs.Conc.Logic

/-!
# Protocols of threads

A thread follows a protocol when its operations, performed where `I` holds, move it from one local state
to the next as `A` allows.  Threads that follow their protocols keep what the allowed moves keep, whether or
not they return.
-/

namespace Conc

open Prog Relation Function

variable {S Γ α β : Type}

/-- The program follows the protocol from the local state `γ` on, and where it returns `Q` holds of the
local state.  It does not fork. -/
def Follows (I : S → Prop) (A : Γ → S → S → Γ → Prop) :
    {α : Type} → Prog S α → Γ → (α → Γ → Prop) → Prop
  | _, .ret a, γ, Q => Q a γ
  | _, .atomic f k, γ, Q => ∀ s b t, I s → f s = some (b, t) →
      ∃ δ, ((t, δ) = (s, γ) ∨ A γ s t δ) ∧ Follows I A (k b) δ Q
  | _, .choose _ k, γ, Q => ∀ b, Follows I A (k b) γ Q
  | _, .loop (σ := σ) body x k, γ, Q => ∃ Inv : σ → Γ → Prop, Inv x γ ∧ ∀ y δ, Inv y δ →
      Follows I A (body y) δ fun r δ' => r.elim (fun z => Inv z δ') fun b => Follows I A (k b) δ' Q
  | _, .par _ _, _, _ => False

namespace Follows

variable {I : S → Prop} {A : Γ → S → S → Γ → Prop} {p : Prog S α} {γ : Γ} {Q : α → Γ → Prop}

theorem mono {Q' : α → Γ → Prop} (h : Follows I A p γ Q) (hQ : ∀ a δ, Q a δ → Q' a δ) :
    Follows I A p γ Q' := by
  induction p generalizing γ with
  | ret a => exact hQ a γ h
  | atomic f k ih =>
    intro s b t hI hf
    obtain ⟨δ, hact, hk⟩ := h s b t hI hf
    exact ⟨δ, hact, ih b hk hQ⟩
  | choose d k ih => exact fun b => ih b (h b) hQ
  | loop body x k ihbody ih =>
    obtain ⟨Inv, hx, hbody⟩ := h
    refine ⟨Inv, hx, fun y δ hy => ihbody y (hbody y δ hy) fun r δ' hr => ?_⟩
    cases r with
    | inl z => exact hr
    | inr b => exact ih b hr hQ
  | par ps k _ _ => exact h

theorem bind {q : Prog S β} {f : β → Prog S α} (h : Follows I A q γ fun b δ => Follows I A (f b) δ Q) :
    Follows I A (q.bind f) γ Q := by
  induction q generalizing γ with
  | ret b => exact h
  | atomic g k ih =>
    intro s b t hI hg
    obtain ⟨δ, hact, hk⟩ := h s b t hI hg
    exact ⟨δ, hact, ih b hk⟩
  | choose d k ih => exact fun b => ih b (h b)
  | loop body x k _ ih =>
    obtain ⟨Inv, hx, hbody⟩ := h
    refine ⟨Inv, hx, fun y δ hy => (hbody y δ hy).mono fun r δ' hr => ?_⟩
    cases r with
    | inl z => exact hr
    | inr b => exact ih b hr
  | par ps k _ _ => exact h.elim

theorem op_bind {f : S → Option (β × S)} {k : β → Prog S α}
    (h : ∀ s b t, I s → f s = some (b, t) → ∃ δ, ((t, δ) = (s, γ) ∨ A γ s t δ) ∧ Follows I A (k b) δ Q) :
    Follows I A ((Prog.op f).bind k) γ Q := h

theorem load_bind {get : S → β} {k : β → Prog S α} (h : ∀ s, I s → Follows I A (k (get s)) γ Q) :
    Follows I A ((Prog.load get).bind k) γ Q := by
  apply op_bind
  intro s b t hI hf
  obtain ⟨rfl, rfl⟩ := Prod.mk.inj (Option.some.inj hf)
  exact ⟨γ, .inl rfl, h s hI⟩

/-- A load by which the thread may get to another local state. -/
theorem observe_bind {get : S → Option β} {k : β → Prog S α}
    (h : ∀ s b, I s → get s = some b → ∃ δ, (δ = γ ∨ A γ s s δ) ∧ Follows I A (k b) δ Q) :
    Follows I A ((Prog.loadAt get).bind k) γ Q := by
  apply op_bind
  intro s b t hI hf
  obtain ⟨c, hc, heq⟩ := Option.map_eq_some_iff.mp hf
  obtain ⟨rfl, rfl⟩ := Prod.mk.inj heq
  obtain ⟨δ, hact, hk⟩ := h s c hI hc
  exact ⟨δ, hact.imp_left fun heq => by rw [heq], hk⟩

theorem loadAt_bind {get : S → Option β} {k : β → Prog S α}
    (h : ∀ s b, I s → get s = some b → Follows I A (k b) γ Q) :
    Follows I A ((Prog.loadAt get).bind k) γ Q :=
  observe_bind fun s b hI hget => ⟨γ, .inl rfl, h s b hI hget⟩

theorem store_bind {upd : S → S} {k : Unit → Prog S α}
    (h : ∀ s, I s → ∃ δ, A γ s (upd s) δ ∧ Follows I A (k ()) δ Q) :
    Follows I A ((Prog.store upd).bind k) γ Q := by
  apply op_bind
  intro s b t hI hf
  obtain ⟨rfl, rfl⟩ := Prod.mk.inj (Option.some.inj hf)
  obtain ⟨δ, hact, hk⟩ := h s hI
  exact ⟨δ, .inr hact, hk⟩

theorem store {upd : S → S} {Q : Unit → Γ → Prop} (h : ∀ s, I s → ∃ δ, A γ s (upd s) δ ∧ Q () δ) :
    Follows I A (Prog.store upd) γ Q :=
  store_bind (k := .ret) h

/-- A loop, from an invariant of the local states. -/
theorem iter {σ : Type} {body : σ → Prog S (σ ⊕ α)} {x : σ} (Inv : σ → Γ → Prop) (hx : Inv x γ)
    (hbody : ∀ y δ, Inv y δ → Follows I A (body y) δ fun r δ' => match r with
      | .inl z => Inv z δ'
      | .inr a => Q a δ') : Follows I A (Prog.iter body x) γ Q := by
  refine ⟨Inv, hx, fun y δ hy => (hbody y δ hy).mono fun r δ' hr => ?_⟩
  cases r with
  | inl z => exact hr
  | inr a => exact hr

/-- `for b in l`, from an invariant of the local states. -/
theorem forEach {σ : Type} {l : List β} {x : σ} {body : β → σ → Prog S σ} (Inv : Γ → Prop) (hγ : Inv γ)
    (hbody : ∀ b ∈ l, ∀ y δ, Inv δ → Follows I A (body b y) δ fun _ δ' => Inv δ') :
    Follows I A (Prog.forEach l x body) γ fun _ δ => Inv δ := by
  induction l generalizing x γ with
  | nil => exact hγ
  | cons b l ih =>
    apply bind
    apply (hbody b (List.mem_cons_self ..) x γ hγ).mono
    intro y δ hδ
    exact ih hδ fun c hc => hbody c (List.mem_cons_of_mem b hc)

theorem step {q : Prog S α} {s t : S} (h : Follows I A p γ Q) (hI : I s) (hs : Step p s q t) :
    ∃ δ, ((t, δ) = (s, γ) ∨ A γ s t δ) ∧ Follows I A q δ Q := by
  cases p with
  | ret a => exact hs.elim
  | atomic f k =>
    obtain ⟨b, hf, rfl⟩ := hs
    exact h s b t hI hf
  | choose d k =>
    obtain ⟨b, rfl, rfl⟩ := hs
    exact ⟨γ, .inl rfl, h b⟩
  | loop body x k =>
    obtain ⟨rfl, rfl⟩ := hs
    obtain ⟨Inv, hx, hbody⟩ := h
    refine ⟨γ, .inl rfl, bind ((hbody x γ hx).mono fun r δ hr => ?_)⟩
    cases r with
    | inl y => exact ⟨Inv, hr, hbody⟩
    | inr b => exact hr
  | par ps k => exact h.elim

/-- Threads that follow their protocols: an invariant of the memory and of all local states. -/
theorem fork {n : Nat} {A : Fin n → Γ → S → S → Γ → Prop} {ps : Fin n → Prog S β} {Q : Fin n → β → Γ → Prop}
    (J : S → (Fin n → Γ) → Prop) (hI : ∀ s γ, J s γ → I s)
    (hJ : ∀ i s γ t δ, J s γ → A i (γ i) s t δ → J t (update γ i δ)) {γ : Fin n → Γ} {s : S} (hs : J s γ)
    (hps : ∀ i, Follows I (A i) (ps i) (γ i) (Q i)) {r : Fin n → β} {t : S}
    (hr : Reach (Prog.fork ps, s) (.ret r, t)) : ∃ δ, J t δ ∧ ∀ i, Q i (r i) (δ i) := by
  suffices h : ∀ c, Reach (Prog.fork ps, s) c → ∃ δ, J c.2 δ ∧
      ((∃ qs, c.1 = Prog.fork qs ∧ ∀ i, Follows I (A i) (qs i) (δ i) (Q i)) ∨
        ∃ r, c.1 = .ret r ∧ ∀ i, Q i (r i) (δ i)) by
    obtain ⟨δ, hδ, ⟨qs, hqs, -⟩ | ⟨r', hr', hQ⟩⟩ := h _ hr
    · cases hqs
    · obtain rfl := Prog.ret.inj hr'
      exact ⟨δ, hδ, hQ⟩
  intro c hc
  induction hc with
  | refl => exact ⟨γ, hs, .inl ⟨ps, rfl, hps⟩⟩
  | @tail c d _ hnext ih =>
    obtain ⟨q, u⟩ := c
    obtain ⟨q', u'⟩ := d
    obtain ⟨δ, hδ, ⟨qs, hq, hqs⟩ | ⟨r', hq, -⟩⟩ := ih <;> (change q = _ at hq; subst hq)
    · rcases hnext with ⟨i, p, hi, rfl⟩ | ⟨r', hr', rfl, rfl⟩
      · -- thread `i` moves on, the others stay where they are
        obtain ⟨δ', hact, hp⟩ := (hqs i).step (hI u δ hδ) hi
        have hJ' : J u' (update δ i δ') := by
          rcases hact with heq | hact
          · obtain ⟨rfl, rfl⟩ := Prod.mk.inj heq
            rwa [update_eq_self]
          · exact hJ i u δ u' δ' hδ hact
        refine ⟨update δ i δ', hJ', .inl ⟨_, rfl, fun j => ?_⟩⟩
        by_cases hj : j = i
        · subst hj
          rwa [update_self, update_self]
        · rw [update_of_ne hj, update_of_ne hj]
          exact hqs j
      · refine ⟨δ, hδ, .inr ⟨r', rfl, fun i => ?_⟩⟩
        have hi := hqs i
        rwa [hr' i] at hi
    · exact hnext.elim

end Follows

/-! ## Correct programs run alone -/

theorem Prog.Correct.solo {p : Prog S α} {s : S} {Q : α → S → Prop} (h : p.Correct s Q) : Solo p s Q := by
  suffices hsuff : ∀ c : Prog S α × S, Acc (fun d c => Next c d) c → Reach (p, s) c → Solo c.1 c.2 Q from
    hsuff _ h.terminates .refl
  intro c hc
  induction hc with
  | intro c _ ih =>
    intro hr
    obtain ⟨q, t⟩ := c
    refine WP.of_steps fun τ hτ => ?_
    obtain rfl : τ = (t, ()) := by
      rcases ReflTransGen.cases_head hτ with heq | ⟨_, hfalse, _⟩
      · exact heq.symm
      · exact hfalse.elim
    refine ⟨h.safe q t hr, fun a ha => ?_, fun q' t' hs => ⟨(), .inr trivial, ih (q', t') hs (hr.tail hs)⟩⟩
    subst ha
    exact h.result a t hr

/-- The results have what can be seen of the runs that return. -/
theorem Solo.and_result {p : Prog S α} {s : S} {Q P : α → S → Prop} (h : Solo p s Q)
    (hP : ∀ a t, Reach (p, s) (.ret a, t) → P a t) : Solo p s fun a t => Q a t ∧ P a t :=
  have hc := h.correct
  Prog.Correct.solo ⟨hc.terminates, hc.safe, fun a t hr => ⟨hc.result a t hr, hP a t hr⟩⟩

end Conc
