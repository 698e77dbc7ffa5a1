import Gapbs.Conc.Lens

/-!
# What holds throughout a run

`Throughout E A p s Q` says of every interleaving of `p`, finished or not, that each of its steps is
related by `A` and that an undefined operation is performed only if `E`, and of those that return that
they end in `Q`.  It does not say that any of them returns.
-/

namespace Conc

open Prog Relation

variable {S Γ Δ α β : Type}

structure Throughout (E : Prop) (A : S → S → Prop) (p : Prog S α) (s : S) (Q : α → S → Prop) : Prop where
  acts : ∀ q t q' t', Reach (p, s) (q, t) → Step q t q' t' → A t t'
  safe : ∀ q t, Reach (p, s) (q, t) → Fails q t → E
  result : ∀ a t, Reach (p, s) (.ret a, t) → Q a t

/-- A set of configurations that is never left. -/
theorem closed_of_next {C : Prog S α × S → Prop} (hC : ∀ c d, C c → Next c d → C d)
    {c d : Prog S α × S} (hc : C c) (h : Reach c d) : C d := by
  induction h with
  | refl => exact hc
  | tail _ hstep ih => exact hC _ _ ih hstep

theorem reach_ret {a : α} {s : S} {d : Prog S α × S} (h : Reach (.ret a, s) d) : d = (.ret a, s) := by
  rcases ReflTransGen.cases_head h with heq | ⟨_, hstep, _⟩
  · exact heq.symm
  · exact hstep.elim

/-- Where a run of one program after the other can be. -/
theorem reach_bind {p : Prog S β} {f : β → Prog S α} {s t : S} {q : Prog S α}
    (h : Reach (p.bind f, s) (q, t)) :
    (∃ p', Reach (p, s) (p', t) ∧ q = p'.bind f) ∨
      ∃ b u, Reach (p, s) (.ret b, u) ∧ Reach (f b, u) (q, t) := by
  let C (c : Prog S α × S) : Prop := (∃ p', Reach (p, s) (p', c.2) ∧ c.1 = p'.bind f) ∨
    ∃ b u, Reach (p, s) (.ret b, u) ∧ Reach (f b, u) c
  have hstart : C (p.bind f, s) := .inl ⟨p, .refl, rfl⟩
  apply closed_of_next (C := C) _ hstart h
  rintro ⟨q, t⟩ ⟨q', t'⟩ (⟨p', hp', rfl⟩ | ⟨b, u, hb, hf⟩) hstep
  · rcases Step.of_bind hstep with ⟨b, rfl⟩ | ⟨p'', hp'', rfl⟩
    · exact .inr ⟨b, t, hp', .single hstep⟩
    · exact .inl ⟨p'', hp'.tail hp'', rfl⟩
  · exact .inr ⟨b, u, hb, hf.tail hstep⟩

namespace Throughout

variable {E : Prop} {A : S → S → Prop} {p : Prog S α} {s : S} {Q : α → S → Prop}

theorem mono {Q' : α → S → Prop} (h : Throughout E A p s Q) (hQ : ∀ a t, Q a t → Q' a t) :
    Throughout E A p s Q' :=
  ⟨h.acts, h.safe, fun a t hr => hQ a t (h.result a t hr)⟩

theorem weaken {B : S → S → Prop} (h : Throughout E A p s Q) (hA : ∀ s t, A s t → B s t) :
    Throughout E B p s Q :=
  ⟨fun q t q' t' hr hs => hA t t' (h.acts q t q' t' hr hs), h.safe, h.result⟩

/-- What is known about the results alone. -/
theorem of_solo (h : Solo p s Q) : Throughout E (fun _ _ => True) p s Q :=
  ⟨fun _ _ _ _ _ _ => trivial, fun q t hr hf => (h.correct.safe q t hr hf).elim, h.correct.result⟩

/-- What is known about the results anyway. -/
theorem and_solo {P : α → S → Prop} (h : Throughout E A p s P) (hsolo : Solo p s Q) :
    Throughout E A p s fun a t => P a t ∧ Q a t :=
  ⟨h.acts, h.safe, fun a t hr => ⟨h.result a t hr, hsolo.correct.result a t hr⟩⟩

/-- The rest of a run. -/
theorem rest (h : Throughout E A p s Q) {q : Prog S α} {t : S} (hr : Reach (p, s) (q, t)) :
    Throughout E A q t Q :=
  ⟨fun q' t' q'' t'' hr' => h.acts q' t' q'' t'' (hr.trans hr'), fun q' t' hr' => h.safe q' t' (hr.trans hr'),
    fun a t' hr' => h.result a t' (hr.trans hr')⟩

/-- A property that the steps keep holds wherever a run gets. -/
theorem invariant {I : S → Prop} (h : Throughout E A p s Q) (hI : ∀ s t, A s t → I s → I t) (hs : I s)
    {q : Prog S α} {t : S} (hr : Reach (p, s) (q, t)) : I t := by
  generalize hd : (q, t) = d at hr
  induction hr generalizing q t with
  | refl =>
    obtain ⟨rfl, rfl⟩ := Prod.mk.inj hd
    exact hs
  | @tail c e hc hstep ih =>
    obtain ⟨rfl, rfl⟩ := Prod.mk.inj hd.symm
    exact hI _ _ (h.acts _ _ _ _ hc hstep) (ih rfl)

/-- What the steps do where the property holds that they keep. -/
theorem strengthen {I : S → Prop} {B : S → S → Prop} (h : Throughout E A p s Q) (hs : I s)
    (hI : ∀ s t, A s t → I s → I t ∧ B s t) : Throughout E B p s Q := by
  refine ⟨fun q t q' t' hr hstep => ?_, h.safe, h.result⟩
  have ht : I t := h.invariant (fun s t hA hs => (hI s t hA hs).1) hs hr
  exact (hI t t' (h.acts q t q' t' hr hstep) ht).2

/-- The results, too, have a property that the steps keep. -/
theorem and_invariant {I : S → Prop} (h : Throughout E A p s Q) (hI : ∀ s t, A s t → I s → I t)
    (hs : I s) : Throughout E A p s fun a t => Q a t ∧ I t :=
  ⟨h.acts, h.safe, fun a t hr => ⟨h.result a t hr, h.invariant hI hs hr⟩⟩

theorem ret {a : α} (h : Q a s) : Throughout E A (.ret a) s Q := by
  refine ⟨fun q t q' t' hr hs => ?_, fun q t hr hf => ?_, fun b t hr => ?_⟩
  · obtain ⟨rfl, rfl⟩ := Prod.mk.inj (reach_ret hr)
    exact hs.elim
  · obtain ⟨rfl, rfl⟩ := Prod.mk.inj (reach_ret hr)
    exact hf.elim
  · obtain ⟨hb, rfl⟩ := Prod.mk.inj (reach_ret hr)
    obtain rfl := Prog.ret.inj hb
    exact h

theorem bind {q : Prog S β} {f : β → Prog S α}
    (h : Throughout E A q s fun b t => Throughout E A (f b) t Q) : Throughout E A (q.bind f) s Q := by
  refine ⟨fun r t r' t' hr hs => ?_, fun r t hr hf => ?_, fun a t hr => ?_⟩
  · rcases reach_bind hr with ⟨p', hp', rfl⟩ | ⟨b, u, hb, hf⟩
    · rcases hs.of_bind with ⟨b, rfl⟩ | ⟨p'', hp'', -⟩
      · exact (h.result b t hp').acts _ _ _ _ .refl hs
      · exact h.acts _ _ _ _ hp' hp''
    · exact (h.result b u hb).acts _ _ _ _ hf hs
  · rcases reach_bind hr with ⟨p', hp', rfl⟩ | ⟨b, u, hb, hrest⟩
    · rcases hf.of_bind with ⟨b, rfl⟩ | hp''
      · exact (h.result b t hp').safe _ _ .refl hf
      · exact h.safe _ _ hp' hp''
    · exact (h.result b u hb).safe _ _ hrest hf
  · rcases reach_bind hr with ⟨p', hp', heq⟩ | ⟨b, u, hb, hf⟩
    · obtain ⟨b, rfl⟩ : ∃ b, p' = .ret b := by
        cases p' with
        | ret b => exact ⟨b, rfl⟩
        | _ => cases heq
      exact (h.result b t hp').result a t (heq ▸ .refl)
    · exact (h.result b u hb).result a t hf

theorem op {f : S → Option (α × S)} {a : α} {t : S} (hf : f s = some (a, t)) (hA : A s t) (h : Q a t) :
    Throughout E A (Prog.op f) s Q := by
  have hreach {q : Prog S α} {u : S} (hr : Reach (Prog.op f, s) (q, u)) :
      (q, u) = (Prog.op f, s) ∨ (q, u) = (.ret a, t) := by
    rcases ReflTransGen.cases_head hr with heq | ⟨⟨q', u'⟩, hstep, hrest⟩
    · exact .inl heq.symm
    · obtain ⟨b, hb, rfl⟩ := hstep
      obtain ⟨rfl, rfl⟩ := Prod.mk.inj (Option.some.inj (hb.symm.trans hf))
      exact .inr (reach_ret hrest)
  refine ⟨fun q u q' u' hr hs => ?_, fun q u hr hfail => ?_, fun b u hr => ?_⟩
  · rcases hreach hr with heq | heq <;> obtain ⟨rfl, rfl⟩ := Prod.mk.inj heq
    · obtain ⟨b, hb, -⟩ := hs
      obtain ⟨-, rfl⟩ := Prod.mk.inj (Option.some.inj (hb.symm.trans hf))
      exact hA
    · exact hs.elim
  · rcases hreach hr with heq | heq <;> obtain ⟨rfl, rfl⟩ := Prod.mk.inj heq
    · exact absurd (hfail.symm.trans hf) (by simp)
    · exact hfail.elim
  · rcases hreach hr with heq | heq
    · cases (Prod.mk.inj heq).1
    · obtain ⟨hb, rfl⟩ := Prod.mk.inj heq
      obtain rfl := Prog.ret.inj hb
      exact h

/-- An operation that is undefined only if `E`. -/
theorem fail (h : E) : Throughout E A (Prog.fail : Prog S α) s Q := by
  have hreach {d : Prog S α × S} (hr : Reach (Prog.fail, s) d) : d = (Prog.fail, s) := by
    rcases ReflTransGen.cases_head hr with heq | ⟨_, hstep, _⟩
    · exact heq.symm
    · obtain ⟨b, hb, -⟩ := hstep
      cases hb
  refine ⟨fun q t q' t' hr hs => ?_, fun _ _ _ _ => h, fun a t hr => ?_⟩
  · obtain ⟨rfl, rfl⟩ := Prod.mk.inj (hreach hr)
    obtain ⟨b, hb, -⟩ := hs
    cases hb
  · cases (Prod.mk.inj (hreach hr)).1

theorem load_bind {get : S → β} {k : β → Prog S α} (hA : A s s) (h : Throughout E A (k (get s)) s Q) :
    Throughout E A ((Prog.load get).bind k) s Q :=
  bind (op rfl hA h)

theorem store {upd : S → S} {Q : Unit → S → Prop} (hA : A s (upd s)) (h : Q () (upd s)) :
    Throughout E A (Prog.store upd) s Q :=
  op rfl hA h

theorem store_bind {upd : S → S} {k : Unit → Prog S α} (hA : A s (upd s))
    (h : Throughout E A (k ()) (upd s) Q) : Throughout E A ((Prog.store upd).bind k) s Q :=
  bind (store hA h)

theorem storeAt_bind {upd : S → Option S} {k : Unit → Prog S α} {t : S} (ht : upd s = some t)
    (hA : A s t) (h : Throughout E A (k ()) t Q) : Throughout E A ((Prog.storeAt upd).bind k) s Q :=
  bind (op (by simp [ht]) hA h)

/-- A loop, from an invariant. -/
theorem iter {σ : Type} {body : σ → Prog S (σ ⊕ α)} {x : σ} (hA : ∀ s, A s s)
    (Inv : σ → S → Prop) (hx : Inv x s)
    (hbody : ∀ y t, Inv y t → Throughout E A (body y) t fun r t' => match r with
      | .inl z => Inv z t'
      | .inr a => Q a t') : Throughout E A (Prog.iter body x) s Q := by
  -- in front of a turn, or in the middle of one
  let C (c : Prog S α × S) : Prop := (∃ y, c.1 = .loop body y .ret ∧ Inv y c.2) ∨
    (∃ y u p', Inv y u ∧ Reach (body y, u) (p', c.2) ∧ c.1 = p'.bind (Prog.unroll body .ret)) ∨
    ∃ a, c.1 = .ret a ∧ Q a c.2
  have hsafe (c : Prog S α × S) (hc : C c) (hf : Fails c.1 c.2) : E := by
    obtain ⟨q, t⟩ := c
    rcases hc with ⟨y, hq, -⟩ | ⟨y, u, p', hy, hp', hq⟩ | ⟨a, hq, -⟩ <;> (change q = _ at hq; subst hq)
    · exact hf.elim
    · rcases Fails.of_bind hf with ⟨r, rfl⟩ | hp''
      · rcases r with z | a
        · exact hf.elim
        · exact hf.elim
      · exact (hbody y u hy).safe _ _ hp' hp''
    · exact hf.elim
  have hstep (c d : Prog S α × S) (hc : C c) (hnext : Next c d) : A c.2 d.2 ∧ C d := by
    obtain ⟨q, t⟩ := c
    obtain ⟨q', t'⟩ := d
    have hloop (y : σ) (hy : Inv y t) (hs : Step (.loop body y .ret) t q' t') : A t t' ∧ C (q', t') := by
      obtain ⟨rfl, rfl⟩ := hs
      exact ⟨hA _, .inr (.inl ⟨y, t', body y, hy, .refl, rfl⟩)⟩
    rcases hc with ⟨y, hq, hy⟩ | ⟨y, u, p', hy, hp', hq⟩ | ⟨a, hq, -⟩
    · change q = _ at hq
      subst hq
      exact hloop y hy hnext
    · change q = _ at hq
      subst hq
      rcases Step.of_bind hnext with ⟨r, rfl⟩ | ⟨p'', hp'', heq⟩
      · have hr := (hbody y u hy).result r t hp'
        rcases r with z | a
        · exact hloop z hr hnext
        · exact hnext.elim
      · exact ⟨(hbody y u hy).acts _ _ _ _ hp' hp'', .inr (.inl ⟨y, u, p'', hy, hp'.tail hp'', heq⟩)⟩
    · change q = _ at hq
      subst hq
      exact hnext.elim
  have hclosed {d : Prog S α × S} (hr : Reach (Prog.iter body x, s) d) : C d :=
    closed_of_next (fun c d hc hnext => (hstep c d hc hnext).2) (.inl ⟨x, rfl, hx⟩) hr
  refine ⟨fun q t q' t' hr hs => (hstep (q, t) (q', t') (hclosed hr) hs).1,
    fun q t hr => hsafe (q, t) (hclosed hr), fun a t hr => ?_⟩
  rcases hclosed hr with ⟨y, hq, -⟩ | ⟨y, u, p', hy, hp', hq⟩ | ⟨b, hq, hb⟩
  · cases hq
  · -- the last turn has left the loop
    obtain ⟨r, rfl⟩ : ∃ r, p' = .ret r := by
      cases p' with
      | ret r => exact ⟨r, rfl⟩
      | _ => cases hq
    have hr := (hbody y u hy).result r t hp'
    rcases r with z | b
    · cases hq
    · obtain rfl := Prog.ret.inj hq
      exact hr
  · obtain rfl := Prog.ret.inj hq
    exact hb

/-- A program that runs alone and returns. -/
theorem of_within (hA : ∀ s, A s s) (h : Within A p s Q) : Throughout E A p s Q := by
  have hreach {q : Prog S α} {t : S} (hr : Reach (p, s) (q, t)) : Within A q t Q := by
    generalize hd : (q, t) = d at hr
    induction hr generalizing q t with
    | refl =>
      obtain ⟨rfl, rfl⟩ := Prod.mk.inj hd
      exact h
    | @tail c e _ hstep ih =>
      obtain ⟨rfl, rfl⟩ := Prod.mk.inj hd.symm
      obtain ⟨⟨⟩, -, hw⟩ := WP.step (ih rfl) .refl hstep
      exact hw
  refine ⟨fun q t q' t' hr hs => ?_, fun q t hr hf => ?_, fun a t hr => h.solo.correct.result a t hr⟩
  · obtain ⟨⟨⟩, hact, -⟩ := WP.step (hreach hr) .refl hs
    rcases hact with heq | hact
    · obtain ⟨rfl, -⟩ := Prod.mk.inj heq
      exact hA _
    · exact hact
  · exact (h.solo.correct.safe q t hr hf).elim

/-- Threads that keep to their actions, and an invariant `J` of them all from which each of the actions
is seen to be one of `A`. -/
theorem fork {n : Nat} {ps : Fin n → Prog S β} (hA : ∀ s, A s s) (Act : Fin n → S × Δ → S × Δ → Prop)
    (Q : Fin n → β → S × Δ → Prop) (J : S × Δ → Prop) (δ : Δ) (hJ : J (s, δ))
    (h : ∀ i, WP (Rely Act i) (Act i) (Q i) (ps i) (s, δ))
    (hact : ∀ i σ τ, J σ → Act i σ τ → J τ ∧ A σ.1 τ.1) :
    Throughout E A (Prog.fork ps) s fun r t => ∃ δ, J (t, δ) ∧ ∀ i, Q i (r i) (t, δ) :=
  of_within hA (Within.fork hA Act Q J δ hJ h hact)

end Throughout

/-! ## From the text of a program -/

/-- All operations that occur in the program are actions of `A`, in whatever order they come. -/
def Keeps (A : S → S → Prop) : {α : Type} → Prog S α → Prop
  | _, .ret _ => True
  | _, .atomic f k => (∀ s b t, f s = some (b, t) → A s t) ∧ ∀ b, Keeps A (k b)
  | _, .choose _ k => ∀ b, Keeps A (k b)
  | _, .loop body _ k => (∀ x, Keeps A (body x)) ∧ ∀ b, Keeps A (k b)
  | _, .par ps k => (∀ i, Keeps A (ps i)) ∧ ∀ r, Keeps A (k r)

namespace Keeps

variable {A : S → S → Prop}

theorem bind {p : Prog S β} {f : β → Prog S α} (hp : Keeps A p) (hf : ∀ b, Keeps A (f b)) :
    Keeps A (p.bind f) := by
  induction p with
  | ret b => exact hf b
  | atomic g k ih => exact ⟨hp.1, fun b => ih b (hp.2 b) hf⟩
  | choose d k ih => exact fun b => ih b (hp b) hf
  | loop body x k _ ih => exact ⟨hp.1, fun b => ih b (hp.2 b) hf⟩
  | par ps k _ ih => exact ⟨hp.1, fun r => ih r (hp.2 r) hf⟩

theorem op {f : S → Option (α × S)} (h : ∀ s b t, f s = some (b, t) → A s t) : Keeps A (Prog.op f) :=
  ⟨h, fun _ => trivial⟩

theorem load {get : S → α} (hA : ∀ s, A s s) : Keeps A (Prog.load get) :=
  op fun s b t h => by
    obtain ⟨rfl, rfl⟩ := Prod.mk.inj (Option.some.inj h)
    exact hA _

theorem loadAt {get : S → Option α} (hA : ∀ s, A s s) : Keeps A (Prog.loadAt get) :=
  op fun s b t h => by
    obtain ⟨c, -, heq⟩ := Option.map_eq_some_iff.mp h
    obtain ⟨rfl, rfl⟩ := Prod.mk.inj heq
    exact hA _

theorem store {upd : S → S} (h : ∀ s, A s (upd s)) : Keeps A (Prog.store upd) :=
  op fun s b t hb => by
    obtain ⟨-, rfl⟩ := Prod.mk.inj (Option.some.inj hb)
    exact h s

theorem iter {σ : Type} {body : σ → Prog S (σ ⊕ α)} (x : σ) (h : ∀ y, Keeps A (body y)) :
    Keeps A (Prog.iter body x) :=
  ⟨h, fun _ => trivial⟩

theorem fork {n : Nat} {ps : Fin n → Prog S β} (h : ∀ i, Keeps A (ps i)) : Keeps A (Prog.fork ps) :=
  ⟨h, fun _ => trivial⟩

theorem forEach {σ : Type} {body : β → σ → Prog S σ} (l : List β) (x : σ)
    (h : ∀ b y, Keeps A (body b y)) : Keeps A (Prog.forEach l x body) := by
  induction l generalizing x with
  | nil => trivial
  | cons b l ih => exact bind (h b x) fun y => ih y

theorem forBreak {σ ρ : Type} {body : β → σ → Prog S (σ ⊕ ρ)} (l : List β) (x : σ)
    (h : ∀ b y, Keeps A (body b y)) : Keeps A (Prog.forBreak l x body) := by
  induction l generalizing x with
  | nil => trivial
  | cons b l ih =>
    refine bind (h b x) fun r => ?_
    rcases r with y | r
    · exact ih y
    · trivial

/-- A program that sees a part of the memory only. -/
theorem zoom {B : Type} (l : Lens S B) {p : Prog B α} (h : ∀ s b, A s (l.set b s)) :
    Keeps A (p.zoom l) := by
  induction p with
  | ret b => trivial
  | atomic g k ih =>
    refine ⟨fun s b t hb => ?_, fun b => ih b⟩
    obtain ⟨⟨c, u⟩, -, heq⟩ := Option.map_eq_some_iff.mp hb
    obtain ⟨-, rfl⟩ := Prod.mk.inj heq
    exact h s u
  | choose d k ih => exact fun b => ih b
  | loop body x k ihb ih => exact ⟨fun y => ihb y, fun b => ih b⟩
  | par ps k ihp ih => exact ⟨fun i => ihp i, fun r => ih r⟩

theorem step (hA : ∀ s, A s s) {p q : Prog S α} {s t : S} (hp : Keeps A p) (h : Step p s q t) :
    A s t ∧ Keeps A q := by
  induction p with
  | ret b => exact h.elim
  | atomic g k _ =>
    obtain ⟨b, hb, rfl⟩ := h
    exact ⟨hp.1 _ _ _ hb, hp.2 b⟩
  | choose d k _ =>
    obtain ⟨b, rfl, rfl⟩ := h
    exact ⟨hA _, hp b⟩
  | loop body x k _ _ =>
    obtain ⟨rfl, rfl⟩ := h
    refine ⟨hA _, bind (hp.1 x) fun r => ?_⟩
    rcases r with y | b
    · exact ⟨hp.1, hp.2⟩
    · exact hp.2 b
  | par ps k ih _ =>
    rcases h with ⟨i, p', hi, rfl⟩ | ⟨r, -, rfl, rfl⟩
    · obtain ⟨hact, hp'⟩ := ih i (hp.1 i) hi
      refine ⟨hact, fun j => ?_, hp.2⟩
      by_cases hj : j = i
      · subst hj
        simpa using hp'
      · rw [Function.update_of_ne hj]
        exact hp.1 j
    · exact ⟨hA _, hp.2 r⟩

theorem throughout (hA : ∀ s, A s s) {p : Prog S α} {Q : α → S → Prop} (hp : Keeps A p) {s : S}
    (h : Solo p s Q) : Throughout E A p s Q := by
  refine ⟨fun q t q' t' hr hs => ?_, fun q t hr hf => (h.correct.safe q t hr hf).elim, h.correct.result⟩
  have hq : Keeps A q := closed_of_next (C := fun c => Keeps A c.1)
    (fun c d hc hnext => (step hA hc hnext).2) (c := (p, s)) hp hr
  exact (step hA hq hs).1

end Keeps

end Conc
