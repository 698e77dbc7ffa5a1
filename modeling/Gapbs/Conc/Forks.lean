import Gapbs.Conc.Reduce

/-!
# What a program forks

A run-time system with a fixed team of threads can run a program only if all its parallel blocks are
for this team and no thread of a block forks again.
-/

namespace Conc

variable {S α β ρ : Type}

namespace Prog

/-- All parallel blocks of the program, those inside of threads apart, satisfy `R`. -/
def ForksOnly (R : ∀ n ρ, (Fin n → Prog S ρ) → Prop) : {α : Type} → Prog S α → Prop
  | _, ret _ => True
  | _, atomic _ k => ∀ b, (k b).ForksOnly R
  | _, choose _ k => ∀ b, (k b).ForksOnly R
  | _, loop body _ k => (∀ y, (body y).ForksOnly R) ∧ ∀ b, (k b).ForksOnly R
  | _, par (n := n) (ρ := ρ) ps k => R n ρ ps ∧ ∀ r, (k r).ForksOnly R

/-- The program is about to fork. -/
def isPar : {α : Type} → Prog S α → Bool
  | _, par _ _ => true
  | _, _ => false

/-- One thread. -/
def Sequential (p : Prog S α) : Prop := p.ForksOnly fun _ _ _ => False

/-- The program of a team of `T`: every parallel block is `T` threads that fork nothing. -/
def Teams (T : Nat) (p : Prog S α) : Prop :=
  p.ForksOnly fun n _ ps => n = T ∧ ∀ i, (ps i).Sequential

namespace ForksOnly

variable {R R' : ∀ n ρ, (Fin n → Prog S ρ) → Prop}

theorem bind {p : Prog S β} {f : β → Prog S α} (hp : p.ForksOnly R) (hf : ∀ b, (f b).ForksOnly R) :
    (p.bind f).ForksOnly R := by
  induction p with
  | ret b => exact hf b
  | atomic g k ih => exact fun b => ih b (hp b) hf
  | choose d k ih => exact fun b => ih b (hp b) hf
  | loop body x k _ ih => exact ⟨hp.1, fun b => ih b (hp.2 b) hf⟩
  | par ps k _ ih => exact ⟨hp.1, fun r => ih r (hp.2 r) hf⟩

theorem mono {p : Prog S α} (h : p.ForksOnly R) (hR : ∀ n ρ ps, R n ρ ps → R' n ρ ps) :
    p.ForksOnly R' := by
  induction p with
  | ret a => trivial
  | atomic g k ih => exact fun b => ih b (h b)
  | choose d k ih => exact fun b => ih b (h b)
  | loop body x k ihBody ih => exact ⟨fun y => ihBody y (h.1 y), fun b => ih b (h.2 b)⟩
  | par ps k _ ih => exact ⟨hR _ _ _ h.1, fun r => ih r (h.2 r)⟩

/-- Up to its next parallel block a program stays one of its kind. -/
theorem step {p q : Prog S α} {s t : S} (h : p.ForksOnly R) (hpar : p.isPar = false)
    (hs : p.Step s q t) : q.ForksOnly R := by
  cases p with
  | ret a => exact hs.elim
  | atomic g k =>
    obtain ⟨b, -, rfl⟩ := hs
    exact h b
  | choose d k =>
    obtain ⟨b, rfl, -⟩ := hs
    exact h b
  | loop body x k =>
    obtain ⟨rfl, -⟩ := hs
    refine (h.1 x).bind fun r => ?_
    cases r with
    | inl y => exact h
    | inr b => exact h.2 b
  | par ps k => cases hpar

@[simp] theorem ret (a : α) : (Prog.ret a : Prog S α).ForksOnly R := trivial

@[simp] theorem pure (a : α) : (Pure.pure a : Prog S α).ForksOnly R := trivial

@[simp] theorem op (f : S → Option (α × S)) : (Prog.op f).ForksOnly R := fun _ => trivial

@[simp] theorem load (get : S → α) : (Prog.load get).ForksOnly R := op _

@[simp] theorem loadAt (get : S → Option α) : (Prog.loadAt get).ForksOnly R := op _

@[simp] theorem store (upd : S → S) : (Prog.store upd).ForksOnly R := op _

@[simp] theorem storeAt (upd : S → Option S) : (Prog.storeAt upd).ForksOnly R := op _

@[simp] theorem fail : (Prog.fail : Prog S α).ForksOnly R := op _

@[simp] theorem pick (d : α) : (Prog.pick d : Prog S α).ForksOnly R := fun _ => trivial

theorem iter {σ : Type} {body : σ → Prog S (σ ⊕ α)} (x : σ) (h : ∀ y, (body y).ForksOnly R) :
    (Prog.iter body x).ForksOnly R :=
  ⟨h, fun _ => trivial⟩

theorem forEach {σ : Type} {body : β → σ → Prog S σ} (l : List β) (x : σ)
    (h : ∀ b y, (body b y).ForksOnly R) : (Prog.forEach l x body).ForksOnly R := by
  induction l generalizing x with
  | nil => trivial
  | cons b l ih => exact (h b x).bind fun y => ih y

theorem forBreak {σ : Type} {body : β → σ → Prog S (σ ⊕ ρ)} (l : List β) (x : σ)
    (h : ∀ b y, (body b y).ForksOnly R) : (Prog.forBreak l x body).ForksOnly R := by
  induction l generalizing x with
  | nil => trivial
  | cons b l ih =>
    refine (h b x).bind fun r => ?_
    cases r with
    | inl y => exact ih y
    | inr r => trivial

end ForksOnly

theorem Sequential.forksOnly {p : Prog S α} (h : p.Sequential)
    (R : ∀ n ρ, (Fin n → Prog S ρ) → Prop) : p.ForksOnly R :=
  h.mono fun _ _ _ hfalse => hfalse.elim

theorem Sequential.isPar {p : Prog S α} (h : p.Sequential) : p.isPar = false := by
  cases p with
  | par ps k => exact h.1.elim
  | _ => rfl

theorem Sequential.step {p q : Prog S α} {s t : S} (h : p.Sequential) (hs : p.Step s q t) :
    q.Sequential :=
  ForksOnly.step h h.isPar hs

/-- A program over a part of the memory. -/
theorem Sequential.zoom {A : Type} (l : Lens S A) {p : Prog A α} (h : p.Sequential) :
    (p.zoom l).Sequential := by
  induction p with
  | ret a => trivial
  | atomic g k ih => exact fun b => ih b (h b)
  | choose d k ih => exact fun b => ih b (h b)
  | loop body x k ihBody ih => exact ⟨fun y => ihBody y (h.1 y), fun b => ih b (h.2 b)⟩
  | par ps k _ _ => exact h.1.elim

theorem Teams.fork {T : Nat} {ps : Fin T → Prog S ρ} (h : ∀ i, (ps i).Sequential) :
    (Prog.fork ps).Teams T :=
  ⟨⟨rfl, h⟩, fun _ => trivial⟩

theorem Sequential.claimLoop {X : Type} {cursor : Lens S Nat} {m chunk : Nat}
    {body : Nat → X → Prog S X} (x : X) (h : ∀ start y, (body start y).Sequential) :
    (Prog.claimLoop cursor m chunk body x).Sequential := by
  refine ForksOnly.iter x fun y => (ForksOnly.op _).bind fun start => ?_
  split
  · exact .ret _
  · exact (h start y).bind fun _ => .ret _

end Prog

end Conc
