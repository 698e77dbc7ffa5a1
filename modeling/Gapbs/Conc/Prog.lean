import Mathlib.Logic.Relation
import Mathlib.Logic.Function.Basic
import Mathlib.Data.Fintype.Basic

/-!
# Programs over a shared memory

A `Prog S α` is a program that works on a shared memory of type `S` and returns an `α`.  Its
primitive steps are *atomic*: one load, one store, one compare-and-swap.  Threads are forked and
joined by `par`, and a step of a parallel block is a step of any one of its threads, so the runs of
a program are exactly the sequentially consistent interleavings of its threads.

An atomic operation that returns `none` is undefined behaviour (an access outside an array, a
division by zero); `Fails` says that a program is about to perform one.
-/

namespace Conc

/-- Programs with atomic operations, demonic choice, unbounded loops and fork-join parallelism. -/
inductive Prog (S : Type) : Type → Type 1 where
  /-- Return a value. -/
  | ret {α : Type} (a : α) : Prog S α
  /-- Perform one indivisible operation on the memory. -/
  | atomic {α β : Type} (f : S → Option (β × S)) (k : β → Prog S α) : Prog S α
  /-- Continue with any value at all; `d` is the one a default scheduler takes. -/
  | choose {α β : Type} (d : β) (k : β → Prog S α) : Prog S α
  /-- Repeat `body` on a local state until it leaves the loop with a result. -/
  | loop {α β σ : Type} (body : σ → Prog S (σ ⊕ β)) (x : σ) (k : β → Prog S α) : Prog S α
  /-- Fork `n` threads and continue when all of them have returned. -/
  | par {α ρ : Type} {n : Nat} (ps : Fin n → Prog S ρ) (k : (Fin n → ρ) → Prog S α) : Prog S α

namespace Prog

variable {S α β γ : Type}

/-- Sequential composition. -/
def bind : {α : Type} → Prog S α → (α → Prog S β) → Prog S β
  | _, ret a, f => f a
  | _, atomic g k, f => atomic g fun b => (k b).bind f
  | _, choose d k, f => choose d fun b => (k b).bind f
  | _, loop body x k, f => loop body x fun b => (k b).bind f
  | _, par ps k, f => par ps fun r => (k r).bind f

instance : Monad (Prog S) where
  pure := ret
  bind := bind

@[simp] theorem pure_eq (a : α) : (pure a : Prog S α) = ret a := rfl

@[simp] theorem bind_eq (p : Prog S α) (f : α → Prog S β) : p >>= f = p.bind f := rfl

@[simp] theorem ret_bind (a : α) (f : α → Prog S β) : (ret a : Prog S α).bind f = f a := rfl

theorem bind_assoc (p : Prog S α) (f : α → Prog S β) (g : β → Prog S γ) :
    (p.bind f).bind g = p.bind fun a => (f a).bind g := by
  induction p with
  | ret a => rfl
  | atomic h k ih => simp only [bind, ih]
  | choose d k ih => simp only [bind, ih]
  | loop body x k _ ih => simp only [bind, ih]
  | par ps k _ ih => simp only [bind, ih]

/-! ## Primitive operations -/

/-- One atomic operation whose outcome is returned. -/
def op (f : S → Option (β × S)) : Prog S β := atomic f ret

/-- Atomic load. -/
def load (get : S → β) : Prog S β := op fun s => some (get s, s)

/-- Atomic load that is undefined outside the allocation. -/
def loadAt (get : S → Option β) : Prog S β := op fun s => (get s).map fun b => (b, s)

/-- Atomic store. -/
def store (upd : S → S) : Prog S Unit := op fun s => some ((), upd s)

/-- Atomic store that is undefined outside the allocation. -/
def storeAt (upd : S → Option S) : Prog S Unit := op fun s => (upd s).map fun t => ((), t)

/-- Undefined behaviour. -/
def fail : Prog S β := op fun _ => none

/-- An assertion: undefined unless `P` holds. -/
def check (P : S → Prop) [DecidablePred P] : Prog S Unit := loadAt fun s => if P s then some () else none

/-- Any value at all. -/
def pick (d : β) : Prog S β := choose d ret

/-- `while`: run `body` on a local state until it returns a result. -/
def iter {σ : Type} (body : σ → Prog S (σ ⊕ β)) (x : σ) : Prog S β := loop body x ret

/-- Fork `n` threads and return their results once all have finished. -/
def fork {n : Nat} (ps : Fin n → Prog S β) : Prog S (Fin n → β) := par ps ret

/-- `for b in l`, threading a local state. -/
def forEach {σ : Type} : List β → σ → (β → σ → Prog S σ) → Prog S σ
  | [], x, _ => ret x
  | b :: l, x, body => (body b x).bind fun y => forEach l y body

/-- `for b in l` with a `break`: the body leaves the loop by returning `.inr`. -/
def forBreak {σ ρ : Type} : List β → σ → (β → σ → Prog S (σ ⊕ ρ)) → Prog S (σ ⊕ ρ)
  | [], x, _ => ret (.inl x)
  | b :: l, x, body => (body b x).bind fun
    | .inl y => forBreak l y body
    | .inr r => ret (.inr r)

/-! ## Interleavings -/

/-- What a loop does next: one more run of its body, then either another turn or the exit. -/
def unroll {σ : Type} (body : σ → Prog S (σ ⊕ β)) (k : β → Prog S α) : σ ⊕ β → Prog S α
  | .inl y => loop body y k
  | .inr b => k b

/-- One step: in a parallel block any thread may move, and the block ends when all have returned. -/
def Step : {α : Type} → Prog S α → S → Prog S α → S → Prop
  | _, ret _, _, _, _ => False
  | _, atomic f k, s, q, t => ∃ b, f s = some (b, t) ∧ q = k b
  | _, choose _ k, s, q, t => ∃ b, q = k b ∧ t = s
  | _, loop body x k, s, q, t => q = (body x).bind (unroll body k) ∧ t = s
  | _, par ps k, s, q, t =>
      (∃ i p, Step (ps i) s p t ∧ q = par (Function.update ps i p) k) ∨
      (∃ r, (∀ i, ps i = ret (r i)) ∧ q = k r ∧ t = s)

/-- Some thread is about to perform an undefined operation. -/
def Fails : {α : Type} → Prog S α → S → Prop
  | _, ret _, _ => False
  | _, atomic f _, s => f s = none
  | _, choose _ _, _ => False
  | _, loop _ _ _, _ => False
  | _, par ps _, s => ∃ i, Fails (ps i) s

/-- One step of a program together with its memory. -/
def Next (c d : Prog S α × S) : Prop := Step c.1 c.2 d.1 d.2

/-- The configurations that some interleaving leads to. -/
abbrev Reach : Prog S α × S → Prog S α × S → Prop := Relation.ReflTransGen Next

/-- Nothing blocks: a program that has not returned and is not about to fail can take a step. -/
theorem progress (p : Prog S α) (s : S) :
    (∃ a, p = ret a) ∨ Fails p s ∨ ∃ q t, Step p s q t := by
  induction p with
  | ret a => exact .inl ⟨a, rfl⟩
  | atomic f k _ =>
    rcases hf : f s with _ | ⟨b, t⟩
    · exact .inr (.inl hf)
    · exact .inr (.inr ⟨k b, t, b, hf, rfl⟩)
  | choose d k _ => exact .inr (.inr ⟨k d, s, d, rfl, rfl⟩)
  | loop body x k _ _ => exact .inr (.inr ⟨_, s, rfl, rfl⟩)
  | par ps k ih _ =>
    by_cases hall : ∀ i, ∃ a, ps i = ret a
    · choose r hr using hall
      exact .inr (.inr ⟨k r, s, .inr ⟨r, hr, rfl, rfl⟩⟩)
    · obtain ⟨i, hi⟩ := not_forall.mp hall
      rcases ih i with h | h | ⟨q, t, h⟩
      · exact absurd h hi
      · exact .inr (.inl ⟨i, h⟩)
      · exact .inr (.inr ⟨_, t, .inl ⟨i, q, h, rfl⟩⟩)

/-- Total correctness over every interleaving: no run is infinite, none performs an undefined
operation, and every run that returns does so with a result and a memory satisfying `Q`. -/
structure Correct (p : Prog S α) (s : S) (Q : α → S → Prop) : Prop where
  terminates : Acc (fun d c => Next c d) (p, s)
  safe : ∀ q t, Reach (p, s) (q, t) → ¬ Fails q t
  result : ∀ a t, Reach (p, s) (ret a, t) → Q a t

theorem Correct.mono {p : Prog S α} {s : S} {Q Q' : α → S → Prop} (h : Correct p s Q)
    (hQ : ∀ a t, Q a t → Q' a t) : Correct p s Q' :=
  ⟨h.terminates, h.safe, fun a t hr => hQ a t (h.result a t hr)⟩

theorem acc_of_reach {c d : Prog S α × S} (hc : Acc (fun d c => Next c d) c) (hr : Reach c d) :
    Acc (fun d c => Next c d) d := by
  induction hr with
  | refl => exact hc
  | tail _ hstep ih => exact ih.inv hstep

/-- A correct program really returns: from every configuration it reaches, some run goes on to a
result. -/
theorem Correct.returns {p : Prog S α} {s : S} {Q : α → S → Prop} (h : Correct p s Q)
    {q : Prog S α} {t : S} (hr : Reach (p, s) (q, t)) : ∃ a u, Reach (q, t) (ret a, u) := by
  have hacc := acc_of_reach h.terminates hr
  generalize hc : (q, t) = c at hacc
  induction hacc generalizing q t with
  | intro c _ ih =>
    subst hc
    rcases progress q t with ⟨a, rfl⟩ | hf | ⟨q', t', hs⟩
    · exact ⟨a, t, .refl⟩
    · exact absurd hf (h.safe q t hr)
    · obtain ⟨a, u, hu⟩ := ih (q', t') hs (hr.tail hs) rfl
      exact ⟨a, u, .head (show Next (q, t) (q', t') from hs) hu⟩

/-! ## Failing runs -/

theorem Step.bind {p q : Prog S β} {s t : S} (h : Step p s q t) (f : β → Prog S α) :
    Step (p.bind f) s (q.bind f) t := by
  cases p with
  | ret a => exact h.elim
  | atomic g k =>
    obtain ⟨b, hb, rfl⟩ := h
    exact ⟨b, hb, rfl⟩
  | choose d k =>
    obtain ⟨b, rfl, rfl⟩ := h
    exact ⟨b, rfl, rfl⟩
  | loop body x k =>
    obtain ⟨rfl, rfl⟩ := h
    refine ⟨?_, rfl⟩
    rw [bind_assoc]
    congr 1
    funext r
    cases r <;> rfl
  | par ps k =>
    rcases h with ⟨i, p, hi, rfl⟩ | ⟨r, hr, rfl, rfl⟩
    · exact .inl ⟨i, p, hi, rfl⟩
    · exact .inr ⟨r, hr, rfl, rfl⟩

theorem Fails.bind {p : Prog S β} {s : S} (h : Fails p s) (f : β → Prog S α) :
    Fails (p.bind f) s := by
  cases p with
  | ret a => exact h.elim
  | atomic g k => exact h
  | choose d k => exact h
  | loop body x k => exact h
  | par ps k => exact h

theorem Fails.of_bind {p : Prog S β} {f : β → Prog S α} {s : S} (h : (p.bind f).Fails s) :
    (∃ b, p = ret b) ∨ p.Fails s := by
  cases p with
  | ret b => exact .inl ⟨b, rfl⟩
  | _ => exact .inr h

theorem Step.of_bind {p : Prog S β} {f : β → Prog S α} {s t : S} {q : Prog S α}
    (h : (p.bind f).Step s q t) : (∃ b, p = ret b) ∨ ∃ p', p.Step s p' t ∧ q = p'.bind f := by
  cases p with
  | ret b => exact .inl ⟨b, rfl⟩
  | atomic g k =>
    obtain ⟨b, hb, rfl⟩ := h
    exact .inr ⟨k b, ⟨b, hb, rfl⟩, rfl⟩
  | choose d k =>
    obtain ⟨b, rfl, rfl⟩ := h
    exact .inr ⟨k b, ⟨b, rfl, rfl⟩, rfl⟩
  | loop body x k =>
    obtain ⟨rfl, rfl⟩ := h
    refine .inr ⟨_, ⟨rfl, rfl⟩, ?_⟩
    rw [bind_assoc]
    congr 1
    funext r
    cases r <;> rfl
  | par ps k =>
    rcases h with ⟨i, p', hi, rfl⟩ | ⟨r, hr, rfl, rfl⟩
    · exact .inr ⟨_, .inl ⟨i, p', hi, rfl⟩, rfl⟩
    · exact .inr ⟨k r, .inr ⟨r, hr, rfl, rfl⟩, rfl⟩

theorem Reach.bind {p q : Prog S β} {s t : S} (h : Reach (p, s) (q, t)) (f : β → Prog S α) :
    Reach (p.bind f, s) (q.bind f, t) := by
  have hlift := Relation.ReflTransGen.lift (p := Next) (fun c : Prog S β × S => (c.1.bind f, c.2))
    (fun _ _ hs => Step.bind hs f) _ _ h
  exact hlift

theorem Reach.par {n : Nat} {ps : Fin n → Prog S β} {k : (Fin n → β) → Prog S α} {i : Fin n}
    {q : Prog S β} {s t : S} (h : Reach (ps i, s) (q, t)) :
    Reach (par ps k, s) (par (Function.update ps i q) k, t) := by
  generalize hd : (q, t) = d at h
  induction h generalizing q t with
  | refl =>
    obtain ⟨rfl, rfl⟩ := Prod.mk.inj hd
    rw [Function.update_eq_self]
  | @tail c e _ hstep ih =>
    obtain ⟨rfl, rfl⟩ := Prod.mk.inj hd.symm
    refine (ih rfl).tail (.inl ⟨i, e.1, ?_, ?_⟩)
    · rw [Function.update_self]
      exact hstep
    · rw [Function.update_idem]

/-- Some run comes to an undefined operation. -/
def CanFail (p : Prog S α) (s : S) : Prop := ∃ q t, Reach (p, s) (q, t) ∧ Fails q t

theorem CanFail.not_correct {p : Prog S α} {s : S} {Q : α → S → Prop} (h : CanFail p s) :
    ¬ Correct p s Q := by
  intro hc
  obtain ⟨q, t, hr, hf⟩ := h
  exact hc.safe q t hr hf

theorem CanFail.bind {p : Prog S β} {s : S} (h : CanFail p s) (f : β → Prog S α) :
    CanFail (p.bind f) s := by
  obtain ⟨q, t, hr, hf⟩ := h
  exact ⟨q.bind f, t, Reach.bind hr f, hf.bind f⟩

/-- A thread that can fail lets the whole block fail. -/
theorem CanFail.fork {n : Nat} {ps : Fin n → Prog S β} {i : Fin n} {s : S} (h : CanFail (ps i) s) :
    CanFail (Prog.fork ps) s := by
  obtain ⟨q, t, hr, hf⟩ := h
  refine ⟨_, t, Reach.par hr, i, ?_⟩
  rwa [Function.update_self]

/-- A correct program that is followed by one that can fail. -/
theorem Correct.canFail_bind {p : Prog S β} {s : S} {Q : β → S → Prop} {f : β → Prog S α}
    (h : Correct p s Q) (hf : ∀ a t, Q a t → CanFail (f a) t) : CanFail (p.bind f) s := by
  obtain ⟨a, t, hr⟩ := h.returns .refl
  obtain ⟨q, u, hq, hfail⟩ := hf a t (h.result a t hr)
  exact ⟨q, u, (Reach.bind hr f).trans hq, hfail⟩

theorem canFail_fail (s : S) : CanFail (fail : Prog S α) s := ⟨_, s, .refl, rfl⟩

/-! ## A default scheduler

It resolves every choice by the default and always moves the first thread that can move, so that
single runs can be evaluated. -/

/-- The value of a program that has returned. -/
def ret? : {α : Type} → Prog S α → Option α
  | _, ret a => some a
  | _, _ => none

theorem ret?_eq_some {p : Prog S α} {a : α} (h : p.ret? = some a) : p = ret a := by
  cases p <;> simp_all [ret?]

/-- One step of the default schedule. -/
def stepDefault : {α : Type} → Prog S α → S → Option (Prog S α × S)
  | _, ret _, _ => none
  | _, atomic f k, s => (f s).map fun r => (k r.1, r.2)
  | _, choose d k, s => some (k d, s)
  | _, loop body x k, s => some ((body x).bind (unroll body k), s)
  | _, par (n := n) ps k, s =>
      match (List.finRange n).findSome? fun i => (stepDefault (ps i) s).map fun r => (i, r) with
      | some (i, q, t) => some (par (Function.update ps i q) k, t)
      | none =>
          if h : ∀ i, ((ps i).ret?).isSome then some (k fun i => (ps i).ret?.get (h i), s) else none

theorem stepDefault_step {p q : Prog S α} {s t : S} (h : stepDefault p s = some (q, t)) :
    Step p s q t := by
  induction p with
  | ret a => simp [stepDefault] at h
  | atomic f k _ =>
    simp only [stepDefault, Option.map_eq_some_iff] at h
    obtain ⟨⟨b, u⟩, hf, heq⟩ := h
    obtain ⟨rfl, rfl⟩ := Prod.mk.inj heq
    exact ⟨b, hf, rfl⟩
  | choose d k _ =>
    obtain ⟨rfl, rfl⟩ := Prod.mk.inj (Option.some.inj h)
    exact ⟨d, rfl, rfl⟩
  | loop body x k _ _ =>
    obtain ⟨rfl, rfl⟩ := Prod.mk.inj (Option.some.inj h)
    exact ⟨rfl, rfl⟩
  | par ps k ih _ =>
    simp only [stepDefault] at h
    split at h
    · next i q' t' hfind =>
      obtain ⟨rfl, rfl⟩ := Prod.mk.inj (Option.some.inj h)
      obtain ⟨j, _, hj⟩ := List.exists_of_findSome?_eq_some hfind
      obtain ⟨r, hr, heq⟩ := Option.map_eq_some_iff.mp hj
      obtain ⟨rfl, rfl⟩ := Prod.mk.inj heq
      exact .inl ⟨j, q', ih j hr, rfl⟩
    · split at h
      · next hall =>
        obtain ⟨rfl, rfl⟩ := Prod.mk.inj (Option.some.inj h)
        exact .inr ⟨_, fun i => ret?_eq_some (Option.some_get (hall i)).symm, rfl, rfl⟩
      · simp at h

/-- The configuration after at most `fuel` steps of the default schedule. -/
def run : Nat → Prog S α → S → Prog S α × S
  | 0, p, s => (p, s)
  | fuel + 1, p, s =>
      match stepDefault p s with
      | some (q, t) => run fuel q t
      | none => (p, s)

theorem reach_run (fuel : Nat) (p : Prog S α) (s : S) : Reach (p, s) (run fuel p s) := by
  induction fuel generalizing p s with
  | zero => exact .refl
  | succ fuel ih =>
    rw [run]
    split
    · next q t h => exact .head (show Next (p, s) (q, t) from stepDefault_step h) (ih q t)
    · exact .refl

end Prog

end Conc
