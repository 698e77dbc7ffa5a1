import Mathlib.Logic.Basic

/-!
# Computations that may run for ever

A `Fueled α` can be run with any amount of fuel.  It runs out of it or returns an `α`, and more fuel
does not change what it returns.
-/

/-- A computation, and that its result does not depend on the fuel. -/
structure Fueled (α : Type) where
  run : Nat → Option α
  mono : ∀ {k l a}, k ≤ l → run k = some a → run l = some a

namespace Fueled

variable {α β σ : Type}

/-- With enough fuel, the computation returns `a`. -/
def Returns (p : Fueled α) (a : α) : Prop := ∃ k, p.run k = some a

/-- The computation does not run for ever. -/
def Terminates (p : Fueled α) : Prop := ∃ a, p.Returns a

theorem Returns.unique {p : Fueled α} {a b : α} (ha : p.Returns a) (hb : p.Returns b) : a = b := by
  obtain ⟨k, hk⟩ := ha
  obtain ⟨l, hl⟩ := hb
  have hk' := p.mono (Nat.le_max_left k l) hk
  have hl' := p.mono (Nat.le_max_right k l) hl
  exact Option.some.inj (hk'.symm.trans hl')

/-! ## One computation after the other -/

instance : Monad Fueled where
  pure a := ⟨fun _ => some a, fun _ h => h⟩
  bind p f := {
    run k := (p.run k).bind fun a => (f a).run k
    mono := by
      intro k l b hkl h
      obtain ⟨a, ha, hb⟩ := Option.bind_eq_some_iff.mp h
      exact Option.bind_eq_some_iff.mpr ⟨a, p.mono hkl ha, (f a).mono hkl hb⟩ }

@[simp] theorem returns_pure {a b : α} : (pure a : Fueled α).Returns b ↔ a = b := by
  constructor
  · rintro ⟨_, h⟩
    exact Option.some.inj h
  · rintro rfl
    exact ⟨0, rfl⟩

@[simp] theorem returns_bind {p : Fueled α} {f : α → Fueled β} {b : β} :
    (p >>= f).Returns b ↔ ∃ a, p.Returns a ∧ (f a).Returns b := by
  constructor
  · rintro ⟨k, h⟩
    obtain ⟨a, ha, hb⟩ := Option.bind_eq_some_iff.mp h
    exact ⟨a, ⟨k, ha⟩, k, hb⟩
  · rintro ⟨a, ⟨k, ha⟩, l, hb⟩
    have ha' := p.mono (Nat.le_max_left k l) ha
    have hb' := (f a).mono (Nat.le_max_right k l) hb
    exact ⟨max k l, Option.bind_eq_some_iff.mpr ⟨a, ha', hb'⟩⟩

theorem Returns.bind_iff {p : Fueled α} {a : α} (h : p.Returns a) {f : α → Fueled β} {b : β} :
    (p >>= f).Returns b ↔ (f a).Returns b := by
  rw [returns_bind]
  constructor
  · rintro ⟨a', ha', hb⟩
    rwa [h.unique ha']
  · exact fun hb => ⟨a, h, hb⟩

theorem terminates_bind {p : Fueled α} {f : α → Fueled β} :
    (p >>= f).Terminates ↔ ∃ a, p.Returns a ∧ (f a).Terminates := by
  unfold Terminates
  simp only [returns_bind]
  constructor
  · rintro ⟨b, a, ha, hb⟩
    exact ⟨a, ha, b, hb⟩
  · rintro ⟨a, ha, b, hb⟩
    exact ⟨b, a, ha, hb⟩

theorem Terminates.bind {p : Fueled α} {f : α → Fueled β} (h : p.Terminates)
    (hf : ∀ a, p.Returns a → (f a).Terminates) : (p >>= f).Terminates := by
  obtain ⟨a, ha⟩ := h
  exact terminates_bind.mpr ⟨a, ha, hf a ha⟩

theorem terminates_pure (a : α) : (pure a : Fueled α).Terminates := ⟨a, returns_pure.mpr rfl⟩

/-! ## Loops -/

/-- At most `depth` iterations, all with the same fuel. -/
def iterate (body : σ → Fueled (σ ⊕ α)) (fuel : Nat) : Nat → σ → Option α
  | 0, _ => none
  | depth + 1, s => ((body s).run fuel).bind fun
    | .inl s' => iterate body fuel depth s'
    | .inr a => some a

theorem iterate_mono {body : σ → Fueled (σ ⊕ α)} {k l : Nat} (hkl : k ≤ l) {depth depth' : Nat}
    (hdepth : depth ≤ depth') {s : σ} {a : α} (h : iterate body k depth s = some a) :
    iterate body l depth' s = some a := by
  induction depth generalizing depth' s with
  | zero => cases h
  | succ depth ih =>
    obtain ⟨depth', rfl⟩ := Nat.exists_eq_add_of_le' (Nat.lt_of_lt_of_le (Nat.succ_pos depth) hdepth)
    obtain ⟨r, hr, hrest⟩ := Option.bind_eq_some_iff.mp h
    apply Option.bind_eq_some_iff.mpr
    refine ⟨r, (body s).mono hkl hr, ?_⟩
    cases r with
    | inl s' => exact ih (Nat.le_of_succ_le_succ hdepth) hrest
    | inr b => exact hrest

/-- `while`: run the body on a state until it gives a result. -/
def loop (body : σ → Fueled (σ ⊕ α)) (s : σ) : Fueled α where
  run k := iterate body k k s
  mono h := iterate_mono h h

variable {body : σ → Fueled (σ ⊕ α)} {s s' : σ} {a : α}

theorem returns_loop : (loop body s).Returns a ↔
    ∃ r, (body s).Returns r ∧ match r with
      | .inl s' => (loop body s').Returns a
      | .inr b => b = a := by
  constructor
  · rintro ⟨k, h⟩
    cases k with
    | zero => cases h
    | succ k =>
      obtain ⟨r, hr, hrest⟩ := Option.bind_eq_some_iff.mp h
      refine ⟨r, ⟨k + 1, hr⟩, ?_⟩
      cases r with
      | inl s' => exact ⟨k + 1, iterate_mono (Nat.le_refl _) (Nat.le_succ k) hrest⟩
      | inr b => exact Option.some.inj hrest
  · rintro ⟨r, ⟨k, hr⟩, hrest⟩
    cases r with
    | inl s' =>
      obtain ⟨l, hl⟩ := hrest
      refine ⟨max k l + 1, Option.bind_eq_some_iff.mpr ⟨_, (body s).mono ?_ hr, ?_⟩⟩
      · omega
      · exact iterate_mono (by omega) (Nat.le_max_right k l) hl
    | inr b =>
      refine ⟨k + 1, Option.bind_eq_some_iff.mpr ⟨_, (body s).mono (Nat.le_succ k) hr, ?_⟩⟩
      exact congrArg some hrest

theorem Returns.loop_next (h : (body s).Returns (.inl s')) :
    (loop body s).Returns a ↔ (loop body s').Returns a := by
  rw [returns_loop]
  constructor
  · rintro ⟨r, hr, hrest⟩
    obtain rfl := h.unique hr
    exact hrest
  · exact fun hrest => ⟨.inl s', h, hrest⟩

theorem Returns.loop_exit {b : α} (h : (body s).Returns (.inr b)) :
    (loop body s).Returns a ↔ b = a := by
  rw [returns_loop]
  constructor
  · rintro ⟨r, hr, hrest⟩
    obtain rfl := h.unique hr
    exact hrest
  · exact fun hrest => ⟨.inr b, h, hrest⟩

/-- What every iteration keeps holds when the loop ends. -/
theorem Returns.loop_invariant (h : (loop body s).Returns a) (Inv : σ → Prop) (hs : Inv s)
    (hstep : ∀ s s', Inv s → (body s).Returns (.inl s') → Inv s') :
    ∃ t, Inv t ∧ (body t).Returns (.inr a) := by
  obtain ⟨k, h⟩ := h
  have hrun : ∀ depth s, Inv s → iterate body k depth s = some a →
      ∃ t, Inv t ∧ (body t).Returns (.inr a) := by
    intro depth
    induction depth with
    | zero => exact fun _ _ h => nomatch h
    | succ depth ih =>
      intro s hs h
      obtain ⟨r, hr, hrest⟩ := Option.bind_eq_some_iff.mp h
      cases r with
      | inl s' => exact ih s' (hstep s s' hs ⟨k, hr⟩) hrest
      | inr b =>
        obtain rfl := Option.some.inj hrest
        exact ⟨s, hs, k, hr⟩
  exact hrun k s hs h

/-- A loop ends if every iteration but the last one lowers a measure. -/
theorem loop_terminates (Inv : σ → Prop) (measure : σ → Nat) (hs : Inv s)
    (hstep : ∀ s, Inv s → (∃ a, (body s).Returns (.inr a)) ∨
      ∃ s', (body s).Returns (.inl s') ∧ Inv s' ∧ measure s' < measure s) :
    (loop body s).Terminates := by
  induction hk : measure s using Nat.strongRecOn generalizing s with
  | _ k ih =>
    rcases hstep s hs with ⟨a, ha⟩ | ⟨s', hr, hs', hlt⟩
    · exact ⟨a, ha.loop_exit.mpr rfl⟩
    · obtain ⟨a, ha⟩ := ih (measure s') (hk ▸ hlt) hs' rfl
      exact ⟨a, hr.loop_next.mpr ha⟩

end Fueled
