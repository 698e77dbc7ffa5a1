import Mathlib.Logic.Equiv.Basic
import Gapbs.Lib.BlockHeap

/-!
# Owners of arrays

Every array of a heap has exactly one owner.  An owner is a slot that stores the number of the array; to
allocate fills an empty slot, to free empties one, and to move storage permutes the slots.
-/

namespace BlockHeap

open Function

variable {E σ : Type}

/-- The slots own the arrays of the heap, each of them one at most. -/
structure Owns (h : Heap E) (slot : σ → Option Nat) : Prop where
  ok : h.Ok
  alive : ∀ s b, slot s = some b → h.blocks b ≠ none
  owner : ∀ b, h.blocks b ≠ none → ∃ s, slot s = some b
  apart : ∀ s s' b, slot s = some b → slot s' = some b → s = s'

namespace Owns

variable {h : Heap E} {slot : σ → Option Nat}

theorem empty : Owns (Heap.empty : Heap E) fun _ : σ => none :=
  ⟨Heap.ok_empty, by simp, fun _ h => absurd rfl h, by simp⟩

/-- No array is left when no slot owns one. -/
theorem blocks_eq_none (ho : Owns h slot) (hslot : ∀ s, slot s = none) (b : Nat) : h.blocks b = none := by
  by_contra hb
  obtain ⟨s, hs⟩ := ho.owner b hb
  rw [hslot s] at hs
  cases hs

/-- Arrays of different slots are different. -/
theorem ne_of_ne (ho : Owns h slot) {s s' : σ} {b b' : Nat} (hs : slot s = some b)
    (hs' : slot s' = some b') (hne : s ≠ s') : b ≠ b' := by
  rintro rfl
  exact hne (ho.apart s s' b hs hs')

theorem ne_next (ho : Owns h slot) {s : σ} {b : Nat} (hs : slot s = some b) : b ≠ h.next := by
  rintro rfl
  exact ho.alive s _ hs (ho.ok.fresh _ (Nat.le_refl _))

/-- The slots trade places. -/
theorem equiv (ho : Owns h slot) (e : σ ≃ σ) : Owns h (slot ∘ e) := by
  refine ⟨ho.ok, fun s b hs => ho.alive (e s) b hs, fun b hb => ?_, fun s s' b hs hs' => ?_⟩
  · obtain ⟨s, hs⟩ := ho.owner b hb
    exact ⟨e.symm s, by rwa [comp_apply, e.apply_symm_apply]⟩
  · exact e.injective (ho.apart _ _ b hs hs')

/-- An array changes its cells. -/
theorem put (ho : Owns h slot) {s : σ} {b : Nat} (hs : slot s = some b) {cells : List (Option E)}
    (hsmall : cells.length < 2 ^ 63) : Owns (h.put b (some cells)) slot := by
  have hlive : h.blocks b ≠ none := ho.alive s b hs
  have hiff (b' : Nat) : (h.put b (some cells)).blocks b' ≠ none ↔ h.blocks b' ≠ none := by
    by_cases hb : b' = b
    · subst hb
      simp [hlive]
    · rw [Heap.put_of_ne hb]
  refine ⟨?_, fun s' b' hs' => (hiff b').mpr (ho.alive s' b' hs'),
    fun b' hb' => ho.owner b' ((hiff b').mp hb'), ho.apart⟩
  obtain ⟨old, hold⟩ := Option.ne_none_iff_exists'.mp hlive
  apply ho.ok.put (ho.ok.lt_next hold)
  rintro _ ⟨⟩
  exact hsmall

variable [DecidableEq σ]

/-- An empty slot takes the new array. -/
theorem new (ho : Owns h slot) {s : σ} (hs : slot s = none) {h' : Heap E} (hok : h'.Ok)
    (hblock : h'.blocks h.next ≠ none) (hkept : ∀ b, b ≠ h.next → h'.blocks b = h.blocks b) :
    Owns h' (update slot s (some h.next)) := by
  have hfilled (s' : σ) (b : Nat) (hs' : update slot s (some h.next) s' = some b) :
      s' = s ∧ b = h.next ∨ s' ≠ s ∧ slot s' = some b := by
    by_cases heq : s' = s
    · subst heq
      rw [update_self] at hs'
      exact .inl ⟨rfl, (Option.some.inj hs').symm⟩
    · rw [update_of_ne heq] at hs'
      exact .inr ⟨heq, hs'⟩
  refine ⟨hok, fun s' b hs' => ?_, fun b hb => ?_, fun s₁ s₂ b h₁ h₂ => ?_⟩
  · rcases hfilled s' b hs' with ⟨-, rfl⟩ | ⟨-, hold⟩
    · exact hblock
    · rw [hkept b (ho.ne_next hold)]
      exact ho.alive s' b hold
  · by_cases hnext : b = h.next
    · exact ⟨s, by rw [update_self, hnext]⟩
    · rw [hkept b hnext] at hb
      obtain ⟨s', hs'⟩ := ho.owner b hb
      have hne : s' ≠ s := by
        rintro rfl
        rw [hs] at hs'
        cases hs'
      exact ⟨s', by rw [update_of_ne hne, hs']⟩
  · rcases hfilled s₁ b h₁ with ⟨rfl, hb⟩ | ⟨-, hold₁⟩ <;>
      rcases hfilled s₂ b h₂ with ⟨rfl, hb'⟩ | ⟨-, hold₂⟩
    · rfl
    · exact absurd hb (ho.ne_next hold₂)
    · exact absurd hb' (ho.ne_next hold₁)
    · exact ho.apart s₁ s₂ b hold₁ hold₂

/-- A slot frees its array. -/
theorem free (ho : Owns h slot) {s : σ} {b : Nat} (hs : slot s = some b) :
    Owns (h.put b none) (update slot s none) := by
  have hleft (s' : σ) (b' : Nat) (hs' : update slot s none s' = some b') :
      s' ≠ s ∧ slot s' = some b' := by
    by_cases heq : s' = s
    · subst heq
      rw [update_self] at hs'
      cases hs'
    · rw [update_of_ne heq] at hs'
      exact ⟨heq, hs'⟩
  refine ⟨?_, fun s' b' hs' => ?_, fun b' hb' => ?_, fun s₁ s₂ b' h₁ h₂ => ?_⟩
  · obtain ⟨cells, hcells⟩ := Option.ne_none_iff_exists'.mp (ho.alive s b hs)
    apply ho.ok.put (ho.ok.lt_next hcells)
    rintro _ ⟨⟩
  · obtain ⟨hne, hold⟩ := hleft s' b' hs'
    rw [Heap.put_of_ne (ho.ne_of_ne hold hs hne)]
    exact ho.alive s' b' hold
  · by_cases hb : b' = b
    · subst hb
      exact absurd (Heap.put_self _) hb'
    · rw [Heap.put_of_ne hb] at hb'
      obtain ⟨s', hs'⟩ := ho.owner b' hb'
      have hne : s' ≠ s := by
        rintro rfl
        exact hb (Option.some.inj (hs'.symm.trans hs))
      exact ⟨s', by rw [update_of_ne hne, hs']⟩
  · exact ho.apart s₁ s₂ b' (hleft s₁ b' h₁).2 (hleft s₂ b' h₂).2

end Owns

end BlockHeap
