import Mathlib.Data.List.Destutter
import Mathlib.Order.Monotone.Defs

/-!
# The first element of every key

A list that is sorted by an order that refines the one of the keys has the elements of one key next to
each other, the least of them first.  Dropping each element whose key is that of the last one kept
leaves the least element of every key, and nothing else.
-/

namespace FirstOfKey

variable {α K : Type} [PartialOrder α] [PartialOrder K] [DecidableEq K] {key : α → K}

/-- Drop the elements whose key has just been seen. -/
def firsts (key : α → K) (l : List α) : List α := l.destutter fun a b => key a ≠ key b

/-- The least element of its key in the list. -/
def LeastOfKey (key : α → K) (l : List α) (d : α) : Prop := d ∈ l ∧ ∀ x ∈ l, key x = key d → d ≤ x

omit [PartialOrder K] [DecidableEq K] in
/-- Behind an element of the same key there is no other least one. -/
theorem leastOfKey_same {a b d : α} {l : List α} (hab : a ≤ b) (hsame : key a = key b) :
    LeastOfKey key (a :: l) d ↔ LeastOfKey key (a :: b :: l) d := by
  simp only [LeastOfKey, List.mem_cons, forall_eq_or_imp]
  constructor
  · rintro ⟨hd, ha, hl⟩
    exact ⟨hd.imp_right .inr, ha, fun hb => (ha (hsame.trans hb)).trans hab, hl⟩
  · rintro ⟨rfl | rfl | hd, ha, -, hl⟩
    · exact ⟨.inl rfl, ha, hl⟩
    · exact ⟨.inl (le_antisymm (ha hsame) hab), ha, hl⟩
    · exact ⟨.inr hd, ha, hl⟩

omit [DecidableEq K] in
/-- The only element of its key is the least one. -/
theorem leastOfKey_apart {a d : α} {l : List α} (hapart : ∀ x ∈ l, key a < key x) :
    LeastOfKey key (a :: l) d ↔ d = a ∨ LeastOfKey key l d := by
  simp only [LeastOfKey, List.mem_cons, forall_eq_or_imp]
  constructor
  · rintro ⟨rfl | hd, -, hl⟩
    · exact .inl rfl
    · exact .inr ⟨hd, hl⟩
  · rintro (rfl | ⟨hd, hl⟩)
    · exact ⟨.inl rfl, fun _ => le_rfl, fun x hx hxd => absurd hxd (hapart x hx).ne'⟩
    · exact ⟨.inr hd, fun had => absurd had (hapart d hd).ne, hl⟩

/-- What is left of a sorted list that begins with `a`. -/
theorem mem_destutter'_iff (hkey : Monotone key) {a d : α} {l : List α}
    (h : (a :: l).Pairwise (· ≤ ·)) :
    d ∈ l.destutter' (fun a b => key a ≠ key b) a ↔ LeastOfKey key (a :: l) d := by
  induction l generalizing a with
  | nil =>
    rw [List.destutter'_nil, leastOfKey_apart (by simp), List.mem_singleton]
    simp [LeastOfKey]
  | cons b l ih =>
    obtain ⟨hle, htail⟩ := List.pairwise_cons.mp h
    have hab : a ≤ b := hle b List.mem_cons_self
    by_cases hsame : key a = key b
    · -- `b` is dropped, and `a` is below it
      rw [List.destutter'_cons_neg _ (not_not.mpr hsame), ih (h.sublist (by simp))]
      exact leastOfKey_same hab hsame
    · -- `a` is the only element of its key
      have hlt (x : α) (hx : x ∈ b :: l) : key a < key x := by
        have hbx : b ≤ x := by
          rcases List.mem_cons.mp hx with rfl | hx
          · exact le_rfl
          · exact (List.pairwise_cons.mp htail).1 x hx
        exact lt_of_lt_of_le (lt_of_le_of_ne (hkey hab) hsame) (hkey hbx)
      rw [List.destutter'_cons_pos _ hsame, List.mem_cons, ih htail]
      exact (leastOfKey_apart hlt).symm

theorem mem_firsts (hkey : Monotone key) {d : α} {l : List α} (h : l.Pairwise (· ≤ ·)) :
    d ∈ firsts key l ↔ d ∈ l ∧ ∀ x ∈ l, key x = key d → d ≤ x := by
  cases l with
  | nil => simp [firsts]
  | cons a l => exact mem_destutter'_iff hkey h

/-- The keys that are left are strictly increasing. -/
theorem firsts_pairwise (hkey : Monotone key) {l : List α} (h : l.Pairwise (· ≤ ·)) :
    (firsts key l).Pairwise fun a b => key a < key b := by
  have hsorted : (firsts key l).IsChain (· ≤ ·) := (h.sublist (List.destutter_sublist _ l)).isChain
  have hchain : (firsts key l).IsChain fun a b => key a ≠ key b := List.isChain_destutter _ l
  have hlt : (firsts key l).IsChain fun a b => key a < key b := by
    rw [List.isChain_iff_getElem] at hsorted hchain ⊢
    exact fun i hi => lt_of_le_of_ne (hkey (hsorted i hi)) (hchain i hi)
  have htrans : IsTrans α fun a b => key a < key b := ⟨fun _ _ _ => lt_trans⟩
  exact List.isChain_iff_pairwise.mp hlt

end FirstOfKey
