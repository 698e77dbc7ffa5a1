import Gapbs.Io.Tokens

/-!
# Printed numbers

`out << x` for an integer writes its decimal digits, behind a minus sign if it is negative.  What is written
is a numeral with the value `x`.
-/

namespace Gapbs

open InStream

/-- The decimal digits of a number. -/
def digitsOf (k : Nat) : List UInt8 := (Nat.toDigits 10 k).map Char.toUInt8

theorem digitsOf_of_lt {k : Nat} (h : k < 10) : digitsOf k = [(Nat.digitChar k).toUInt8] := by
  rw [digitsOf, Nat.toDigits_of_lt_base h]
  rfl

/-- The last digit stands behind the others. -/
theorem digitsOf_of_le {k : Nat} (h : 10 ≤ k) : digitsOf k = digitsOf (k / 10) ++ digitsOf (k % 10) := by
  have happend := Nat.toDigits_append_toDigits (b := 10) (n := k / 10) (d := k % 10) (by decide) (by omega)
    (Nat.mod_lt _ (by decide))
  rw [Nat.div_add_mod] at happend
  rw [digitsOf, ← happend, List.map_append]
  rfl

theorem digitChar_digit {d : Nat} (h : d < 10) :
    isDigit (Nat.digitChar d).toUInt8 = true ∧ (Nat.digitChar d).toUInt8.toNat - 48 = d := by
  revert d
  decide

theorem decimal_append_singleton (digits : List UInt8) (d : UInt8) :
    decimal (digits ++ [d]) = 10 * decimal digits + (d.toNat - 48) := by
  rw [decimal, List.foldl_append]
  rfl

/-- The digits of a number stand for it. -/
theorem decimal_digitsOf (k : Nat) : decimal (digitsOf k) = k := by
  induction k using Nat.strongRecOn with
  | _ k ih =>
    by_cases hk : k < 10
    · rw [digitsOf_of_lt hk]
      show 10 * 0 + _ = k
      rw [(digitChar_digit hk).2]
      omega
    · have hlast : k % 10 < 10 := Nat.mod_lt k (by decide)
      rw [digitsOf_of_le (Nat.le_of_not_lt hk), digitsOf_of_lt hlast, decimal_append_singleton,
        ih (k / 10) (by omega), (digitChar_digit hlast).2]
      omega

theorem isDigit_digitsOf (k : Nat) : ∀ b ∈ digitsOf k, isDigit b = true := by
  induction k using Nat.strongRecOn with
  | _ k ih =>
    by_cases hk : k < 10
    · rw [digitsOf_of_lt hk, List.forall_mem_singleton]
      exact (digitChar_digit hk).1
    · rw [digitsOf_of_le (Nat.le_of_not_lt hk), List.forall_mem_append]
      exact ⟨ih _ (by omega), ih _ (by omega)⟩

theorem digitsOf_ne_nil (k : Nat) : digitsOf k ≠ [] := by
  unfold digitsOf
  rw [ne_eq, List.map_eq_nil_iff]
  exact Nat.toDigits_ne_nil

namespace Numeral

/-- `out << x` -/
def ofInt (x : Int) : Numeral where
  sign := if x < 0 then some true else none
  digits := digitsOf x.natAbs
  nonempty := digitsOf_ne_nil _
  digit := isDigit_digitsOf _

@[simp] theorem value_ofInt (x : Int) : (ofInt x).value = x := by
  unfold value ofInt
  simp only [decimal_digitsOf]
  by_cases h : x < 0
  · rw [if_pos h, if_pos rfl]
    omega
  · rw [if_neg h, if_neg (by decide)]
    omega

theorem fits_ofInt {w : Nat} {x : Int} (h : -2 ^ (w - 1) ≤ x ∧ x < 2 ^ (w - 1)) : (ofInt x).Fits w := by
  unfold Fits
  rwa [value_ofInt]

end Numeral

end Gapbs
