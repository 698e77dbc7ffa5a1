import Mathlib.Data.Nat.Digits.Defs
import Gapbs.Io.InStream
import Gapbs.Lib.Binary64

/-!
# `std::stod`

The longest start of a text that is a number for `strtod`: decimal or hexadecimal, with a point and an
exponent or without, in letters of either case.
-/

namespace Gapbs.CommandLine

open Binary64 InStream

def letter (c : Char) : UInt8 := c.toUInt8

def toLower (b : UInt8) : UInt8 := if 65 ≤ b ∧ b ≤ 90 then b + 32 else b

/-- The value of a digit; the letters are small ones. -/
def digit? (base : Nat) (b : UInt8) : Option Nat :=
  let k := if isDigit b then b.toNat - 48 else if 97 ≤ b ∧ b ≤ 122 then b.toNat - 87 else base
  if k < base then some k else none

/-- The digits in front of a text, and what follows. -/
def digits (base : Nat) : List UInt8 → List Nat × List UInt8
  | [] => ([], [])
  | b :: text =>
    match digit? base b with
    | some k =>
      let (ks, rest) := digits base text
      (k :: ks, rest)
    | none => ([], b :: text)

/-- Digits with a point among them, before or behind them; there is at least one digit. -/
def mantissa (base : Nat) (text : List UInt8) : Option (ℚ × List UInt8) :=
  let (whole, rest) := digits base text
  let (fraction, rest) := if rest.head? = some (letter '.') then digits base rest.tail else ([], rest)
  if whole = [] ∧ fraction = [] then none
  else some ((Nat.ofDigits base (whole ++ fraction).reverse : ℚ) / base ^ fraction.length, rest)

/-- The exponent behind the letter `mark`, or 0 if there is none. -/
def exponent (mark : UInt8) (text : List UInt8) : Int :=
  if text.head? = some mark then
    let (negative, rest) := splitSign text.tail
    let value : Int := Nat.ofDigits 10 (digits 10 rest).1.reverse
    if negative then -value else value
  else 0

/-- The number in front of a text without a sign.  Of `0x` without a digit behind it only the zero is
one. -/
def magnitude (text : List UInt8) : Option ℚ :=
  if (ascii "0x").isPrefixOf text then
    some (((mantissa 16 (text.drop 2)).map fun r => r.1 * 2 ^ exponent (letter 'p') r.2).getD 0)
  else (mantissa 10 text).map fun r => r.1 * 10 ^ exponent (letter 'e') r.2

/-- `std::stod`, or `none` where it throws: there is no number, or it is out of range. -/
def stod (text : List UInt8) : Option Double :=
  let (negative, text) := splitSign (text.dropWhile isSpace)
  let text := text.map toLower
  if (ascii "inf").isPrefixOf text then some (.infinite negative)
  else if (ascii "nan").isPrefixOf text then some .nan
  else (magnitude text).bind fun x => Double.ofRat (if negative then -x else x)

/-- A finite result is as near to the number in the text as the format allows. -/
theorem stod_finite {text : List UInt8} {y : ℚ} {hy : IsDouble y} (h : stod text = some (.finite y hy)) :
    ∃ x, magnitude ((splitSign (text.dropWhile isSpace)).2.map toLower) = some x ∧
      |y - if (splitSign (text.dropWhile isSpace)).1 then -x else x| ≤ 2 ^ ulpExponent x / 2 := by
  unfold stod at h
  generalize splitSign (text.dropWhile isSpace) = signed at h ⊢
  simp only at h
  split at h
  · cases h
  · split at h
    · cases h
    · obtain ⟨x, hx, hround⟩ := Option.bind_eq_some_iff.mp h
      have hulp : ulpExponent (if signed.1 then -x else x) = ulpExponent x := by
        unfold ulpExponent
        split <;> simp only [abs_neg]
      have hnearest := Double.eq_nearest_of_ofRat hround
      refine ⟨x, hx, ?_⟩
      rw [hnearest, ← hulp]
      exact abs_nearest_sub_le _

example : stod (ascii "-0x1.8p1,") = Double.ofRat (-3) := by decide +kernel

example : stod (ascii " INFINITY") = some (.infinite false) := by decide +kernel

example : stod (ascii "1e400") = none := by decide +kernel

end Gapbs.CommandLine
