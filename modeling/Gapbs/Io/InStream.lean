import Mathlib.Data.List.TakeWhile
import Mathlib.Tactic.SplitIfs
import Mathlib.Algebra.Group.Nat.Defs
import Mathlib.Algebra.Group.Int.Defs
import Mathlib.Algebra.GroupWithZero.Nat

/-!
# Input streams

`std::istream` over the bytes of a file: what is left to read and the bits `eofbit` and `failbit`.
The operations are those that `reader.h` uses, with the effects that the standard gives them.  All of
them begin with a `sentry`, which sets `failbit` and stops the operation if the stream is not good.
-/

namespace Gapbs

/-- The state of a stream. -/
structure InStream where
  rest : List UInt8
  eof : Bool
  fail : Bool
deriving DecidableEq

/-- The line end. -/
def newline : UInt8 := 10

/-- The characters of a word. -/
def ascii (word : String) : List UInt8 := word.toList.map Char.toUInt8

/-- The bytes of a list are tried one after the other, not all 256 there are. -/
instance decidableForallByte (bytes : List UInt8) (p : UInt8 → Prop) [DecidablePred p] :
    Decidable (∀ b, b ∈ bytes → p b) :=
  List.decidableBAll p bytes

/-- `isspace` of the C locale. -/
def isSpace (b : UInt8) : Bool := b == 32 || (9 ≤ b && b ≤ 13)

/-- `isdigit` -/
def isDigit (b : UInt8) : Bool := 48 ≤ b && b ≤ 57

namespace InStream

/-- A stream without errors. -/
def ofBytes (bytes : List UInt8) : InStream := ⟨bytes, false, false⟩

/-- A stream without errors that has been read up to `bytes` and has met the end if nothing is left. -/
def upTo (bytes : List UInt8) : InStream := ⟨bytes, bytes.isEmpty, false⟩

/-- `good()` -/
def good (s : InStream) : Bool := !s.eof && !s.fail

/-- The sentry of an operation on a stream that is not good. -/
def refuse (s : InStream) : InStream := { s with fail := true }

/-! ## Unformatted input -/

/-- `peek()`, with `none` for `EOF` -/
def peek (s : InStream) : Option UInt8 × InStream :=
  if s.good then
    match s.rest with
    | [] => (none, { s with eof := true })
    | b :: _ => (some b, s)
  else (none, s.refuse)

/-- At most `n` characters are dropped, a delimiter being the last of them. -/
def ignoreFrom (delim : UInt8) : Nat → List UInt8 → InStream
  | 0, rest => ofBytes rest
  | _ + 1, [] => ⟨[], true, false⟩
  | n + 1, b :: rest => if b = delim then ofBytes rest else ignoreFrom delim n rest

/-- `ignore(n, delim)` -/
def ignore (n : Nat) (delim : UInt8) (s : InStream) : InStream :=
  if s.good then ignoreFrom delim n s.rest else s.refuse

/-- `std::getline(s, line)`: the string is only touched if the sentry lets the operation begin. -/
def getline (line : List UInt8) (s : InStream) : List UInt8 × InStream :=
  if s.good then
    let text := s.rest.takeWhile (· ≠ newline)
    match s.rest.dropWhile (· ≠ newline) with
    -- `failbit` is set when no character has been extracted, not even a delimiter
    | [] => (text, ⟨[], true, text.isEmpty⟩)
    | _ :: rest => (text, ofBytes rest)
  else (line, s.refuse)

/-- `s >> std::ws` -/
def ws (s : InStream) : InStream :=
  if s.good then upTo (s.rest.dropWhile isSpace) else s.refuse

/-! ## Formatted input -/

/-- An extraction: its sentry skips white space and asks for something behind it. -/
def extract {α : Type} (scan : List UInt8 → α × InStream) (old : α) (s : InStream) : α × InStream :=
  if s.good then
    match s.rest.dropWhile isSpace with
    | [] => (old, ⟨[], true, true⟩)
    | b :: rest => scan (b :: rest)
  else (old, s.refuse)

theorem good_of_extract {α : Type} {scan : List UInt8 → α × InStream} {old : α} {s : InStream}
    (h : (s.extract scan old).2.fail = false) : s.good = true := by
  cases hgood : s.good with
  | true => rfl
  | false =>
    rw [extract, hgood] at h
    cases h

theorem good_of_ws {s : InStream} (h : s.ws.fail = false) : s.good = true := by
  cases hgood : s.good with
  | true => rfl
  | false =>
    rw [ws, hgood] at h
    cases h

theorem not_fail_of_good {s : InStream} (h : s.good = true) : s.fail = false := by
  cases hfail : s.fail with
  | false => rfl
  | true => simp [good, hfail] at h

/-- Where an extraction leaves the stream does not depend on the variable. -/
theorem extract_stream {α : Type} (scan : List UInt8 → α × InStream) (old old' : α) (s : InStream) :
    (s.extract scan old).2 = (s.extract scan old').2 := by
  simp only [extract]
  split
  · split <;> rfl
  · rfl

/-- An extraction that succeeds does not depend on the variable either. -/
theorem extract_eq {α : Type} {scan : List UInt8 → α × InStream} {old : α} {s : InStream}
    (h : (s.extract scan old).2.fail = false) (old' : α) : s.extract scan old = s.extract scan old' := by
  revert h
  simp only [extract]
  split
  · split
    · exact nofun
    · exact fun _ => rfl
  · exact nofun

/-- `s >> c` for a `char` -/
def readChar (old : UInt8) (s : InStream) : UInt8 × InStream :=
  s.extract (fun text => (text.headD old, ofBytes text.tail)) old

/-- `s >> str` for a `std::string` -/
def readString (old : List UInt8) (s : InStream) : List UInt8 × InStream :=
  s.extract (fun text => (text.takeWhile (!isSpace ·), upTo (text.dropWhile (!isSpace ·)))) old

/-- Is there a minus sign, and what follows the sign. -/
def splitSign : List UInt8 → Bool × List UInt8
  | [] => (false, [])
  | b :: text => if b = 45 then (true, text) else if b = 43 then (false, text) else (false, b :: text)

/-- The number that digits stand for. -/
def decimal (digits : List UInt8) : Nat := digits.foldl (fun k d => 10 * k + (d.toNat - 48)) 0

/-- `num_get` for a signed type of `w` bits: the longest field that may be a decimal integer is taken.
What is not one gives 0, and what is out of range the nearest value, both with `failbit`. -/
def scanInteger (w : Nat) (text : List UInt8) : Int × InStream :=
  let (negative, text) := splitSign text
  let digits := text.takeWhile isDigit
  let rest := text.dropWhile isDigit
  let value : Int := if negative then -decimal digits else decimal digits
  if digits = [] then (0, ⟨rest, rest.isEmpty, true⟩)
  else if value < -2 ^ (w - 1) then (-2 ^ (w - 1), ⟨rest, rest.isEmpty, true⟩)
  else if 2 ^ (w - 1) ≤ value then (2 ^ (w - 1) - 1, ⟨rest, rest.isEmpty, true⟩)
  else (value, upTo rest)

/-- `s >> x` for a signed integer of `w` bits -/
def readInteger (w : Nat) (old : Int) (s : InStream) : Int × InStream := s.extract (scanInteger w) old

/-! ## How far operations get -/

theorem length_ignoreFrom_le (delim : UInt8) (n : Nat) (text : List UInt8) :
    (ignoreFrom delim n text).rest.length ≤ text.length := by
  induction n generalizing text with
  | zero => exact Nat.le_refl _
  | succ n ih =>
    cases text with
    | nil => exact Nat.le_refl _
    | cons b text =>
      rw [ignoreFrom]
      split
      · exact Nat.le_succ _
      · exact (ih text).trans (Nat.le_succ _)

/-- A character that is there is skipped. -/
theorem length_ignoreFrom_lt (delim : UInt8) (n : Nat) (b : UInt8) (text : List UInt8) :
    (ignoreFrom delim (n + 1) (b :: text)).rest.length < (b :: text).length := by
  rw [ignoreFrom]
  split
  · exact Nat.lt_succ_self _
  · exact Nat.lt_succ_of_le (length_ignoreFrom_le delim n text)

/-- Skipping ends at the end of the file or leaves the stream good. -/
theorem ignoreFrom_eof_or_good (delim : UInt8) (n : Nat) (text : List UInt8) :
    ignoreFrom delim n text = ⟨[], true, false⟩ ∨
      ignoreFrom delim n text = ofBytes (ignoreFrom delim n text).rest := by
  induction n generalizing text with
  | zero => exact .inr rfl
  | succ n ih =>
    cases text with
    | nil => exact .inl rfl
    | cons b text =>
      rw [ignoreFrom]
      split
      · exact .inr rfl
      · exact ih text

theorem length_splitSign_le (text : List UInt8) : (splitSign text).2.length ≤ text.length := by
  cases text with
  | nil => exact Nat.le_refl _
  | cons b text =>
    rw [splitSign]
    split_ifs
    · exact Nat.le_succ _
    · exact Nat.le_succ _
    · exact Nat.le_refl _

/-- Where the field of an integer ends. -/
theorem scanInteger_stream (w : Nat) (text : List UInt8) :
    let rest := (splitSign text).2.dropWhile isDigit
    ∃ fail, (scanInteger w text).2 = ⟨rest, rest.isEmpty, fail⟩ := by
  simp only [scanInteger]
  split_ifs <;> exact ⟨_, rfl⟩

theorem length_scanInteger_le (w : Nat) (text : List UInt8) :
    (scanInteger w text).2.rest.length ≤ text.length := by
  obtain ⟨fail, hstream⟩ := scanInteger_stream w text
  rw [hstream]
  exact (List.length_dropWhile_le _ _).trans (length_splitSign_le text)

/-- An integer takes at least one character. -/
theorem length_scanInteger_lt {w : Nat} {text : List UInt8} (h : (scanInteger w text).2.fail = false) :
    (scanInteger w text).2.rest.length < text.length := by
  obtain ⟨fail, hstream⟩ := scanInteger_stream w text
  have hsign := length_splitSign_le text
  have hdigits : (splitSign text).2.takeWhile isDigit ≠ [] := by
    intro hnil
    rw [scanInteger] at h
    simp only [hnil, if_true] at h
    cases h
  have hlength := congrArg List.length (List.takeWhile_append_dropWhile (p := isDigit)
    (l := (splitSign text).2))
  rw [List.length_append] at hlength
  have hpos := List.length_pos_iff.mpr hdigits
  rw [hstream]
  show ((splitSign text).2.dropWhile isDigit).length < text.length
  omega

variable {α : Type} {scan : List UInt8 → α × InStream}

theorem length_extract_le (hscan : ∀ text, (scan text).2.rest.length ≤ text.length) (old : α)
    (s : InStream) : (s.extract scan old).2.rest.length ≤ s.rest.length := by
  rw [extract]
  split
  · have hdrop := List.length_dropWhile_le isSpace s.rest
    split
    · exact Nat.zero_le _
    · rename_i b rest heq
      rw [heq] at hdrop
      exact (hscan _).trans hdrop
  · exact Nat.le_refl _

theorem length_extract_lt (hscan : ∀ text, (scan text).2.fail = false →
    (scan text).2.rest.length < text.length) {old : α} {s : InStream}
    (h : (s.extract scan old).2.fail = false) : (s.extract scan old).2.rest.length < s.rest.length := by
  revert h
  rw [extract]
  split
  · have hdrop := List.length_dropWhile_le isSpace s.rest
    split
    · exact nofun
    · rename_i b rest heq
      rw [heq] at hdrop
      exact fun h => (hscan _ h).trans_le hdrop
  · exact nofun

theorem length_ws_le (s : InStream) : s.ws.rest.length ≤ s.rest.length := by
  rw [ws]
  split
  · exact List.length_dropWhile_le isSpace s.rest
  · exact Nat.le_refl _

theorem length_readInteger_le (w : Nat) (old : Int) (s : InStream) :
    (s.readInteger w old).2.rest.length ≤ s.rest.length :=
  length_extract_le (length_scanInteger_le w) old s

theorem length_readInteger_lt {w : Nat} {old : Int} {s : InStream}
    (h : (s.readInteger w old).2.fail = false) :
    (s.readInteger w old).2.rest.length < s.rest.length :=
  length_extract_lt (fun _ => length_scanInteger_lt) h

end InStream

end Gapbs
