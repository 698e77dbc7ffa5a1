import Gapbs.Io.InStream

/-!
# Lines and tokens

What well-formed text files are made of, and how a stream reads it: numerals, blanks between them, and
lines of which the last may do without a line end.
-/

namespace Gapbs

namespace InStream

variable {α : Type}

/-! ## Runs of characters -/

theorem dropWhile_of_stops {p : UInt8 → Bool} {text : List UInt8} (h : text.takeWhile p = []) :
    text.dropWhile p = text := by
  have happend := List.takeWhile_append_dropWhile (p := p) (l := text)
  rwa [h, List.nil_append] at happend

theorem takeWhile_run {p : UInt8 → Bool} {run next : List UInt8} (hrun : ∀ b ∈ run, p b = true)
    (hnext : next.takeWhile p = []) : (run ++ next).takeWhile p = run := by
  rw [List.takeWhile_append_of_pos hrun, hnext, List.append_nil]

theorem dropWhile_run {p : UInt8 → Bool} {run next : List UInt8} (hrun : ∀ b ∈ run, p b = true)
    (hnext : next.takeWhile p = []) : (run ++ next).dropWhile p = next := by
  rw [List.dropWhile_append_of_pos hrun, dropWhile_of_stops hnext]

/-! ## Operations on good streams -/

@[simp] theorem good_ofBytes (bytes : List UInt8) : (ofBytes bytes).good = true := rfl

theorem peek_of_ne {bytes : List UInt8} (h : bytes ≠ []) : (ofBytes bytes).peek.2 = ofBytes bytes := by
  obtain ⟨b, rest, rfl⟩ := List.exists_cons_of_ne_nil h
  rfl

theorem upTo_of_ne {bytes : List UInt8} (h : bytes ≠ []) : upTo bytes = ofBytes bytes := by
  rw [upTo, ofBytes, List.isEmpty_eq_false_iff.mpr h]

/-- An extraction from a stream that has something to offer behind white space. -/
theorem extract_ofBytes {scan : List UInt8 → α × InStream} {old : α} {lead text : List UInt8}
    (hlead : ∀ b ∈ lead, isSpace b = true) (htext : text ≠ []) (hstart : text.takeWhile isSpace = []) :
    (ofBytes (lead ++ text)).extract scan old = scan text := by
  have hrest : (ofBytes (lead ++ text)).rest.dropWhile isSpace = text := dropWhile_run hlead hstart
  obtain ⟨b, rest, rfl⟩ := List.exists_cons_of_ne_nil htext
  rw [extract, if_pos (good_ofBytes _), hrest]

/-- A word is taken up to the white space behind it. -/
theorem readString_ofBytes {lead word next : List UInt8} (hlead : ∀ b ∈ lead, isSpace b = true)
    (hne : word ≠ []) (hword : ∀ b ∈ word, isSpace b = false)
    (hnext : next.takeWhile (!isSpace ·) = []) (old : List UInt8) :
    (ofBytes (lead ++ (word ++ next))).readString old = (word, upTo next) := by
  obtain ⟨b, rest, hb⟩ := List.exists_cons_of_ne_nil hne
  have hstart : (word ++ next).takeWhile isSpace = [] := by
    rw [hb, List.cons_append, List.takeWhile_cons_of_neg]
    rw [hword b (hb ▸ List.mem_cons_self)]
    exact Bool.false_ne_true
  have hrun : ∀ b ∈ word, (!isSpace b) = true := fun b hmem => by rw [hword b hmem]; rfl
  rw [readString, extract_ofBytes hlead (fun heq => hne (List.append_eq_nil_iff.mp heq).1) hstart,
    takeWhile_run hrun hnext, dropWhile_run hrun hnext]

/-- An extraction from a stream with nothing but white space. -/
theorem extract_blank {scan : List UInt8 → α × InStream} {old : α} {lead : List UInt8}
    (hlead : ∀ b ∈ lead, isSpace b = true) :
    (ofBytes lead).extract scan old = (old, ⟨[], true, true⟩) := by
  have hrest : (ofBytes lead).rest.dropWhile isSpace = [] := List.dropWhile_eq_nil_iff.mpr hlead
  rw [extract, if_pos (good_ofBytes _), hrest]

theorem extract_of_not_good {scan : List UInt8 → α × InStream} {old : α} {s : InStream}
    (h : s.good = false) : s.extract scan old = (old, s.refuse) := by
  rw [extract, h]
  rfl

/-- What stands behind a line: nothing, or a line end and more text. -/
def endText : Option (List UInt8) → List UInt8
  | none => []
  | some rest => newline :: rest

/-- The stream of which a line has been skipped. -/
def afterLine : Option (List UInt8) → InStream
  | none => ⟨[], true, false⟩
  | some rest => ofBytes rest

theorem takeWhile_endText {p : UInt8 → Bool} (hp : p newline = false) (next : Option (List UInt8)) :
    (endText next).takeWhile p = [] := by
  cases next with
  | none => rfl
  | some rest =>
    apply List.takeWhile_cons_of_neg
    rw [hp]
    exact Bool.false_ne_true

theorem dropWhile_endText {p : UInt8 → Bool} (hp : p newline = false) (line : List UInt8)
    (next : Option (List UInt8)) :
    (line ++ endText next).dropWhile p = line.dropWhile p ++ endText next := by
  have hend : (endText next).dropWhile p = endText next :=
    dropWhile_of_stops (takeWhile_endText hp next)
  rw [List.dropWhile_append, hend]
  split_ifs with h
  · rw [List.isEmpty_iff.mp h, List.nil_append]
  · rfl

theorem append_endText_eq_nil {line : List UInt8} {next : Option (List UInt8)}
    (h : line ++ endText next = []) : next = none := by
  cases next with
  | none => rfl
  | some rest => exact absurd (List.append_eq_nil_iff.mp h).2 (List.cons_ne_nil _ _)

theorem getline_ofBytes {line : List UInt8} (hline : newline ∉ line) (old rest : List UInt8) :
    (ofBytes (line ++ newline :: rest)).getline old = (line, ofBytes rest) := by
  have hrun : ∀ b ∈ line, decide (b ≠ newline) = true :=
    fun b hb => decide_eq_true fun heq => hline (heq ▸ hb)
  have hstop : (newline :: rest).takeWhile (fun b => decide (b ≠ newline)) = [] :=
    List.takeWhile_cons_of_neg (by simp)
  rw [getline, if_pos (good_ofBytes _)]
  simp only [ofBytes, takeWhile_run hrun hstop, dropWhile_run hrun hstop]

theorem getline_last {line : List UInt8} (hline : newline ∉ line) (old : List UInt8) :
    (ofBytes line).getline old = (line, ⟨[], true, line.isEmpty⟩) := by
  have hrun : ∀ b ∈ line, decide (b ≠ newline) = true :=
    fun b hb => decide_eq_true fun heq => hline (heq ▸ hb)
  rw [getline, if_pos (good_ofBytes _)]
  simp only [ofBytes, List.takeWhile_eq_self_iff.mpr hrun, List.dropWhile_eq_nil_iff.mpr hrun]

theorem getline_of_not_good {s : InStream} (h : s.good = false) (old : List UInt8) :
    s.getline old = (old, s.refuse) := by
  rw [getline, h]
  rfl

/-- A piece of `n` characters is skipped, or what is left of the line. -/
theorem ignoreFrom_line {line : List UInt8} (hline : newline ∉ line) (n : Nat)
    (next : Option (List UInt8)) : ignoreFrom newline n (line ++ endText next) =
      if line.length < n then afterLine next else ofBytes (line.drop n ++ endText next) := by
  induction n generalizing line with
  | zero => simp [ignoreFrom]
  | succ n ih =>
    cases line with
    | nil => cases next <;> simp [ignoreFrom, endText, afterLine]
    | cons b line =>
      rw [List.mem_cons, not_or] at hline
      rw [List.cons_append, ignoreFrom, if_neg (Ne.symm hline.1), ih hline.2]
      simp

/-! ## Skipping a line in pieces -/

/-- All pieces of 200 characters of a line and its end begin with a character of a kind. -/
def Pieces (kind : UInt8 → Prop) (line : List UInt8) : Prop :=
  ∀ k b, (line ++ [newline])[200 * k]? = some b → kind b

theorem Pieces.head {kind : UInt8 → Prop} {line : List UInt8} (h : Pieces kind line) {b : UInt8}
    {text rest : List UInt8} (heq : line ++ newline :: rest = b :: text) : kind b := by
  apply h 0
  cases line with
  | nil => exact congrArg List.head? heq
  | cons c line => exact congrArg List.head? heq

theorem Pieces.drop {kind : UInt8 → Prop} {line : List UInt8} (h : Pieces kind line)
    (hlong : 200 ≤ line.length) : Pieces kind (line.drop 200) := by
  intro k b hget
  apply h (k + 1)
  rw [← hget, ← List.drop_append_of_le_length hlong, List.getElem?_drop]
  congr 1
  omega

/-- A loop that skips pieces of that kind goes on behind the line. -/
theorem skip_line {kind : UInt8 → Prop} {P : InStream → Prop}
    (hstep : ∀ b text, kind b →
      (P (ofBytes (b :: text)) ↔ P (ignoreFrom newline 200 (b :: text))))
    {line : List UInt8} (hline : newline ∉ line) (h : Pieces kind line) (rest : List UInt8) :
    P (ofBytes (line ++ newline :: rest)) ↔ P (ofBytes rest) := by
  induction hk : line.length using Nat.strongRecOn generalizing line with
  | _ k ih =>
    obtain ⟨b, text, heq⟩ : ∃ b text, line ++ newline :: rest = b :: text :=
      List.exists_cons_of_ne_nil (List.append_ne_nil_of_right_ne_nil _ (List.cons_ne_nil _ _))
    rw [heq, hstep b text (h.head heq), ← heq]
    have hpiece := ignoreFrom_line hline 200 (some rest)
    simp only [endText, afterLine] at hpiece
    rw [hpiece]
    by_cases hshort : line.length < 200
    · rw [if_pos hshort]
    · rw [if_neg hshort]
      exact ih (k - 200) (by omega) (fun hmem => hline (List.mem_of_mem_drop hmem))
        (h.drop (Nat.le_of_not_lt hshort)) (by rw [List.length_drop, hk])

/-- The loop gets as far into a line as the pieces are of that kind. -/
theorem skip_pieces {kind : UInt8 → Prop} {P : InStream → Prop}
    (hstep : ∀ b text, kind b →
      (P (ofBytes (b :: text)) ↔ P (ignoreFrom newline 200 (b :: text))))
    {line : List UInt8} (hline : newline ∉ line) {k : Nat} (hlong : 200 * k ≤ line.length)
    (h : ∀ j < k, ∀ b ∈ (line)[200 * j]?, kind b) (next : Option (List UInt8)) :
    P (ofBytes (line ++ endText next)) ↔ P (ofBytes (line.drop (200 * k) ++ endText next)) := by
  induction k generalizing line with
  | zero => rfl
  | succ k ih =>
    obtain ⟨b, text, hb⟩ : ∃ b text, line = b :: text :=
      List.exists_cons_of_ne_nil (List.length_pos_iff.mp (by omega))
    have hpiece := ignoreFrom_line hline 200 next
    rw [if_neg (by omega)] at hpiece
    have hkind : kind b := h 0 (Nat.zero_lt_succ k) b (by rw [hb]; rfl)
    have hfirst : P (ofBytes (line ++ endText next)) ↔ P (ofBytes (line.drop 200 ++ endText next)) := by
      rw [← hpiece, hb]
      exact hstep b _ hkind
    have hrest : ∀ j < k, ∀ b ∈ (line.drop 200)[200 * j]?, kind b := by
      intro j hj b hget
      apply h (j + 1) (Nat.succ_lt_succ hj)
      rwa [List.getElem?_drop, show 200 + 200 * j = 200 * (j + 1) by omega] at hget
    rw [hfirst, ih (fun hmem => hline (List.mem_of_mem_drop hmem)) (by rw [List.length_drop]; omega) hrest,
      List.drop_drop, show 200 + 200 * k = 200 * (k + 1) by omega]

/-! ## Decimal digits -/

theorem foldl_decimal (k : Nat) (digits : List UInt8) :
    digits.foldl (fun k d => 10 * k + (d.toNat - 48)) k = k * 10 ^ digits.length + decimal digits := by
  induction digits generalizing k with
  | nil => simp [decimal]
  | cons d digits ih =>
    have hcons : decimal (d :: digits) = (d.toNat - 48) * 10 ^ digits.length + decimal digits := by
      rw [decimal, List.foldl_cons, Nat.mul_zero, Nat.zero_add, ih]
    rw [List.foldl_cons, ih, hcons, List.length_cons, Nat.pow_succ', Nat.add_mul, Nat.mul_comm 10 k,
      Nat.mul_assoc, Nat.add_assoc]

theorem decimal_append (a b : List UInt8) : decimal (a ++ b) = decimal a * 10 ^ b.length + decimal b := by
  rw [decimal, List.foldl_append, foldl_decimal]
  rfl

theorem decimal_lt {digits : List UInt8} (h : ∀ d ∈ digits, isDigit d = true) :
    decimal digits < 10 ^ digits.length := by
  induction digits with
  | nil => exact Nat.one_pos
  | cons d digits ih =>
    rw [List.forall_mem_cons] at h
    have hd : d.toNat - 48 ≤ 9 := by
      have hdigit := h.1
      simp only [isDigit, Bool.and_eq_true, decide_eq_true_eq, UInt8.le_iff_toNat_le] at hdigit
      have h57 : (57 : UInt8).toNat = 57 := rfl
      omega
    have hlt := ih h.2
    have hsplit := decimal_append [d] digits
    have hone : decimal [d] = d.toNat - 48 := Nat.zero_add _
    rw [List.singleton_append, hone] at hsplit
    rw [hsplit, List.length_cons, Nat.pow_succ']
    have hmul := Nat.mul_le_mul_right (10 ^ digits.length) hd
    omega

end InStream

open InStream

/-! ## Numerals -/

/-- A decimal numeral. -/
structure Numeral where
  /-- `some true` for a minus sign -/
  sign : Option Bool
  digits : List UInt8
  nonempty : digits ≠ []
  digit : ∀ d ∈ digits, isDigit d = true

namespace Numeral

/-- The sign and the digits. -/
def bytes (x : Numeral) : List UInt8 :=
  match x.sign with
  | none => x.digits
  | some true => 45 :: x.digits
  | some false => 43 :: x.digits

def value (x : Numeral) : Int := if x.sign = some true then -decimal x.digits else decimal x.digits

/-- The value is one of a signed type of `w` bits. -/
def Fits (w : Nat) (x : Numeral) : Prop := -2 ^ (w - 1) ≤ x.value ∧ x.value < 2 ^ (w - 1)

instance (w : Nat) (x : Numeral) : Decidable (x.Fits w) := inferInstanceAs (Decidable (_ ∧ _))

theorem not_sign_of_isDigit {d : UInt8} (h : isDigit d = true) : d ≠ 45 ∧ d ≠ 43 := by
  constructor <;> rintro rfl <;> exact absurd h (by decide)

theorem not_isSpace_of_isDigit {d : UInt8} (h : isDigit d = true) : isSpace d = false := by
  simp only [isDigit, Bool.and_eq_true, decide_eq_true_eq, UInt8.le_iff_toNat_le] at h
  simp only [isSpace, Bool.or_eq_false_iff, beq_eq_false_iff_ne, Bool.and_eq_false_iff,
    decide_eq_false_iff_not, UInt8.le_iff_toNat_le]
  constructor
  · rintro rfl
    exact absurd h.1 (by decide)
  · right
    have h48 : (48 : UInt8).toNat = 48 := rfl
    have h13 : (13 : UInt8).toNat = 13 := rfl
    omega

/-- Digits are written as numerals. -/
instance neZeroTen : NeZero 10 := ⟨by decide⟩

/-- The numeral with one digit. -/
def single (d : Fin 10) : Numeral where
  sign := none
  digits := [48 + UInt8.ofNat d]
  nonempty := List.cons_ne_nil _ _
  digit := by
    revert d
    decide

theorem splitSign_bytes (x : Numeral) (next : List UInt8) :
    splitSign (x.bytes ++ next) = (decide (x.sign = some true), x.digits ++ next) := by
  obtain ⟨sign, digits, hne, hdigit⟩ := x
  match sign with
  | some true => rfl
  | some false => rfl
  | none =>
    obtain ⟨d, ds, rfl⟩ := List.exists_cons_of_ne_nil hne
    obtain ⟨hminus, hplus⟩ := not_sign_of_isDigit (hdigit d List.mem_cons_self)
    show splitSign (d :: (ds ++ next)) = _
    rw [splitSign, if_neg hminus, if_neg hplus]
    rfl

theorem bytes_ne_nil (x : Numeral) : x.bytes ≠ [] := by
  obtain ⟨sign, digits, hne, -⟩ := x
  match sign with
  | none => exact hne
  | some true => exact List.cons_ne_nil _ _
  | some false => exact List.cons_ne_nil _ _

theorem mem_bytes (x : Numeral) : ∀ b ∈ x.bytes, isDigit b = true ∨ b = 45 ∨ b = 43 := by
  obtain ⟨sign, digits, -, hdigit⟩ := x
  intro b hb
  match sign, hb with
  | none, hb => exact .inl (hdigit b hb)
  | some true, hb => exact (List.mem_cons.mp hb).elim (.inr ∘ .inl) (.inl ∘ hdigit b)
  | some false, hb => exact (List.mem_cons.mp hb).elim (.inr ∘ .inr) (.inl ∘ hdigit b)

/-- No character of a numeral is white space. -/
theorem not_isSpace (x : Numeral) : ∀ b ∈ x.bytes, isSpace b = false := by
  intro b hb
  rcases x.mem_bytes b hb with hdigit | rfl | rfl
  · exact not_isSpace_of_isDigit hdigit
  · decide
  · decide

theorem takeWhile_isSpace (x : Numeral) (next : List UInt8) :
    (x.bytes ++ next).takeWhile isSpace = [] := by
  obtain ⟨b, bytes, hb⟩ := List.exists_cons_of_ne_nil x.bytes_ne_nil
  rw [hb, List.cons_append, List.takeWhile_cons_of_neg]
  rw [x.not_isSpace b (hb ▸ List.mem_cons_self)]
  exact Bool.false_ne_true

theorem newline_notMem (x : Numeral) : newline ∉ x.bytes := fun h =>
  absurd (x.not_isSpace newline h) (by decide)

/-- A numeral that fits the type is read as its value. -/
theorem scanInteger_bytes {w : Nat} {x : Numeral} (h : x.Fits w) {next : List UInt8}
    (hnext : next.takeWhile isDigit = []) : scanInteger w (x.bytes ++ next) = (x.value, upTo next) := by
  simp only [scanInteger, splitSign_bytes, takeWhile_run x.digit hnext, dropWhile_run x.digit hnext,
    decide_eq_true_eq]
  rw [if_neg x.nonempty]
  show (if x.value < -2 ^ (w - 1) then _ else if 2 ^ (w - 1) ≤ x.value then _ else (x.value, _)) = _
  rw [if_neg (Int.not_lt.mpr h.1), if_neg (Int.not_le.mpr h.2)]

/-- A numeral that does not fit the type is taken from the stream, but the extraction fails. -/
theorem scanInteger_bytes_of_not {w : Nat} {x : Numeral} (h : ¬ x.Fits w) {next : List UInt8}
    (hnext : next.takeWhile isDigit = []) :
    ∃ y, scanInteger w (x.bytes ++ next) = (y, ⟨next, next.isEmpty, true⟩) := by
  simp only [scanInteger, splitSign_bytes, takeWhile_run x.digit hnext, dropWhile_run x.digit hnext,
    decide_eq_true_eq]
  rw [if_neg x.nonempty]
  show ∃ y, (if x.value < -2 ^ (w - 1) then _ else if 2 ^ (w - 1) ≤ x.value then _ else (x.value, _)) = _
  by_cases hlow : x.value < -2 ^ (w - 1)
  · rw [if_pos hlow]
    exact ⟨_, rfl⟩
  · rw [if_neg hlow, if_pos (Int.not_lt.mp fun hhigh => h ⟨Int.not_lt.mp hlow, hhigh⟩)]
    exact ⟨_, rfl⟩

/-- Where white space in front has been skipped before, there is nothing to skip. -/
theorem readInteger_lead {w : Nat} {lead text : List UInt8} (hlead : ∀ b ∈ lead, isSpace b = true)
    (hstart : text.takeWhile isSpace = []) (old : Int) :
    (ofBytes (lead ++ text)).readInteger w old = (upTo text).readInteger w old := by
  by_cases htext : text = []
  · rw [htext, List.append_nil, readInteger, extract_blank hlead]
    rfl
  · rw [upTo_of_ne htext, readInteger, readInteger, extract_ofBytes hlead htext hstart]
    exact (extract_ofBytes (List.forall_mem_nil _) htext hstart).symm

theorem readInteger_ofBytes {w : Nat} {x : Numeral} (h : x.Fits w) {lead next : List UInt8}
    (hlead : ∀ b ∈ lead, isSpace b = true) (hnext : next.takeWhile isDigit = []) (old : Int) :
    (ofBytes (lead ++ (x.bytes ++ next))).readInteger w old = (x.value, upTo next) := by
  rw [readInteger, extract_ofBytes hlead _ (x.takeWhile_isSpace next), scanInteger_bytes h hnext]
  exact fun heq => x.bytes_ne_nil (List.append_eq_nil_iff.mp heq).1

theorem readInteger_start {w : Nat} {x : Numeral} (h : x.Fits w) {next : List UInt8}
    (hnext : next.takeWhile isDigit = []) (old : Int) :
    (upTo (x.bytes ++ next)).readInteger w old = (x.value, upTo next) := by
  rw [upTo_of_ne fun heq => x.bytes_ne_nil (List.append_eq_nil_iff.mp heq).1]
  exact readInteger_ofBytes h (List.forall_mem_nil _) hnext old

end Numeral

/-! ## Blanks -/

/-- White space within a line. -/
structure Blanks where
  bytes : List UInt8
  blank : ∀ b ∈ bytes, isSpace b = true ∧ b ≠ newline

/-- There may be none. -/
theorem no_blanks : ∀ b ∈ ([] : List UInt8), isSpace b = true ∧ b ≠ newline := nofun

/-- Blanks that separate two fields. -/
structure Gap extends Blanks where
  nonempty : bytes ≠ []

/-- A single space. -/
def Gap.space : Gap := ⟨⟨[32], by decide⟩, by decide⟩

theorem Blanks.isSpace (x : Blanks) : ∀ b ∈ x.bytes, Gapbs.isSpace b = true :=
  fun b hb => (x.blank b hb).1

theorem Blanks.newline_notMem (x : Blanks) : newline ∉ x.bytes := fun h => (x.blank _ h).2 rfl

theorem Gap.takeWhile_isDigit (gap : Gap) (next : List UInt8) :
    (gap.bytes ++ next).takeWhile isDigit = [] := by
  obtain ⟨b, bytes, hb⟩ := List.exists_cons_of_ne_nil gap.nonempty
  have hspace : Gapbs.isSpace b = true := gap.isSpace b (hb ▸ List.mem_cons_self)
  rw [hb, List.cons_append, List.takeWhile_cons_of_neg]
  intro hdigit
  rw [Numeral.not_isSpace_of_isDigit hdigit] at hspace
  exact Bool.false_ne_true hspace

theorem Blanks.takeWhile_isDigit (x : Blanks) (next : Option (List UInt8)) :
    (x.bytes ++ endText next).takeWhile isDigit = [] := by
  by_cases h : x.bytes = []
  · rw [h]
    exact takeWhile_endText (by decide) next
  · exact Gap.takeWhile_isDigit ⟨x, h⟩ _

/-- The next numeral of a line is read from where the one before it has ended. -/
theorem Numeral.readInteger_upTo {w : Nat} {x : Numeral} (h : x.Fits w) (gap : Gap)
    {next : List UInt8} (hnext : next.takeWhile isDigit = []) (old : Int) :
    (upTo (gap.bytes ++ (x.bytes ++ next))).readInteger w old = (x.value, upTo next) := by
  rw [upTo_of_ne fun heq => gap.nonempty (List.append_eq_nil_iff.mp heq).1]
  exact Numeral.readInteger_ofBytes h gap.isSpace hnext old

/-! ## Extraction from any text -/

theorem splitSign_suffix (b : UInt8) (text : List UInt8) (next : List UInt8) :
    ∃ negative rest, splitSign (b :: text ++ next) = (negative, rest ++ next) ∧ rest <:+ b :: text := by
  rw [List.cons_append, splitSign]
  split_ifs
  · exact ⟨true, text, rfl, List.suffix_cons b text⟩
  · exact ⟨false, text, rfl, List.suffix_cons b text⟩
  · exact ⟨false, b :: text, rfl, List.suffix_refl _⟩

theorem scanInteger_unreadable {b : UInt8} (hdigit : isDigit b = false) (hminus : b ≠ 45)
    (hplus : b ≠ 43) (w : Nat) (text : List UInt8) :
    scanInteger w (b :: text) = (0, ⟨b :: text, false, true⟩) := by
  have hsplit : splitSign (b :: text) = (false, b :: text) := by
    rw [splitSign, if_neg hminus, if_neg hplus]
  simp [scanInteger, hsplit, hdigit]

/-- The text behind a line cannot be read as an integer. -/
def Unreadable (next : Option (List UInt8)) : Prop := ∀ rest, next = some rest → rest = [] ∨
  ∃ b text, rest = b :: text ∧ isSpace b = false ∧ isDigit b = false ∧ b ≠ 45 ∧ b ≠ 43

/-- Where extractions within a line may have left the stream. -/
inductive Extracted (line : List UInt8) (next : Option (List UInt8)) (s : InStream) : Prop where
  | inLine (rest : List UInt8) (suffix : rest <:+ line) (eq : s = upTo (rest ++ endText next))
  | atEnd (eof : s.eof = true) (last : next = none ∨ next = some [])
  | stuck (fail : s.fail = true) (eof : s.eof = false)

theorem Extracted.refuse {line : List UInt8} {next : Option (List UInt8)} {s : InStream}
    (h : Extracted line next s) (hgood : s.good = false) : Extracted line next s.refuse := by
  cases h with
  | inLine rest suffix eq =>
    by_cases hrest : rest ++ endText next = []
    · exact .atEnd (by rw [eq, hrest]; rfl) (.inl (append_endText_eq_nil hrest))
    · rw [eq, upTo_of_ne hrest] at hgood
      cases hgood
  | atEnd eof last => exact .atEnd eof last
  | stuck fail eof => exact .stuck rfl eof

theorem Extracted.mono {line line' : List UInt8} {next : Option (List UInt8)} {s : InStream}
    (h : Extracted line next s) (hline : line <:+ line') : Extracted line' next s := by
  cases h with
  | inLine rest suffix eq => exact .inLine rest (suffix.trans hline) eq
  | atEnd eof last => exact .atEnd eof last
  | stuck fail eof => exact .stuck fail eof

/-- Behind a line of blanks, the extraction finds nothing or something unreadable. -/
theorem extract_blank_line {line : List UInt8} (hblank : ∀ b ∈ line, isSpace b = true)
    {next : Option (List UInt8)} (hnext : Unreadable next) (w : Nat) (old : Int) :
    Extracted line next ((ofBytes (line ++ endText next)).extract (scanInteger w) old).2 := by
  have hends {rest : List UInt8} (hrest : ∀ b ∈ rest, isSpace b = true) (last : next = none ∨ next = some []) :
      Extracted line next ((ofBytes rest).extract (scanInteger w) old).2 := by
    rw [extract_blank hrest]
    exact .atEnd rfl last
  have hline : ∀ b ∈ line ++ [newline], isSpace b = true := by
    rw [List.forall_mem_append]
    exact ⟨hblank, by decide⟩
  cases next with
  | none => exact hends (by rwa [endText, List.append_nil]) (.inl rfl)
  | some rest =>
    rcases hnext rest rfl with rfl | ⟨b, text, rfl, hspace, hdigit, hminus, hplus⟩
    · exact hends hline (.inr rfl)
    · have htext : line ++ endText (some (b :: text)) = (line ++ [newline]) ++ b :: text := by
        rw [List.append_assoc]
        rfl
      have hstart : (b :: text).takeWhile isSpace = [] := List.takeWhile_cons_of_neg (by simp [hspace])
      rw [htext, extract_ofBytes hline (List.cons_ne_nil b text) hstart,
        scanInteger_unreadable hdigit hminus hplus]
      exact .stuck rfl rfl

/-- The extraction of a field of a line ends in the line. -/
theorem extract_field {line : List UInt8} (hfield : ¬ ∀ b ∈ line, isSpace b = true)
    {next : Option (List UInt8)} (w : Nat) (old : Int) :
    Extracted line next ((ofBytes (line ++ endText next)).extract (scanInteger w) old).2 := by
  have hlead : ∀ b ∈ line.takeWhile isSpace, isSpace b = true := fun b hb => List.mem_takeWhile_imp hb
  obtain ⟨b, field, hdrop⟩ := List.exists_cons_of_ne_nil fun h => hfield (List.dropWhile_eq_nil_iff.mp h)
  have hb : isSpace b = false := by
    have hhead := List.head?_dropWhile_not isSpace line
    rwa [hdrop] at hhead
  have htext : line ++ endText next = line.takeWhile isSpace ++ (b :: field ++ endText next) := by
    rw [← hdrop, ← List.append_assoc, List.takeWhile_append_dropWhile]
  have hstart : (b :: field ++ endText next).takeWhile isSpace = [] :=
    List.takeWhile_cons_of_neg (by simp [hb])
  have hne : b :: field ++ endText next ≠ [] := List.cons_ne_nil _ _
  rw [htext, extract_ofBytes hlead hne hstart]
  obtain ⟨negative, rest, hsplit, hrest⟩ := splitSign_suffix b field (endText next)
  obtain ⟨fail, hstream⟩ := scanInteger_stream w (b :: field ++ endText next)
  rw [hsplit, dropWhile_endText (by decide)] at hstream
  have hsuffix : rest.dropWhile isDigit <:+ line := by
    have hdropped : b :: field <:+ line := hdrop ▸ List.dropWhile_suffix isSpace
    exact ((List.dropWhile_suffix isDigit).trans hrest).trans hdropped
  rw [hstream]
  cases fail with
  | false => exact .inLine _ hsuffix rfl
  | true =>
    by_cases hend : rest.dropWhile isDigit ++ endText next = []
    · exact .atEnd (List.isEmpty_iff.mpr hend) (.inl (append_endText_eq_nil hend))
    · exact .stuck rfl (List.isEmpty_eq_false_iff.mpr hend)

/-- An extraction goes on in the line, or fails: at the end of the file, or before it for good. -/
theorem Extracted.readInteger {line : List UInt8} {next : Option (List UInt8)} {s : InStream}
    (h : Extracted line next s) (hnext : Unreadable next) (w : Nat) (old : Int) :
    Extracted line next (s.readInteger w old).2 := by
  cases hgood : s.good with
  | false =>
    rw [InStream.readInteger, extract_of_not_good hgood]
    exact h.refuse hgood
  | true =>
    cases h with
    | atEnd eof last =>
      rw [good, eof] at hgood
      cases hgood
    | stuck fail eof =>
      rw [good, fail, eof] at hgood
      cases hgood
    | inLine rest suffix eq =>
      have hne : rest ++ endText next ≠ [] := by
        intro hnil
        rw [eq, hnil] at hgood
        cases hgood
      rw [eq, upTo_of_ne hne, InStream.readInteger]
      by_cases hblank : ∀ b ∈ rest, isSpace b = true
      · exact (extract_blank_line hblank hnext w old).mono suffix
      · exact (extract_field hblank w old).mono suffix

/-! ## Lines -/

/-- The text of some lines, the last one with a line end or without. -/
def fileText (terminated : Bool) : List (List UInt8) → List UInt8
  | [] => []
  | line :: lines =>
    line ++ endText (if lines = [] ∧ terminated = false then none else some (fileText terminated lines))

/-- What follows the line before some others. -/
def following (terminated : Bool) (lines : List (List UInt8)) : Option (List UInt8) :=
  if lines = [] ∧ terminated = false then none else some (fileText terminated lines)

theorem fileText_cons (terminated : Bool) (line : List UInt8) (lines : List (List UInt8)) :
    fileText terminated (line :: lines) = line ++ endText (following terminated lines) := rfl

/-- Behind a line, the file has ended or goes on with the next one. -/
theorem afterLine_following (terminated : Bool) (lines : List (List UInt8)) :
    lines = [] ∧ terminated = false ∧ following terminated lines = none ∨
      following terminated lines = some (fileText terminated lines) := by
  by_cases h : lines = [] ∧ terminated = false
  · exact .inl ⟨h.1, h.2, if_pos h⟩
  · exact .inr (if_neg h)

end Gapbs
