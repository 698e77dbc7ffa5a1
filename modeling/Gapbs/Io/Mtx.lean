import Gapbs.Io.Fields

/-!
# Reading `.mtx` files

`ReadInMTX` reads words, then comments and numbers, then lines.  It pushes an edge for every line that is
not empty, and takes the integer that a weight begins with.
-/

namespace Gapbs

open InStream

variable {D : Type} [DestID D]

/-- The values of the uninitialised variables of `ReadInMTX`; those in the loop may hold another one in
each iteration. -/
structure MtxVars where
  m : Int
  n : Int
  nonzeros : Int
  u : InStream → Int
  v : InStream → Int × Int

/-- `read_weights` -/
def readWeights (field : List UInt8) : Option Bool :=
  if field = ascii "pattern" then some false
  else if field = ascii "real" ∨ field = ascii "double" ∨ field = ascii "integer" then some true
  else none

/-- `undirected` -/
def undirected (symmetry : List UInt8) : Option Bool :=
  if symmetry = ascii "symmetric" then some true
  else if symmetry = ascii "general" ∨ symmetry = ascii "skew-symmetric" then some false
  else none

/-- The edges that are pushed for a line. -/
def pushed (readWeights undirected : Bool) (u : Int) (v : Int × Int) (line : List UInt8) :
    List (EdgePair Int D) :=
  let (u, stream) := (ofBytes line).readInteger 32 u
  if readWeights then
    let (v, _) := readNodeWeight v stream
    -- `v.v -= 1` changes `v` itself, so both edges go without another subtraction
    let v := (toNodeID (v.1 - 1), v.2)
    ⟨toNodeID (u - 1), DestID.ofNodeWeight v.1 v.2⟩ ::
      if undirected then [⟨v.1, DestID.ofNodeWeight (toNodeID (u - 1)) v.2⟩] else []
  else
    let (v, _) := stream.readInteger 32 v.1
    ⟨toNodeID (u - 1), DestID.ofNodeID (toNodeID (v - 1))⟩ ::
      if undirected then [⟨toNodeID (v - 1), DestID.ofNodeID (toNodeID (u - 1))⟩] else []

/-- The local variables of the loop over the lines. -/
structure MtxLocals (D : Type) where
  input : InStream
  line : List UInt8
  el : List (EdgePair Int D)

/-- `while (std::getline(in, line))` -/
def lineBody (vars : MtxVars) (readWeights undirected : Bool) (s : MtxLocals D) :
    Fueled (MtxLocals D ⊕ List (EdgePair Int D)) :=
  let (line, input) := s.input.getline s.line
  pure (
    -- the test of the `while` is on the stream behind `getline`
    if input.fail then .inr s.el
    else if line = [] then .inl ⟨input, line, s.el⟩
    else .inl ⟨input, line,
      s.el ++ pushed readWeights undirected (vars.u input) (vars.v input) line⟩)

/-- `ReadInMTX` from the sizes on -/
def readSized (vars : MtxVars) (readWeights undirected : Bool) (input : InStream) :
    Fueled (Except Int (List (EdgePair Int D) × Bool)) := do
  let (m, input) := input.readInteger 64 vars.m
  let (n, input) := input.readInteger 64 vars.n
  -- the number of entries is read but not used
  let (_, input) := input.readInteger 64 vars.nonzeros
  let input := input.ws
  if m ≠ n then return .error (-26)
  else
    let el ← .loop (lineBody vars readWeights undirected) ⟨input, [], []⟩
    return .ok (el, !readWeights)

/-- `ReadInMTX`: the edge list and `needs_weights`, or an exit code -/
def readInMTX (vars : MtxVars) (bytes : List UInt8) :
    Fueled (Except Int (List (EdgePair Int D) × Bool)) :=
  let input := ofBytes bytes
  let (start, input) := input.readString []
  let (object, input) := input.readString []
  let (format, input) := input.readString []
  let (field, input) := input.readString []
  let (symmetry, input) := input.readString []
  let input := input.ws
  if start ≠ ascii "%%MatrixMarket" then pure (.error (-21))
  else if object ≠ ascii "matrix" ∨ format ≠ ascii "coordinate" then pure (.error (-22))
  else if field = ascii "complex" then pure (.error (-23))
  else match readWeights field with
  | none => pure (.error (-24))
  | some readWeights => match undirected symmetry with
    | none => pure (.error (-25))
    | some undirected => do
      let input ← skipComments input
      readSized vars readWeights undirected input

/-! ## Weights -/

/-- A real number with or without a point and an exponent. -/
structure RealNumeral where
  /-- `some true` for a minus sign -/
  sign : Option Bool
  whole : List UInt8
  fraction : Option (List UInt8)
  /-- behind an `e` or `E` -/
  exponent : Option (Bool × Numeral)
  digit : ∀ d ∈ whole ++ fraction.getD [], isDigit d = true
  nonempty : whole ++ fraction.getD [] ≠ []

namespace RealNumeral

variable (x : RealNumeral)

def signBytes : List UInt8 :=
  match x.sign with
  | none => []
  | some true => [45]
  | some false => [43]

/-- What stands behind the digits in front of the point. -/
def behind : List UInt8 :=
  (match x.fraction with
    | none => []
    | some digits => 46 :: digits) ++
  match x.exponent with
    | none => []
    | some (upper, e) => (if upper then 69 else 101) :: e.bytes

def bytes : List UInt8 := x.signBytes ++ (x.whole ++ x.behind)

/-- The power of ten by which the number of all digits is to be multiplied. -/
def scale : Int :=
  (match x.exponent with
    | none => 0
    | some (_, e) => e.value) - (x.fraction.getD []).length

/-- The absolute value without what is behind the point. -/
def magnitude : Nat :=
  let mantissa := decimal (x.whole ++ x.fraction.getD [])
  if 0 ≤ x.scale then mantissa * 10 ^ x.scale.toNat else mantissa / 10 ^ (-x.scale).toNat

/-- The cast to an integer type, towards zero. -/
def cast : Int := if x.sign = some true then -x.magnitude else x.magnitude

/-- The integer in front of the point, or the nearest one of 32 bits. -/
def leading : Int :=
  if x.whole = [] then 0
  else max (-2 ^ 31) (min (2 ^ 31 - 1) (if x.sign = some true then -decimal x.whole else decimal x.whole))

theorem behind_isDigit {next : List UInt8} (hnext : next.takeWhile isDigit = []) :
    (x.behind ++ next).takeWhile isDigit = [] := by
  rw [behind]
  match x.fraction, x.exponent with
  | some digits, _ => exact List.takeWhile_cons_of_neg (by decide)
  | none, some (true, e) => exact List.takeWhile_cons_of_neg (by decide)
  | none, some (false, e) => exact List.takeWhile_cons_of_neg (by decide)
  | none, none => exact hnext

/-- Behind the sign stands a digit or the point. -/
theorem exists_first : ∃ b rest, x.whole ++ x.behind = b :: rest ∧ (isDigit b = true ∨ b = 46) := by
  cases hwhole : x.whole with
  | cons d whole => exact ⟨d, _, rfl, .inl (x.digit d (by rw [hwhole]; exact List.mem_cons_self))⟩
  | nil =>
    have hne := x.nonempty
    rw [hwhole, List.nil_append] at hne
    cases hfraction : x.fraction with
    | none => exact absurd (by rw [hfraction]; rfl) hne
    | some digits => exact ⟨46, _, by rw [behind, hfraction]; rfl, .inr rfl⟩

theorem splitSign_bytes (next : List UInt8) :
    splitSign (x.bytes ++ next) = (decide (x.sign = some true), x.whole ++ (x.behind ++ next)) := by
  rw [bytes, signBytes, List.append_assoc, List.append_assoc]
  cases x.sign with
  | some negative => cases negative <;> rfl
  | none =>
    obtain ⟨b, rest, hb, hfirst⟩ := x.exists_first
    have hsign : b ≠ 45 ∧ b ≠ 43 := by
      rcases hfirst with hdigit | rfl
      · exact Numeral.not_sign_of_isDigit hdigit
      · decide
    rw [List.nil_append, ← List.append_assoc, hb, List.cons_append, splitSign, if_neg hsign.1,
      if_neg hsign.2]
    rfl

/-- The number begins with something that is not white space. -/
theorem exists_start : ∃ b rest, x.bytes = b :: rest ∧ isSpace b = false := by
  rw [bytes, signBytes]
  match x.sign with
  | some true => exact ⟨45, _, rfl, by decide⟩
  | some false => exact ⟨43, _, rfl, by decide⟩
  | none =>
    obtain ⟨b, rest, hb, hfirst⟩ := x.exists_first
    refine ⟨b, rest, hb, ?_⟩
    rcases hfirst with hdigit | rfl
    · exact Numeral.not_isSpace_of_isDigit hdigit
    · decide

/-- The extraction of an integer takes the digits in front of the point. -/
theorem scanInteger_bytes {next : List UInt8} (hnext : next.takeWhile isDigit = []) :
    (scanInteger 32 (x.bytes ++ next)).1 = x.leading := by
  have hdigit : ∀ d ∈ x.whole, isDigit d = true := fun d hd => x.digit d (List.mem_append_left _ hd)
  simp only [scanInteger, splitSign_bytes, takeWhile_run hdigit (x.behind_isDigit hnext),
    dropWhile_run hdigit (x.behind_isDigit hnext), decide_eq_true_eq, leading]
  split_ifs <;> omega

/-- The digits of the fraction do not count. -/
theorem magnitude_of_no_exponent (h : x.exponent = none) : x.magnitude = decimal x.whole := by
  have hlt := decimal_lt fun d hd => x.digit d (List.mem_append_right _ hd)
  have hscale : x.scale = -((x.fraction.getD []).length : Int) := by
    rw [scale, h]
    exact Int.zero_sub _
  rw [magnitude, hscale, decimal_append]
  by_cases hzero : (x.fraction.getD []).length = 0
  · rw [hzero] at hlt ⊢
    simpa using hlt
  · rw [if_neg (by omega), Int.neg_neg, Int.toNat_natCast, Nat.add_comm,
      Nat.add_mul_div_right _ _ (Nat.pow_pos (by decide)), Nat.div_eq_of_lt hlt, Nat.zero_add]

theorem leading_eq_cast (h : x.exponent = none) (hfits : -2 ^ 31 ≤ x.cast ∧ x.cast < 2 ^ 31) :
    x.leading = x.cast := by
  have hmagnitude := x.magnitude_of_no_exponent h
  rw [cast, hmagnitude] at hfits ⊢
  rw [leading]
  split_ifs at hfits ⊢ with hwhole hsign hsign
  · rw [hwhole]
    rfl
  · rw [hwhole]
    rfl
  · omega
  · omega

end RealNumeral

/-- The value of an entry: an integer of 32 bits, or a real number that can be cast to one. -/
inductive MtxValue where
  | integer (w : WeightNumeral)
  | real (x : RealNumeral) (fits : -2 ^ 31 ≤ x.cast ∧ x.cast < 2 ^ 31)

namespace MtxValue

def bytes : MtxValue → List UInt8
  | integer w => w.bytes
  | real x _ => x.bytes

/-- The value cast to the type of weights. -/
def cast : MtxValue → Int
  | integer w => w.value
  | real x _ => x.cast

/-- What the reader takes for the value. -/
def leading : MtxValue → Int
  | integer w => w.value
  | real x _ => x.leading

/-- There is an exponent. -/
def hasExponent : MtxValue → Bool
  | integer _ => false
  | real x _ => x.exponent.isSome

theorem leading_eq_cast {w : MtxValue} (h : w.hasExponent = false) : w.leading = w.cast := by
  cases w with
  | integer w => rfl
  | real x fits =>
    exact x.leading_eq_cast (Option.isNone_iff_eq_none.mp (Option.isSome_eq_false_iff.mp h)) fits

theorem readInteger_upTo (w : MtxValue) (gap : Gap) {next : List UInt8}
    (hnext : next.takeWhile isDigit = []) (old : Int) :
    ((upTo (gap.bytes ++ (w.bytes ++ next))).readInteger 32 old).1 = w.leading := by
  cases w with
  | integer w => exact congrArg Prod.fst (Numeral.readInteger_upTo w.fits gap hnext old)
  | real x fits =>
    obtain ⟨b, rest, hb, hspace⟩ := x.exists_start
    have hne : x.bytes ++ next ≠ [] := by rw [hb]; exact List.cons_ne_nil _ _
    have hstart : (x.bytes ++ next).takeWhile isSpace = [] := by
      rw [hb]
      exact List.takeWhile_cons_of_neg (by simp [hspace])
    rw [upTo_of_ne fun heq => gap.nonempty (List.append_eq_nil_iff.mp heq).1, readInteger, bytes,
      extract_ofBytes gap.isSpace hne hstart]
    exact x.scanInteger_bytes hnext

end MtxValue

/-! ## Well-formed files -/

/-- `i j` or `i j w` -/
structure MtxEntry where
  lead : Blanks
  i : VertexNumeral
  gap : Gap
  j : VertexNumeral
  value : Option (Gap × MtxValue)
  trail : Blanks

namespace MtxEntry

variable (e : MtxEntry)

/-- What stands behind the column. -/
def behind : List UInt8 :=
  (match e.value with
    | none => []
    | some (gap, w) => gap.bytes ++ w.bytes) ++ e.trail.bytes

def bytes : List UInt8 := e.lead.bytes ++ (e.i.bytes ++ (e.gap.bytes ++ (e.j.bytes ++ e.behind)))

/-- The edges of the entry, with its value read as `weight`. -/
def edgesWith (weight : MtxValue → Int) (undirected : Bool) : List (EdgePair Int D) :=
  let dest (v : VertexNumeral) : D :=
    match e.value with
    | none => DestID.ofNodeID v.id
    | some (_, w) => DestID.ofNodeWeight v.id (weight w)
  ⟨e.i.id, dest e.j⟩ :: if undirected then [⟨e.j.id, dest e.i⟩] else []

theorem behind_isDigit : e.behind.takeWhile isDigit = [] := by
  rw [behind]
  cases e.value with
  | none => simpa [endText] using e.trail.takeWhile_isDigit none
  | some f =>
    simp only [List.append_assoc]
    exact f.1.takeWhile_isDigit _

/-- For an entry, its edges are pushed. -/
theorem pushed_bytes {weights undirected : Bool} (hkind : e.value.isSome = weights) (u : Int)
    (v : Int × Int) : pushed weights undirected u v e.bytes =
      (e.edgesWith MtxValue.leading undirected : List (EdgePair Int D)) := by
  have hi := Numeral.readInteger_ofBytes e.i.fits e.lead.isSpace
    (e.gap.takeWhile_isDigit (e.j.bytes ++ e.behind)) u
  have hj := Numeral.readInteger_upTo e.j.fits e.gap e.behind_isDigit v.1
  cases hvalue : e.value with
  | none =>
    obtain rfl : false = weights := by rw [← hkind, hvalue]; rfl
    simp only [pushed, bytes, hi, hj, edgesWith, hvalue, Bool.false_eq_true, if_false,
      VertexNumeral.toNodeID_pred]
  | some f =>
    obtain ⟨gap, w⟩ := f
    obtain rfl : true = weights := by rw [← hkind, hvalue]; rfl
    have htrail : e.trail.bytes.takeWhile isDigit = [] := by
      simpa [endText] using e.trail.takeWhile_isDigit none
    have hw := w.readInteger_upTo gap htrail v.2
    have hbehind : e.behind = gap.bytes ++ (w.bytes ++ e.trail.bytes) := by
      rw [behind, hvalue, List.append_assoc]
    rw [hbehind] at hi hj
    simp only [pushed, bytes, hi, readNodeWeight, hbehind, hj, hw, edgesWith, hvalue, if_true,
      VertexNumeral.toNodeID_pred]

end MtxEntry

/-- A line behind the sizes. -/
inductive MtxLine where
  | blank (x : Blanks)
  | entry (e : MtxEntry)

namespace MtxLine

def bytes : MtxLine → List UInt8
  | blank x => x.bytes
  | entry e => e.bytes

def isBlank : MtxLine → Bool
  | blank _ => true
  | entry _ => false

/-- The line is an entry or empty. -/
def Tight : MtxLine → Prop
  | blank x => x.bytes = []
  | entry _ => True

/-- Entries have a value exactly if the field says so. -/
def OfKind (weights : Bool) : MtxLine → Prop
  | blank _ => True
  | entry e => e.value.isSome = weights

def edgesWith (weight : MtxValue → Int) (undirected : Bool) : MtxLine → List (EdgePair Int D)
  | blank _ => []
  | entry e => e.edgesWith weight undirected

end MtxLine

theorem MtxEntry.bytes_ne_nil (e : MtxEntry) : e.bytes ≠ [] := fun heq =>
  e.i.bytes_ne_nil (List.append_eq_nil_iff.mp (List.append_eq_nil_iff.mp heq).2).1

theorem length_pushed (weights undirected : Bool) (u : Int) (v : Int × Int) (line : List UInt8) :
    (pushed weights undirected u v line : List (EdgePair Int D)).length = if undirected then 2 else 1 := by
  cases weights <;> cases undirected <;> rfl

theorem RealNumeral.newline_notMem (x : RealNumeral) : newline ∉ x.bytes := by
  have hdigit {digits : List UInt8} (h : ∀ d ∈ digits, isDigit d = true) : newline ∉ digits :=
    fun hmem => absurd (h newline hmem) (by decide)
  have hwhole := hdigit fun d hd => x.digit d (List.mem_append_left _ hd)
  have hfraction := hdigit fun d hd => x.digit d (List.mem_append_right _ hd)
  rw [bytes, behind, List.mem_append, List.mem_append, List.mem_append]
  rintro (hsign | hmem | hmem | hmem)
  · rw [signBytes] at hsign
    split at hsign
    · cases hsign
    · exact absurd hsign (by decide)
    · exact absurd hsign (by decide)
  · exact hwhole hmem
  · cases hx : x.fraction with
    | none => rw [hx] at hmem; cases hmem
    | some digits =>
      rw [hx] at hmem hfraction
      exact (List.mem_cons.mp hmem).elim (fun heq => absurd heq (by decide)) hfraction
  · cases hx : x.exponent with
    | none => rw [hx] at hmem; cases hmem
    | some e =>
      obtain ⟨upper, e⟩ := e
      rw [hx] at hmem
      refine (List.mem_cons.mp hmem).elim (fun heq => ?_) e.newline_notMem
      revert heq
      cases upper <;> decide

theorem MtxEntry.newline_notMem (e : MtxEntry) : newline ∉ e.bytes := by
  simp only [bytes, behind, List.mem_append, e.lead.newline_notMem, e.i.newline_notMem,
    e.gap.newline_notMem, e.j.newline_notMem, e.trail.newline_notMem, or_false, false_or]
  cases e.value with
  | none => exact List.not_mem_nil
  | some f =>
    obtain ⟨gap, w⟩ := f
    have hw : newline ∉ w.bytes := by
      cases w with
      | integer w => exact w.newline_notMem
      | real x fits => exact x.newline_notMem
    exact fun h => (List.mem_append.mp h).elim gap.newline_notMem hw

theorem MtxLine.newline_notMem (l : MtxLine) : newline ∉ l.bytes := by
  cases l with
  | blank x => exact x.newline_notMem
  | entry e => exact e.newline_notMem

/-! ## The loop over the lines -/

section

variable {vars : MtxVars} {weights undirected : Bool} {input : InStream} {line : List UInt8}
  {el a : List (EdgePair Int D)}

theorem lineBody_eq (s : MtxLocals D) {line' : List UInt8} {input' : InStream}
    (hget : s.input.getline s.line = (line', input')) : lineBody vars weights undirected s =
      pure (if input'.fail then .inr s.el
        else if line' = [] then .inl ⟨input', line', s.el⟩
        else .inl ⟨input', line',
          s.el ++ pushed weights undirected (vars.u input') (vars.v input') line'⟩) := by
  rw [lineBody, hget]

theorem line_exit {line' : List UInt8} {input' : InStream} (hget : input.getline line = (line', input'))
    (hfail : input'.fail = true) :
    (Fueled.loop (lineBody vars weights undirected) ⟨input, line, el⟩).Returns a ↔ el = a := by
  apply Fueled.Returns.loop_exit
  rw [lineBody_eq _ hget, if_pos hfail]
  exact Fueled.returns_pure.mpr rfl

theorem line_next {line' : List UInt8} {input' : InStream} (hget : input.getline line = (line', input'))
    (hgood : input'.fail = false) :
    (Fueled.loop (lineBody vars weights undirected) ⟨input, line, el⟩).Returns a ↔
      (Fueled.loop (lineBody vars weights undirected) ⟨input', line',
        el ++ if line' = [] then []
          else pushed weights undirected (vars.u input') (vars.v input') line'⟩).Returns a := by
  apply Fueled.Returns.loop_next
  rw [lineBody_eq _ hget, if_neg (by rw [hgood]; decide)]
  apply Fueled.returns_pure.mpr
  by_cases hline : line' = []
  · rw [if_pos hline, if_pos hline, List.append_nil]
  · rw [if_neg hline, if_neg hline]

end

/-- What is pushed for some lines: their edges, and more if a line is neither empty nor an entry. -/
structure Covers (undirected : Bool) (lines : List MtxLine) (es : List (EdgePair Int D)) : Prop where
  le : (lines.flatMap (MtxLine.edgesWith (D := D) MtxValue.leading undirected)).length ≤ es.length
  eq : (∀ l ∈ lines, l.Tight) → es = lines.flatMap (MtxLine.edgesWith MtxValue.leading undirected)
  lt : (∃ l ∈ lines, ¬ l.Tight) →
    (lines.flatMap (MtxLine.edgesWith (D := D) MtxValue.leading undirected)).length < es.length

namespace Covers

variable {undirected : Bool}

theorem nil : Covers undirected [] ([] : List (EdgePair Int D)) :=
  ⟨le_refl _, fun _ => rfl, fun ⟨_, hl, _⟩ => absurd hl List.not_mem_nil⟩

theorem cons {l : MtxLine} {lines : List MtxLine} {own es : List (EdgePair Int D)}
    (hown : Covers undirected [l] own) (h : Covers undirected lines es) :
    Covers undirected (l :: lines) (own ++ es) := by
  have hflat (ls : List MtxLine) : (l :: ls).flatMap (MtxLine.edgesWith (D := D) MtxValue.leading undirected) =
      [l].flatMap (MtxLine.edgesWith MtxValue.leading undirected) ++
        ls.flatMap (MtxLine.edgesWith MtxValue.leading undirected) := by
    rw [← List.flatMap_append, List.singleton_append]
  constructor
  · rw [hflat, List.length_append, List.length_append]
    exact Nat.add_le_add hown.le h.le
  · intro htight
    rw [List.forall_mem_cons] at htight
    rw [hflat, hown.eq (by simpa using htight.1), h.eq htight.2]
  · rintro ⟨l', hl', hnot⟩
    rw [hflat, List.length_append, List.length_append]
    rcases List.mem_cons.mp hl' with rfl | hl'
    · exact Nat.add_lt_add_of_lt_of_le (hown.lt ⟨l', List.mem_singleton_self l', hnot⟩) h.le
    · exact Nat.add_lt_add_of_le_of_lt hown.le (h.lt ⟨l', hl', hnot⟩)

/-- The contribution of a line. -/
theorem line {weights : Bool} {l : MtxLine} (hkind : l.OfKind weights) (u : Int) (v : Int × Int) :
    Covers undirected [l]
      (if l.bytes = [] then [] else pushed weights undirected u v l.bytes : List (EdgePair Int D)) := by
  have hflat : [l].flatMap (MtxLine.edgesWith (D := D) MtxValue.leading undirected) =
      l.edgesWith MtxValue.leading undirected := List.append_nil _
  have hsingle : (∃ l' ∈ [l], ¬ l'.Tight) ↔ ¬ l.Tight := by simp
  cases l with
  | entry e =>
    have hpushed : (if (MtxLine.entry e).bytes = [] then []
        else pushed weights undirected u v (MtxLine.entry e).bytes) =
        (e.edgesWith MtxValue.leading undirected : List (EdgePair Int D)) :=
      (if_neg e.bytes_ne_nil).trans (e.pushed_bytes hkind u v)
    refine ⟨?_, fun _ => ?_, fun h => absurd trivial (hsingle.mp h)⟩
    · rw [hflat, hpushed]
      exact le_refl _
    · rw [hflat, hpushed]
      rfl
  | blank x =>
    refine ⟨?_, fun h => ?_, fun h => ?_⟩
    · rw [hflat]
      exact Nat.zero_le _
    · rw [hflat, if_pos (show (MtxLine.blank x).bytes = [] from h _ (List.mem_singleton_self _))]
      rfl
    · rw [hflat, if_neg (show (MtxLine.blank x).bytes ≠ [] from hsingle.mp h), length_pushed]
      show 0 < if undirected = true then 2 else 1
      split_ifs
      · exact Nat.two_pos
      · exact Nat.one_pos

end Covers

/-- The loop pushes what covers the lines. -/
theorem mtx_lines {vars : MtxVars} {weights undirected terminated : Bool} {lines : List MtxLine}
    (hkind : ∀ l ∈ lines, l.OfKind weights) {line : List UInt8} {el : List (EdgePair Int D)} :
    ∃ es : List (EdgePair Int D), Covers undirected lines es ∧
      (Fueled.loop (lineBody vars weights undirected)
        ⟨ofBytes (fileText terminated (lines.map MtxLine.bytes)), line, el⟩).Returns (el ++ es) := by
  induction lines generalizing line el with
  | nil =>
    refine ⟨[], .nil, ?_⟩
    rw [line_exit rfl rfl, List.append_nil]
  | cons l lines ih =>
    rw [List.forall_mem_cons] at hkind
    rw [List.map_cons, fileText_cons]
    rcases afterLine_following terminated (lines.map MtxLine.bytes) with ⟨hnil, -, hnext⟩ | hnext
    · -- the last line, without a line end
      obtain rfl := List.map_eq_nil_iff.mp hnil
      let input' : InStream := ⟨[], true, l.bytes.isEmpty⟩
      have hget := getline_last l.newline_notMem line
      refine ⟨_, .line hkind.1 (vars.u input') (vars.v input'), ?_⟩
      rw [hnext, endText, List.append_nil]
      by_cases hempty : l.bytes = []
      · rw [line_exit hget (List.isEmpty_iff.mpr hempty), if_pos hempty, List.append_nil]
      · have hfail : input'.fail = false := List.isEmpty_eq_false_iff.mpr hempty
        rw [line_next hget hfail]
        exact (line_exit (getline_of_not_good rfl _) rfl).mpr rfl
    · let rest := ofBytes (fileText terminated (lines.map MtxLine.bytes))
      let own : List (EdgePair Int D) :=
        if l.bytes = [] then [] else pushed weights undirected (vars.u rest) (vars.v rest) l.bytes
      obtain ⟨es, hcovers, hes⟩ := @ih hkind.2 l.bytes (el ++ own)
      refine ⟨own ++ es, (Covers.line hkind.1 _ _).cons hcovers, ?_⟩
      rw [hnext, endText, line_next (getline_ofBytes l.newline_notMem line _) rfl, ← List.append_assoc]
      exact hes

/-! ## Blanks that are skipped with the sizes -/

/-- The entry without the blanks in front. -/
def MtxEntry.flush (e : MtxEntry) : MtxEntry := { e with lead := ⟨[], no_blanks⟩ }

theorem MtxEntry.flush_bytes (e : MtxEntry) : e.bytes = e.lead.bytes ++ e.flush.bytes := rfl

/-- The lines from the first entry on, without the blanks in front of it. -/
def behindBlanks : List MtxLine → List MtxLine
  | [] => []
  | .blank _ :: lines => behindBlanks lines
  | .entry e :: lines => .entry e.flush :: lines

theorem dropWhile_fileText (terminated : Bool) (lines : List MtxLine) :
    (fileText terminated (lines.map MtxLine.bytes)).dropWhile isSpace =
      fileText terminated ((behindBlanks lines).map MtxLine.bytes) := by
  induction lines with
  | nil => rfl
  | cons l lines ih =>
    rw [List.map_cons, fileText_cons]
    cases l with
    | blank x =>
      rcases afterLine_following terminated (lines.map MtxLine.bytes) with ⟨hnil, -, hnext⟩ | hnext
      · rw [hnext, List.map_eq_nil_iff.mp hnil, endText, List.append_nil]
        exact List.dropWhile_eq_nil_iff.mpr x.isSpace
      · have hlead : ∀ b ∈ x.bytes ++ [newline], isSpace b = true := by
          rw [List.forall_mem_append]
          exact ⟨x.isSpace, by decide⟩
        have htext : x.bytes ++ endText (some (fileText terminated (lines.map MtxLine.bytes))) =
            (x.bytes ++ [newline]) ++ fileText terminated (lines.map MtxLine.bytes) := by
          rw [List.append_assoc]
          rfl
        rw [hnext]
        show (x.bytes ++ endText _).dropWhile isSpace = _
        rw [htext, List.dropWhile_append_of_pos hlead, ih]
        rfl
    | entry e =>
      show (e.bytes ++ _).dropWhile isSpace = e.flush.bytes ++ _
      have hstart (next : List UInt8) : (e.flush.bytes ++ next).takeWhile isSpace = [] := by
        show (e.i.bytes ++ _ ++ next).takeWhile isSpace = []
        rw [List.append_assoc]
        exact e.i.takeWhile_isSpace _
      rw [e.flush_bytes, List.append_assoc]
      exact dropWhile_run e.lead.isSpace (hstart _)

/-- There is no blank in front. -/
theorem fileText_behindBlanks_ne_nil (terminated : Bool) {lines : List MtxLine}
    (h : behindBlanks lines ≠ []) : fileText terminated ((behindBlanks lines).map MtxLine.bytes) ≠ [] := by
  induction lines with
  | nil => exact absurd rfl h
  | cons l lines ih =>
    cases l with
    | blank x => exact ih h
    | entry e => exact fun heq => e.flush.bytes_ne_nil (List.append_eq_nil_iff.mp heq).1

theorem ofKind_behindBlanks {weights : Bool} {lines : List MtxLine}
    (h : ∀ l ∈ lines, l.OfKind weights) : ∀ l ∈ behindBlanks lines, l.OfKind weights := by
  induction lines with
  | nil => exact h
  | cons l lines ih =>
    rw [List.forall_mem_cons] at h
    cases l with
    | blank x => exact ih h.2
    | entry e =>
      rw [behindBlanks, List.forall_mem_cons]
      exact h

theorem flatMap_behindBlanks (weight : MtxValue → Int) (undirected : Bool) (lines : List MtxLine) :
    (behindBlanks lines).flatMap (MtxLine.edgesWith (D := D) weight undirected) =
      lines.flatMap (MtxLine.edgesWith weight undirected) := by
  induction lines with
  | nil => rfl
  | cons l lines ih =>
    cases l with
    | blank x => exact ih
    | entry e => rfl

theorem tight_behindBlanks {lines : List MtxLine} : (∀ l ∈ behindBlanks lines, l.Tight) ↔
    ∀ l ∈ lines.dropWhile MtxLine.isBlank, l.Tight := by
  induction lines with
  | nil => rfl
  | cons l lines ih =>
    cases l with
    | blank x => exact ih
    | entry e =>
      rw [behindBlanks, List.dropWhile_cons_of_neg Bool.false_ne_true, List.forall_mem_cons,
        List.forall_mem_cons]
      rfl

/-! ## Files -/

/-- The field of a header. -/
inductive MtxField where
  | pattern
  | integer
  | real
  | double

namespace MtxField

def bytes : MtxField → List UInt8
  | pattern => ascii "pattern"
  | integer => ascii "integer"
  | real => ascii "real"
  | double => ascii "double"

/-- Entries have a value. -/
def weights : MtxField → Bool
  | pattern => false
  | _ => true

theorem readWeights_bytes (f : MtxField) : readWeights f.bytes = some f.weights := by
  cases f <;> decide

theorem bytes_ne_complex (f : MtxField) : f.bytes ≠ ascii "complex" := by
  cases f <;> decide

theorem not_isSpace (f : MtxField) : ∀ b ∈ f.bytes, isSpace b = false := by
  cases f <;> decide

theorem bytes_ne_nil (f : MtxField) : f.bytes ≠ [] := by
  cases f <;> decide

end MtxField

/-- The symmetry of a header. -/
inductive MtxSymmetry where
  | general
  | skewSymmetric
  | symmetric

namespace MtxSymmetry

def bytes : MtxSymmetry → List UInt8
  | general => ascii "general"
  | skewSymmetric => ascii "skew-symmetric"
  | symmetric => ascii "symmetric"

/-- Entries are followed by their reverse. -/
def undirected : MtxSymmetry → Bool
  | symmetric => true
  | _ => false

theorem undirected_bytes (y : MtxSymmetry) : Gapbs.undirected y.bytes = some y.undirected := by
  cases y <;> decide

theorem not_isSpace (y : MtxSymmetry) : ∀ b ∈ y.bytes, isSpace b = false := by
  cases y <;> decide

theorem bytes_ne_nil (y : MtxSymmetry) : y.bytes ≠ [] := by
  cases y <;> decide

end MtxSymmetry

/-- `%%MatrixMarket matrix coordinate field symmetry` -/
structure MtxBanner where
  gapObject : Gap
  gapFormat : Gap
  gapField : Gap
  field : MtxField
  gapSymmetry : Gap
  symmetry : MtxSymmetry
  trail : Blanks

/-- `m n nonzeros` -/
structure MtxSizes where
  lead : Blanks
  m : Numeral
  gapN : Gap
  n : Numeral
  gapNonzeros : Gap
  nonzeros : Numeral
  trail : Blanks
  mFits : m.Fits 64
  nFits : n.Fits 64
  nonzerosFits : nonzeros.Fits 64
  square : m.value = n.value

def MtxBanner.bytes (b : MtxBanner) : List UInt8 :=
  ascii "%%MatrixMarket" ++ (b.gapObject.bytes ++ (ascii "matrix" ++ (b.gapFormat.bytes ++
    (ascii "coordinate" ++ (b.gapField.bytes ++ (b.field.bytes ++ (b.gapSymmetry.bytes ++
      (b.symmetry.bytes ++ b.trail.bytes))))))))

namespace MtxSizes

variable (z : MtxSizes)

/-- The sizes without the blanks in front. -/
def flush : MtxSizes := { z with lead := ⟨[], no_blanks⟩ }

/-- The line without the blanks in front. -/
def numbers : List UInt8 :=
  z.m.bytes ++ (z.gapN.bytes ++ (z.n.bytes ++ (z.gapNonzeros.bytes ++ (z.nonzeros.bytes ++ z.trail.bytes))))

def bytes : List UInt8 := z.lead.bytes ++ z.numbers

theorem numbers_ne_nil : z.numbers ≠ [] := fun heq => z.m.bytes_ne_nil (List.append_eq_nil_iff.mp heq).1

theorem numbers_head : z.numbers.head? ≠ some 37 := by
  obtain ⟨b, rest, hb⟩ := List.exists_cons_of_ne_nil z.m.bytes_ne_nil
  rw [numbers, hb]
  intro heq
  have hbyte := z.m.mem_bytes b (hb ▸ List.mem_cons_self)
  rw [show b = 37 from Option.some.inj heq] at hbyte
  exact absurd hbyte (by decide)

theorem bytes_ne_nil : z.bytes ≠ [] := fun heq => z.numbers_ne_nil (List.append_eq_nil_iff.mp heq).2

theorem bytes_head : z.bytes.head? ≠ some 37 := by
  rw [bytes]
  cases hlead : z.lead.bytes with
  | nil => exact z.numbers_head
  | cons b rest =>
    intro heq
    have hspace := z.lead.isSpace b (hlead ▸ List.mem_cons_self)
    rw [show b = 37 from Option.some.inj heq] at hspace
    exact absurd hspace (by decide)

end MtxSizes

/-- A coordinate file of a square matrix; it may hold more or fewer entries than the sizes say, at any
place. -/
structure MtxText where
  banner : MtxBanner
  comments : List Comment
  sizes : MtxSizes
  lines : List MtxLine
  /-- The last line ends with a line end. -/
  terminated : Bool
  kind : ∀ l ∈ lines, l.OfKind banner.field.weights

namespace MtxText

variable (t : MtxText)

def bytes : List UInt8 :=
  fileText t.terminated
    (t.banner.bytes :: (t.comments.map Comment.bytes ++ t.sizes.bytes :: t.lines.map MtxLine.bytes))

/-- The edges of the entries, with the values cast to the type of weights. -/
def edges : List (EdgePair Int D) :=
  t.lines.flatMap (MtxLine.edgesWith MtxValue.cast t.banner.symmetry.undirected)

/-- Whatever the uninitialised variables hold, the reader returns the edges of the file. -/
def Reads (D : Type) [DestID D] : Prop :=
  ∀ vars, (readInMTX vars t.bytes).Returns
    (.ok ((t.edges : List (EdgePair Int D)), !t.banner.field.weights))

end MtxText

/-! ## The banner -/

theorem Gap.takeWhile_not_isSpace (gap : Gap) (next : List UInt8) :
    (gap.bytes ++ next).takeWhile (!Gapbs.isSpace ·) = [] := by
  obtain ⟨b, bytes, hb⟩ := List.exists_cons_of_ne_nil gap.nonempty
  have hspace : Gapbs.isSpace b = true := gap.isSpace b (hb ▸ List.mem_cons_self)
  rw [hb, List.cons_append, List.takeWhile_cons_of_neg]
  rw [hspace]
  exact Bool.false_ne_true

/-- The next word of a line is read from where the one before it has ended. -/
theorem readString_upTo {word next : List UInt8} (gap : Gap) (hne : word ≠ [])
    (hword : ∀ b ∈ word, isSpace b = false) (hnext : next.takeWhile (!isSpace ·) = []) (old : List UInt8) :
    (upTo (gap.bytes ++ (word ++ next))).readString old = (word, upTo next) := by
  rw [upTo_of_ne fun heq => gap.nonempty (List.append_eq_nil_iff.mp heq).1]
  exact readString_ofBytes gap.isSpace hne hword hnext old

/-- The words of the banner are accepted, and the white space behind them is skipped. -/
theorem mtx_banner (b : MtxBanner) (vars : MtxVars) (next : List UInt8) :
    (readInMTX vars (b.bytes ++ newline :: next) : Fueled (Except Int (List (EdgePair Int D) × Bool))) =
      skipComments (upTo (next.dropWhile isSpace)) >>=
        readSized vars b.field.weights b.symmetry.undirected := by
  let behindSymmetry := b.trail.bytes ++ newline :: next
  let behindField := b.gapSymmetry.bytes ++ (b.symmetry.bytes ++ behindSymmetry)
  let behindFormat := b.gapField.bytes ++ (b.field.bytes ++ behindField)
  let behindObject := b.gapFormat.bytes ++ (ascii "coordinate" ++ behindFormat)
  let behindStart := b.gapObject.bytes ++ (ascii "matrix" ++ behindObject)
  have htext : b.bytes ++ newline :: next = [] ++ (ascii "%%MatrixMarket" ++ behindStart) := by
    simp only [MtxBanner.bytes, behindStart, behindObject, behindFormat, behindField, behindSymmetry,
      List.append_assoc, List.nil_append]
  have hblank : ∀ c ∈ b.trail.bytes ++ [newline], isSpace c = true := by
    rw [List.forall_mem_append]
    exact ⟨b.trail.isSpace, by decide⟩
  have hbehind : behindSymmetry = (b.trail.bytes ++ [newline]) ++ next := by
    rw [List.append_assoc]
    rfl
  have hlast : behindSymmetry.takeWhile (!isSpace ·) = [] := by
    cases htrail : b.trail.bytes ++ [newline] with
    | nil => exact absurd htrail (List.append_ne_nil_of_right_ne_nil _ (List.cons_ne_nil _ _))
    | cons c rest =>
      rw [hbehind, htrail, List.cons_append, List.takeWhile_cons_of_neg]
      rw [hblank c (htrail ▸ List.mem_cons_self)]
      exact Bool.false_ne_true
  have hstart : (ofBytes (b.bytes ++ newline :: next)).readString [] =
      (ascii "%%MatrixMarket", upTo behindStart) := by
    rw [htext]
    exact readString_ofBytes (List.forall_mem_nil _) (by decide) (by decide)
      (b.gapObject.takeWhile_not_isSpace _) []
  have hobject : (upTo behindStart).readString [] = (ascii "matrix", upTo behindObject) :=
    readString_upTo b.gapObject (by decide) (by decide) (b.gapFormat.takeWhile_not_isSpace _) []
  have hformat : (upTo behindObject).readString [] = (ascii "coordinate", upTo behindFormat) :=
    readString_upTo b.gapFormat (by decide) (by decide) (b.gapField.takeWhile_not_isSpace _) []
  have hfield : (upTo behindFormat).readString [] = (b.field.bytes, upTo behindField) :=
    readString_upTo b.gapField b.field.bytes_ne_nil b.field.not_isSpace
      (b.gapSymmetry.takeWhile_not_isSpace _) []
  have hsymmetry : (upTo behindField).readString [] = (b.symmetry.bytes, upTo behindSymmetry) :=
    readString_upTo b.gapSymmetry b.symmetry.bytes_ne_nil b.symmetry.not_isSpace hlast []
  have hws : (upTo behindSymmetry).ws = upTo (next.dropWhile isSpace) := by
    have hne : behindSymmetry ≠ [] := List.append_ne_nil_of_right_ne_nil _ (List.cons_ne_nil _ _)
    rw [upTo_of_ne hne, ws, if_pos (good_ofBytes _), hbehind]
    exact congrArg upTo (List.dropWhile_append_of_pos hblank)
  simp only [readInMTX, hstart, hobject, hformat, hfield, hsymmetry, hws]
  rw [if_neg (not_not_intro rfl), if_neg (by decide), if_neg b.field.bytes_ne_complex,
    b.field.readWeights_bytes, b.symmetry.undirected_bytes]

/-! ## The sizes -/

/-- The white space behind the sizes reaches up to the first entry. -/
theorem ws_behindSizes (trail : Blanks) (terminated : Bool) (lines : List MtxLine) :
    let text := trail.bytes ++ endText (following terminated (lines.map MtxLine.bytes))
    text.dropWhile isSpace = fileText terminated ((behindBlanks lines).map MtxLine.bytes) := by
  rcases afterLine_following terminated (lines.map MtxLine.bytes) with ⟨hnil, -, hnext⟩ | hnext
  · rw [hnext, List.map_eq_nil_iff.mp hnil, endText, List.append_nil]
    exact List.dropWhile_eq_nil_iff.mpr trail.isSpace
  · have hblank : ∀ b ∈ trail.bytes ++ [newline], isSpace b = true := by
      rw [List.forall_mem_append]
      exact ⟨trail.isSpace, by decide⟩
    have htext : trail.bytes ++ endText (some (fileText terminated (lines.map MtxLine.bytes))) =
        (trail.bytes ++ [newline]) ++ fileText terminated (lines.map MtxLine.bytes) := by
      rw [List.append_assoc]
      rfl
    rw [hnext, htext]
    exact (List.dropWhile_append_of_pos hblank).trans (dropWhile_fileText terminated lines)

/-- The loop begins with the first entry, and is left at once if there is none. -/
theorem mtx_entries (trail : Blanks) {vars : MtxVars} {weights undirected terminated : Bool}
    {lines : List MtxLine} (hkind : ∀ l ∈ lines, l.OfKind weights) :
    ∃ es : List (EdgePair Int D), Covers undirected (behindBlanks lines) es ∧
      (Fueled.loop (lineBody vars weights undirected)
        ⟨(upTo (trail.bytes ++ endText (following terminated (lines.map MtxLine.bytes)))).ws, [], []⟩).Returns
          es := by
  have hrest := ws_behindSizes trail terminated lines
  generalize trail.bytes ++ endText (following terminated (lines.map MtxLine.bytes)) = text at hrest ⊢
  have hnone {input : InStream} (hbad : input.good = false) :
      (Fueled.loop (lineBody vars weights undirected) ⟨input, [], []⟩).Returns ([] : List (EdgePair Int D)) :=
    (line_exit (getline_of_not_good hbad []) rfl).mpr rfl
  cases hlines : behindBlanks lines with
  | nil =>
    rw [hlines] at hrest
    refine ⟨[], .nil, ?_⟩
    by_cases htext : text = []
    · rw [htext]
      exact hnone rfl
    · rw [upTo_of_ne htext, ws, if_pos (good_ofBytes _), ofBytes, hrest]
      exact hnone rfl
  | cons l rest =>
    have hne := fileText_behindBlanks_ne_nil terminated (hlines ▸ List.cons_ne_nil l rest)
    have htext : text ≠ [] := by
      rintro rfl
      exact hne hrest.symm
    rw [← hlines, upTo_of_ne htext, ws, if_pos (good_ofBytes _), ofBytes, hrest, upTo_of_ne hne]
    exact mtx_lines (ofKind_behindBlanks hkind)

/-- With the sizes, the blank lines in front of the first entry are skipped. -/
theorem mtx_sizes (z : MtxSizes) {vars : MtxVars} {weights undirected terminated : Bool}
    {lead : List UInt8} (hlead : ∀ b ∈ lead, isSpace b = true) {lines : List MtxLine}
    (hkind : ∀ l ∈ lines, l.OfKind weights) :
    ∃ es : List (EdgePair Int D), Covers undirected (behindBlanks lines) es ∧
      (readSized vars weights undirected
        (ofBytes (lead ++ fileText terminated (z.bytes :: lines.map MtxLine.bytes)))).Returns
          (.ok (es, !weights)) := by
  let behindNonzeros := z.trail.bytes ++ endText (following terminated (lines.map MtxLine.bytes))
  let behindN := z.gapNonzeros.bytes ++ (z.nonzeros.bytes ++ behindNonzeros)
  let behindM := z.gapN.bytes ++ (z.n.bytes ++ behindN)
  have htext : lead ++ fileText terminated (z.bytes :: lines.map MtxLine.bytes) =
      (lead ++ z.lead.bytes) ++ (z.m.bytes ++ behindM) := by
    simp only [fileText_cons, MtxSizes.bytes, MtxSizes.numbers, behindM, behindN, behindNonzeros,
      List.append_assoc]
  have hblank : ∀ b ∈ lead ++ z.lead.bytes, isSpace b = true := by
    rw [List.forall_mem_append]
    exact ⟨hlead, z.lead.isSpace⟩
  have hm : (ofBytes ((lead ++ z.lead.bytes) ++ (z.m.bytes ++ behindM))).readInteger 64 vars.m =
      (z.m.value, upTo behindM) :=
    Numeral.readInteger_ofBytes z.mFits hblank (z.gapN.takeWhile_isDigit _) vars.m
  have hn : (upTo behindM).readInteger 64 vars.n = (z.n.value, upTo behindN) :=
    Numeral.readInteger_upTo z.nFits z.gapN (z.gapNonzeros.takeWhile_isDigit _) vars.n
  have hnonzeros : (upTo behindN).readInteger 64 vars.nonzeros =
      (z.nonzeros.value, upTo behindNonzeros) :=
    Numeral.readInteger_upTo z.nonzerosFits z.gapNonzeros
      (z.trail.takeWhile_isDigit (following terminated (lines.map MtxLine.bytes))) vars.nonzeros
  obtain ⟨es, hcovers, hloop⟩ := @mtx_entries D _ z.trail vars weights undirected terminated lines hkind
  refine ⟨es, hcovers, ?_⟩
  rw [htext, readSized]
  simp only [hm, hn, hnonzeros, z.square, ne_eq, not_true_eq_false, if_false]
  rw [hloop.bind_iff]
  exact Fueled.returns_pure.mpr rfl

/-! ## The results -/

/-- The reader returns what covers the lines from the first entry on. -/
theorem mtx_returns (t : MtxText) (hskip : Comment.AllSkipped t.comments) (vars : MtxVars) :
    ∃ es : List (EdgePair Int D), Covers t.banner.symmetry.undirected (behindBlanks t.lines) es ∧
      (readInMTX vars t.bytes).Returns (.ok (es, !t.banner.field.weights)) := by
  let lines := t.lines.map MtxLine.bytes
  -- blanks in front of the sizes are skipped with the banner if there is no comment
  obtain ⟨z, hz⟩ : ∃ z : MtxSizes,
      (fileText t.terminated (t.comments.map Comment.bytes ++ t.sizes.bytes :: lines)).dropWhile isSpace =
        fileText t.terminated (t.comments.map Comment.bytes ++ z.bytes :: lines) := by
    cases t.comments with
    | nil =>
      refine ⟨t.sizes.flush, ?_⟩
      have hstart (next : List UInt8) : (t.sizes.numbers ++ next).takeWhile isSpace = [] := by
        rw [MtxSizes.numbers, List.append_assoc]
        exact t.sizes.m.takeWhile_isSpace _
      show (t.sizes.lead.bytes ++ t.sizes.numbers ++ _).dropWhile isSpace = t.sizes.numbers ++ _
      rw [List.append_assoc]
      exact dropWhile_run t.sizes.lead.isSpace (hstart _)
    | cons c comments => exact ⟨t.sizes, List.dropWhile_cons_of_neg (by decide)⟩
  have hne : fileText t.terminated (t.comments.map Comment.bytes ++ z.bytes :: lines) ≠ [] := by
    cases t.comments with
    | nil => exact fun heq => z.bytes_ne_nil (List.append_eq_nil_iff.mp heq).1
    | cons c comments => exact List.cons_ne_nil _ _
  have hnext : following t.terminated (t.comments.map Comment.bytes ++ t.sizes.bytes :: lines) =
      some (fileText t.terminated (t.comments.map Comment.bytes ++ t.sizes.bytes :: lines)) :=
    if_neg fun hnil => List.append_ne_nil_of_right_ne_nil _ (List.cons_ne_nil _ _) hnil.1
  obtain ⟨lead, hlead, hcomments⟩ :=
    @skipComments_allSkipped _ hskip t.terminated z.bytes lines z.bytes_ne_nil z.bytes_head
  obtain ⟨es, hcovers, hsizes⟩ :=
    @mtx_sizes D _ z vars _ t.banner.symmetry.undirected t.terminated lead hlead t.lines t.kind
  refine ⟨es, hcovers, ?_⟩
  rw [MtxText.bytes, fileText_cons, hnext, endText, mtx_banner, hz, upTo_of_ne hne, hcomments.bind_iff]
  exact hsizes

theorem MtxEntry.length_edgesWith (e : MtxEntry) (weight : MtxValue → Int) (undirected : Bool) :
    (e.edgesWith weight undirected : List (EdgePair Int D)).length = if undirected then 2 else 1 := by
  cases undirected <;> rfl

theorem MtxLine.length_edgesWith (l : MtxLine) (weight weight' : MtxValue → Int) (undirected : Bool) :
    (l.edgesWith weight undirected : List (EdgePair Int D)).length =
      (l.edgesWith weight' undirected : List (EdgePair Int D)).length := by
  cases l with
  | blank x => rfl
  | entry e => exact (e.length_edgesWith weight undirected).trans (e.length_edgesWith weight' undirected).symm

/-- The value of an entry, if it matters, is taken as what it is cast to. -/
def MtxEntry.Kept (D : Type) [DestID D] (e : MtxEntry) : Prop :=
  DestID.weighted (D := D) = true → ∀ f ∈ e.value, f.2.hasExponent = true → f.2.leading = f.2.cast

theorem ofNodeWeight_eq_iff (v w w' : Int) :
    (DestID.ofNodeWeight v w : D) = DestID.ofNodeWeight v w' ↔ (DestID.weighted (D := D) = true → w = w') := by
  constructor
  · exact fun h hweighted => DestID.keeps hweighted h
  · intro h
    cases hweighted : DestID.weighted (D := D) with
    | false => exact DestID.drops v w w' hweighted
    | true => rw [h hweighted]

theorem MtxEntry.edgesWith_eq_iff (e : MtxEntry) (undirected : Bool) :
    (e.edgesWith MtxValue.leading undirected : List (EdgePair Int D)) =
      e.edgesWith MtxValue.cast undirected ↔ e.Kept D := by
  rw [Kept]
  cases hvalue : e.value with
  | none => simp [edgesWith, hvalue]
  | some f =>
    have hleading : (f.2.hasExponent = true → f.2.leading = f.2.cast) ↔ f.2.leading = f.2.cast := by
      cases hexponent : f.2.hasExponent with
      | false => exact iff_of_true nofun (f.2.leading_eq_cast hexponent)
      | true => simp
    simp only [Option.mem_some_iff, forall_eq', hleading, edgesWith, hvalue, List.cons.injEq,
      EdgePair.mk.injEq, true_and, ofNodeWeight_eq_iff]
    cases undirected with
    | false => simp
    | true => simp [ofNodeWeight_eq_iff]

theorem flatMap_edgesWith_eq_iff (undirected : Bool) (lines : List MtxLine) :
    (lines.flatMap (MtxLine.edgesWith (D := D) MtxValue.leading undirected) =
      lines.flatMap (MtxLine.edgesWith MtxValue.cast undirected)) ↔
      ∀ e, MtxLine.entry e ∈ lines → e.Kept D := by
  induction lines with
  | nil => simp
  | cons l lines ih =>
    have hlength := l.length_edgesWith (D := D) MtxValue.leading MtxValue.cast undirected
    rw [List.flatMap_cons, List.flatMap_cons, List.append_eq_append_iff_of_size_eq_left hlength, ih]
    cases l with
    | blank x => simp [MtxLine.edgesWith]
    | entry e => simp [MtxLine.edgesWith, e.edgesWith_eq_iff]

/-- When the comments are skipped, the edges of the file are read if and only if, from the first entry
on, lines without an entry are empty, and no exponent changes a value that matters. -/
theorem readInMTX_correct_iff (t : MtxText) (hskip : Comment.AllSkipped t.comments) :
    t.Reads D ↔ (∀ l ∈ t.lines.dropWhile MtxLine.isBlank, l.Tight) ∧
      ∀ e, .entry e ∈ t.lines → e.Kept D := by
  rw [← tight_behindBlanks, ← flatMap_edgesWith_eq_iff t.banner.symmetry.undirected]
  have hflat := flatMap_behindBlanks (D := D) MtxValue.leading t.banner.symmetry.undirected t.lines
  constructor
  · intro h
    obtain ⟨es, hcovers, hreturns⟩ := mtx_returns (D := D) t hskip ⟨0, 0, 0, fun _ => 0, fun _ => (0, 0)⟩
    have heq : es = t.edges := by
      have hunique := hreturns.unique (h _)
      simp only [Except.ok.injEq, Prod.mk.injEq, and_true] at hunique
      exact hunique
    have htight : ∀ l ∈ behindBlanks t.lines, l.Tight := by
      by_contra hnot
      have hlt := hcovers.lt (by simpa only [not_forall, exists_prop] using hnot)
      rw [hflat, heq, MtxText.edges, List.length_flatMap, List.length_flatMap] at hlt
      refine Nat.lt_irrefl _ (hlt.trans_eq (congrArg List.sum (List.map_congr_left fun l _ => ?_)))
      exact l.length_edgesWith _ _ _
    exact ⟨htight, by rw [← hflat, ← hcovers.eq htight, heq, MtxText.edges]⟩
  · rintro ⟨htight, hkept⟩ vars
    obtain ⟨es, hcovers, hreturns⟩ := mtx_returns (D := D) t hskip vars
    rw [hcovers.eq htight, hflat, hkept] at hreturns
    exact hreturns

/-! ## Files with one entry -/

/-- `2 1` or `2 1 w` -/
def smallEntry (value : Option MtxValue) : MtxEntry where
  lead := ⟨[], no_blanks⟩
  i := .single 1
  gap := .space
  j := .single 0
  value := value.map (Gap.space, ·)
  trail := ⟨[], no_blanks⟩

/-- A file for two vertices, with lines of blanks around its entry. -/
def smallMtx (comments : List Comment) (field : MtxField) (symmetry : MtxSymmetry) (before : List Blanks)
    (value : Option MtxValue) (behind : List Blanks) (hkind : value.isSome = field.weights) : MtxText where
  banner := ⟨.space, .space, .space, field, .space, symmetry, ⟨[], no_blanks⟩⟩
  comments := comments
  sizes := ⟨⟨[], no_blanks⟩, .single 2, .space, .single 2, .space, .single 1, ⟨[], no_blanks⟩, by decide, by decide,
    by decide, rfl⟩
  lines := before.map .blank ++ .entry (smallEntry value) :: behind.map .blank
  terminated := true
  kind := by
    simp only [List.forall_mem_append, List.forall_mem_cons, List.forall_mem_map]
    refine ⟨fun _ _ => trivial, ?_, fun _ _ => trivial⟩
    show (value.map _).isSome = _
    rw [Option.isSome_map, hkind]

/-- A symmetric file with a line of blanks in front of its entry. -/
theorem readInMTX_correct_iff_symmetric :
    let t := smallMtx [⟨[32, 37], by decide⟩] .pattern .symmetric [⟨[32], by decide⟩] none [] rfl
    t.Reads (Int × Int) ↔ (∀ l ∈ t.lines.dropWhile MtxLine.isBlank, l.Tight) ∧
      ∀ e, .entry e ∈ t.lines → e.Kept (Int × Int) := by
  apply readInMTX_correct_iff
  refine ⟨nofun, fun c hc => .inl ?_⟩
  rw [← Option.some.inj hc]
  exact Comment.skipped_of_short (by decide)

theorem MtxText.not_reads {t : MtxText} (vars : MtxVars) (k : Nat)
    {r : Except Int (List (EdgePair Int D) × Bool)} (hrun : (readInMTX vars t.bytes).run k = some r)
    (hne : r ≠ .ok (t.edges, !t.banner.field.weights)) : ¬ t.Reads D := by
  intro h
  have hreturns : (readInMTX vars t.bytes).Returns r := ⟨k, hrun⟩
  exact hne (hreturns.unique (h vars))

/-- `1e1` -/
def ten : RealNumeral where
  sign := none
  whole := [49]
  fraction := none
  exponent := some (false, .single 1)
  digit := by decide
  nonempty := by decide

/-- With a line of blanks behind the entry, with a long comment, and with the weight `1e1`. -/
theorem readInMTX_not_total :
    ¬ (smallMtx [] .pattern .general [] none [⟨[32], by decide⟩] rfl).Reads Int ∧
    ¬ (smallMtx [⟨List.replicate 200 120, by decide⟩] .pattern .general [] none [] rfl).Reads Int ∧
    ¬ (smallMtx [] .real .general [] (some (.real ten (by decide))) [] rfl).Reads (Int × Int) := by
  refine ⟨?_, ?_, ?_⟩
  · apply MtxText.not_reads ⟨0, 0, 0, fun _ => 0, fun _ => (0, 0)⟩ 10 (r := .ok ([⟨1, 0⟩, ⟨-1, -1⟩], true))
    · decide +kernel
    · decide
  · apply MtxText.not_reads ⟨0, 1, 0, fun _ => 0, fun _ => (0, 0)⟩ 10 (r := .error (-26))
    · decide +kernel
    · decide
  · apply MtxText.not_reads ⟨0, 0, 0, fun _ => 0, fun _ => (0, 0)⟩ 10 (r := .ok ([⟨1, (0, 1)⟩], false))
    · decide +kernel
    · decide

end Gapbs
