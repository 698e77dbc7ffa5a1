import Gapbs.Io.Fields

/-!
# Reading `.gr` files

`ReadInGR` looks at the next character only: an `a` begins an arc, and in front of anything else it
skips to the line end, but 200 characters at most.
-/

namespace Gapbs

open InStream

variable {D : Type} [DestID D]

/-- The local variables of `ReadInGR`. -/
structure GrLocals (D : Type) where
  input : InStream
  u : Int
  v : Int × Int
  el : List (EdgePair Int D)

def grBody (s : GrLocals D) : Fueled (GrLocals D ⊕ List (EdgePair Int D)) :=
  pure (
    if s.input.eof then .inr s.el
    else
      let (c, input) := s.input.peek
      if c = some 97 then
        let (_, input) := input.readChar 97
        let (u, input) := input.readInteger 32 s.u
        let (v, input) := readNodeWeight s.v input
        let e := ⟨toNodeID (u - 1), DestID.ofNodeWeight (toNodeID (v.1 - 1)) v.2⟩
        .inl ⟨input, u, v, s.el ++ [e]⟩
      else .inl { s with input := input.ignore 200 newline })

/-- `ReadInGR`; `u` and `v` are the values of its uninitialised variables. -/
def readInGR (u : Int) (v : Int × Int) (bytes : List UInt8) : Fueled (List (EdgePair Int D)) :=
  .loop grBody ⟨ofBytes bytes, u, v, []⟩

/-! ## The steps of the loop -/

section

variable {u : Int} {v : Int × Int} {el a : List (EdgePair Int D)}

theorem gr_exit {input : InStream} (h : input.eof = true) :
    (Fueled.loop grBody ⟨input, u, v, el⟩).Returns a ↔ el = a := by
  apply Fueled.Returns.loop_exit
  rw [grBody, if_pos h]
  exact Fueled.returns_pure.mpr rfl

/-- At the end of the file, `peek` sets `eofbit`. -/
theorem gr_nil : (Fueled.loop grBody ⟨ofBytes [], u, v, el⟩).Returns a ↔ el = a := by
  have hstep : (grBody ⟨ofBytes [], u, v, el⟩).Returns (.inl ⟨⟨[], true, true⟩, u, v, el⟩) :=
    Fueled.returns_pure.mpr rfl
  rw [hstep.loop_next]
  exact gr_exit rfl

theorem grBody_skip {b : UInt8} (hb : b ≠ 97) (rest : List UInt8) :
    (grBody ⟨ofBytes (b :: rest), u, v, el⟩).Returns
      (.inl ⟨ignoreFrom newline 200 (b :: rest), u, v, el⟩) := by
  apply Fueled.returns_pure.mpr
  show (if some b = some 97 then _ else _) = _
  rw [if_neg fun h => hb (Option.some.inj h)]
  rfl

theorem gr_skip {b : UInt8} {rest : List UInt8} (hb : b ≠ 97) :
    (Fueled.loop grBody ⟨ofBytes (b :: rest), u, v, el⟩).Returns a ↔
      (Fueled.loop grBody ⟨ignoreFrom newline 200 (b :: rest), u, v, el⟩).Returns a :=
  (grBody_skip hb rest).loop_next

/-- The stream behind an arc, and the arc. -/
def scanArc (u : Int) (v : Int × Int) (rest : List UInt8) : (Int × (Int × Int)) × InStream :=
  let (u, input) := (ofBytes rest).readInteger 32 u
  let (v, input) := readNodeWeight v input
  ((u, v), input)

def arcEdge (arc : Int × (Int × Int)) : EdgePair Int D :=
  ⟨toNodeID (arc.1 - 1), DestID.ofNodeWeight (toNodeID (arc.2.1 - 1)) arc.2.2⟩

theorem grBody_arc (rest : List UInt8) :
    let (arc, input) := scanArc u v rest
    (grBody ⟨ofBytes (97 :: rest), u, v, el⟩).Returns
      (.inl ⟨input, arc.1, arc.2, el ++ [arcEdge arc]⟩) :=
  Fueled.returns_pure.mpr rfl

theorem gr_arc (rest : List UInt8) :
    (Fueled.loop grBody ⟨ofBytes (97 :: rest), u, v, el⟩).Returns a ↔
      let (arc, input) := scanArc u v rest
      (Fueled.loop grBody ⟨input, arc.1, arc.2, el ++ [arcEdge arc]⟩).Returns a :=
  (grBody_arc rest).loop_next

/-- Once an extraction has failed before the end of the file, the loop makes no progress. -/
theorem gr_stuck {input : InStream} (hfail : input.fail = true) (heof : input.eof = false) :
    ¬ (Fueled.loop grBody ⟨input, u, v, el⟩).Returns a := by
  intro h
  let Stuck (s : GrLocals D) : Prop := s.input.fail = true ∧ s.input.eof = false
  have hstep (s : GrLocals D) (hs : Stuck s) : grBody s = pure (.inl s) := by
    obtain ⟨⟨rest, eof, fail⟩, u, v, el⟩ := s
    obtain ⟨rfl, rfl⟩ : fail = true ∧ eof = false := hs
    rfl
  have hkeep (s s' : GrLocals D) (hs : Stuck s) (h : (grBody s).Returns (.inl s')) : Stuck s' := by
    rw [hstep s hs, Fueled.returns_pure] at h
    exact Sum.inl.inj h ▸ hs
  obtain ⟨t, ht, hexit⟩ := h.loop_invariant Stuck ⟨hfail, heof⟩ hkeep
  rw [hstep t ht, Fueled.returns_pure] at hexit
  cases hexit

/-! ## Lines without arcs -/

/-- No piece of 200 characters of the line begins with an `a`. -/
def NoArcIn (text : List UInt8) : Prop := ∀ k, text[200 * k]? ≠ some 97

theorem NoArcIn.drop {line : List UInt8} (h : NoArcIn line) : NoArcIn (line.drop 200) := by
  intro k
  rw [List.getElem?_drop, show 200 + 200 * k = 200 * (k + 1) by omega]
  exact h (k + 1)

theorem gr_tail {line : List UInt8} (hline : newline ∉ line) (h : NoArcIn line)
    (next : Option (List UInt8)) :
    (Fueled.loop grBody ⟨ofBytes (line ++ endText next), u, v, el⟩).Returns a ↔
      (Fueled.loop grBody ⟨afterLine next, u, v, el⟩).Returns a := by
  induction hk : line.length using Nat.strongRecOn generalizing line with
  | _ k ih =>
    have hpiece :
        (Fueled.loop grBody ⟨ignoreFrom newline 200 (line ++ endText next), u, v, el⟩).Returns a ↔
          (Fueled.loop grBody ⟨afterLine next, u, v, el⟩).Returns a := by
      rw [ignoreFrom_line hline]
      by_cases hshort : line.length < 200
      · rw [if_pos hshort]
      · rw [if_neg hshort]
        exact ih (k - 200) (by omega) (fun hmem => hline (List.mem_of_mem_drop hmem)) h.drop
          (by rw [List.length_drop, hk])
    cases line with
    | cons b line =>
      have hb : b ≠ 97 := fun heq => h 0 (by rw [heq]; rfl)
      exact (gr_skip hb).trans hpiece
    | nil =>
      cases next with
      | none => exact gr_nil.trans (gr_exit rfl).symm
      | some rest => exact (gr_skip (by decide)).trans hpiece

end

/-! ## Well-formed files -/

/-- The parts of an arc line `a u v w`. -/
structure ArcLine where
  gapU : Gap
  u : VertexNumeral
  gapV : Gap
  v : VertexNumeral
  gapW : Gap
  w : WeightNumeral
  trail : Blanks

/-- A line of a `.gr` file. -/
inductive GrLine where
  /-- `c` and any text -/
  | comment (text : List UInt8) (line : newline ∉ text)
  /-- `p sp n m` -/
  | problem (gap gapN gapM : Gap) (n m : Numeral) (trail : Blanks)
  | arc (line : ArcLine)

namespace ArcLine

variable (l : ArcLine)

/-- What follows the `a`. -/
def fields : List UInt8 :=
  l.gapU.bytes ++ (l.u.bytes ++ (l.gapV.bytes ++ (l.v.bytes ++ (l.gapW.bytes ++ l.w.bytes))))

def bytes : List UInt8 := 97 :: (l.fields ++ l.trail.bytes)

def edge : EdgePair Int D := ⟨l.u.id, DestID.ofNodeWeight l.v.id l.w.value⟩

end ArcLine

namespace GrLine

def bytes : GrLine → List UInt8
  | comment text _ => 99 :: text
  | problem gap gapN gapM n m trail => 112 :: (gap.bytes ++ ([115, 112] ++ (gapN.bytes ++ (n.bytes ++
      (gapM.bytes ++ (m.bytes ++ trail.bytes))))))
  | arc line => line.bytes

/-- The edges of a line. -/
def edges : GrLine → List (EdgePair Int D)
  | arc line => [line.edge]
  | _ => []

/-- The reader finds no arc in a comment. -/
def Skipped : GrLine → Prop
  | comment text _ => NoArcIn (99 :: text)
  | _ => True

end GrLine

/-- Three numerals behind one another are read as their values. -/
theorem scanArc_fields (l : ArcLine) (u : Int) (v : Int × Int) (next : Option (List UInt8)) :
    scanArc u v (l.fields ++ (l.trail.bytes ++ endText next)) =
      ((l.u.value, (l.v.value, l.w.value)), upTo (l.trail.bytes ++ endText next)) := by
  simp only [scanArc, readNodeWeight, ArcLine.fields, List.append_assoc]
  rw [Numeral.readInteger_ofBytes l.u.fits l.gapU.isSpace (l.gapV.takeWhile_isDigit _)]
  simp only [Numeral.readInteger_upTo l.v.fits l.gapV (l.gapW.takeWhile_isDigit _),
    Numeral.readInteger_upTo l.w.fits l.gapW (l.trail.takeWhile_isDigit next)]

theorem arcEdge_eq (l : ArcLine) :
    arcEdge (l.u.value, (l.v.value, l.w.value)) = (l.edge : EdgePair Int D) := by
  rw [arcEdge, ArcLine.edge, l.u.toNodeID_pred, l.v.toNodeID_pred]

theorem noArcIn_of_notMem {line : List UInt8} (h : 97 ∉ line) : NoArcIn line :=
  fun _ heq => h (List.mem_of_getElem? heq)

theorem Blanks.noArcIn (x : Blanks) : NoArcIn x.bytes :=
  noArcIn_of_notMem fun h => absurd (x.isSpace 97 h) (by decide)

/-- The loop takes an arc line in one iteration, and its end in some more. -/
theorem gr_arcLine (l : ArcLine) {u : Int} {v : Int × Int} {el a : List (EdgePair Int D)}
    (next : Option (List UInt8)) :
    (Fueled.loop grBody ⟨ofBytes (l.bytes ++ endText next), u, v, el⟩).Returns a ↔
      (Fueled.loop grBody ⟨afterLine next, l.u.value, (l.v.value, l.w.value), el ++ [l.edge]⟩).Returns a := by
  have hbytes : l.bytes ++ endText next = 97 :: (l.fields ++ (l.trail.bytes ++ endText next)) := by
    rw [ArcLine.bytes, List.cons_append, List.append_assoc]
  rw [hbytes, gr_arc, scanArc_fields]
  simp only [arcEdge_eq]
  by_cases hend : l.trail.bytes ++ endText next = []
  · -- the arc ends with the file
    have hnext : next = none := by
      cases next with
      | none => rfl
      | some rest => exact absurd hend (by simp [endText])
    rw [hend, hnext]
    rfl
  · rw [upTo_of_ne hend]
    exact gr_tail l.trail.newline_notMem l.trail.noArcIn next

/-! ## Lines of all kinds -/

theorem GrLine.newline_notMem (l : GrLine) : newline ∉ l.bytes := by
  cases l with
  | comment text line => exact List.not_mem_cons_of_ne_of_not_mem (by decide) line
  | problem gap gapN gapM n m trail =>
    simp only [bytes, List.mem_cons, List.mem_append, gap.newline_notMem, gapN.newline_notMem,
      gapM.newline_notMem, trail.newline_notMem, n.newline_notMem, m.newline_notMem]
    decide
  | arc l =>
    simp only [bytes, ArcLine.bytes, ArcLine.fields, List.mem_cons, List.mem_append,
      l.gapU.newline_notMem, l.gapV.newline_notMem, l.gapW.newline_notMem, l.trail.newline_notMem,
      l.u.newline_notMem, l.v.newline_notMem, l.w.newline_notMem]
    decide

theorem Numeral.notMem (x : Numeral) : 97 ∉ x.bytes := by
  intro h
  rcases x.mem_bytes 97 h with h | h | h <;> exact absurd h (by decide)

theorem Blanks.notMem (x : Blanks) : 97 ∉ x.bytes := fun h => absurd (x.isSpace 97 h) (by decide)

/-- A line that is no arc and not taken for one is skipped. -/
theorem gr_skipLine {l : GrLine} (harc : ∀ line, l ≠ .arc line) (h : l.Skipped) : NoArcIn l.bytes := by
  cases l with
  | comment text line => exact h
  | problem gap gapN gapM n m trail =>
    apply noArcIn_of_notMem
    simp only [GrLine.bytes, List.mem_cons, List.mem_append, gap.notMem, gapN.notMem, gapM.notMem,
      trail.notMem, n.notMem, m.notMem]
    decide
  | arc line => exact absurd rfl (harc line)

/-- The loop goes on behind the line, with its edges. -/
theorem gr_line {l : GrLine} (h : l.Skipped) {u : Int} {v : Int × Int}
    {el a : List (EdgePair Int D)} {next : Option (List UInt8)} {P : Prop}
    (hrest : ∀ u v, (Fueled.loop grBody ⟨afterLine next, u, v, el ++ l.edges⟩).Returns a ↔ P) :
    (Fueled.loop grBody ⟨ofBytes (l.bytes ++ endText next), u, v, el⟩).Returns a ↔ P := by
  by_cases harc : ∃ line, l = .arc line
  · obtain ⟨line, rfl⟩ := harc
    exact (gr_arcLine line next).trans (hrest _ _)
  · have hskip := gr_skipLine (not_exists.mp harc) h
    have hedges : l.edges = ([] : List (EdgePair Int D)) := by
      cases l with
      | arc line => exact absurd ⟨line, rfl⟩ harc
      | _ => rfl
    rw [hedges, List.append_nil] at hrest
    exact (gr_tail l.newline_notMem hskip next).trans (hrest u v)

theorem gr_lines {lines : List GrLine} (h : ∀ l ∈ lines, l.Skipped) (terminated : Bool) {u : Int}
    {v : Int × Int} {el a : List (EdgePair Int D)} :
    (Fueled.loop grBody ⟨ofBytes (fileText terminated (lines.map GrLine.bytes)), u, v, el⟩).Returns a ↔
      el ++ lines.flatMap GrLine.edges = a := by
  induction lines generalizing u v el with
  | nil =>
    rw [List.flatMap_nil, List.append_nil]
    exact gr_nil
  | cons l lines ih =>
    rw [List.forall_mem_cons] at h
    rw [List.map_cons, fileText_cons, List.flatMap_cons, ← List.append_assoc]
    apply gr_line h.1
    intro u v
    rcases afterLine_following terminated (lines.map GrLine.bytes) with ⟨hnil, -, hnext⟩ | hnext
    · rw [hnext, List.map_eq_nil_iff.mp hnil, List.flatMap_nil, List.append_nil]
      exact gr_exit rfl
    · rw [hnext]
      exact ih h.2

/-! ## Comments that are taken for arcs -/

/-- What an arc in the middle of a line leaves of it. -/
theorem scanArc_extracted {line : List UInt8} {next : Option (List UInt8)} (hnext : Unreadable next)
    (u : Int) (v : Int × Int) : Extracted line next (scanArc u v (line ++ endText next)).2 := by
  have hstart : Extracted line next ((ofBytes (line ++ endText next)).readInteger 32 u).2 := by
    by_cases hend : line ++ endText next = []
    · rw [hend]
      exact .atEnd rfl (.inl (append_endText_eq_nil hend))
    · rw [← upTo_of_ne hend]
      exact Extracted.readInteger (.inLine line (List.suffix_refl _) rfl) hnext 32 u
  exact (hstart.readInteger hnext 32 v.1).readInteger hnext 32 v.2

/-- An `a` that the loop comes to gives an edge, and the loop goes on in the line or behind it. -/
theorem gr_arc_within {line : List UInt8} {next : Option (List UInt8)} (hnext : Unreadable next)
    {u : Int} {v : Int × Int} {el a : List (EdgePair Int D)}
    (h : (Fueled.loop grBody ⟨ofBytes (97 :: (line ++ endText next)), u, v, el⟩).Returns a) :
    ∃ u v e, (Fueled.loop grBody ⟨afterLine next, u, v, el ++ [e]⟩).Returns a ∨
      ∃ rest, rest <:+ line ∧
        (Fueled.loop grBody ⟨ofBytes (rest ++ endText next), u, v, el ++ [e]⟩).Returns a := by
  have harc : Extracted line next (scanArc u v (line ++ endText next)).2 :=
    scanArc_extracted hnext u v
  rw [gr_arc] at h
  generalize scanArc u v (line ++ endText next) = r at h harc
  obtain ⟨arc, input⟩ := r
  refine ⟨arc.1, arc.2, arcEdge arc, ?_⟩
  cases harc with
  | stuck fail eof => exact absurd h (gr_stuck fail eof)
  | atEnd eof last =>
    have hexit := (gr_exit eof).mp h
    rcases last with rfl | rfl
    · exact .inl ((gr_exit rfl).mpr hexit)
    · exact .inl (gr_nil.mpr hexit)
  | inLine rest suffix eq =>
    obtain rfl : input = _ := eq
    by_cases hend : rest ++ endText next = []
    · rw [hend] at h
      rw [append_endText_eq_nil hend]
      exact .inl h
    · rw [upTo_of_ne hend] at h
      exact .inr ⟨rest, suffix, h⟩

/-- What the loop does with a line: no edge is lost, and there is one for an `a` at the start of a
piece. -/
theorem gr_tail_length {line : List UInt8} (hline : newline ∉ line) {next : Option (List UInt8)}
    (hnext : Unreadable next) {u : Int} {v : Int × Int} {el a : List (EdgePair Int D)}
    (h : (Fueled.loop grBody ⟨ofBytes (line ++ endText next), u, v, el⟩).Returns a) :
    ∃ u v el', (Fueled.loop grBody ⟨afterLine next, u, v, el'⟩).Returns a ∧
      el.length ≤ el'.length ∧ (¬ NoArcIn line → el.length < el'.length) := by
  induction hk : line.length using Nat.strongRecOn generalizing line u v el with
  | _ k ih =>
    by_cases hnone : NoArcIn line
    · exact ⟨u, v, el, (gr_tail hline hnone next).mp h, le_refl _, fun hnot => absurd hnone hnot⟩
    -- some piece begins with an `a`: the first one, or one of those behind it
    cases line with
    | nil => exact absurd (fun _ => nofun) hnone
    | cons b line =>
      have hline' : newline ∉ line := fun hmem => hline (List.mem_cons_of_mem b hmem)
      rw [List.length_cons] at hk
      by_cases hb : b = 97
      · subst hb
        obtain ⟨u, v, e, hbehind | ⟨rest, hsuffix, hrest⟩⟩ := gr_arc_within hnext h
        · exact ⟨u, v, el ++ [e], hbehind, by simp, fun _ => by simp⟩
        · have hle := hsuffix.length_le
          obtain ⟨u, v, el', h', hlength, -⟩ := ih rest.length (by omega)
            (fun hmem => hline' (hsuffix.subset hmem)) hrest rfl
          rw [List.length_append, List.length_singleton] at hlength
          exact ⟨u, v, el', h', by omega, fun _ => by omega⟩
      · rw [List.cons_append, gr_skip hb, ← List.cons_append, ignoreFrom_line hline] at h
        by_cases hshort : (b :: line).length < 200
        · exfalso
          apply hnone
          intro k hget
          cases k with
          | zero => exact hb (Option.some.inj hget)
          | succ k =>
            have hlt := (List.getElem?_eq_some_iff.mp hget).1
            omega
        · rw [if_neg hshort] at h
          obtain ⟨u, v, el', h', hlength, hlonger⟩ := ih _ (by simp; omega)
            (fun hmem => hline (List.mem_of_mem_drop hmem)) h rfl
          refine ⟨u, v, el', h', hlength, fun _ => hlonger fun hdrop => hnone ?_⟩
          intro k hget
          cases k with
          | zero => exact hb (Option.some.inj hget)
          | succ k =>
            apply hdrop k
            rw [List.getElem?_drop, show 200 + 200 * k = 200 * (k + 1) by omega]
            exact hget

/-- A line of a `.gr` file does not begin like a number. -/
theorem unreadable_following (terminated : Bool) (lines : List GrLine) :
    Unreadable (following terminated (lines.map GrLine.bytes)) := by
  intro rest hrest
  rcases afterLine_following terminated (lines.map GrLine.bytes) with ⟨-, -, hnext⟩ | hnext
  · rw [hnext] at hrest
    cases hrest
  · obtain rfl := Option.some.inj (hnext.symm.trans hrest)
    cases lines with
    | nil => exact .inl rfl
    | cons l lines =>
      right
      rw [List.map_cons, fileText_cons]
      cases l with
      | comment text line => exact ⟨99, _, rfl, by decide⟩
      | problem gap gapN gapM n m trail => exact ⟨112, _, rfl, by decide⟩
      | arc l => exact ⟨97, _, rfl, by decide⟩

/-- The loop returns at least as many edges as there are arcs, and one more for a comment that is not
skipped. -/
theorem gr_lines_length {lines : List GrLine} (terminated : Bool) {u : Int} {v : Int × Int}
    {el a : List (EdgePair Int D)}
    (h : (Fueled.loop grBody ⟨ofBytes (fileText terminated (lines.map GrLine.bytes)), u, v, el⟩).Returns a) :
    let edges : List (EdgePair Int D) := lines.flatMap GrLine.edges
    el.length + edges.length ≤ a.length ∧
      ((∃ l ∈ lines, ¬ l.Skipped) → el.length + edges.length < a.length) := by
  induction lines generalizing u v el with
  | nil =>
    rw [gr_nil.mp h]
    exact ⟨le_refl _, fun ⟨_, hmem, _⟩ => absurd hmem List.not_mem_nil⟩
  | cons l lines ih =>
    rw [List.map_cons, fileText_cons] at h
    simp only [List.flatMap_cons, List.length_append]
    -- the loop behind the line, with at least the edges of the line
    obtain ⟨u, v, el', hbehind, hlength, hlonger⟩ : ∃ u v el',
        (Fueled.loop grBody ⟨afterLine (following terminated (lines.map GrLine.bytes)), u, v, el'⟩).Returns a ∧
          el.length + (l.edges (D := D)).length ≤ el'.length ∧
          (¬ l.Skipped → el.length + (l.edges (D := D)).length < el'.length) := by
      have hnext := unreadable_following terminated lines
      cases l with
      | arc line =>
        exact ⟨_, _, _, (gr_arcLine line _).mp h, by simp [GrLine.edges], fun hnot => absurd trivial hnot⟩
      | problem gap gapN gapM n m trail =>
        obtain ⟨u, v, el', h', hlength, -⟩ := gr_tail_length (GrLine.newline_notMem _) hnext h
        exact ⟨u, v, el', h', hlength, fun hnot => absurd trivial hnot⟩
      | comment text line =>
        obtain ⟨u, v, el', h', hlength, hlonger⟩ := gr_tail_length (GrLine.newline_notMem _) hnext h
        exact ⟨u, v, el', h', hlength, hlonger⟩
    have hrest : el'.length + (lines.flatMap (GrLine.edges (D := D))).length ≤ a.length ∧
        ((∃ l ∈ lines, ¬ l.Skipped) →
          el'.length + (lines.flatMap (GrLine.edges (D := D))).length < a.length) := by
      rcases afterLine_following terminated (lines.map GrLine.bytes) with ⟨hnil, -, hnext⟩ | hnext
      · rw [hnext] at hbehind
        rw [List.map_eq_nil_iff.mp hnil, ← (gr_exit rfl).mp hbehind]
        exact ⟨le_refl _, fun ⟨_, hmem, _⟩ => absurd hmem List.not_mem_nil⟩
      · rw [hnext] at hbehind
        exact ih hbehind
    refine ⟨by omega, ?_⟩
    rintro ⟨l', hmem, hnot⟩
    rcases List.mem_cons.mp hmem with rfl | hmem
    · have hlonger' := hlonger hnot
      omega
    · have hlonger' := hrest.2 ⟨l', hmem, hnot⟩
      omega

/-! ## Termination -/

/-- The stream behind an arc. -/
def arcEnd (text : List UInt8) : InStream := (scanArc 0 (0, 0) text).2

theorem scanArc_stream (u : Int) (v : Int × Int) (text : List UInt8) :
    (scanArc u v text).2 = arcEnd text := by
  have hstream (s : InStream) (old old' : Int) : (s.readInteger 32 old).2 = (s.readInteger 32 old').2 :=
    extract_stream _ old old' s
  show (((((ofBytes text).readInteger 32 u).2.readInteger 32 v.1).2).readInteger 32 v.2).2 =
    (((((ofBytes text).readInteger 32 0).2.readInteger 32 0).2).readInteger 32 0).2
  rw [hstream _ u 0, hstream _ v.1 0, hstream _ v.2 0]

/-- On its way through the text, the reader comes to an `a` behind which there are no three integers,
but something else than the end of the text. -/
inductive Stalls : List UInt8 → Prop
  | arc {text : List UInt8} (fail : (arcEnd text).fail = true) (eof : (arcEnd text).eof = false) :
      Stalls (97 :: text)
  | behindArc {text : List UInt8} (good : (arcEnd text).good = true)
      (rest : Stalls (arcEnd text).rest) : Stalls (97 :: text)
  | behindPiece {b : UInt8} {text : List UInt8} (noArc : b ≠ 97)
      (rest : Stalls (ignoreFrom newline 200 (b :: text)).rest) : Stalls (b :: text)

theorem ofBytes_of_good {s : InStream} (h : s.good = true) : s = ofBytes s.rest := by
  obtain ⟨rest, eof, fail⟩ := s
  cases eof <;> cases fail <;> first | rfl | cases h

theorem length_arcEnd_le (text : List UInt8) : (arcEnd text).rest.length ≤ text.length :=
  (length_readInteger_le 32 0 _).trans
    ((length_readInteger_le 32 0 _).trans (length_readInteger_le 32 0 (ofBytes text)))

theorem gr_stalls {text : List UInt8} (h : Stalls text) {u : Int} {v : Int × Int}
    {el a : List (EdgePair Int D)} : ¬ (Fueled.loop grBody ⟨ofBytes text, u, v, el⟩).Returns a := by
  induction h generalizing u v el with
  | @arc text fail eof =>
    rw [gr_arc]
    rw [← scanArc_stream u v] at fail eof
    exact gr_stuck fail eof
  | @behindArc text good rest ih =>
    rw [gr_arc]
    rw [← scanArc_stream u v] at good ih
    generalize scanArc u v text = r at good ih
    obtain ⟨arc, input⟩ := r
    show ¬ (Fueled.loop grBody ⟨input, arc.1, arc.2, el ++ [arcEdge arc]⟩).Returns a
    rw [show input = ofBytes input.rest from ofBytes_of_good good]
    exact ih
  | @behindPiece b text noArc rest ih =>
    rw [gr_skip noArc]
    rcases ignoreFrom_eof_or_good newline 200 (b :: text) with heof | hgood
    · rw [heof] at rest
      cases rest
    · rw [hgood]
      exact ih

theorem gr_terminates_iff (u : Int) (v : Int × Int) (bytes : List UInt8) :
    (readInGR u v bytes : Fueled (List (EdgePair Int D))).Terminates ↔ ¬ Stalls bytes := by
  constructor
  · rintro ⟨a, ha⟩ hstalls
    exact gr_stalls hstalls ha
  · intro hstalls
    let Going (s : GrLocals D) : Prop :=
      s.input.eof = true ∨ s.input = ofBytes s.input.rest ∧ ¬ Stalls s.input.rest
    -- a turn takes at least one character, or it sets `eofbit`
    let left (s : GrLocals D) : Nat := if s.input.eof then 0 else s.input.rest.length + 1
    apply Fueled.loop_terminates Going left (.inr ⟨rfl, hstalls⟩)
    rintro ⟨input, u, v, el⟩ (heof | ⟨hgood, hnot⟩)
    · left
      refine ⟨el, ?_⟩
      rw [grBody, if_pos heof]
      exact Fueled.returns_pure.mpr rfl
    · right
      obtain ⟨text, rfl⟩ : ∃ text, input = ofBytes text := ⟨_, hgood⟩
      cases text with
      | nil => exact ⟨_, Fueled.returns_pure.mpr rfl, .inl rfl, Nat.one_pos⟩
      | cons b text =>
        by_cases hb : b = 97
        · subst hb
          have hlength := length_arcEnd_le text
          have hbody := @grBody_arc D _ u v el text
          have hstream := scanArc_stream u v text
          generalize scanArc u v text = r at hbody hstream
          obtain ⟨arc, input⟩ := r
          obtain rfl : input = arcEnd text := hstream
          refine ⟨_, hbody, ?_⟩
          by_cases heof : (arcEnd text).eof = true
          · exact ⟨.inl heof, by simp [left, heof, ofBytes]⟩
          · have hfail : (arcEnd text).fail = false :=
              Bool.eq_false_iff.mpr fun h => hnot (.arc h (Bool.eq_false_iff.mpr heof))
            have hgood : (arcEnd text).good = true := by simp [good, heof, hfail]
            refine ⟨.inr ⟨ofBytes_of_good hgood, fun h => hnot (.behindArc hgood h)⟩, ?_⟩
            simp only [left, heof, ofBytes, List.length_cons]
            simp only [Bool.false_eq_true, if_false]
            omega
        · have hlength : (ignoreFrom newline 200 (b :: text)).rest.length < (b :: text).length :=
            length_ignoreFrom_lt newline 199 b text
          refine ⟨_, grBody_skip hb text, ?_⟩
          rcases ignoreFrom_eof_or_good newline 200 (b :: text) with heof | hgood
          · exact ⟨.inl (by rw [heof]), by simp [left, heof, ofBytes]⟩
          · refine ⟨.inr ⟨hgood, fun h => hnot (.behindPiece hb h)⟩, ?_⟩
            simp only [left]
            rw [hgood]
            show (ignoreFrom newline 200 (b :: text)).rest.length + 1 < (b :: text).length + 1
            omega

/-! ## The results -/

/-- The arcs of a file are read if and only if no piece of a comment is taken for an arc. -/
theorem readInGR_correct_iff (lines : List GrLine) (terminated : Bool) (u : Int) (v : Int × Int) :
    (readInGR u v (fileText terminated (lines.map GrLine.bytes))).Returns
      (lines.flatMap GrLine.edges : List (EdgePair Int D)) ↔ ∀ l ∈ lines, l.Skipped := by
  constructor
  · intro h
    by_contra hnot
    have hex : ∃ l ∈ lines, ¬ l.Skipped := by
      simpa only [not_forall, exists_prop] using hnot
    have hlonger := (gr_lines_length terminated h).2 hex
    rw [List.length_nil, Nat.zero_add] at hlonger
    exact Nat.lt_irrefl _ hlonger
  · intro h
    exact (gr_lines h terminated).mpr (List.nil_append _)

/-- A comment, the 201st character of which is the first one of `text`. -/
def longComment (text : List UInt8) (h : newline ∉ text) : GrLine :=
  .comment (List.replicate 199 32 ++ text) (by
    rw [List.mem_append, not_or]
    exact ⟨by decide, h⟩)

/-- `p sp 3 0` -/
def emptyProblem : GrLine :=
  .problem .space .space .space (.single 3) (.single 0) ⟨[], no_blanks⟩

/-- With `a 1 2 3` in a long comment the reader returns an arc, and with `a b` it never returns. -/
theorem readInGR_not_total :
    ¬ (readInGR 0 (0, 0) (fileText true ([longComment [97, 32, 49, 32, 50, 32, 51] (by decide),
      emptyProblem].map GrLine.bytes))).Returns ([] : List (EdgePair Int (Int × Int))) ∧
    ¬ (readInGR 0 (0, 0) (fileText true ([longComment [97, 32, 98] (by decide),
      emptyProblem].map GrLine.bytes)) : Fueled (List (EdgePair Int (Int × Int)))).Terminates := by
  constructor
  · intro h
    have hrun : (readInGR 0 (0, 0) (fileText true ([longComment [97, 32, 49, 32, 50, 32, 51] (by decide),
        emptyProblem].map GrLine.bytes))).Returns [(⟨0, (1, 3)⟩ : EdgePair Int (Int × Int))] :=
      ⟨10, by decide +kernel⟩
    exact List.cons_ne_nil _ _ (hrun.unique h)
  · rw [gr_terminates_iff, not_not]
    apply Stalls.behindPiece (by decide)
    exact .arc (by decide) (by decide)

end Gapbs
