import Gapbs.Io.Fields

/-!
# Reading `.graph` files

`ReadInMetis` reads the header and then a line for each vertex.  `std::getline` leaves the line of the
vertex before when the file has ended, and `edge_stream >> v >> std::ws` fails behind the last field of
a line.
-/

namespace Gapbs

open InStream

variable {D : Type} [DestID D]

/-- The values of the uninitialised variables of `ReadInMetis`. -/
structure MetisVars where
  numNodes : Int
  numEdges : Int
  fmt : Int
  /-- the neighbour in the block of each vertex -/
  v : Int → Int × Int

/-- `read_weights` from what stands behind the two numbers of the header, and an exit code for a format
that is not supported -/
def parseFormat (vars : MetisVars) (stream : InStream) : Except Int Bool :=
  if !stream.eof then
    let (fmt, _) := stream.readInteger 32 vars.fmt
    if fmt = 1 then .ok true
    else if fmt ≠ 0 ∧ fmt ≠ 100 then .error (-20)
    else .ok false
  else .ok false

/-- `num_nodes` and `read_weights` from the line that is taken for the header -/
def parseHeader (vars : MetisVars) (line : List UInt8) : Except Int (Int × Bool) :=
  let stream := ofBytes line
  let (numNodes, stream) := stream.readInteger 32 vars.numNodes
  let (_, stream) := stream.readInteger 32 vars.numEdges
  (parseFormat vars stream.ws).map fun readWeights => (numNodes, readWeights)

/-- The local variables of the loop over the fields of a line; without weights `v` is the first
component. -/
structure FieldLocals (D : Type) where
  stream : InStream
  v : Int × Int
  el : List (EdgePair Int D)

/-- `while (edge_stream >> v >> std::ws)` -/
def fieldBody (readWeights : Bool) (u : Int) (s : FieldLocals D) :
    Fueled (FieldLocals D ⊕ List (EdgePair Int D)) :=
  if readWeights then
    let (v, stream) := readNodeWeight s.v s.stream
    let stream := stream.ws
    pure (
      if stream.fail then .inr s.el
      else
        let v := (toNodeID (v.1 - 1), v.2)
        .inl ⟨stream, v, s.el ++ [⟨u, DestID.ofNodeWeight v.1 v.2⟩]⟩)
  else
    let (v, stream) := s.stream.readInteger 32 s.v.1
    let stream := stream.ws
    pure (
      if stream.fail then .inr s.el
      else .inl ⟨stream, (v, s.v.2), s.el ++ [⟨u, DestID.ofNodeID (toNodeID (v - 1))⟩]⟩)

/-- The local variables of the loop over the vertices. -/
structure MetisLocals (D : Type) where
  input : InStream
  line : List UInt8
  u : Int
  el : List (EdgePair Int D)

/-- `while (u < num_nodes)` -/
def vertexBody (vars : MetisVars) (readWeights : Bool) (numNodes : Int) (s : MetisLocals D) :
    Fueled (MetisLocals D ⊕ List (EdgePair Int D)) :=
  if s.u < numNodes then
    let (c, input) := s.input.peek
    -- `%`: no line for this vertex yet, and of a longer comment what is behind 200 characters
    -- is taken for the next line
    if c = some 37 then pure (.inl { s with input := input.ignore 200 newline })
    else do
      let (line, input) := input.getline s.line
      -- behind the end of the file `line` still holds the last one
      let el ← if line ≠ [] then .loop (fieldBody readWeights s.u) ⟨ofBytes line, vars.v s.u, s.el⟩
        else pure s.el
      return .inl ⟨input, line, s.u + 1, el⟩
  else pure (.inr s.el)

/-- `ReadInMetis`: the edge list and `needs_weights`, or an exit code -/
def readInMetis (vars : MetisVars) (bytes : List UInt8) :
    Fueled (Except Int (List (EdgePair Int D) × Bool)) := do
  let input ← skipComments (ofBytes bytes)
  let (line, input) := input.getline []
  match parseHeader vars line with
  | .error code => return .error code
  | .ok (numNodes, readWeights) =>
    let el ← .loop (vertexBody vars readWeights numNodes) ⟨input, line, 0, []⟩
    return .ok (el, !readWeights)

/-! ## The fields of a line -/

/-- Edges from `u`. -/
def edgesFrom (u : Int) (dests : List D) : List (EdgePair Int D) := dests.map fun d => ⟨u, d⟩

/-- What the loop over the fields of a stream appends. -/
def Appends (readWeights : Bool) (stream : InStream) (dests : List D) : Prop :=
  ∀ u v el a, (Fueled.loop (fieldBody readWeights u) ⟨stream, v, el⟩).Returns a ↔
    el ++ edgesFrom u dests = a

omit [DestID D] in
theorem edgesFrom_cons (u : Int) (d : D) (dests : List D) :
    edgesFrom u (d :: dests) = ⟨u, d⟩ :: edgesFrom u dests := rfl

/-- One extraction of the loop: the destination and the stream behind the white space. -/
def readField (readWeights : Bool) (v : Int × Int) (stream : InStream) : D × InStream :=
  if readWeights then
    let (v, stream) := readNodeWeight v stream
    (DestID.ofNodeWeight (toNodeID (v.1 - 1)) v.2, stream.ws)
  else
    let (v, stream) := stream.readInteger 32 v.1
    (DestID.ofNodeID (toNodeID (v - 1)), stream.ws)

theorem fieldBody_eq (readWeights : Bool) (u : Int) (v : Int × Int) (stream : InStream)
    (el : List (EdgePair Int D)) :
    ∃ v', fieldBody readWeights u ⟨stream, v, el⟩ =
      pure (if (readField (D := D) readWeights v stream).2.fail then .inr el
        else .inl ⟨(readField (D := D) readWeights v stream).2, v',
          el ++ [⟨u, (readField readWeights v stream).1⟩]⟩) := by
  cases readWeights with
  | true => exact ⟨_, rfl⟩
  | false => exact ⟨_, rfl⟩

theorem Appends.nil {readWeights : Bool} {stream : InStream}
    (h : ∀ v, (readField (D := D) readWeights v stream).2.fail = true) :
    Appends readWeights stream ([] : List D) := by
  intro u v el a
  obtain ⟨v', hbody⟩ := fieldBody_eq readWeights u v stream el
  rw [h v, if_pos rfl] at hbody
  rw [Fueled.Returns.loop_exit (hbody ▸ Fueled.returns_pure.mpr rfl), edgesFrom, List.map_nil,
    List.append_nil]

theorem Appends.cons {readWeights : Bool} {stream behind : InStream} {d : D} {dests : List D}
    (h : ∀ v, readField readWeights v stream = (d, behind)) (hgood : behind.fail = false)
    (hrest : Appends readWeights behind dests) : Appends readWeights stream (d :: dests) := by
  intro u v el a
  obtain ⟨v', hbody⟩ := fieldBody_eq readWeights u v stream el
  rw [h v] at hbody
  simp only [hgood, Bool.false_eq_true, if_false] at hbody
  rw [Fueled.Returns.loop_next (hbody ▸ Fueled.returns_pure.mpr rfl), hrest, edgesFrom_cons,
    List.append_assoc, List.singleton_append]

theorem readField_stream (readWeights : Bool) (v v' : Int × Int) (stream : InStream) :
    (readField (D := D) readWeights v stream).2 = (readField (D := D) readWeights v' stream).2 := by
  cases readWeights with
  | true => exact congrArg InStream.ws (readNodeWeight_stream v v' stream)
  | false => exact congrArg InStream.ws (extract_stream _ v.1 v'.1 stream)

theorem readField_eq {readWeights : Bool} {v : Int × Int} {stream : InStream}
    (h : (readField (D := D) readWeights v stream).2.fail = false) (v' : Int × Int) :
    readField (D := D) readWeights v stream = readField readWeights v' stream := by
  cases readWeights with
  | true =>
    have heq := readNodeWeight_eq (not_fail_of_good (good_of_ws h)) v'
    show (DestID.ofNodeWeight (toNodeID ((readNodeWeight v stream).1.1 - 1)) (readNodeWeight v stream).1.2,
      (readNodeWeight v stream).2.ws) = _
    rw [heq]
    rfl
  | false =>
    have heq : stream.readInteger 32 v.1 = stream.readInteger 32 v'.1 :=
      extract_eq (not_fail_of_good (good_of_ws h)) v'.1
    show (DestID.ofNodeID (toNodeID ((stream.readInteger 32 v.1).1 - 1)),
      (stream.readInteger 32 v.1).2.ws) = _
    rw [heq]
    rfl

theorem length_readField_lt {readWeights : Bool} {v : Int × Int} {stream : InStream}
    (h : (readField (D := D) readWeights v stream).2.fail = false) :
    (readField (D := D) readWeights v stream).2.rest.length < stream.rest.length := by
  cases readWeights with
  | true =>
    have hlt := length_readNodeWeight_lt (not_fail_of_good (good_of_ws h))
    exact (length_ws_le _).trans_lt hlt
  | false =>
    have hlt : (stream.readInteger 32 v.1).2.rest.length < stream.rest.length :=
      length_readInteger_lt (not_fail_of_good (good_of_ws h))
    exact (length_ws_le _).trans_lt hlt

/-- The loop over the fields ends on any stream. -/
theorem exists_appends (readWeights : Bool) (stream : InStream) :
    ∃ dests : List D, Appends readWeights stream dests := by
  induction hk : stream.rest.length using Nat.strongRecOn generalizing stream with
  | _ k ih =>
    cases hfail : (readField (D := D) readWeights (0, 0) stream).2.fail with
    | true =>
      refine ⟨[], .nil fun v => ?_⟩
      rw [readField_stream readWeights v (0, 0)]
      exact hfail
    | false =>
      have hlt := length_readField_lt hfail
      obtain ⟨dests, hdests⟩ := ih _ (hk ▸ hlt) _ rfl
      exact ⟨_, .cons (fun v => (readField_eq hfail v).symm) hfail hdests⟩

/-! ## Well-formed files -/

/-- A neighbour, with the weight of the edge or without. -/
structure MetisItem where
  v : VertexNumeral
  weight : Option (Gap × WeightNumeral)

namespace MetisItem

def bytes (i : MetisItem) : List UInt8 :=
  i.v.bytes ++ match i.weight with
    | none => []
    | some (gap, w) => gap.bytes ++ w.bytes

def dest (i : MetisItem) : D :=
  match i.weight with
  | none => DestID.ofNodeID i.v.id
  | some (_, w) => DestID.ofNodeWeight i.v.id w.value

end MetisItem

/-- The line of a vertex: its fields, and the last one of them if no blanks follow it. -/
structure FieldLine where
  lead : Blanks
  closed : List (MetisItem × Gap)
  last : Option MetisItem

namespace FieldLine

def fieldBytes (closed : List (MetisItem × Gap)) (last : Option MetisItem) : List UInt8 :=
  closed.flatMap (fun f => f.1.bytes ++ f.2.bytes) ++ last.elim [] MetisItem.bytes

def bytes (l : FieldLine) : List UInt8 := l.lead.bytes ++ fieldBytes l.closed l.last

def items (l : FieldLine) : List MetisItem := l.closed.map Prod.fst ++ l.last.toList

/-- The destinations of the line. -/
def dests (l : FieldLine) : List D := l.items.map MetisItem.dest

/-- The destinations that are followed by blanks. -/
def closedDests (l : FieldLine) : List D := l.closed.map fun f => f.1.dest

end FieldLine

theorem FieldLine.takeWhile_isSpace (closed : List (MetisItem × Gap))
    (last : Option MetisItem) : (FieldLine.fieldBytes closed last).takeWhile isSpace = [] := by
  match closed, last with
  | [], none => rfl
  | [], some i =>
    show (i.v.bytes ++ _).takeWhile isSpace = []
    exact i.v.takeWhile_isSpace _
  | (i, gap) :: closed, last =>
    simp only [FieldLine.fieldBytes, List.flatMap_cons, MetisItem.bytes, List.append_assoc]
    exact i.v.takeWhile_isSpace _

/-- A field is read as its destination. -/
theorem readField_item {weighted : Bool} {i : MetisItem} (hkind : i.weight.isSome = weighted)
    {next : List UInt8} (hnext : next.takeWhile isDigit = []) (v : Int × Int) :
    readField weighted v (upTo (i.bytes ++ next)) = ((i.dest : D), (upTo next).ws) := by
  obtain ⟨x, weight⟩ := i
  cases weight with
  | none =>
    obtain rfl : false = weighted := hkind
    simp only [MetisItem.bytes, List.append_nil, MetisItem.dest, readField, Bool.false_eq_true, if_false,
      Numeral.readInteger_start x.fits hnext, x.toNodeID_pred]
  | some weight =>
    obtain ⟨gap, w⟩ := weight
    obtain rfl : true = weighted := hkind
    simp only [MetisItem.bytes, List.append_assoc, MetisItem.dest, readField, if_true, readNodeWeight,
      Numeral.readInteger_start x.fits (gap.takeWhile_isDigit _),
      Numeral.readInteger_upTo w.fits gap hnext, x.toNodeID_pred]

theorem Gap.ws_upTo (gap : Gap) {next : List UInt8} (hnext : next.takeWhile isSpace = []) :
    (upTo (gap.bytes ++ next)).ws = upTo next := by
  rw [upTo_of_ne fun heq => gap.nonempty (List.append_eq_nil_iff.mp heq).1, ws, if_pos (good_ofBytes _)]
  exact congrArg upTo (dropWhile_run gap.isSpace hnext)

/-- The loop takes the fields that are followed by blanks. -/
theorem appends_fields {weighted : Bool} {closed : List (MetisItem × Gap)} {last : Option MetisItem}
    (hclosed : ∀ f ∈ closed, f.1.weight.isSome = weighted)
    (hlast : ∀ i ∈ last, i.weight.isSome = weighted) :
    Appends weighted (upTo (FieldLine.fieldBytes closed last))
      (closed.map fun f => (f.1.dest : D)) := by
  induction closed with
  | nil =>
    apply Appends.nil
    intro v
    cases last with
    | none => cases weighted <;> rfl
    | some i =>
      -- behind the last field the stream has met the end, and `ws` fails
      have hread := @readField_item D _ weighted i (hlast i rfl) [] rfl v
      rw [List.append_nil] at hread
      show (readField (D := D) weighted v (upTo i.bytes)).2.fail = true
      rw [hread]
      rfl
  | cons f closed ih =>
    obtain ⟨i, gap⟩ := f
    rw [List.forall_mem_cons] at hclosed
    have hbytes : FieldLine.fieldBytes ((i, gap) :: closed) last =
        i.bytes ++ (gap.bytes ++ FieldLine.fieldBytes closed last) := by
      simp only [FieldLine.fieldBytes, List.flatMap_cons, List.append_assoc]
    rw [hbytes]
    apply Appends.cons _ _ (ih hclosed.2)
    · intro v
      rw [readField_item hclosed.1 (gap.takeWhile_isDigit _),
        gap.ws_upTo (FieldLine.takeWhile_isSpace closed last)]
    · rfl

/-- What a line of the file appends for its vertex; the loop is not entered for an empty line. -/
def LineAppends (weighted : Bool) (line : List UInt8) (dests : List D) : Prop :=
  (line = [] → dests = []) ∧ Appends weighted (ofBytes line) dests

theorem FieldLine.lineAppends {weighted : Bool} (l : FieldLine)
    (hkind : ∀ i ∈ l.items, i.weight.isSome = weighted) :
    LineAppends weighted l.bytes (l.closedDests : List D) := by
  have hclosed : ∀ f ∈ l.closed, f.1.weight.isSome = weighted := fun f hf =>
    hkind f.1 (List.mem_append_left _ (List.mem_map_of_mem hf))
  have hlast : ∀ i ∈ l.last, i.weight.isSome = weighted := fun i hi =>
    hkind i (List.mem_append_right _ (Option.mem_toList.mpr hi))
  constructor
  · intro hnil
    have hfields : fieldBytes l.closed l.last = [] := (List.append_eq_nil_iff.mp hnil).2
    have hcl : l.closed = [] := by
      cases hcl : l.closed with
      | nil => rfl
      | cons f closed =>
        rw [hcl, fieldBytes, List.flatMap_cons] at hfields
        have hgap := (List.append_eq_nil_iff.mp (List.append_eq_nil_iff.mp
          (List.append_eq_nil_iff.mp hfields).1).1).2
        exact absurd hgap f.2.nonempty
    rw [closedDests, hcl]
    rfl
  · -- blanks in front of the fields make no difference
    intro u v el a
    have hstart := takeWhile_isSpace l.closed l.last
    have hbody : fieldBody (D := D) weighted u ⟨ofBytes l.bytes, v, el⟩ =
        fieldBody weighted u ⟨upTo (fieldBytes l.closed l.last), v, el⟩ := by
      have hread (old : Int) := Numeral.readInteger_lead (w := 32) l.lead.isSpace hstart old
      cases weighted with
      | true =>
        simp only [fieldBody, readNodeWeight, FieldLine.bytes, if_true, hread]
        rfl
      | false => simp only [fieldBody, FieldLine.bytes, Bool.false_eq_true, if_false, hread]
    rw [Fueled.returns_loop, hbody, ← Fueled.returns_loop]
    exact appends_fields hclosed hlast u v el a

/-! ## The header -/

/-- The format of a file, 0, 1 or 100. -/
structure FormatNumeral extends Numeral where
  known : toNumeral.value = 0 ∨ toNumeral.value = 1 ∨ toNumeral.value = 100

/-- The header `n m` with the format or without; the number of edges may be any. -/
structure MetisHeader where
  n : Numeral
  fits : n.Fits 32
  gap : Gap
  m : Numeral
  fmt : Option (Gap × FormatNumeral)
  trail : Blanks

namespace MetisHeader

variable (h : MetisHeader)

/-- What follows the number of edges. -/
def behind : List UInt8 :=
  (match h.fmt with
    | none => []
    | some (gap, fmt) => gap.bytes ++ fmt.bytes) ++ h.trail.bytes

def bytes : List UInt8 := h.n.bytes ++ (h.gap.bytes ++ (h.m.bytes ++ h.behind))

def weighted : Bool := h.fmt.any fun f => f.2.value = 1

/-- The number of edges is one of `NodeID_`, or nothing follows it. -/
def Sound : Prop := h.m.Fits 32 ∨ h.behind = []

theorem behind_isDigit : h.behind.takeWhile isDigit = [] := by
  rw [behind]
  cases h.fmt with
  | none => simpa [endText] using h.trail.takeWhile_isDigit none
  | some f =>
    simp only [List.append_assoc]
    exact f.1.takeWhile_isDigit _

theorem fmt_fits (f : FormatNumeral) : f.Fits 32 := by
  have hknown := f.known
  exact ⟨by omega, by omega⟩

/-- Behind the number of edges stands the format, or nothing but blanks. -/
theorem parseFormat_behind (vars : MetisVars) : parseFormat vars (upTo h.behind).ws = .ok h.weighted := by
  rw [behind, weighted]
  cases h.fmt with
  | none =>
    have hblank : (upTo h.trail.bytes).ws.eof = true := by
      by_cases hnil : h.trail.bytes = []
      · rw [hnil]
        rfl
      · rw [upTo_of_ne hnil, ws, if_pos (good_ofBytes _)]
        show (h.trail.bytes.dropWhile isSpace).isEmpty = true
        rw [List.dropWhile_eq_nil_iff.mpr h.trail.isSpace]
        rfl
    rw [List.nil_append, parseFormat, hblank]
    rfl
  | some f =>
    obtain ⟨gap, fmt⟩ := f
    have hne : fmt.bytes ++ h.trail.bytes ≠ [] :=
      fun heq => fmt.bytes_ne_nil (List.append_eq_nil_iff.mp heq).1
    have htrail : h.trail.bytes.takeWhile isDigit = [] := by
      simpa [endText] using h.trail.takeWhile_isDigit none
    have hread := Numeral.readInteger_start (fmt_fits fmt) htrail vars.fmt
    simp only [List.append_assoc]
    rw [gap.ws_upTo (fmt.takeWhile_isSpace _), upTo_of_ne hne] at *
    rw [parseFormat, hread]
    show (if fmt.value = 1 then _ else if fmt.value ≠ 0 ∧ fmt.value ≠ 100 then _ else _) =
      (Except.ok (decide (fmt.value = 1)) : Except Int Bool)
    rcases fmt.known with heq | heq | heq <;> rw [heq] <;> rfl

theorem readInteger_n (old : Int) :
    (ofBytes (h.n.bytes ++ (h.gap.bytes ++ (h.m.bytes ++ h.behind)))).readInteger 32 old =
      (h.n.value, upTo (h.gap.bytes ++ (h.m.bytes ++ h.behind))) :=
  Numeral.readInteger_ofBytes h.fits (List.forall_mem_nil _) (h.gap.takeWhile_isDigit _) old

theorem readInteger_m (hm : ¬ h.m.Fits 32) (old : Int) : ∃ y,
    (upTo (h.gap.bytes ++ (h.m.bytes ++ h.behind))).readInteger 32 old =
      (y, ⟨h.behind, h.behind.isEmpty, true⟩) := by
  obtain ⟨y, hy⟩ := Numeral.scanInteger_bytes_of_not hm h.behind_isDigit
  have hne : h.m.bytes ++ h.behind ≠ [] := fun heq => h.m.bytes_ne_nil (List.append_eq_nil_iff.mp heq).1
  refine ⟨y, ?_⟩
  rw [upTo_of_ne fun heq => h.gap.nonempty (List.append_eq_nil_iff.mp heq).1, readInteger,
    extract_ofBytes h.gap.isSpace hne (h.m.takeWhile_isSpace _), hy]

theorem parseHeader_bytes (hsound : h.Sound) (vars : MetisVars) :
    parseHeader vars h.bytes = .ok (h.n.value, h.weighted) := by
  rw [parseHeader, bytes, h.readInteger_n vars.numNodes]
  simp only
  by_cases hm : h.m.Fits 32
  · rw [Numeral.readInteger_upTo hm h.gap h.behind_isDigit]
    simp only [parseFormat_behind]
    rfl
  · -- the extraction of the number of edges fails, but the stream has ended
    have hnil : h.behind = [] := hsound.resolve_left hm
    have hfmt := h.parseFormat_behind vars
    rw [hnil] at hfmt
    obtain ⟨y, hy⟩ := h.readInteger_m hm vars.numEdges
    rw [hy, hnil]
    exact congrArg (Except.map _) hfmt

/-- Otherwise the format is not read, and what the variable held decides. -/
theorem parseHeader_unsound (hsound : ¬ h.Sound) {vars : MetisVars} (hfmt : vars.fmt = 7) :
    parseHeader vars h.bytes = .error (-20) := by
  rw [Sound, not_or] at hsound
  obtain ⟨y, hy⟩ := h.readInteger_m hsound.1 vars.numEdges
  have hend : h.behind.isEmpty = false := List.isEmpty_eq_false_iff.mpr hsound.2
  rw [parseHeader, bytes, h.readInteger_n vars.numNodes]
  simp only
  rw [hy, hend, parseFormat]
  show (if vars.fmt = 1 then (Except.ok true : Except Int Bool) else
    if vars.fmt ≠ 0 ∧ vars.fmt ≠ 100 then .error (-20) else .ok false).map _ = _
  rw [hfmt]
  rfl

end MetisHeader

/-! ## The loop over the vertices -/

/-- Edges from `u` and the vertices behind it. -/
def edgesFromAll : Int → List (List D) → List (EdgePair Int D)
  | _, [] => []
  | u, dests :: rest => edgesFrom u dests ++ edgesFromAll (u + 1) rest

section

variable {vars : MetisVars} {weighted : Bool} {numNodes u : Int} {input : InStream}
  {line : List UInt8} {el a : List (EdgePair Int D)}

theorem vertex_exit (hu : ¬ u < numNodes) :
    (Fueled.loop (vertexBody vars weighted numNodes) ⟨input, line, u, el⟩).Returns a ↔ el = a := by
  apply Fueled.Returns.loop_exit
  rw [vertexBody, if_neg hu]
  exact Fueled.returns_pure.mpr rfl

theorem vertex_comment (hu : u < numNodes) (text : List UInt8) :
    (Fueled.loop (vertexBody vars weighted numNodes) ⟨ofBytes (37 :: text), line, u, el⟩).Returns a ↔
      (Fueled.loop (vertexBody vars weighted numNodes)
        ⟨ignoreFrom newline 200 (37 :: text), line, u, el⟩).Returns a := by
  apply Fueled.Returns.loop_next
  rw [vertexBody, if_pos hu]
  exact Fueled.returns_pure.mpr rfl

/-- What stands in the line that the loop has, whether `getline` has read it or not, is appended. -/
theorem vertexBody_line (hu : u < numNodes) (hpeek : input.peek.1 ≠ some 37) {line' : List UInt8}
    {input' : InStream} (hget : input.peek.2.getline line = (line', input')) {dests : List D}
    (h : LineAppends weighted line' dests) :
    (vertexBody vars weighted numNodes ⟨input, line, u, el⟩).Returns
      (.inl ⟨input', line', u + 1, el ++ edgesFrom u dests⟩) := by
  rw [vertexBody, if_pos hu]
  simp only [if_neg hpeek, hget]
  by_cases hline : line' = []
  · rw [if_neg (not_not.mpr hline), h.1 hline, edgesFrom, List.map_nil, List.append_nil]
    exact Fueled.returns_bind.mpr ⟨el, Fueled.returns_pure.mpr rfl, Fueled.returns_pure.mpr rfl⟩
  · rw [if_pos hline]
    exact Fueled.returns_bind.mpr ⟨_, (h.2 u (vars.v u) el _).mpr rfl, Fueled.returns_pure.mpr rfl⟩

theorem vertex_line (hu : u < numNodes) (hpeek : input.peek.1 ≠ some 37) {line' : List UInt8}
    {input' : InStream} (hget : input.peek.2.getline line = (line', input')) {dests : List D}
    (h : LineAppends weighted line' dests) :
    (Fueled.loop (vertexBody vars weighted numNodes) ⟨input, line, u, el⟩).Returns a ↔
      (Fueled.loop (vertexBody vars weighted numNodes)
        ⟨input', line', u + 1, el ++ edgesFrom u dests⟩).Returns a :=
  (vertexBody_line hu hpeek hget h).loop_next

/-- Nothing is left of the file. -/
def AtEnd (input : InStream) : Prop := input = ofBytes [] ∨ input.eof = true

theorem AtEnd.peek (h : AtEnd input) : input.peek.1 ≠ some 37 := by
  rcases h with rfl | heof
  · exact (Option.some_ne_none _).symm
  · rw [InStream.peek, good, heof]
    exact (Option.some_ne_none _).symm

/-- `getline` does not touch the line any more. -/
theorem AtEnd.getline (h : AtEnd input) (line : List UInt8) :
    ∃ input', AtEnd input' ∧ input.peek.2.getline line = (line, input') := by
  have heof : input.peek.2.eof = true := by
    rcases h with rfl | heof
    · rfl
    · rw [InStream.peek, good, heof]
      exact heof
  have hgood : input.peek.2.good = false := by
    rw [good, heof]
    rfl
  exact ⟨input.peek.2.refuse, .inr heof, getline_of_not_good hgood line⟩

/-- Vertices without a line get the line of the vertex before. -/
theorem vertex_absent (hend : AtEnd input) {dests : List D} (h : LineAppends weighted line dests)
    {k : Nat} (hk : u + k = numNodes) :
    (Fueled.loop (vertexBody vars weighted numNodes) ⟨input, line, u, el⟩).Returns a ↔
      el ++ edgesFromAll u (List.replicate k dests) = a := by
  induction k generalizing u el input with
  | zero => rw [vertex_exit (by omega), List.replicate_zero, edgesFromAll, List.append_nil]
  | succ k ih =>
    obtain ⟨input', hend', hget⟩ := hend.getline line
    rw [vertex_line (by omega) hend.peek hget h, ih hend' (by omega), List.replicate_succ, edgesFromAll,
      List.append_assoc]

end

/-- A vertex: comments and its line. -/
structure MetisRow where
  comments : List Comment
  line : FieldLine

def MetisRow.lines (r : MetisRow) : List (List UInt8) :=
  r.comments.map Comment.bytes ++ [r.line.bytes]

theorem MetisRow.lines_ne_nil (r : MetisRow) : r.lines ≠ [] :=
  List.append_ne_nil_of_right_ne_nil _ (List.cons_ne_nil _ _)

/-- The destinations in the line that the loop has last. -/
def lastDests (dests : List D) (rows : List MetisRow) : List D :=
  (rows.getLast?.map fun r => r.line.closedDests).getD dests

/-- The characters of a line of fields. -/
def FieldByte (b : UInt8) : Prop :=
  isSpace b = true ∧ b ≠ newline ∨ isDigit b = true ∨ b = 45 ∨ b = 43

instance (b : UInt8) : Decidable (FieldByte b) := inferInstanceAs (Decidable (_ ∨ _))

theorem MetisItem.fieldByte (i : MetisItem) : ∀ b ∈ i.bytes, FieldByte b := by
  obtain ⟨x, weight⟩ := i
  cases weight with
  | none =>
    rw [bytes, List.append_nil]
    exact fun b hb => .inr (x.mem_bytes b hb)
  | some weight =>
    simp only [bytes, List.forall_mem_append]
    exact ⟨fun b hb => .inr (x.mem_bytes b hb), fun b hb => .inl (weight.1.blank b hb),
      fun b hb => .inr (weight.2.mem_bytes b hb)⟩

theorem FieldLine.fieldByte (l : FieldLine) : ∀ b ∈ l.bytes, FieldByte b := by
  simp only [bytes, fieldBytes, List.forall_mem_append]
  refine ⟨fun b hb => .inl (l.lead.blank b hb), fun b hb => ?_, ?_⟩
  · obtain ⟨f, -, hb⟩ := List.mem_flatMap.mp hb
    rcases List.mem_append.mp hb with hb | hb
    · exact f.1.fieldByte b hb
    · exact .inl (f.2.blank b hb)
  · cases l.last with
    | none => exact nofun
    | some i => exact i.fieldByte

theorem FieldLine.newline_notMem (l : FieldLine) : newline ∉ l.bytes := fun h =>
  absurd (l.fieldByte newline h) (by decide)

/-- The text from a line on does not look like a comment. -/
theorem FieldLine.peek (l : FieldLine) (next : Option (List UInt8)) :
    (ofBytes (l.bytes ++ endText next)).peek.1 ≠ some 37 := by
  cases hbytes : l.bytes with
  | nil =>
    cases next with
    | none => exact nofun
    | some rest => exact fun heq => absurd (Option.some.inj heq) (by decide)
  | cons b bytes =>
    have hb := l.fieldByte b (hbytes ▸ List.mem_cons_self)
    intro heq
    rw [show b = 37 from Option.some.inj heq] at hb
    exact absurd hb (by decide)

theorem vertex_rows {vars : MetisVars} {weighted terminated : Bool} {numNodes : Int}
    {rows : List MetisRow} (hkind : ∀ r ∈ rows, ∀ i ∈ r.line.items, i.weight.isSome = weighted)
    (hskipped : ∀ r ∈ rows, ∀ c ∈ r.comments, c.Skipped)
    (hending : ∀ r ∈ rows.getLast?, terminated = true ∨ r.line.bytes ≠ [])
    {line : List UInt8} {dests : List D} (h : LineAppends weighted line dests) {u : Int} {k : Nat}
    (hk : u + rows.length + k = numNodes) {el a : List (EdgePair Int D)} :
    (Fueled.loop (vertexBody vars weighted numNodes)
      ⟨ofBytes (fileText terminated (rows.flatMap MetisRow.lines)), line, u, el⟩).Returns a ↔
      el ++ edgesFromAll u ((rows.map fun r => r.line.closedDests) ++
        List.replicate k (lastDests dests rows)) = a := by
  induction rows generalizing u el line dests with
  | nil => exact vertex_absent (.inl rfl) h (by simpa using hk)
  | cons r rows ih =>
    rw [List.forall_mem_cons] at hkind hskipped
    rw [List.length_cons] at hk
    have happ := r.line.lineAppends (D := D) hkind.1
    have hlast : lastDests dests (r :: rows) = lastDests r.line.closedDests rows := by
      simp only [lastDests, List.getLast?_cons, Option.map_some, Option.getD_some]
      cases rows.getLast? <;> rfl
    rw [List.flatMap_cons, MetisRow.lines, List.append_assoc, List.singleton_append, List.map_cons,
      hlast, List.cons_append, edgesFromAll, ← List.append_assoc]
    have hskip := Comment.skip (P := fun input =>
        (Fueled.loop (vertexBody vars weighted numNodes) ⟨input, line, u, el⟩).Returns a)
      (fun text => vertex_comment (by omega) text) hskipped.1 terminated r.line.bytes
      (rows.flatMap MetisRow.lines)
    refine hskip.trans ?_
    rw [fileText_cons]
    have hpeek := r.line.peek (following terminated (rows.flatMap MetisRow.lines))
    rcases afterLine_following terminated (rows.flatMap MetisRow.lines) with ⟨hnil, hend, hnext⟩ | hnext
    · -- the last line, without a line end
      obtain rfl : rows = [] := by
        cases rows with
        | nil => rfl
        | cons r rows => exact absurd (List.append_eq_nil_iff.mp hnil).1 r.lines_ne_nil
      have hne : r.line.bytes ≠ [] := (hending r rfl).resolve_left (by rw [hend]; decide)
      rw [hnext, endText, List.append_nil] at hpeek ⊢
      rw [vertex_line (by omega) hpeek ((peek_of_ne hne).symm ▸ getline_last r.line.newline_notMem line) happ]
      exact vertex_absent (.inr rfl) happ (by simp at hk; omega)
    · rw [hnext, endText] at hpeek ⊢
      have hne : r.line.bytes ++ newline :: fileText terminated (rows.flatMap MetisRow.lines) ≠ [] :=
        List.append_ne_nil_of_right_ne_nil _ (List.cons_ne_nil _ _)
      rw [vertex_line (by omega) hpeek
        ((peek_of_ne hne).symm ▸ getline_ofBytes r.line.newline_notMem line _) happ]
      apply ih hkind.2 hskipped.2 _ happ (by omega)
      intro r' hr'
      apply hending r'
      rw [Option.mem_def] at hr' ⊢
      rw [List.getLast?_cons, hr', Option.getD_some]

/-! ## Whole files -/

/-- A METIS file with 32-bit ids: comments, the header and the lines of the first vertices; the other
vertices have none. -/
structure MetisText where
  comments : List Comment
  header : MetisHeader
  rows : List MetisRow
  terminated : Bool
  kind : ∀ r ∈ rows, ∀ i ∈ r.line.items, i.weight.isSome = header.weighted
  enough : (rows.length : Int) ≤ header.n.value
  /-- an empty line needs a line end -/
  ending : ∀ r ∈ rows.getLast?, terminated = true ∨ r.line.bytes ≠ []

namespace MetisText

variable (t : MetisText)

def bytes : List UInt8 :=
  fileText t.terminated (t.comments.map Comment.bytes ++ t.header.bytes :: t.rows.flatMap MetisRow.lines)

/-- The number of vertices without a line. -/
def absent : Nat := (t.header.n.value - t.rows.length).toNat

/-- The edges of the file in its order. -/
def edges : List (EdgePair Int D) := edgesFromAll 0 (t.rows.map fun r => r.line.dests)

def CommentsSkipped : Prop :=
  (∀ c ∈ t.comments, c.Skipped) ∧ ∀ r ∈ t.rows, ∀ c ∈ r.comments, c.Skipped

/-- Whatever the uninitialised variables hold, the reader returns the edges of the file. -/
def Reads (D : Type) [DestID D] : Prop :=
  ∀ vars, (readInMetis vars t.bytes).Returns
    (.ok ((t.edges : List (EdgePair Int D)), !t.header.weighted))

end MetisText

theorem MetisHeader.bytes_ne_nil (h : MetisHeader) : h.bytes ≠ [] := fun heq =>
  h.n.bytes_ne_nil (List.append_eq_nil_iff.mp heq).1

theorem MetisHeader.fieldByte (h : MetisHeader) : ∀ b ∈ h.bytes, FieldByte b := by
  have hnumeral (x : Numeral) : ∀ b ∈ x.bytes, FieldByte b := fun b hb => .inr (x.mem_bytes b hb)
  have hblanks (x : Blanks) : ∀ b ∈ x.bytes, FieldByte b := fun b hb => .inl (x.blank b hb)
  simp only [bytes, behind, List.forall_mem_append]
  refine ⟨hnumeral h.n, hblanks h.gap.toBlanks, hnumeral h.m, ?_, hblanks h.trail⟩
  cases h.fmt with
  | none => exact nofun
  | some f => exact List.forall_mem_append.mpr ⟨hblanks f.1.toBlanks, hnumeral f.2.toNumeral⟩

theorem MetisHeader.newline_notMem (h : MetisHeader) : newline ∉ h.bytes := fun hmem =>
  absurd (h.fieldByte newline hmem) (by decide)

theorem Appends.ne_nil {readWeights : Bool} {stream : InStream} {dests : List D}
    (h : Appends readWeights stream dests)
    (hread : (readField (D := D) readWeights (0, 0) stream).2.fail = false) : dests ≠ [] := by
  obtain ⟨dests', hdests'⟩ := exists_appends (D := D) readWeights
    (readField (D := D) readWeights (0, 0) stream).2
  have hcons := Appends.cons (fun v => (readField_eq hread v).symm) hread hdests'
  rintro rfl
  have hnil := (h 0 (0, 0) [] _).mp ((hcons 0 (0, 0) [] _).mpr rfl)
  cases hnil

/-- Taken for the line of a vertex, the header has a field. -/
theorem MetisHeader.readField {h : MetisHeader} (hsound : h.Sound) :
    (Gapbs.readField (D := D) h.weighted (0, 0) (ofBytes h.bytes)).2.fail = false := by
  have hread (old : Int) := h.readInteger_n old
  cases hw : h.weighted with
  | false =>
    simp only [Gapbs.readField, Bool.false_eq_true, if_false, bytes, hread]
    rw [upTo_of_ne fun heq => h.gap.nonempty (List.append_eq_nil_iff.mp heq).1]
    rfl
  | true =>
    have hne : h.behind ≠ [] := by
      intro hnil
      cases hfmt : h.fmt with
      | none => rw [weighted, hfmt] at hw; cases hw
      | some f =>
        rw [behind, hfmt] at hnil
        exact f.1.nonempty (List.append_eq_nil_iff.mp (List.append_eq_nil_iff.mp hnil).1).1
    have hm := Numeral.readInteger_upTo (hsound.resolve_right hne) h.gap h.behind_isDigit 0
    simp only [Gapbs.readField, if_true, bytes, readNodeWeight, hread, hm]
    rw [upTo_of_ne hne]
    rfl

/-- The reader gets to the header, whatever the rest of the file is. -/
theorem metis_header (t : MetisText) (hskip : t.CommentsSkipped) (vars : MetisVars)
    {a : Except Int (List (EdgePair Int D) × Bool)} : ∃ input,
      (t.rows = [] ∧ AtEnd input ∨
        input = ofBytes (fileText t.terminated (t.rows.flatMap MetisRow.lines))) ∧
      ((readInMetis vars t.bytes).Returns a ↔
        match parseHeader vars t.header.bytes with
        | .error code => .error code = a
        | .ok (numNodes, readWeights) =>
          ∃ el, (Fueled.loop (vertexBody vars readWeights numNodes)
            ⟨input, t.header.bytes, 0, []⟩).Returns el ∧ .ok (el, !readWeights) = a) := by
  have hne (next : List UInt8) : t.header.bytes ++ next ≠ [] := fun heq =>
    t.header.bytes_ne_nil (List.append_eq_nil_iff.mp heq).1
  have hstart : (fileText t.terminated (t.header.bytes :: t.rows.flatMap MetisRow.lines)).head? ≠ some 37 := by
    rw [fileText_cons]
    obtain ⟨b, bytes, hb⟩ := List.exists_cons_of_ne_nil t.header.bytes_ne_nil
    have hbyte := t.header.fieldByte b (hb ▸ List.mem_cons_self)
    rw [hb]
    intro heq
    rw [show b = 37 from Option.some.inj heq] at hbyte
    exact absurd hbyte (by decide)
  have hcomments := skipComments_returns hskip.1 t.terminated hstart
  rw [fileText_cons, peek_of_ne (hne _)] at hcomments
  obtain ⟨input, hinput, hget⟩ : ∃ input, (t.rows = [] ∧ AtEnd input ∨
      input = ofBytes (fileText t.terminated (t.rows.flatMap MetisRow.lines))) ∧
      (ofBytes (t.header.bytes ++ endText (following t.terminated (t.rows.flatMap MetisRow.lines)))).getline [] =
        (t.header.bytes, input) := by
    rcases afterLine_following t.terminated (t.rows.flatMap MetisRow.lines) with ⟨hnil, -, hnext⟩ | hnext
    · rw [hnext, endText, List.append_nil]
      refine ⟨_, .inl ⟨?_, .inr rfl⟩, getline_last t.header.newline_notMem []⟩
      cases hrows : t.rows with
      | nil => rfl
      | cons r rows =>
        rw [hrows, List.flatMap_cons] at hnil
        exact absurd (List.append_eq_nil_iff.mp hnil).1 r.lines_ne_nil
    · rw [hnext]
      exact ⟨_, .inr rfl, getline_ofBytes t.header.newline_notMem [] _⟩
  refine ⟨input, hinput, ?_⟩
  rw [readInMetis, MetisText.bytes, hcomments.bind_iff]
  simp only [hget]
  cases parseHeader vars t.header.bytes with
  | error code => exact Fueled.returns_pure
  | ok header => simp only [Fueled.returns_bind, Fueled.returns_pure]

/-- Every vertex gets the fields of its line that are followed by blanks, and a vertex without a line
those of the line before. -/
theorem metis_returns (t : MetisText) (hskip : t.CommentsSkipped) (hsound : t.header.Sound) :
    ∃ dests : List D, dests ≠ [] ∧ ∀ vars a, (readInMetis vars t.bytes).Returns a ↔
      .ok (edgesFromAll 0 ((t.rows.map fun r => r.line.closedDests) ++
        List.replicate t.absent (lastDests dests t.rows)), !t.header.weighted) = a := by
  obtain ⟨dests, hdests⟩ := exists_appends (D := D) t.header.weighted (ofBytes t.header.bytes)
  refine ⟨dests, hdests.ne_nil (MetisHeader.readField hsound), fun vars a => ?_⟩
  have hline : LineAppends t.header.weighted t.header.bytes dests :=
    ⟨fun hnil => absurd hnil t.header.bytes_ne_nil, hdests⟩
  have henough := t.enough
  have habsent : (0 : Int) + t.rows.length + t.absent = t.header.n.value := by
    rw [MetisText.absent]
    omega
  obtain ⟨input, hinput, hreturns⟩ := metis_header t hskip vars (a := a)
  rw [hreturns, t.header.parseHeader_bytes hsound]
  have hloop (el : List (EdgePair Int D)) :
      (Fueled.loop (vertexBody vars t.header.weighted t.header.n.value)
        ⟨input, t.header.bytes, 0, []⟩).Returns el ↔
      edgesFromAll 0 ((t.rows.map fun r => r.line.closedDests) ++
        List.replicate t.absent (lastDests dests t.rows)) = el := by
    rcases hinput with ⟨hrows, hend⟩ | rfl
    · rw [hrows] at habsent ⊢
      exact vertex_absent hend hline (by simpa using habsent)
    · exact vertex_rows t.kind hskip.2 t.ending hline habsent
  constructor
  · rintro ⟨el, hel, rfl⟩
    rw [(hloop el).mp hel]
  · rintro rfl
    exact ⟨_, (hloop _).mpr rfl, rfl⟩

/-! ## Comparing edge lists -/

section

omit [DestID D]

theorem lt_of_mem_edgesFromAll {u : Int} {rows : List (List D)} {e : EdgePair Int D}
    (h : e ∈ edgesFromAll u rows) : u ≤ e.u := by
  induction rows generalizing u with
  | nil => cases h
  | cons dests rows ih =>
    rcases List.mem_append.mp h with h | h
    · obtain ⟨d, -, rfl⟩ := List.mem_map.mp h
      exact le_refl u
    · have hle := ih h
      omega

/-- The edges of the first vertex are those from it. -/
theorem filter_edgesFromAll (u : Int) (dests : List D) (rows : List (List D)) :
    (edgesFromAll u (dests :: rows)).filter (fun e => e.u = u) = edgesFrom u dests := by
  have hfirst : (edgesFrom u dests).filter (fun e => e.u = u) = edgesFrom u dests := by
    apply List.filter_eq_self.mpr
    intro e he
    obtain ⟨d, -, rfl⟩ := List.mem_map.mp he
    exact decide_eq_true rfl
  have hrest : (edgesFromAll (u + 1) rows).filter (fun e => e.u = u) = [] := by
    apply List.filter_eq_nil_iff.mpr
    intro e he heq
    have hlt := lt_of_mem_edgesFromAll he
    have hu := of_decide_eq_true heq
    omega
  rw [edgesFromAll, List.filter_append, hfirst, hrest, List.append_nil]

theorem edgesFromAll_injective {u : Int} {rows rows' : List (List D)}
    (hlength : rows.length = rows'.length) (h : edgesFromAll u rows = edgesFromAll u rows') :
    rows = rows' := by
  induction rows generalizing u rows' with
  | nil => exact (List.length_eq_zero_iff.mp hlength.symm).symm
  | cons dests rows ih =>
    cases rows' with
    | nil => cases hlength
    | cons dests' rows' =>
      have hfirst := congrArg (List.filter fun e => decide (e.u = u)) h
      rw [filter_edgesFromAll, filter_edgesFromAll] at hfirst
      have hdests : dests = dests' := by
        have hsnd := congrArg (List.map EdgePair.v) hfirst
        simpa [edgesFrom, Function.comp_def] using hsnd
      rw [edgesFromAll, edgesFromAll, hdests] at h
      rw [hdests, ih (Nat.succ.inj hlength) (List.append_cancel_left h)]

theorem edgesFromAll_replicate_nil (u : Int) (rows : List (List D)) (k : Nat) :
    edgesFromAll u (rows ++ List.replicate k []) = edgesFromAll u rows := by
  induction rows generalizing u with
  | nil =>
    induction k generalizing u with
    | zero => rfl
    | succ k ih => exact ih (u + 1)
  | cons dests rows ih => rw [List.cons_append, edgesFromAll, edgesFromAll, ih]

end

/-! ## The result -/

theorem FieldLine.closedDests_eq {l : FieldLine} : (l.closedDests : List D) = l.dests ↔ l.last = none := by
  have hdests : (l.dests : List D) = l.closedDests ++ l.last.toList.map MetisItem.dest := by
    rw [dests, items, List.map_append, List.map_map]
    rfl
  rw [hdests, List.self_eq_append_right, List.map_eq_nil_iff, Option.toList_eq_nil_iff]

/-- When the header is read, the question is what the lines contribute. -/
theorem metis_reads_iff (t : MetisText) (hskip : t.CommentsSkipped) (hsound : t.header.Sound) :
    t.Reads D ↔ (∀ r ∈ t.rows, r.line.last = none) ∧
      (t.absent = 0 ∨ ∃ r ∈ t.rows.getLast?, (r.line.closedDests : List D) = []) := by
  obtain ⟨dests, hne, hreturns⟩ := metis_returns (D := D) t hskip hsound
  have hlast : lastDests dests t.rows = [] ↔
      ∃ r ∈ t.rows.getLast?, (r.line.closedDests : List D) = [] := by
    rw [lastDests]
    cases t.rows.getLast? with
    | none => simpa using hne
    | some r => simp
  have hedges : t.Reads D ↔ (t.rows.map fun r => (r.line.closedDests : List D)) ++
      List.replicate t.absent (lastDests dests t.rows) =
      (t.rows.map fun r => r.line.dests) ++ List.replicate t.absent [] := by
    simp only [MetisText.Reads, hreturns, Except.ok.injEq, Prod.mk.injEq, and_true, MetisText.edges]
    constructor
    · intro h
      apply edgesFromAll_injective (by simp)
      rw [edgesFromAll_replicate_nil]
      exact h ⟨0, 0, 0, fun _ => (0, 0)⟩
    · intro h _
      rw [h, edgesFromAll_replicate_nil]
  have hparts : (t.rows.map fun r => (r.line.closedDests : List D)) ++
      List.replicate t.absent (lastDests dests t.rows) =
      (t.rows.map fun r => r.line.dests) ++ List.replicate t.absent [] ↔
      (t.rows.map fun r => (r.line.closedDests : List D)) = (t.rows.map fun r => r.line.dests) ∧
        List.replicate t.absent (lastDests dests t.rows) = List.replicate t.absent [] :=
    ⟨fun h => List.append_inj h (by simp), fun ⟨hrows, hrest⟩ => by rw [hrows, hrest]⟩
  rw [hedges, hparts, List.map_inj_left, List.replicate_inj, hlast]
  simp only [FieldLine.closedDests_eq, true_and]

/-- When the comments are skipped, the edges of the file are read if and only if the fields of all lines
are followed by blanks and there is a line for every vertex, or the last one is empty; the number of
edges has to be one of `NodeID_` unless it ends the header. -/
theorem readInMetis_correct_iff (t : MetisText) (hskip : t.CommentsSkipped) :
    t.Reads D ↔ t.header.Sound ∧ (∀ r ∈ t.rows, r.line.last = none) ∧
      (t.rows.length = t.header.n.value ∨ ∃ r ∈ t.rows.getLast?, r.line.items = []) := by
  by_cases hsound : t.header.Sound
  swap
  · refine iff_of_false (fun h => ?_) fun h => hsound h.1
    obtain ⟨input, -, hreturns⟩ := metis_header (D := D) t hskip ⟨0, 0, 7, fun _ => (0, 0)⟩
      (a := .ok (t.edges, !t.header.weighted))
    have hcode := hreturns.mp (h _)
    rw [t.header.parseHeader_unsound hsound rfl] at hcode
    cases hcode
  have henough := t.enough
  have habsent : t.absent = 0 ↔ t.rows.length = t.header.n.value := by
    rw [MetisText.absent]
    omega
  rw [metis_reads_iff t hskip hsound, habsent]
  constructor
  · rintro ⟨hlast, hrows⟩
    refine ⟨hsound, hlast, hrows.imp_right ?_⟩
    rintro ⟨r, hr, hclosed⟩
    refine ⟨r, hr, ?_⟩
    rw [FieldLine.items, hlast r (List.mem_of_getLast? hr), List.map_eq_nil_iff.mp hclosed]
    rfl
  · rintro ⟨-, hlast, hrows⟩
    refine ⟨hlast, hrows.imp_right ?_⟩
    rintro ⟨r, hr, hitems⟩
    have hclosed := List.map_eq_nil_iff.mp (List.append_eq_nil_iff.mp hitems).1
    exact ⟨r, hr, by rw [FieldLine.closedDests, hclosed]; rfl⟩

/-! ## Files with two vertices -/

def singleItem (d : Fin 9) : MetisItem := ⟨.single d, none⟩

/-- A line with one field and a blank. -/
def closedLine (d : Fin 9) : FieldLine := ⟨⟨[], no_blanks⟩, [(singleItem d, .space)], none⟩

/-- A line with one field. -/
def openLine (d : Fin 9) : FieldLine := ⟨⟨[], no_blanks⟩, [], some (singleItem d)⟩

/-- `2 1` -/
def smallHeader : MetisHeader := ⟨.single 2, by decide, .space, .single 1, none, ⟨[], no_blanks⟩⟩

def smallText (comments : List Comment) (lines : List FieldLine)
    (hkind : ∀ l ∈ lines, ∀ i ∈ l.items, i.weight.isSome = false) (henough : lines.length ≤ 2) :
    MetisText where
  comments := comments
  header := smallHeader
  rows := lines.map fun l => ⟨[], l⟩
  terminated := true
  kind := by
    intro r hr
    obtain ⟨l, hl, rfl⟩ := List.mem_map.mp hr
    exact hkind l hl
  enough := by
    rw [List.length_map]
    show (lines.length : Int) ≤ 2
    omega
  ending := fun _ _ => .inl rfl

theorem readInMetis_correct_iff_pair :
    (smallText [] [closedLine 1, closedLine 0] (by decide) (by decide)).Reads Int ↔
      smallHeader.Sound ∧ (∀ r ∈ [closedLine 1, closedLine 0].map (MetisRow.mk []), r.line.last = none) ∧
        (((2 : Nat) : Int) = 2 ∨
          ∃ r ∈ ([closedLine 1, closedLine 0].map (MetisRow.mk [])).getLast?, r.line.items = []) :=
  readInMetis_correct_iff (smallText [] [closedLine 1, closedLine 0] (by decide) (by decide))
    ⟨nofun, fun r hr => by obtain ⟨l, -, rfl⟩ := List.mem_map.mp hr; exact nofun⟩

/-- A file is not read when some run returns something else. -/
theorem MetisText.not_reads {t : MetisText} (vars : MetisVars) (k : Nat)
    {r : Except Int (List (EdgePair Int D) × Bool)} (hrun : (readInMetis vars t.bytes).run k = some r)
    (hne : r ≠ .ok (t.edges, !t.header.weighted)) : ¬ t.Reads D := by
  intro h
  have hreturns : (readInMetis vars t.bytes).Returns r := ⟨k, hrun⟩
  exact hne (hreturns.unique (h vars))

/-- A comment whose second piece is `text`. -/
def longPercent (text : List UInt8) (h : newline ∉ text) : Comment :=
  ⟨List.replicate 199 120 ++ text, by
    rw [List.mem_append, not_or]
    exact ⟨by decide, h⟩⟩

/-- A comment that is not skipped need not do any harm: here its end is taken for the header, and the
header for the line of the only vertex. -/
example :
    let t := smallText [longPercent [49, 32, 48] (by decide)] [closedLine 1, ⟨⟨[], no_blanks⟩, [], none⟩]
      (by decide) (by decide)
    (readInMetis ⟨0, 0, 0, fun _ => (0, 0)⟩ t.bytes).run 10 =
      some (.ok ((t.edges : List (EdgePair Int Int)), true)) := by
  decide +kernel

/-- Without blanks behind the fields, without a line for the second vertex, and with a long comment. -/
theorem readInMetis_not_total :
    ¬ (smallText [] [openLine 1, openLine 0] (by decide) (by decide)).Reads Int ∧
    ¬ (smallText [] [closedLine 1] (by decide) (by decide)).Reads Int ∧
    ¬ (smallText [longPercent [120] (by decide)] [closedLine 1, closedLine 0] (by decide)
      (by decide)).Reads Int := by
  refine ⟨?_, ?_, ?_⟩
  · apply MetisText.not_reads ⟨0, 0, 0, fun _ => (0, 0)⟩ 10 (r := .ok ([], true))
    · decide +kernel
    · decide
  · apply MetisText.not_reads ⟨0, 0, 0, fun _ => (0, 0)⟩ 10 (r := .ok ([⟨0, 1⟩, ⟨1, 1⟩], true))
    · decide +kernel
    · decide
  · apply MetisText.not_reads ⟨0, 0, 0, fun _ => (0, 0)⟩ 10 (r := .ok ([], true))
    · decide +kernel
    · decide

end Gapbs
