import Gapbs.Io.WriteEl

/-!
# One edge list in five formats

An edge list as a `.el`, `.wel`, `.gr`, `.graph` or `.mtx` file.  The readers return its edges, in the order of
their sources from a `.graph` file and in that of the list from the others, so that the files are loaded as
the same graph.
-/

namespace Gapbs

open Conc InStream Numeral

/-! ## The files -/

/-- The format of a METIS file; with `one`, edges have weights. -/
inductive MetisFormat where
  | omitted
  | zero
  | one
  | hundred
deriving DecidableEq

/-- A text format; the entries of a `.graph` or `.mtx` file may have weights. -/
inductive TextFormat where
  | el
  | wel
  | gr
  | graph (fmt : MetisFormat)
  | mtx (weights : Bool)

namespace TextFormat

def suffix : TextFormat → List UInt8
  | el => ascii ".el"
  | wel => ascii ".wel"
  | gr => ascii ".gr"
  | graph _ => ascii ".graph"
  | mtx _ => ascii ".mtx"

/-- There is a weight for every edge. -/
def weighted : TextFormat → Bool
  | el => false
  | wel => true
  | gr => true
  | graph fmt => fmt = .one
  | mtx weights => weights

end TextFormat

section

variable (e : EdgePair Nat (Nat × Int)) (l : List (EdgePair Nat (Nat × Int)))

/-- The ids of a file that counts from 1, as numerals. -/
def sourceNumeral : Numeral := ofInt (e.u + 1 : Nat)

def targetNumeral : Numeral := ofInt (e.v.1 + 1 : Nat)

def weightNumeral : Numeral := ofInt e.v.2

/-- The number of vertices. -/
def nodesOf : Nat := maxNodeID (l.map EdgePair.unweighted) + 1

/-- `a u v w` -/
def arcText : List UInt8 :=
  ascii "a " ++ ((sourceNumeral e).bytes ++ 32 :: ((targetNumeral e).bytes ++ 32 :: (weightNumeral e).bytes))

/-- `p sp n m` -/
def problemText : List UInt8 :=
  ascii "p sp " ++ ((ofInt (nodesOf l)).bytes ++ 32 :: (ofInt l.length).bytes)

/-- `n m` and the format -/
def headerText (fmt : MetisFormat) : List UInt8 :=
  (ofInt (nodesOf l)).bytes ++ 32 :: ((ofInt l.length).bytes ++
    match fmt with
    | .omitted => []
    | .zero => ascii " 0"
    | .one => ascii " 1"
    | .hundred => ascii " 100")

/-- The targets of a vertex, each followed by a blank, and so their weights. -/
def rowText (weights : Bool) (u : Nat) : List UInt8 :=
  (l.filter fun e => e.u = u).flatMap fun e => (targetNumeral e).bytes ++ 32 ::
    if weights then (weightNumeral e).bytes ++ [32] else []

def bannerText (weights : Bool) : List UInt8 :=
  ascii "%%MatrixMarket matrix coordinate " ++ ((if weights then ascii "integer" else ascii "pattern") ++
    ascii " general")

/-- `n n m` -/
def sizesText : List UInt8 :=
  (ofInt (nodesOf l)).bytes ++ 32 :: ((ofInt (nodesOf l)).bytes ++ 32 :: (ofInt l.length).bytes)

/-- `u v` or `u v w` -/
def entryText (weights : Bool) : List UInt8 :=
  (sourceNumeral e).bytes ++ 32 :: ((targetNumeral e).bytes ++
    if weights then 32 :: (weightNumeral e).bytes else [])

/-- The edge list as a file, with line ends behind all lines; there are no comments in `.el` and `.wel`
files. -/
def TextFormat.encode (f : TextFormat) (comments : List Comment) : List UInt8 :=
  match f with
  | el => edgeText (fun v => (ofInt v).bytes) ((l.map EdgePair.unweighted).map EdgePair.ints)
  | wel => edgeText nodeWeightText (l.map EdgePair.intsW)
  | gr => fileText true (comments.map (fun c => 99 :: c.text) ++ problemText l :: l.map arcText)
  | graph fmt => fileText true (comments.map Comment.bytes ++ headerText l fmt ::
      (List.range (nodesOf l)).map (rowText l (fmt = .one)))
  | mtx weights => fileText true (bannerText weights ::
      (comments.map Comment.bytes ++ sizesText l :: l.map fun e => entryText e weights))

end

/-! ## What the readers return -/

/-- An edge whose ids and weight fit their types. -/
def Printable (e : EdgePair Nat (Nat × Int)) : Prop :=
  (e.u < 2 ^ 31 - 2 ∧ e.v.1 < 2 ^ 31 - 2) ∧ IsInt32 e.v.2

variable {D : Type} [DestID D]

/-- The edge as a reader returns it, with its weight or without. -/
def edgeAs (weights : Bool) (e : EdgePair Nat (Nat × Int)) : EdgePair Int D :=
  ⟨e.u, if weights then DestID.ofNodeWeight e.v.1 e.v.2 else DestID.ofNodeID e.v.1⟩

/-- An id that is printed counted from 1. -/
def VertexNumeral.ofId (k : Nat) (h : k < 2 ^ 31 - 2) : VertexNumeral where
  toNumeral := ofInt (k + 1 : Nat)
  pos := by
    rw [value_ofInt]
    omega
  lt := by
    rw [value_ofInt]
    omega

theorem VertexNumeral.id_ofId {k : Nat} (h : k < 2 ^ 31 - 2) : (ofId k h).id = k := by
  unfold VertexNumeral.id ofId
  rw [value_ofInt]
  omega

def WeightNumeral.ofWeight (w : Int) (h : IsInt32 w) : WeightNumeral := ⟨ofInt w, fits_ofInt h⟩

/-- No blanks. -/
def noBlanks : Blanks := ⟨[], nofun⟩

/-! ### `.gr` files -/

/-- The line of an edge. -/
def arcLine (e : { e // Printable e }) : GrLine :=
  .arc ⟨.space, .ofId e.1.u e.2.1.1, .space, .ofId e.1.v.1 e.2.1.2, .space, .ofWeight e.1.v.2 e.2.2, noBlanks⟩

theorem arcLine_bytes (e : { e // Printable e }) : (arcLine e).bytes = arcText e.1 := by
  show 97 :: ([32] ++ (_ ++ ([32] ++ (_ ++ ([32] ++ _)))) ++ []) = _
  rw [List.append_nil]
  rfl

theorem arcLine_edges (e : { e // Printable e }) : (arcLine e).edges = [(edgeAs true e.1 : EdgePair Int D)] := by
  have hw : (WeightNumeral.ofWeight e.1.v.2 e.2.2).value = e.1.v.2 := value_ofInt _
  unfold arcLine GrLine.edges ArcLine.edge edgeAs
  simp only [VertexNumeral.id_ofId, hw, if_true]

theorem readInGR_encode {l : List (EdgePair Nat (Nat × Int))} (hl : ∀ e ∈ l, Printable e)
    {comments : List Comment} (hcomments : ∀ c ∈ comments, c.bytes.length < 200) (u : Int) (v : Int × Int) :
    (readInGR u v (TextFormat.gr.encode l comments)).Returns (l.map (edgeAs true : _ → EdgePair Int D)) := by
  let problem : GrLine := .problem .space .space .space (ofInt (nodesOf l)) (ofInt l.length) noBlanks
  lift l to List { e // Printable e } using hl
  let lines := comments.map (fun c => GrLine.comment c.text c.line) ++ problem :: l.map arcLine
  have hbytes : TextFormat.gr.encode (l.map Subtype.val) comments = fileText true (lines.map GrLine.bytes) := by
    have hproblem : problem.bytes = problemText (l.map Subtype.val) := by
      show 112 :: ([32] ++ ([115, 112] ++ ([32] ++ (_ ++ ([32] ++ (_ ++ []))))) : List UInt8) = _
      rw [List.append_nil]
      rfl
    simp only [TextFormat.encode, lines, List.map_append, List.map_cons, List.map_map, hproblem,
      Function.comp_def, arcLine_bytes]
    rfl
  have hedges : lines.flatMap GrLine.edges = (l.map Subtype.val).map (edgeAs true : _ → EdgePair Int D) := by
    have hnone : (comments.map fun c => GrLine.comment c.text c.line).flatMap GrLine.edges =
        ([] : List (EdgePair Int D)) := by
      simp only [List.flatMap_map, GrLine.edges, List.flatMap_eq_nil_iff, implies_true]
    have harcs : (l.map arcLine).flatMap GrLine.edges = l.map fun e => (edgeAs true e.1 : EdgePair Int D) := by
      simp only [List.flatMap_map, arcLine_edges]
      exact List.map_eq_flatMap.symm
    rw [List.flatMap_append, hnone, List.flatMap_cons, harcs, List.map_map]
    rfl
  have hskipped : ∀ x ∈ lines, x.Skipped := by
    simp only [lines, List.forall_mem_append, List.forall_mem_cons, List.forall_mem_map]
    refine ⟨fun c hc k hget => ?_, trivial, fun _ _ => trivial⟩
    have hlength : c.bytes.length = (99 :: c.text).length := rfl
    have hlt := (List.getElem?_eq_some_iff.mp hget).1
    have hshort := hcomments c hc
    -- the first piece begins with a `c`, and there is no second one
    obtain rfl : k = 0 := by omega
    exact absurd (Option.some.inj hget) (by decide)
  rw [hbytes, ← hedges]
  exact (gr_lines hskipped true).mpr rfl

theorem nodesOf_lt {l : List (EdgePair Nat (Nat × Int))} (hl : ∀ e ∈ l, Printable e) : nodesOf l < 2 ^ 31 := by
  have hmax := maxNodeID_unweighted_lt fun e he => (hl e he).1
  unfold nodesOf
  omega

/-! ### `.mtx` files -/

/-- The line of an edge. -/
def entryLine (weights : Bool) (e : { e // Printable e }) : MtxEntry where
  lead := noBlanks
  i := .ofId e.1.u e.2.1.1
  gap := .space
  j := .ofId e.1.v.1 e.2.1.2
  value := if weights then some (.space, .integer (.ofWeight e.1.v.2 e.2.2)) else none
  trail := noBlanks

theorem entryLine_bytes (weights : Bool) (e : { e // Printable e }) :
    (entryLine weights e).bytes = entryText e.1 weights := by
  cases weights with
  | false => rfl
  | true =>
    show [] ++ (_ ++ ([32] ++ (_ ++ (([32] ++ _) ++ [])))) = _
    rw [List.append_nil]
    rfl

theorem entryLine_edges (weights : Bool) (e : { e // Printable e }) :
    (entryLine weights e).edgesWith MtxValue.leading false = [(edgeAs weights e.1 : EdgePair Int D)] := by
  have hw : (WeightNumeral.ofWeight e.1.v.2 e.2.2).value = e.1.v.2 := value_ofInt _
  unfold entryLine MtxEntry.edgesWith edgeAs
  cases weights with
  | false => simp [VertexNumeral.id_ofId]
  | true => simp [VertexNumeral.id_ofId, MtxValue.leading, hw]

theorem fits_of_lt {w k : Nat} (hk : k < 2 ^ (w - 1)) : (ofInt k).Fits w := by
  apply fits_ofInt
  have hcast : ((2 ^ (w - 1) : Nat) : Int) = 2 ^ (w - 1) := by push_cast; rfl
  omega

def mtxBanner (weights : Bool) : MtxBanner :=
  ⟨.space, .space, .space, if weights then .integer else .pattern, .space, .general, noBlanks⟩

theorem mtxBanner_bytes (weights : Bool) : (mtxBanner weights).bytes = bannerText weights := by
  cases weights <;> decide

/-- The file with the lines of the edges. -/
def mtxText (weights : Bool) (l : List { e // Printable e }) (comments : List Comment) {nodes : Nat}
    (hnodes : nodes < 2 ^ 31) (hlength : l.length < 2 ^ 63) : MtxText where
  banner := mtxBanner weights
  comments := comments
  sizes := ⟨noBlanks, ofInt nodes, .space, ofInt nodes, .space, ofInt l.length, noBlanks,
    fits_of_lt (hnodes.trans (by decide)), fits_of_lt (hnodes.trans (by decide)), fits_of_lt hlength, rfl⟩
  lines := l.map fun e => .entry (entryLine weights e)
  terminated := true
  kind := by
    intro x hx
    obtain ⟨e, -, rfl⟩ := List.mem_map.mp hx
    cases weights <;> rfl

theorem readInMTX_encode (weights : Bool) {l : List (EdgePair Nat (Nat × Int))} (hl : ∀ e ∈ l, Printable e)
    (hlength : l.length < 2 ^ 63) {comments : List Comment} (hcomments : ∀ c ∈ comments, c.bytes.length < 200)
    (vars : MtxVars) : (readInMTX vars ((TextFormat.mtx weights).encode l comments)).Returns
      (.ok (l.map (edgeAs weights : _ → EdgePair Int D), !weights)) := by
  have hnodes := nodesOf_lt hl
  generalize hn : nodesOf l = nodes at hnodes
  lift l to List { e // Printable e } using hl
  rw [List.length_map] at hlength
  let t := mtxText weights l comments hnodes hlength
  have hbytes : (TextFormat.mtx weights).encode (l.map Subtype.val) comments = t.bytes := by
    have hbanner : t.banner.bytes = bannerText weights := mtxBanner_bytes weights
    have hsizes : t.sizes.bytes = sizesText (l.map Subtype.val) := by
      unfold sizesText
      rw [hn, List.length_map]
      show [] ++ (_ ++ ([32] ++ (_ ++ ([32] ++ (_ ++ []))))) = _
      rw [List.append_nil]
      rfl
    have hlines : t.lines.map MtxLine.bytes = (l.map Subtype.val).map fun e => entryText e weights := by
      show (l.map fun e => MtxLine.entry (entryLine weights e)).map MtxLine.bytes = _
      rw [List.map_map, List.map_map]
      exact List.map_congr_left fun e _ => entryLine_bytes weights e
    rw [MtxText.bytes, hbanner, hsizes, hlines]
    rfl
  have hskipped : Comment.AllSkipped t.comments :=
    ⟨fun c hc => Comment.skipped_of_short (hcomments c (List.dropLast_subset _ hc)),
      fun c hc => .inl (Comment.skipped_of_short (hcomments c (List.mem_of_getLast? hc)))⟩
  have htight : ∀ x ∈ behindBlanks t.lines, x.Tight := by
    apply tight_behindBlanks.mpr
    intro x hx
    obtain ⟨e, -, rfl⟩ := List.mem_map.mp ((List.dropWhile_suffix _).subset hx)
    trivial
  have hweights : t.banner.field.weights = weights := by cases weights <;> rfl
  obtain ⟨es, hcovers, hreturns⟩ := mtx_returns (D := D) t hskipped vars
  have hedges : es = (l.map Subtype.val).map (edgeAs weights) := by
    rw [hcovers.eq htight, flatMap_behindBlanks, List.map_map, List.map_eq_flatMap]
    show (l.map _).flatMap _ = _
    rw [List.flatMap_map]
    exact congrArg (l.flatMap ·) (funext fun e => entryLine_edges weights e)
  rw [hbytes, ← hedges]
  rwa [hweights] at hreturns

/-! ### `.graph` files -/

/-- A target, and its weight. -/
def rowItem (weights : Bool) (e : { e // Printable e }) : MetisItem where
  v := .ofId e.1.v.1 e.2.1.2
  weight := if weights then some (.space, .ofWeight e.1.v.2 e.2.2) else none

/-- The line of a vertex. -/
def rowLine (weights : Bool) (l : List { e // Printable e }) (u : Nat) : FieldLine where
  lead := noBlanks
  closed := (l.filter fun e => e.1.u = u).map fun e => (rowItem weights e, .space)
  last := none

theorem rowLine_bytes (weights : Bool) (l : List { e // Printable e }) (u : Nat) :
    (rowLine weights l u).bytes = rowText (l.map Subtype.val) weights u := by
  have hitem (e : { e // Printable e }) : (rowItem weights e).bytes ++ Gap.space.bytes =
      (targetNumeral e.1).bytes ++ 32 :: if weights then (weightNumeral e.1).bytes ++ [32] else [] := by
    cases weights with
    | false =>
      show (_ ++ []) ++ [32] = _
      rw [List.append_nil]
      rfl
    | true =>
      show (_ ++ ([32] ++ _)) ++ [32] = _
      rw [List.append_assoc, List.append_assoc]
      rfl
  unfold rowText
  rw [List.filter_map, List.flatMap_map]
  show [] ++ (((l.filter fun e => e.1.u = u).map fun e => (rowItem weights e, Gap.space)).flatMap _ ++ []) = _
  rw [List.nil_append, List.append_nil, List.flatMap_map]
  exact congrArg (List.flatMap · _) (funext hitem)

theorem rowLine_dests (weights : Bool) (l : List { e // Printable e }) (u : Nat) :
    edgesFrom u ((rowLine weights l u).dests : List D) =
      ((l.map Subtype.val).filter fun e => e.u = u).map (edgeAs weights) := by
  have hitem (e : { e // Printable e }) : ((rowItem weights e).dest : D) = (edgeAs weights e.1).v := by
    have hw : (WeightNumeral.ofWeight e.1.v.2 e.2.2).value = e.1.v.2 := value_ofInt _
    cases weights <;> simp [rowItem, MetisItem.dest, edgeAs, VertexNumeral.id_ofId, hw]
  unfold edgesFrom FieldLine.dests FieldLine.items rowLine
  simp only [List.map_map, Option.toList_none, List.append_nil, List.filter_map, Function.comp_def, hitem]
  apply List.map_congr_left
  intro e he
  obtain rfl : e.1.u = u := of_decide_eq_true (List.mem_filter.mp he).2
  rfl

/-- The edges source by source. -/
def bySource (nodes : Nat) (l : List (EdgePair Nat (Nat × Int))) : List (EdgePair Nat (Nat × Int)) :=
  (List.range nodes).flatMap fun u => l.filter fun e => e.u = u

omit [DestID D] in
theorem edgesFromAll_range (f : Nat → List D) (start nodes : Nat) :
    edgesFromAll start ((List.range' start nodes).map f) =
      (List.range' start nodes).flatMap fun u : Nat => edgesFrom u (f u) := by
  induction nodes generalizing start with
  | zero => rfl
  | succ nodes ih =>
    rw [List.range'_succ, List.map_cons, edgesFromAll, List.flatMap_cons]
    exact congrArg _ (ih (start + 1))

/-- The format behind the two numbers. -/
def formatNumeral : MetisFormat → Option (Gap × FormatNumeral)
  | .omitted => none
  | .zero => some (.space, ⟨ofInt 0, .inl (value_ofInt 0)⟩)
  | .one => some (.space, ⟨ofInt 1, .inr (.inl (value_ofInt 1))⟩)
  | .hundred => some (.space, ⟨ofInt 100, .inr (.inr (value_ofInt 100))⟩)

/-- The file with the lines of the vertices. -/
def graphText (fmt : MetisFormat) (l : List { e // Printable e }) (comments : List Comment) {nodes : Nat}
    (hnodes : nodes < 2 ^ 31) : MetisText where
  comments := comments
  header := ⟨ofInt nodes, fits_of_lt hnodes, .space, ofInt l.length, formatNumeral fmt, noBlanks⟩
  rows := (List.range nodes).map fun u => ⟨[], rowLine (fmt = .one) l u⟩
  terminated := true
  kind := by
    have hweighted : (formatNumeral fmt).any (fun f => f.2.value = 1) = decide (fmt = .one) := by
      cases fmt <;> simp [formatNumeral]
    intro r hr i hi
    obtain ⟨u, -, rfl⟩ := List.mem_map.mp hr
    simp only [FieldLine.items, rowLine, Option.toList_none, List.append_nil, List.map_map] at hi
    obtain ⟨e, -, rfl⟩ := List.mem_map.mp hi
    show _ = (formatNumeral fmt).any fun f => f.2.value = 1
    rw [hweighted]
    cases fmt <;> rfl
  enough := by
    rw [value_ofInt, List.length_map, List.length_range]
  ending _ _ := .inl rfl

theorem graphText_weighted (fmt : MetisFormat) (l : List { e // Printable e }) (comments : List Comment)
    {nodes : Nat} (hnodes : nodes < 2 ^ 31) :
    (graphText fmt l comments hnodes).header.weighted = decide (fmt = .one) := by
  show (formatNumeral fmt).any (fun f => f.2.value = 1) = _
  cases fmt <;> simp [formatNumeral]

theorem graphText_bytes (fmt : MetisFormat) (l : List { e // Printable e }) (comments : List Comment)
    {nodes : Nat} (hnodes : nodes < 2 ^ 31) (hn : nodesOf (l.map Subtype.val) = nodes) :
    (TextFormat.graph fmt).encode (l.map Subtype.val) comments = (graphText fmt l comments hnodes).bytes := by
  have hheader : (graphText fmt l comments hnodes).header.bytes = headerText (l.map Subtype.val) fmt := by
    unfold headerText
    rw [hn, List.length_map]
    cases fmt with
    | omitted => rfl
    | zero => rfl
    | one => rfl
    | hundred => rfl
  have hrows : (graphText fmt l comments hnodes).rows.flatMap MetisRow.lines =
      (List.range nodes).map (rowText (l.map Subtype.val) (fmt = .one)) := by
    show ((List.range nodes).map fun u => (⟨[], rowLine (fmt = .one) l u⟩ : MetisRow)).flatMap _ = _
    rw [List.flatMap_map, List.map_eq_flatMap]
    exact congrArg (List.flatMap · _) (funext fun u => congrArg ([·]) (rowLine_bytes _ l u))
  rw [MetisText.bytes, hheader, hrows, TextFormat.encode, hn]
  rfl

theorem graphText_skipped (fmt : MetisFormat) (l : List { e // Printable e }) {comments : List Comment}
    (hcomments : ∀ c ∈ comments, c.bytes.length < 200) {nodes : Nat} (hnodes : nodes < 2 ^ 31) :
    (graphText fmt l comments hnodes).CommentsSkipped := by
  refine ⟨fun c hc => Comment.skipped_of_short (hcomments c hc), fun r hr => ?_⟩
  obtain ⟨u, -, rfl⟩ := List.mem_map.mp hr
  exact nofun

/-- The format is read if it is absent or the number of edges fits its type. -/
theorem readInMetis_encode (fmt : MetisFormat) {l : List (EdgePair Nat (Nat × Int))}
    (hl : ∀ e ∈ l, Printable e) (hfits : fmt = .omitted ∨ l.length < 2 ^ 31) {comments : List Comment}
    (hcomments : ∀ c ∈ comments, c.bytes.length < 200) (vars : MetisVars) :
    (readInMetis vars ((TextFormat.graph fmt).encode l comments)).Returns
      (.ok ((bySource (nodesOf l) l).map (edgeAs (decide (fmt = .one)) : _ → EdgePair Int D),
        !decide (fmt = .one))) := by
  have hnodes := nodesOf_lt hl
  generalize hn : nodesOf l = nodes at hnodes
  lift l to List { e // Printable e } using hl
  rw [List.length_map] at hfits
  let t := graphText fmt l comments hnodes
  have hsound : t.header.Sound := by
    rcases hfits with rfl | hlength
    · exact .inr rfl
    · exact .inl (fits_of_lt hlength)
  have hskipped : t.CommentsSkipped := graphText_skipped fmt l hcomments hnodes
  have hreads : t.Reads D := by
    apply (metis_reads_iff t hskipped hsound).mpr
    constructor
    · intro r hr
      obtain ⟨u, -, rfl⟩ := List.mem_map.mp hr
      rfl
    · left
      show ((ofInt nodes).value - ((List.range nodes).map _).length).toNat = 0
      rw [value_ofInt, List.length_map, List.length_range, Int.sub_self]
      rfl
  have hedges : t.edges =
      (bySource nodes (l.map Subtype.val)).map (edgeAs (decide (fmt = .one)) : _ → EdgePair Int D) := by
    show edgesFromAll 0 (((List.range nodes).map fun u => (⟨[], rowLine (fmt = .one) l u⟩ : MetisRow)).map _) = _
    rw [List.map_map, List.range_eq_range']
    refine (edgesFromAll_range _ 0 nodes).trans ?_
    rw [bySource, List.map_flatMap, List.range_eq_range']
    exact congrArg (List.flatMap · _) (funext fun u => rowLine_dests _ l u)
  have hreturns := hreads vars
  rwa [hedges, graphText_weighted, ← graphText_bytes fmt l comments hnodes hn] at hreturns

/-- With more edges the format is not read, and the file may be rejected. -/
theorem readInMetis_long {fmt : MetisFormat} (hfmt : fmt ≠ .omitted) {l : List (EdgePair Nat (Nat × Int))}
    (hl : ∀ e ∈ l, Printable e) (hlength : 2 ^ 31 ≤ l.length) {vars : MetisVars} (hvars : vars.fmt = 7) :
    (readInMetis vars ((TextFormat.graph fmt).encode l [])).Returns
      (.error (-20) : Except Int (List (EdgePair Int D) × Bool)) := by
  have hnodes := nodesOf_lt hl
  generalize hn : nodesOf l = nodes at hnodes
  lift l to List { e // Printable e } using hl
  rw [List.length_map] at hlength
  let t := graphText fmt l [] hnodes
  have hsound : ¬ t.header.Sound := by
    rintro (hfits | hbehind)
    · have hlt := hfits.2
      rw [show t.header.m = ofInt l.length from rfl, value_ofInt] at hlt
      omega
    · -- a blank is in front of the format
      cases fmt with
      | omitted => exact hfmt rfl
      | _ => exact List.cons_ne_nil _ _ hbehind
  have hskipped : t.CommentsSkipped := graphText_skipped fmt l (List.forall_mem_nil _) hnodes
  obtain ⟨input, -, hreturns⟩ := metis_header (D := D) t hskipped vars (a := .error (-20))
  rw [graphText_bytes fmt l [] hnodes hn]
  apply hreturns.mpr
  rw [t.header.parseHeader_unsound hsound hvars]

/-! ### All files -/

/-- The order in which the edges are read. -/
def TextFormat.order (l : List (EdgePair Nat (Nat × Int))) : TextFormat → List (EdgePair Nat (Nat × Int))
  | graph _ => bySource (nodesOf l) l
  | _ => l

theorem count_bySource (nodes : Nat) (l : List (EdgePair Nat (Nat × Int))) (e : EdgePair Nat (Nat × Int)) :
    (bySource nodes l).count e = if e.u < nodes then l.count e else 0 := by
  have hrow (u : Nat) : (l.filter fun e => e.u = u).count e = if e.u = u then l.count e else 0 := by
    split
    · next h => exact List.count_filter (decide_eq_true h)
    · next h =>
      rw [List.count_eq_zero]
      exact fun hmem => h (of_decide_eq_true (List.mem_filter.mp hmem).2)
  induction nodes with
  | zero => rfl
  | succ nodes ih =>
    have hsplit : bySource (nodes + 1) l = bySource nodes l ++ l.filter fun e => e.u = nodes := by
      unfold bySource
      rw [List.range_succ, List.flatMap_append, List.flatMap_singleton]
    rw [hsplit, List.count_append, ih, hrow]
    split_ifs <;> omega

theorem TextFormat.order_perm (f : TextFormat) (l : List (EdgePair Nat (Nat × Int))) : (f.order l).Perm l := by
  have hgrouped : (bySource (nodesOf l) l).Perm l := by
    rw [List.perm_iff_count]
    intro e
    rw [count_bySource]
    split
    · rfl
    · next h =>
      symm
      rw [List.count_eq_zero]
      intro he
      exact h (Nat.lt_succ_of_le (le_maxNodeID (List.mem_map_of_mem (f := EdgePair.unweighted) he)).1)
  cases f with
  | graph fmt => exact hgrouped
  | _ => exact .refl l

section

variable {l : List (EdgePair Nat (Nat × Int))} {comments : List Comment} {filename : List UInt8}

/-- The number of edges fits its type in the header, and the format behind it is read. -/
def TextFormat.Fits (l : List (EdgePair Nat (Nat × Int))) : TextFormat → Prop
  | graph fmt => fmt = .omitted ∨ l.length < 2 ^ 31
  | _ => True

/-- What is read from the file of a format: only files with weights are known not to need any. -/
def TextFormat.ReadsAs (f : TextFormat) (D : Type) [DestID D] (filename bytes : List UInt8)
    (l : List (EdgePair Nat (Nat × Int))) : Prop :=
  ∀ vars needsWeights, ∃ needsWeights',
    (readFile vars filename (some bytes) needsWeights).Returns
      (.ok ((f.order l).map (edgeAs f.weighted : _ → EdgePair Int D), needsWeights')) ∧
    (f.weighted = true → needsWeights' = false)

theorem isInt32_id {k : Nat} (hk : k < 2 ^ 31 - 2) : IsInt32 k := by
  unfold IsInt32
  omega

theorem Printable.ints (hl : ∀ e ∈ l, Printable e) :
    ∀ e ∈ (l.map EdgePair.unweighted).map EdgePair.ints, IsInt32 e.u ∧ IsInt32 e.v := by
  simp only [List.forall_mem_map]
  exact fun e he => ⟨isInt32_id (hl e he).1.1, isInt32_id (hl e he).1.2⟩

theorem Printable.intsW (hl : ∀ e ∈ l, Printable e) :
    ∀ e ∈ l.map EdgePair.intsW, IsInt32 e.u ∧ IsInt32 e.v.1 ∧ IsInt32 e.v.2 := by
  simp only [List.forall_mem_map]
  exact fun e he => ⟨isInt32_id (hl e he).1.1, isInt32_id (hl e he).1.2, (hl e he).2⟩

theorem readFile_encode (f : TextFormat) (hl : ∀ e ∈ l, Printable e) (hlength : l.length < 2 ^ 63)
    (hfits : f.Fits l) (hcomments : ∀ c ∈ comments, c.bytes.length < 200) (hsuffix : getSuffix filename = .ok f.suffix) :
    f.ReadsAs D filename (f.encode l comments) l := by
  intro vars needsWeights
  unfold readFile
  rw [hsuffix]
  cases f with
  | el =>
    have hread := readInEL_edgeText (D := D) (Printable.ints hl) vars.el.1 vars.el.2
    have hedges : (((l.map EdgePair.unweighted).map EdgePair.ints).map fun e =>
        (⟨e.u, DestID.ofNodeID e.v⟩ : EdgePair Int D)) = l.map (edgeAs false) := by
      rw [List.map_map, List.map_map]
      rfl
    rw [hedges] at hread
    refine ⟨needsWeights, ?_, nofun⟩
    exact hread.bind_iff.mpr (Fueled.returns_pure.mpr rfl)
  | wel =>
    have hread := readInWEL_edgeText (D := D) (Printable.intsW hl) vars.wel.1 vars.wel.2
    rw [List.map_map] at hread
    refine ⟨false, ?_, fun _ => rfl⟩
    exact hread.bind_iff.mpr (Fueled.returns_pure.mpr rfl)
  | gr =>
    have hread := readInGR_encode (D := D) hl hcomments vars.gr.1 vars.gr.2
    refine ⟨false, ?_, fun _ => rfl⟩
    exact hread.bind_iff.mpr (Fueled.returns_pure.mpr rfl)
  | graph fmt =>
    have hread := readInMetis_encode (D := D) fmt hl hfits hcomments vars.metis
    exact ⟨_, hread, fun hweighted => congrArg (!·) hweighted⟩
  | mtx weights =>
    have hread := readInMTX_encode (D := D) weights hl hlength hcomments vars.mtx
    -- none of the four other suffixes
    simp only [TextFormat.suffix, if_true]
    rw [if_neg (by decide), if_neg (by decide), if_neg (by decide), if_neg (by decide)]
    exact ⟨_, hread, fun hweighted => congrArg (!·) hweighted⟩

end

end Gapbs
