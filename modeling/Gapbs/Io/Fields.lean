import Gapbs.Builder.EdgeList
import Gapbs.Io.Tokens
import Gapbs.Lib.Fueled

/-!
# What the text formats share

Fields of vertices and weights, and comment lines that begin with `%`.
-/

namespace Gapbs

open InStream

/-- What a reader needs of `DestID_`: the conversions from `NodeID_` and from `NodeWeight`, and whether
it has a place for the weight. -/
class DestID (D : Type) where
  ofNodeID : Int → D
  ofNodeWeight : Int → Int → D
  weighted : Bool
  keeps : ∀ {v w w'}, weighted = true → ofNodeWeight v w = ofNodeWeight v w' → w = w'
  drops : ∀ v w w', weighted = false → ofNodeWeight v w = ofNodeWeight v w'

instance : DestID Int where
  ofNodeID v := v
  ofNodeWeight v _ := v
  weighted := false
  keeps := nofun
  drops _ _ _ _ := rfl

instance : DestID (Int × Int) where
  ofNodeID v := (v, 1)
  ofNodeWeight v w := (v, w)
  weighted := true
  keeps _ h := (Prod.mk.inj h).2
  drops := nofun

/-- `is >> nw` for a `NodeWeight`; both members are 32 bits wide. -/
def readNodeWeight (old : Int × Int) (is : InStream) : (Int × Int) × InStream :=
  let (v, is) := is.readInteger 32 old.1
  let (w, is) := is.readInteger 32 old.2
  ((v, w), is)

theorem readNodeWeight_def (old : Int × Int) (is : InStream) : readNodeWeight old is =
    let v := is.readInteger 32 old.1
    let w := v.2.readInteger 32 old.2
    ((v.1, w.1), w.2) := rfl

theorem readNodeWeight_stream (old old' : Int × Int) (is : InStream) :
    (readNodeWeight old is).2 = (readNodeWeight old' is).2 := by
  have hv : (is.readInteger 32 old.1).2 = (is.readInteger 32 old'.1).2 := extract_stream _ _ _ is
  rw [readNodeWeight_def, readNodeWeight_def]
  simp only [hv]
  exact extract_stream _ _ _ _

/-- When both members are read, nothing is left of the old ones. -/
theorem readNodeWeight_eq {old : Int × Int} {is : InStream}
    (h : (readNodeWeight old is).2.fail = false) (old' : Int × Int) :
    readNodeWeight old is = readNodeWeight old' is := by
  rw [readNodeWeight_def] at h
  have hv : is.readInteger 32 old.1 = is.readInteger 32 old'.1 :=
    extract_eq (not_fail_of_good (good_of_extract h)) old'.1
  have hw : (is.readInteger 32 old.1).2.readInteger 32 old.2 =
    (is.readInteger 32 old.1).2.readInteger 32 old'.2 := extract_eq h old'.2
  rw [readNodeWeight_def, readNodeWeight_def]
  simp only [hw]
  rw [hv]

theorem length_readNodeWeight_lt {old : Int × Int} {is : InStream}
    (h : (readNodeWeight old is).2.fail = false) :
    (readNodeWeight old is).2.rest.length < is.rest.length := by
  have hv : (is.readInteger 32 old.1).2.fail = false := not_fail_of_good (good_of_extract h)
  exact (length_readInteger_le 32 old.2 _).trans_lt (length_readInteger_lt hv)

/-! ## Fields -/

/-- The number of a vertex in a file that counts from 1. -/
structure VertexNumeral extends Numeral where
  pos : 1 ≤ toNumeral.value
  lt : toNumeral.value < 2 ^ 31

theorem VertexNumeral.fits (x : VertexNumeral) : x.Fits 32 := by
  have hpos := x.pos
  exact ⟨by omega, x.lt⟩

/-- The number with one digit, `d + 1`. -/
def VertexNumeral.single (d : Fin 9) : VertexNumeral where
  toNumeral := .single d.succ
  pos := by
    revert d
    decide
  lt := by
    revert d
    decide

/-- The number of a vertex in the graph. -/
def VertexNumeral.id (x : VertexNumeral) : Int := x.value - 1

theorem VertexNumeral.toNodeID_pred (x : VertexNumeral) : toNodeID (x.value - 1) = x.id := by
  have hpos := x.pos
  have hlt := x.lt
  rw [toNodeID, Int.bmod_eq_of_le (by omega) (by omega)]
  rfl

/-- A weight of 32 bits. -/
structure WeightNumeral extends Numeral where
  fits : toNumeral.Fits 32

/-! ## Comments -/

/-- The loop that skips lines while the next character is a `%`. -/
def skipComments (input : InStream) : Fueled InStream :=
  .loop (fun input =>
    let (c, input) := input.peek
    pure (if c = some 37 then .inl (input.ignore 200 newline) else .inr input)) input

/-- A comment line, without the `%`. -/
structure Comment where
  text : List UInt8
  line : newline ∉ text

namespace Comment

def bytes (c : Comment) : List UInt8 := 37 :: c.text

/-- All pieces that the comment is skipped in begin with a `%`. -/
def Skipped (c : Comment) : Prop := Pieces (· = 37) c.bytes

theorem newline_notMem (c : Comment) : newline ∉ c.bytes :=
  List.not_mem_cons_of_ne_of_not_mem (by decide) c.line

/-- A comment of one piece is skipped. -/
theorem skipped_of_short {c : Comment} (h : c.bytes.length < 200) : c.Skipped := by
  intro k b hget
  cases k with
  | zero => exact (Option.some.inj hget).symm
  | succ k =>
    have hlt := (List.getElem?_eq_some_iff.mp hget).1
    rw [List.length_append, List.length_singleton] at hlt
    omega

/-- A loop that skips pieces behind a `%` goes on behind the comments. -/
theorem skip {P : InStream → Prop}
    (hstep : ∀ text, P (ofBytes (37 :: text)) ↔ P (ignoreFrom newline 200 (37 :: text)))
    {comments : List Comment} (h : ∀ c ∈ comments, c.Skipped) (terminated : Bool)
    (line : List UInt8) (lines : List (List UInt8)) :
    P (ofBytes (fileText terminated (comments.map Comment.bytes ++ line :: lines))) ↔
      P (ofBytes (fileText terminated (line :: lines))) := by
  induction comments with
  | nil => rfl
  | cons c comments ih =>
    rw [List.forall_mem_cons] at h
    have hnext : following terminated (comments.map Comment.bytes ++ line :: lines) =
        some (fileText terminated (comments.map Comment.bytes ++ line :: lines)) :=
      if_neg fun hnil => List.append_ne_nil_of_right_ne_nil _ (List.cons_ne_nil _ _) hnil.1
    have hpiece : ∀ b text, b = 37 →
        (P (ofBytes (b :: text)) ↔ P (ignoreFrom newline 200 (b :: text))) := by
      rintro _ text rfl
      exact hstep text
    rw [List.map_cons, List.cons_append, fileText_cons, hnext, ← ih h.2]
    exact skip_line hpiece c.newline_notMem h.1 _

end Comment

namespace Comment

/-- There are blanks from some piece on, and those before it begin with a `%`. -/
def BlankEnd (c : Comment) : Prop :=
  ∃ k, 200 * k ≤ c.bytes.length ∧ (∀ j < k, c.bytes[200 * j]? = some 37) ∧
    ∀ b ∈ c.bytes.drop (200 * k), isSpace b = true

/-- The comments in front of numbers are skipped, and of the last one what is not blank. -/
def AllSkipped (comments : List Comment) : Prop :=
  (∀ c ∈ comments.dropLast, c.Skipped) ∧ ∀ c ∈ comments.getLast?, c.Skipped ∨ c.BlankEnd

end Comment

/-- The loop ends in front of what does not begin with a `%`. -/
theorem skipComments_returns {comments : List Comment} (h : ∀ c ∈ comments, c.Skipped)
    (terminated : Bool) {line : List UInt8} {lines : List (List UInt8)}
    (hstart : (fileText terminated (line :: lines)).head? ≠ some 37) :
    (skipComments (ofBytes (fileText terminated (comments.map Comment.bytes ++ line :: lines)))).Returns
      (ofBytes (fileText terminated (line :: lines))).peek.2 := by
  apply (Comment.skip (P := fun input => (skipComments input).Returns _) _ h terminated line lines).mpr
  · apply (Fueled.Returns.loop_exit _).mpr rfl
    apply Fueled.returns_pure.mpr
    cases htext : fileText terminated (line :: lines) with
    | nil => rfl
    | cons b text =>
      rw [htext] at hstart
      exact if_neg hstart
  · intro text
    exact Fueled.Returns.loop_next (Fueled.returns_pure.mpr rfl)

theorem skipComments_step (a : InStream) (text : List UInt8) :
    (skipComments (ofBytes (37 :: text))).Returns a ↔
      (skipComments (ignoreFrom newline 200 (37 :: text))).Returns a :=
  Fueled.Returns.loop_next (Fueled.returns_pure.mpr rfl)

theorem skipComments_stop {text : List UInt8} (hne : text ≠ []) (hstart : text.head? ≠ some 37) :
    (skipComments (ofBytes text)).Returns (ofBytes text) := by
  obtain ⟨b, rest, rfl⟩ := List.exists_cons_of_ne_nil hne
  apply (Fueled.Returns.loop_exit _).mpr rfl
  apply Fueled.returns_pure.mpr
  exact if_neg hstart

/-- The loop ends in front of the next line, or of blanks before it. -/
theorem skipComments_allSkipped {comments : List Comment} (h : Comment.AllSkipped comments)
    (terminated : Bool) {line : List UInt8} {lines : List (List UInt8)} (hne : line ≠ [])
    (hstart : line.head? ≠ some 37) :
    ∃ lead, (∀ b ∈ lead, isSpace b = true) ∧
      (skipComments (ofBytes (fileText terminated (comments.map Comment.bytes ++ line :: lines)))).Returns
        (ofBytes (lead ++ fileText terminated (line :: lines))) := by
  have htext : fileText terminated (line :: lines) ≠ [] := fun heq =>
    hne (List.append_eq_nil_iff.mp heq).1
  have hhead : (fileText terminated (line :: lines)).head? ≠ some 37 := by
    obtain ⟨b, rest, rfl⟩ := List.exists_cons_of_ne_nil hne
    exact hstart
  -- the comments that are skipped
  have hskip {a : InStream} {comments : List Comment} (h : ∀ c ∈ comments, c.Skipped)
      (line : List UInt8) (lines : List (List UInt8)) :
      (skipComments (ofBytes (fileText terminated
        (comments.map Comment.bytes ++ line :: lines)))).Returns a ↔
        (skipComments (ofBytes (fileText terminated (line :: lines)))).Returns a :=
    Comment.skip (P := fun input => (skipComments input).Returns a) (skipComments_step a) h terminated
      line lines
  have hskipped (h : ∀ c ∈ comments, c.Skipped) : ∃ lead, (∀ b ∈ lead, isSpace b = true) ∧
      (skipComments (ofBytes (fileText terminated (comments.map Comment.bytes ++ line :: lines)))).Returns
        (ofBytes (lead ++ fileText terminated (line :: lines))) :=
    ⟨[], List.forall_mem_nil _, (hskip h _ _).mpr (skipComments_stop htext hhead)⟩
  rcases List.eq_nil_or_concat' comments with rfl | ⟨init, c, rfl⟩
  · exact hskipped (List.forall_mem_nil _)
  · simp only [Comment.AllSkipped, List.dropLast_concat, List.getLast?_concat, Option.mem_some_iff,
      forall_eq'] at h
    obtain ⟨hinit, hc | ⟨k, hlong, hpieces, hblank⟩⟩ := h
    · apply hskipped
      rw [List.forall_mem_append, List.forall_mem_singleton]
      exact ⟨hinit, hc⟩
    · let lead := c.bytes.drop (200 * k) ++ [newline]
      have hlead : ∀ b ∈ lead, isSpace b = true := by
        rw [List.forall_mem_append]
        exact ⟨hblank, by decide⟩
      refine ⟨lead, hlead, ?_⟩
      rw [List.map_append, List.append_assoc]
      apply (hskip hinit c.bytes (line :: lines)).mpr
      have hnext : following terminated (line :: lines) = some (fileText terminated (line :: lines)) :=
        if_neg fun hnil => List.cons_ne_nil _ _ hnil.1
      have hpiece : ∀ b text, b = 37 → ((skipComments (ofBytes (b :: text))).Returns
          (ofBytes (lead ++ fileText terminated (line :: lines))) ↔
          (skipComments (ignoreFrom newline 200 (b :: text))).Returns
            (ofBytes (lead ++ fileText terminated (line :: lines)))) := by
        rintro _ text rfl
        exact skipComments_step _ text
      have hkind : ∀ j < k, ∀ b ∈ c.bytes[200 * j]?, b = 37 := fun j hj b hb =>
        (Option.some.inj ((hpieces j hj).symm.trans hb)).symm
      have hpart : c.bytes.drop (200 * k) ++ endText (some (fileText terminated (line :: lines))) =
          lead ++ fileText terminated (line :: lines) := by
        simp only [lead, endText, List.append_assoc, List.singleton_append]
      rw [fileText_cons, hnext, skip_pieces (P := fun input => (skipComments input).Returns _) hpiece
        c.newline_notMem hlong hkind, hpart]
      have hleadNe : lead ≠ [] := List.append_ne_nil_of_right_ne_nil _ (List.cons_ne_nil _ _)
      apply skipComments_stop
      · exact List.append_ne_nil_of_left_ne_nil hleadNe _
      · obtain ⟨b, rest, hb⟩ := List.exists_cons_of_ne_nil hleadNe
        rw [hb]
        intro heq
        have hspace := hlead b (hb ▸ List.mem_cons_self)
        rw [show b = 37 from Option.some.inj heq] at hspace
        exact absurd hspace (by decide)

end Gapbs
