import Gapbs.Io.Printed
import Gapbs.Io.ReadFile

/-!
# Edge lists as text

The lines of `.el` and `.wel` files: a source and a destination with a blank between them.  What
`ReadInEL` and `ReadInWEL` return are the edges of the lines.
-/

namespace Gapbs

open InStream Numeral

variable {V D : Type}

/-- `out << u << " " << v << std::endl` for every edge, with the text of a destination -/
def edgeText (destText : V → List UInt8) (edges : List (EdgePair Int V)) : List UInt8 :=
  edges.flatMap fun e => (ofInt e.u).bytes ++ 32 :: (destText e.v ++ [newline])

/-- `os << nw.v << " " << nw.w` -/
def nodeWeightText (d : Int × Int) : List UInt8 := (ofInt d.1).bytes ++ 32 :: (ofInt d.2).bytes

/-- The destination is extracted from its text behind a blank. -/
def ReadsDest (readV : V → InStream → V × InStream) (text : List UInt8) (v : V) : Prop :=
  ∀ old next, next.takeWhile isDigit = [] → readV old (upTo (32 :: (text ++ next))) = (v, upTo next)

/-- An integer of 32 bits. -/
def IsInt32 (x : Int) : Prop := -2 ^ 31 ≤ x ∧ x < 2 ^ 31

theorem readsDest_id {v : Int} (h : IsInt32 v) :
    ReadsDest (fun v input => input.readInteger 32 v) (ofInt v).bytes v := by
  intro old next hnext
  have hread := readInteger_upTo (fits_ofInt h : (ofInt v).Fits 32) Gap.space hnext old
  rwa [value_ofInt] at hread

theorem readsDest_nodeWeight {d : Int × Int} (hv : IsInt32 d.1) (hw : IsInt32 d.2) :
    ReadsDest readNodeWeight (nodeWeightText d) d := by
  intro old next hnext
  have hid := readInteger_upTo (fits_ofInt hv : (ofInt d.1).Fits 32) Gap.space
    (Gap.takeWhile_isDigit Gap.space ((ofInt d.2).bytes ++ next)) old.1
  have hweight := readInteger_upTo (fits_ofInt hw : (ofInt d.2).Fits 32) Gap.space hnext old.2
  rw [value_ofInt] at hid hweight
  have htext : 32 :: (nodeWeightText d ++ next) =
      Gap.space.bytes ++ ((ofInt d.1).bytes ++ (Gap.space.bytes ++ ((ofInt d.2).bytes ++ next))) := by
    unfold nodeWeightText
    rw [List.append_assoc]
    rfl
  rw [readNodeWeight_def, htext]
  simp only [hid, hweight]

/-! ## Reading the lines -/

section

variable {readV : V → InStream → V × InStream} {destOf : V → D}

theorem elBody_eq (input : InStream) (u : Int) (v : V) (el : List (EdgePair Int D)) :
    elBody readV destOf ⟨input, u, v, el⟩ =
      let source := input.readInteger 32 u
      let dest := readV v source.2
      pure (if dest.2.fail then .inr el
        else .inl ⟨dest.2, source.1, dest.1, el ++ [⟨source.1, destOf dest.1⟩]⟩) := rfl

/-- One line is read behind the blanks that the line before it has left. -/
theorem elBody_line {destText : V → List UInt8} {e : EdgePair Int V} (hu : IsInt32 e.u)
    (hv : ReadsDest readV (destText e.v) e.v) {lead : List UInt8} (hlead : ∀ b ∈ lead, isSpace b = true)
    (rest : List UInt8) (u : Int) (v : V) (el : List (EdgePair Int D)) :
    (elBody readV destOf ⟨ofBytes (lead ++ (edgeText destText [e] ++ rest)), u, v, el⟩).Returns
      (.inl ⟨ofBytes (newline :: rest), e.u, e.v, el ++ [⟨e.u, destOf e.v⟩]⟩) := by
  have htext : edgeText destText [e] ++ rest =
      (ofInt e.u).bytes ++ 32 :: (destText e.v ++ newline :: rest) := by
    simp [edgeText]
  have hsource := readInteger_ofBytes (fits_ofInt hu : (ofInt e.u).Fits 32) hlead
    (show (32 :: (destText e.v ++ newline :: rest)).takeWhile isDigit = [] from rfl) u
  rw [value_ofInt] at hsource
  rw [elBody_eq, htext, hsource]
  simp only [hv v (newline :: rest) rfl]
  exact Fueled.returns_pure.mpr rfl

/-- `ReadInEL` and `ReadInWEL` return the edges of the lines. -/
theorem el_lines (destText : V → List UInt8) (hrefuse : ∀ v input, (readV v ⟨input, true, true⟩).2.fail = true)
    {edges : List (EdgePair Int V)}
    (h : ∀ e ∈ edges, IsInt32 e.u ∧ ReadsDest readV (destText e.v) e.v) (lead : List UInt8)
    (hlead : ∀ b ∈ lead, isSpace b = true) (u : Int) (v : V) (el : List (EdgePair Int D)) :
    (Fueled.loop (elBody readV destOf) ⟨ofBytes (lead ++ edgeText destText edges), u, v, el⟩).Returns
      (el ++ edges.map fun e => ⟨e.u, destOf e.v⟩) := by
  induction edges generalizing lead u v el with
  | nil =>
    -- nothing but blanks is left, and the source cannot be extracted
    apply (Fueled.Returns.loop_exit _).mpr (List.append_nil el).symm
    have hsource : (ofBytes (lead ++ [])).readInteger 32 u = (u, ⟨[], true, true⟩) := by
      rw [List.append_nil]
      exact extract_blank hlead
    show (elBody readV destOf ⟨ofBytes (lead ++ []), u, v, el⟩).Returns _
    rw [elBody_eq, hsource]
    simp only [hrefuse v [], if_true]
    exact Fueled.returns_pure.mpr rfl
  | cons e edges ih =>
    rw [List.forall_mem_cons] at h
    have htext : edgeText destText (e :: edges) = edgeText destText [e] ++ edgeText destText edges := by
      simp [edgeText]
    have hrest := ih h.2 [newline] (by decide) e.u e.v (el ++ [⟨e.u, destOf e.v⟩])
    rw [htext]
    apply (elBody_line h.1.1 h.1.2 hlead _ u v el).loop_next.mpr
    rw [List.append_assoc] at hrest
    exact hrest

end

variable [DestID D]

/-- The edges of a `.el` file are read as they stand. -/
theorem readInEL_edgeText {edges : List (EdgePair Int Int)} (h : ∀ e ∈ edges, IsInt32 e.u ∧ IsInt32 e.v)
    (u v : Int) : (readInEL u v (edgeText (fun v => (ofInt v).bytes) edges)).Returns
      (edges.map fun e => ⟨e.u, (DestID.ofNodeID e.v : D)⟩) :=
  el_lines (fun v => (ofInt v).bytes) (fun _ _ => rfl)
    (fun e he => ⟨(h e he).1, readsDest_id (h e he).2⟩) [] (List.forall_mem_nil _) u v []

/-- The edges of a `.wel` file are read as they stand. -/
theorem readInWEL_edgeText {edges : List (EdgePair Int (Int × Int))}
    (h : ∀ e ∈ edges, IsInt32 e.u ∧ IsInt32 e.v.1 ∧ IsInt32 e.v.2) (u : Int) (v : Int × Int) :
    (readInWEL u v (edgeText nodeWeightText edges)).Returns
      (edges.map fun e => ⟨e.u, (DestID.ofNodeWeight e.v.1 e.v.2 : D)⟩) :=
  el_lines nodeWeightText (fun _ _ => rfl)
    (fun e he => ⟨(h e he).1, readsDest_nodeWeight (h e he).2.1 (h e he).2.2⟩) [] (List.forall_mem_nil _)
    u v []

end Gapbs
