import Gapbs.Io.Gr
import Gapbs.Io.Metis
import Gapbs.Io.Mtx

/-!
# Text files

`ReadFile` chooses a reader by the suffix of the file name.  All readers but `ReadInGR` end on any file:
each loop extracts something, skips a line or counts a vertex, or is left.
-/

namespace Gapbs

open InStream

variable {D : Type} [DestID D]

/-! ## Edge lists -/

/-- The local variables of `ReadInEL` and `ReadInWEL`; in the first one `v` has no weight. -/
structure ElLocals (V D : Type) where
  input : InStream
  u : Int
  v : V
  el : List (EdgePair Int D)

/-- `while (in >> u >> v)`, for the type of `v`: how it is read, and the `DestID_` it is converted to -/
def elBody {V : Type} (readV : V → InStream → V × InStream) (destOf : V → D) (s : ElLocals V D) :
    Fueled (ElLocals V D ⊕ List (EdgePair Int D)) :=
  let (u, input) := s.input.readInteger 32 s.u
  let (v, input) := readV s.v input
  pure (if input.fail then .inr s.el else .inl ⟨input, u, v, s.el ++ [⟨u, destOf v⟩]⟩)

/-- `ReadInEL` -/
def readInEL (u v : Int) (bytes : List UInt8) : Fueled (List (EdgePair Int D)) :=
  .loop (elBody (fun v input => input.readInteger 32 v) DestID.ofNodeID) ⟨ofBytes bytes, u, v, []⟩

/-- `ReadInWEL` -/
def readInWEL (u : Int) (v : Int × Int) (bytes : List UInt8) : Fueled (List (EdgePair Int D)) :=
  .loop (elBody readNodeWeight fun v => DestID.ofNodeWeight v.1 v.2) ⟨ofBytes bytes, u, v, []⟩

omit [DestID D] in
/-- An edge takes at least one character. -/
theorem el_terminates {V : Type} {readV : V → InStream → V × InStream}
    (hlt : ∀ v input, (readV v input).2.fail = false → (readV v input).2.rest.length < input.rest.length)
    (destOf : V → D) (s : ElLocals V D) : (Fueled.loop (elBody readV destOf) s).Terminates := by
  apply Fueled.loop_terminates (fun _ => True) (fun s => s.input.rest.length) trivial
  rintro ⟨input, u, v, el⟩ -
  let behind := readV v (input.readInteger 32 u).2
  have hbody : elBody readV destOf ⟨input, u, v, el⟩ = pure (if behind.2.fail then .inr el
      else .inl ⟨behind.2, (input.readInteger 32 u).1, behind.1,
        el ++ [⟨(input.readInteger 32 u).1, destOf behind.1⟩]⟩) := rfl
  rw [hbody]
  cases hfail : behind.2.fail with
  | true => exact .inl ⟨el, Fueled.returns_pure.mpr rfl⟩
  | false =>
    refine .inr ⟨_, Fueled.returns_pure.mpr rfl, trivial, ?_⟩
    exact (hlt v _ hfail).trans_le (length_readInteger_le 32 u input)

theorem readInEL_terminates (u v : Int) (bytes : List UInt8) :
    (readInEL u v bytes : Fueled (List (EdgePair Int D))).Terminates :=
  el_terminates (fun _ _ => length_readInteger_lt) _ _

theorem readInWEL_terminates (u : Int) (v : Int × Int) (bytes : List UInt8) :
    (readInWEL u v bytes : Fueled (List (EdgePair Int D))).Terminates :=
  el_terminates (fun _ _ => length_readNodeWeight_lt) _ _

/-! ## Comments -/

/-- A `%` that is seen can be skipped. -/
theorem length_ignore_lt {input : InStream} {b : UInt8} (hpeek : input.peek.1 = some b) (n : Nat)
    (delim : UInt8) : (input.peek.2.ignore (n + 1) delim).rest.length < input.rest.length := by
  cases hgood : input.good with
  | false =>
    rw [peek, hgood] at hpeek
    cases hpeek
  | true =>
    rw [peek, if_pos hgood] at hpeek ⊢
    cases hrest : input.rest with
    | nil =>
      rw [hrest] at hpeek
      cases hpeek
    | cons c text =>
      show (input.ignore (n + 1) delim).rest.length < _
      rw [ignore, if_pos hgood, hrest]
      exact length_ignoreFrom_lt delim n c text

theorem skipComments_terminates (input : InStream) : (skipComments input).Terminates := by
  apply Fueled.loop_terminates (fun _ => True) (fun input => input.rest.length) trivial
  rintro input -
  by_cases hpeek : input.peek.1 = some 37
  · right
    refine ⟨input.peek.2.ignore 200 newline, Fueled.returns_pure.mpr (if_pos hpeek), trivial, ?_⟩
    exact length_ignore_lt hpeek 199 newline
  · exact .inl ⟨_, Fueled.returns_pure.mpr (if_neg hpeek)⟩

/-! ## Lines -/

theorem length_getline_le (line : List UInt8) (s : InStream) :
    (s.getline line).2.rest.length ≤ s.rest.length := by
  rw [getline]
  split
  · have hdrop := List.length_dropWhile_le (fun b => decide (b ≠ newline)) s.rest
    split
    · exact Nat.zero_le _
    · rename_i b rest heq
      rw [heq] at hdrop
      exact (Nat.le_succ _).trans hdrop
  · exact le_refl _

/-- A line takes at least one character. -/
theorem length_getline_lt {line : List UInt8} {s : InStream} (h : (s.getline line).2.fail = false) :
    (s.getline line).2.rest.length < s.rest.length := by
  revert h
  rw [getline]
  split
  · have hdrop := List.length_dropWhile_le (fun b => decide (b ≠ newline)) s.rest
    split
    · rename_i heq
      intro h
      apply List.length_pos_iff.mpr
      rintro hnil
      rw [hnil] at h
      cases h
    · rename_i b rest heq
      rw [heq] at hdrop
      exact fun _ => hdrop
  · intro h
    cases h

theorem length_peek_le (s : InStream) : s.peek.2.rest.length ≤ s.rest.length := by
  rw [peek]
  split
  · split <;> exact le_refl _
  · exact le_refl _

/-! ## Metis files -/

theorem exists_lineAppends (readWeights : Bool) (line : List UInt8) :
    ∃ dests : List D, LineAppends readWeights line dests := by
  by_cases hline : line = []
  · subst hline
    have hfail (v : Int × Int) : (readField (D := D) readWeights v (ofBytes [])).2.fail = true := by
      cases readWeights <;> rfl
    exact ⟨[], fun _ => rfl, .nil hfail⟩
  · obtain ⟨dests, hdests⟩ := exists_appends (D := D) readWeights (ofBytes line)
    exact ⟨dests, fun hnil => absurd hnil hline, hdests⟩

/-- Every iteration skips a comment or counts a vertex. -/
theorem vertexBody_terminates (vars : MetisVars) (readWeights : Bool) (numNodes : Int)
    (s : MetisLocals D) : (Fueled.loop (vertexBody vars readWeights numNodes) s).Terminates := by
  apply Fueled.loop_terminates (fun _ => True)
    (fun s => s.input.rest.length + (numNodes - s.u).toNat) trivial
  rintro ⟨input, line, u, el⟩ -
  by_cases hu : u < numNodes
  swap
  · left
    refine ⟨el, ?_⟩
    rw [vertexBody, if_neg hu]
    exact Fueled.returns_pure.mpr rfl
  right
  by_cases hpeek : input.peek.1 = some 37
  · refine ⟨⟨input.peek.2.ignore 200 newline, line, u, el⟩, ?_, trivial, ?_⟩
    · rw [vertexBody, if_pos hu]
      show (if input.peek.1 = some 37 then _ else _ : Fueled _).Returns _
      rw [if_pos hpeek]
      exact Fueled.returns_pure.mpr rfl
    · exact Nat.add_lt_add_right (length_ignore_lt hpeek 199 newline) _
  · let behind := input.peek.2.getline line
    obtain ⟨dests, hdests⟩ := exists_lineAppends (D := D) readWeights behind.1
    refine ⟨_, vertexBody_line hu hpeek rfl hdests, trivial, ?_⟩
    have hle : behind.2.rest.length ≤ input.rest.length :=
      (length_getline_le line _).trans (length_peek_le input)
    show behind.2.rest.length + (numNodes - (u + 1)).toNat < input.rest.length + (numNodes - u).toNat
    omega

theorem readInMetis_terminates (vars : MetisVars) (bytes : List UInt8) :
    (readInMetis vars bytes : Fueled (Except Int (List (EdgePair Int D) × Bool))).Terminates := by
  apply (skipComments_terminates _).bind
  intro input _
  dsimp only
  split
  · exact Fueled.terminates_pure _
  · exact (vertexBody_terminates ..).bind fun el _ => Fueled.terminates_pure _

/-! ## Matrix Market files -/

theorem lineBody_terminates (vars : MtxVars) (readWeights undirected : Bool) (s : MtxLocals D) :
    (Fueled.loop (lineBody vars readWeights undirected) s).Terminates := by
  apply Fueled.loop_terminates (fun _ => True) (fun s => s.input.rest.length) trivial
  rintro ⟨input, line, el⟩ -
  have hbody := @lineBody_eq D _ vars readWeights undirected ⟨input, line, el⟩
  generalize hget : input.getline line = behind
  rw [hbody hget]
  cases hfail : behind.2.fail with
  | true => exact .inl ⟨el, Fueled.returns_pure.mpr rfl⟩
  | false =>
    right
    have hlt : behind.2.rest.length < input.rest.length := by
      rw [← hget] at hfail ⊢
      exact length_getline_lt hfail
    by_cases hline : behind.1 = []
    · exact ⟨_, Fueled.returns_pure.mpr (if_pos hline), trivial, hlt⟩
    · exact ⟨_, Fueled.returns_pure.mpr (if_neg hline), trivial, hlt⟩

theorem readSized_terminates (vars : MtxVars) (readWeights undirected : Bool) (input : InStream) :
    (readSized vars readWeights undirected input :
      Fueled (Except Int (List (EdgePair Int D) × Bool))).Terminates := by
  rw [readSized]
  simp only
  split
  · exact Fueled.terminates_pure _
  · exact (lineBody_terminates ..).bind fun el _ => Fueled.terminates_pure _

theorem readInMTX_terminates (vars : MtxVars) (bytes : List UInt8) :
    (readInMTX vars bytes : Fueled (Except Int (List (EdgePair Int D) × Bool))).Terminates := by
  rw [readInMTX]
  simp only
  split_ifs
  · exact Fueled.terminates_pure _
  · exact Fueled.terminates_pure _
  · exact Fueled.terminates_pure _
  · split
    · exact Fueled.terminates_pure _
    · split
      · exact Fueled.terminates_pure _
      · exact (skipComments_terminates _).bind fun input _ => readSized_terminates vars _ _ input

/-! ## The choice of the reader -/

/-- `GetSuffix`: the file name from its last dot on, or an exit code -/
def getSuffix (filename : List UInt8) : Except Int (List UInt8) :=
  if 46 ∈ filename then .ok (46 :: (filename.reverse.takeWhile (· ≠ 46)).reverse) else .error (-1)

/-- The values of the uninitialised variables of the readers. -/
structure ReaderVars where
  el : Int × Int
  wel : Int × (Int × Int)
  gr : Int × (Int × Int)
  metis : MetisVars
  mtx : MtxVars

/-- `ReadFile`: the edge list and `needs_weights`, or an exit code; `file` is `none` when the file cannot
be opened. -/
def readFile (vars : ReaderVars) (filename : List UInt8) (file : Option (List UInt8))
    (needsWeights : Bool) : Fueled (Except Int (List (EdgePair Int D) × Bool)) :=
  match getSuffix filename, file with
  | .error code, _ => pure (.error code)
  | .ok _, none => pure (.error (-2))
  | .ok suffix, some bytes =>
    if suffix = ascii ".el" then do
      let el ← readInEL vars.el.1 vars.el.2 bytes
      return .ok (el, needsWeights)
    else if suffix = ascii ".wel" then do
      let el ← readInWEL vars.wel.1 vars.wel.2 bytes
      return .ok (el, false)
    else if suffix = ascii ".gr" then do
      let el ← readInGR vars.gr.1 vars.gr.2 bytes
      return .ok (el, false)
    else if suffix = ascii ".graph" then readInMetis vars.metis bytes
    else if suffix = ascii ".mtx" then readInMTX vars.mtx bytes
    else pure (.error (-3))

theorem readFile_gr {filename : List UInt8} (hsuffix : getSuffix filename = .ok (ascii ".gr"))
    (vars : ReaderVars) (bytes : List UInt8) (needsWeights : Bool) :
    (readFile vars filename (some bytes) needsWeights :
      Fueled (Except Int (List (EdgePair Int D) × Bool))).Terminates ↔ ¬ Stalls bytes := by
  have hread : readFile vars filename (some bytes) needsWeights =
      readInGR vars.gr.1 vars.gr.2 bytes >>= fun el =>
        (pure (.ok (el, false)) : Fueled (Except Int (List (EdgePair Int D) × Bool))) := by
    unfold readFile
    rw [hsuffix]
    rfl
  rw [hread, Fueled.terminates_bind, ← gr_terminates_iff (D := D) vars.gr.1 vars.gr.2]
  exact exists_congr fun el => and_iff_left (Fueled.terminates_pure _)

/-- Reading a file ends unless it is a `.gr` file on which the reader stalls. -/
theorem readFile_terminates_iff (vars : ReaderVars) (filename : List UInt8) (file : Option (List UInt8))
    (needsWeights : Bool) :
    (readFile vars filename file needsWeights :
      Fueled (Except Int (List (EdgePair Int D) × Bool))).Terminates ↔
      ∀ bytes, getSuffix filename = .ok (ascii ".gr") → file = some bytes → ¬ Stalls bytes := by
  cases hsuffix : getSuffix filename with
  | error code =>
    refine iff_of_true ?_ fun _ h => nomatch h
    unfold readFile
    rw [hsuffix]
    exact Fueled.terminates_pure _
  | ok suffix =>
    cases file with
    | none =>
      refine iff_of_true ?_ fun _ _ h => nomatch h
      unfold readFile
      rw [hsuffix]
      exact Fueled.terminates_pure _
    | some bytes =>
      by_cases hgr : suffix = ascii ".gr"
      · rw [readFile_gr (hgr ▸ hsuffix)]
        exact ⟨fun h bytes' _ hfile => Option.some.inj hfile ▸ h, fun h => h bytes (hgr ▸ rfl) rfl⟩
      · refine iff_of_true ?_ fun _ h => absurd (Except.ok.inj h) hgr
        unfold readFile
        rw [hsuffix]
        simp only [if_neg hgr]
        split_ifs
        · exact (readInEL_terminates ..).bind fun el _ => Fueled.terminates_pure _
        · exact (readInWEL_terminates ..).bind fun el _ => Fueled.terminates_pure _
        · exact readInMetis_terminates ..
        · exact readInMTX_terminates ..
        · exact Fueled.terminates_pure _

/-- The file `g.gr` with an `a` and no numbers behind it. -/
theorem readFile_not_total :
    ¬ ∀ vars bytes, (readFile vars (ascii "g.gr") (some bytes) false :
      Fueled (Except Int (List (EdgePair Int (Int × Int)) × Bool))).Terminates := by
  intro h
  let vars : ReaderVars := ⟨(0, 0), (0, (0, 0)), (0, (0, 0)), ⟨0, 0, 0, fun _ => (0, 0)⟩,
    ⟨0, 0, 0, fun _ => 0, fun _ => (0, 0)⟩⟩
  have hstalls : Stalls (ascii "a x\n") := .arc (by decide) (by decide)
  exact (readFile_gr rfl vars _ false).mp (h vars _) hstalls

end Gapbs
