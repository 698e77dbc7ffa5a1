import Gapbs.Io.Formats

/-!
# The graph of a file does not depend on its format

All files of an edge list are loaded as the graph that is built from the list.
-/

namespace Gapbs

open Conc InStream Numeral

variable {symmetrize : Bool} {l : List (EdgePair Nat (Nat × Int))}

/-- The file of every format, with comments that the readers skip, is loaded as the graph. -/
def AllLoad (symmetrize : Bool) (l : List (EdgePair Nat (Nat × Int))) (r : (n : Nat) × Graph n) : Prop :=
  ∀ (f : TextFormat) (comments : List Comment) (filename : List UInt8), f.Fits l →
    (∀ c ∈ comments, c.bytes.length < 200) → getSuffix filename = .ok f.suffix →
      Loads symmetrize filename (f.encode l comments) r

/-- The file of every format with weights is loaded as the weighted graph. -/
def AllWLoad (symmetrize : Bool) (l : List (EdgePair Nat (Nat × Int))) (r : (n : Nat) × WGraph n) : Prop :=
  ∀ (f : TextFormat) (comments : List Comment) (filename : List UInt8), f.Fits l → f.weighted = true →
    (∀ c ∈ comments, c.bytes.length < 200) → getSuffix filename = .ok f.suffix →
      WLoads symmetrize filename (f.encode l comments) r

/-- There are at most as many edges as the sources and the edges at each allow. -/
theorem length_le_of_count {el : List (EdgePair Nat Nat)} {k : Nat}
    (hcount : ∀ x, (el.map EdgePair.u).count x ≤ k) (hids : ∀ e ∈ el, e.u < k) : el.length ≤ k * k := by
  have hmem : ∀ x ∈ (el.map EdgePair.u : Multiset Nat), x ∈ Finset.range k := by
    intro x hx
    obtain ⟨e, he, rfl⟩ := List.mem_map.mp (Multiset.mem_coe.mp hx)
    exact Finset.mem_range.mpr (hids e he)
  have hsum := Multiset.sum_count_eq_card hmem
  simp only [Multiset.coe_count, Multiset.coe_card, List.length_map] at hsum
  calc el.length = ∑ x ∈ Finset.range k, (el.map EdgePair.u).count x := hsum.symm
    _ ≤ (Finset.range k).card • k := Finset.sum_le_card_nsmul _ _ _ fun x _ => hcount x
    _ = k * k := by rw [Finset.card_range, smul_eq_mul]

/-- The number of edges is a 64-bit number. -/
theorem Countable.length_lt (hl : ∀ e ∈ l, Printable e) (h : Countable symmetrize (l.map EdgePair.unweighted)) :
    l.length < 2 ^ 63 := by
  have hle : (l.map EdgePair.unweighted).length ≤ 2 ^ 31 * 2 ^ 31 := by
    apply length_le_of_count
    · intro x
      have hx := h x
      cases symmetrize <;> simp at hx ⊢ <;> omega
    · simp only [List.forall_mem_map]
      exact fun e he => (hl e he).1.1.trans (by decide)
  rw [List.length_map] at hle
  omega

theorem edgeAs_int (weights : Bool) (l : List (EdgePair Nat (Nat × Int))) :
    l.map (edgeAs weights : _ → EdgePair Int Int) = (l.map EdgePair.unweighted).map EdgePair.ints := by
  rw [List.map_map]
  cases weights <;> rfl

/-- The edges are read in another order, which is that of no other graph. -/
theorem allLoad (hl : ∀ e ∈ l, Printable e) (hcount : Countable symmetrize (l.map EdgePair.unweighted))
    {n : Nat} {g : Graph n} (hg : BuiltFrom symmetrize (l.map EdgePair.unweighted) g) :
    AllLoad symmetrize l ⟨n, g⟩ := by
  have hlength := hcount.length_lt hl
  intro f comments filename hfits hcomments hsuffix
  have hperm : (l.map EdgePair.unweighted).Perm ((f.order l).map EdgePair.unweighted) :=
    ((f.order_perm l).map _).symm
  apply ((hg.graphOf.perm hperm).builds (hcount.perm hperm)).loads
  intro vars
  obtain ⟨needsWeights, hreturns, -⟩ := readFile_encode (D := Int) f hl hlength hfits hcomments hsuffix
    vars false
  rw [edgeAs_int] at hreturns
  exact ⟨needsWeights, hreturns⟩

theorem allWLoad (hl : ∀ e ∈ l, Printable e) (hcount : Countable symmetrize (l.map EdgePair.unweighted))
    {n : Nat} {g : WGraph n} (hg : WBuiltFrom symmetrize l g) : AllWLoad symmetrize l ⟨n, g⟩ := by
  have hlength := hcount.length_lt hl
  intro f comments filename hfits hweighted hcomments hsuffix
  have hperm : l.Perm (f.order l) := (f.order_perm l).symm
  apply ((hg.perm hperm).builds (hcount.perm (hperm.map _))).loads
  intro vars
  obtain ⟨needsWeights, hreturns, hneeds⟩ := readFile_encode (D := Int × Int) f hl hlength hfits hcomments
    hsuffix vars true
  rw [hweighted, hneeds hweighted] at hreturns
  exact hreturns

/-- The files of an edge list, whatever their format, are loaded as the graph that the list describes, and
those with weights as the weighted graph. -/
theorem formats_agree (symmetrize : Bool) (l : List (EdgePair Nat (Nat × Int)))
    (hl : ∀ e ∈ l, (e.u < 2 ^ 31 - 2 ∧ e.v.1 < 2 ^ 31 - 2) ∧ IsInt32 e.v.2)
    (hcount : Countable symmetrize (l.map EdgePair.unweighted)) :
    (∃ r : (n : Nat) × Graph n, BuiltFrom symmetrize (l.map EdgePair.unweighted) r.2 ∧
      AllLoad symmetrize l r) ∧
    ∃ r : (n : Nat) × WGraph n, WBuiltFrom symmetrize l r.2 ∧ AllWLoad symmetrize l r := by
  have hn := maxNodeID_unweighted_lt fun e he => (hl e he).1
  obtain ⟨edges, hedges, hel⟩ := edges_of_max (l.map EdgePair.unweighted)
  obtain ⟨wedges, hwedges, hwel⟩ := wEdges_of_max l
  have hbuilt : BuiltFrom symmetrize _ (builtGraph symmetrize edges hn) := builtGraph_builtFrom hn hel rfl
  have hwbuilt : WBuiltFrom symmetrize l (builtWGraph symmetrize wedges hn) := builtWGraph_builtFrom hn hwel rfl
  exact ⟨⟨_, hbuilt, allLoad hl hcount hbuilt⟩, ⟨_, hwbuilt, allWLoad hl hcount hwbuilt⟩⟩

/-- Sources out of order, an edge with two weights and a loop. -/
theorem formats_agree_pair :
    let l : List (EdgePair Nat (Nat × Int)) := [⟨1, 0, -3⟩, ⟨0, 1, 5⟩, ⟨1, 0, 7⟩, ⟨1, 1, 1⟩]
    (∃ r : (n : Nat) × Graph n, BuiltFrom true (l.map EdgePair.unweighted) r.2 ∧ AllLoad true l r) ∧
    ∃ r : (n : Nat) × WGraph n, WBuiltFrom true l r.2 ∧ AllWLoad true l r := by
  apply formats_agree
  · unfold IsInt32
    decide
  · intro x
    have hsources := List.count_le_length (l := [1, 0, 1, 1]) (a := x)
    have htargets := List.count_le_length (l := [0, 1, 0, 1]) (a := x)
    simp only [List.length_cons, List.length_nil] at hsources htargets
    show [1, 0, 1, 1].count x + [0, 1, 0, 1].count x < 2 ^ 31
    omega

/-! ## Edge lists that are not loaded -/

/-- What a file in `.el` format is loaded as is built from its edges. -/
theorem AllLoad.builds {r : (n : Nat) × Graph n} (h : AllLoad symmetrize l r)
    (hids : ∀ e ∈ l, e.u < 2 ^ 31 ∧ e.v.1 < 2 ^ 31) : Builds symmetrize (l.map EdgePair.unweighted) r := by
  have hsuffix : getSuffix (ascii "g.el") = .ok (ascii ".el") := rfl
  apply (h .el [] _ trivial (List.forall_mem_nil _) hsuffix).builds_ints hsuffix
  simp only [List.forall_mem_map]
  intro e he
  have hlt := hids e he
  show (_ ∧ _) ∧ (_ ∧ _)
  simp only [EdgePair.ints, EdgePair.unweighted]
  omega

/-- Two vertices with `k` edges in each direction. -/
def backAndForth (k : Nat) : List (EdgePair Nat (Nat × Int)) :=
  List.replicate k ⟨0, 1, 1⟩ ++ List.replicate k ⟨1, 0, 1⟩

theorem backAndForth_printable {k : Nat} : ∀ e ∈ backAndForth k, Printable e := by
  intro e he
  unfold Printable IsInt32
  rcases List.mem_append.mp he with h | h <;>
    · rw [List.eq_of_mem_replicate h]
      decide

theorem countable_backAndForth {k : Nat} (hk : k < 2 ^ 31) :
    Countable false ((backAndForth k).map EdgePair.unweighted) := by
  intro x
  simp only [backAndForth, List.map_append, List.map_replicate, List.count_append, List.count_replicate,
    EdgePair.unweighted]
  show _ < 2 ^ 31 ∧ _ < 2 ^ 31
  -- no vertex is both `0` and `1`
  constructor <;> split_ifs with h0 h1 <;> simp only [beq_iff_eq] at * <;> omega

/-- Two vertices with too many edges for a header with a format. -/
theorem not_wLoads_backAndForth {k : Nat} (hk : 2 ^ 31 ≤ k + k) (r : (n : Nat) × WGraph n) :
    ¬ WLoads false (ascii "g.graph") ((TextFormat.graph .one).encode (backAndForth k) []) r := by
  intro h
  have hlength : 2 ^ 31 ≤ (backAndForth k).length := by
    rwa [backAndForth, List.length_append, List.length_replicate, List.length_replicate]
  let vars : ReaderVars := ⟨(0, 0), (0, (0, 0)), (0, (0, 0)), ⟨0, 0, 7, fun _ => (0, 0)⟩,
    ⟨0, 0, 0, fun _ => 0, fun _ => (0, 0)⟩⟩
  obtain ⟨el, needsWeights, hreturns, -⟩ := h vars
  have hcode : (readInMetis vars.metis ((TextFormat.graph .one).encode (backAndForth k) [])).Returns
      (.error (-20) : Except Int (List (EdgePair Int (Int × Int)) × Bool)) :=
    readInMetis_long (fun h : MetisFormat.one = .omitted => nomatch h) backAndForth_printable hlength rfl
  cases hreturns.unique hcode

/-- An id whose successor is the greatest number, `2 ^ 31` copies of an edge, and `2 ^ 31` edges in a `.graph`
file with weights. -/
theorem formats_not_total :
    (¬ ∃ r, AllLoad false [⟨0, 2 ^ 31 - 2, 1⟩] r) ∧
    (¬ ∃ r, AllLoad false (List.replicate (2 ^ 31) ⟨0, 1, 1⟩) r) ∧
    (∀ e ∈ backAndForth (2 ^ 30), Printable e) ∧
    Countable false ((backAndForth (2 ^ 30)).map EdgePair.unweighted) ∧
    ¬ ∃ r, WLoads false (ascii "g.graph") ((TextFormat.graph .one).encode (backAndForth (2 ^ 30)) []) r := by
  refine ⟨?_, ?_, backAndForth_printable, countable_backAndForth (by decide), ?_⟩
  · rintro ⟨r, h⟩
    have hbuilds := h.builds (by decide)
    exact (makeGraph_canFail_largest 1 fun _ => default).not_correct (hbuilds 1 _)
  · rintro ⟨r, h⟩
    have hbuilds := h.builds fun e he => by
      rw [List.eq_of_mem_replicate he]
      decide
    rw [List.map_replicate] at hbuilds
    exact (makeGraph_canFail_copies 1 fun _ => default).not_correct (hbuilds 1 _)
  · rintro ⟨r, h⟩
    exact not_wLoads_backAndForth (by decide) r h

end Gapbs
