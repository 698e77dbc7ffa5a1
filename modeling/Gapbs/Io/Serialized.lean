import Gapbs.Builder.MakeCsr
import Gapbs.Lib.Bytes

/-!
# Serialized graphs

`WriteSerializedGraph` of `writer.h` and `ReadSerializedGraph` of `reader.h`.  The file holds the
number of adjacency entries once, for both directions of a directed graph, and for an undirected graph
as twice the number of edges; it determines the graph when the two agree.
-/

namespace Gapbs

open Bytes

variable {n : Nat} {D : Nat → Type}

/-- The destination types that can be serialized, `SGID` and `NodeWeight<SGID, SGID>`. -/
class SgDest (D : Nat → Type) where
  bytes {n : Nat} : D n → List UInt8
  read (n : Nat) : Reader (D n)

theorem toNat_lt_of_inRange {n : Nat} {v : Int} (h : 0 ≤ v ∧ v < n) : v.toNat < n := by omega

/-- An id in range. -/
def toId (n : Nat) (v : Int) : Option (Fin n) :=
  if h : 0 ≤ v ∧ v < n then some ⟨v.toNat, toNat_lt_of_inRange h⟩ else none

instance : SgDest Fin where
  bytes v := ofInt 4 v.val
  read n := do
    let v ← readInt 4
    StateT.lift (toId n v)

instance : SgDest NodeWeight where
  bytes d := SgDest.bytes d.v ++ ofInt 4 d.w
  read n := do
    let v ← SgDest.read n
    let w ← readInt 4
    return ⟨v, w⟩

open VertexFacts in
/-- `VertexOffsets(in_graph)` -/
def CSRGraph.vertexOffsets (g : CSRGraph n (D n)) (inGraph : Bool) : List Int :=
  let index := if inGraph then g.inn.index else g.out.index
  List.ofFn fun i => (index i : Int) - index 0

open VertexFacts in
/-- The adjacency entries from `out_neigh(0).begin()` or `in_neigh(0).begin()` on; a graph without
vertices has no neighbourhood to begin with. -/
def entriesToWrite (c : Csr n (D n)) (edgesToWrite : Nat) : Option (List (D n)) :=
  let start := c.index 0
  if 0 < n ∧ start + edgesToWrite ≤ c.neighbors.length then
    some ((c.neighbors.drop start).take edgesToWrite)
  else none

section

variable [SgDest D]

/-- `WriteSerializedGraph(out)` -/
def writeSerializedGraph (g : CSRGraph n (D n)) : Option (List UInt8) := do
  let edgesToWrite := g.numEdgesDirected
  let entries ← entriesToWrite g.out edgesToWrite
  let written := [if g.directed then 1 else 0] ++ (ofInt 8 edgesToWrite ++ (ofInt 8 n ++
    ((g.vertexOffsets false).flatMap (ofInt 8) ++ entries.flatMap SgDest.bytes)))
  if g.directed then
    let entries ← entriesToWrite g.inn edgesToWrite
    return written ++ ((g.vertexOffsets true).flatMap (ofInt 8) ++ entries.flatMap SgDest.bytes)
  else return written

def readBool : Reader Bool := do
  let bytes ← readBytes 1
  StateT.lift (match bytes with
    | [0] => some false
    | [1] => some true
    | _ => none)

/-- The size of an array; `new` throws for a negative one. -/
def toSize (k : Int) : Option Nat := if 0 ≤ k then some k.toNat else none

/-- The offsets and the neighbours of one direction, and the pointers that `GenIndex` makes of them. -/
def readDirection (D : Nat → Type) [SgDest D] (n numEdges : Nat) : Reader (Csr n (D n)) := do
  let offsets ← readList (readInt 8) (n + 1)
  let neighs ← readList (SgDest.read n) numEdges
  StateT.lift (Csr.ofPointers (fun i => offsets.getD i 0) neighs)

/-- `ReadSerializedGraph()`; as in `MakeGraphFromEL`, `GenIndex` throws if it cannot count the pointers. -/
def readSerializedGraph (D : Nat → Type) [SgDest D] : Reader ((n : Nat) × CSRGraph n (D n)) := do
  let directed ← readBool
  let numEdges ← readInt 8
  let numNodes ← readInt 8
  let n ← StateT.lift (toSize numNodes)
  let numEdges ← StateT.lift (toSize numEdges)
  if h : n + 1 < 2 ^ 31 then
    let out ← readDirection D n numEdges
    if directed then
      let inn ← readDirection D n numEdges
      return ⟨n, .ofDirected out inn h⟩
    else return ⟨n, .ofUndirected out h⟩
  else StateT.lift none

/-- The graph is written to a file from which exactly it is read back. -/
def RoundTrips (g : CSRGraph n (D n)) : Prop :=
  ∃ file, writeSerializedGraph g = some file ∧ readSerializedGraph D file = some (⟨n, g⟩, [])

/-! ## Round trip -/

/-- A destination of which the ids and weights fit their types. -/
def Fits (d : D n) : Prop := Decodes (SgDest.read n) (SgDest.bytes d) d

/-- What a file can hold of a graph. -/
structure Serializable (g : CSRGraph n (D n)) : Prop where
  nodes : 0 < n
  entries : g.numEdgesDirected = g.out.neighbors.length
  same : g.inn.neighbors.length = g.out.neighbors.length
  length : g.out.neighbors.length < 2 ^ 62
  out : ∀ d ∈ g.out.neighbors, Fits d
  inn : ∀ d ∈ g.inn.neighbors, Fits d

end

theorem fits_id (hn : n < 2 ^ 31) (v : Fin n) : Fits v := by
  have hv := v.isLt
  have hread : Decodes (readInt 4) (ofInt 4 v.val) v.val :=
    Decodes.readInt (by omega) (by omega)
  have hid : toId n v.val = some v := by
    rw [toId, dif_pos ⟨by omega, by omega⟩]
    congr 1
  have hbind := hread.bind (f := fun v => StateT.lift (toId n v)) (Decodes.ofOption hid)
  rwa [List.append_nil] at hbind

theorem fits_nodeWeight (hn : n < 2 ^ 31) {d : NodeWeight n} (hlo : -2 ^ 31 ≤ d.w) (hhi : d.w < 2 ^ 31) :
    Fits d := by
  have hread : Decodes (readInt 4) (ofInt 4 d.w) d.w :=
    Decodes.readInt (by omega) (by omega)
  exact (fits_id hn d.v).bind hread.bind_pure

theorem ofPointers_index {E : Type} (c : Csr n E) :
    Csr.ofPointers (fun i => (c.index i : Int)) c.neighbors = some c := by
  rw [Csr.ofPointers, if_pos fun i => Int.natCast_nonneg _]
  exact dif_pos ⟨c.index_zero, c.index_mono, c.index_last⟩

variable [SgDest D]

theorem decodes_offset {k : Nat} (hk : k < 2 ^ 62) : Decodes (readInt 8) (ofInt 8 k) k :=
  Decodes.readInt (by omega) (by omega)

/-- One direction of a graph. -/
theorem decodes_direction {c : Csr n (D n)} {numEdges : Nat} (hnum : numEdges = c.neighbors.length)
    (hlength : c.neighbors.length < 2 ^ 62) (hfits : ∀ d ∈ c.neighbors, Fits d) :
    Decodes (readDirection D n numEdges) ((List.ofFn fun i => (c.index i : Int) - c.index 0).flatMap (ofInt 8) ++
      c.neighbors.flatMap SgDest.bytes) c := by
  have hoffsets : (List.ofFn fun i => (c.index i : Int) - c.index 0) = List.ofFn fun i => (c.index i : Int) := by
    simp [c.index_zero]
  have hreads : ∀ x ∈ List.ofFn fun i => (c.index i : Int), Decodes (readInt 8) (ofInt 8 x) x := by
    intro x hx
    obtain ⟨i, rfl⟩ := (List.mem_ofFn' _ _).mp hx
    exact decodes_offset ((c.index_le_length i).trans_lt hlength)
  have hlist := Decodes.readList hreads
  rw [List.length_ofFn] at hlist
  have hpointers : (fun i : Fin (n + 1) => (List.ofFn fun i => (c.index i : Int)).getD i 0) =
      fun i => (c.index i : Int) := by
    funext i
    rw [List.getD_eq_getElem?_getD, List.getElem?_ofFn, dif_pos i.isLt]; rfl
  rw [hoffsets, hnum]
  apply hlist.bind
  have hend := (Decodes.readList hfits).bind
    (f := fun neighs => StateT.lift (Csr.ofPointers (fun i : Fin (n + 1) =>
      (List.ofFn fun i => (c.index i : Int)).getD i 0) neighs))
    (Decodes.ofOption (hpointers ▸ ofPointers_index c))
  rwa [List.append_nil] at hend

omit [SgDest D] in
theorem entriesToWrite_eq {c : Csr n (D n)} {edgesToWrite : Nat} (hn : 0 < n)
    (h : edgesToWrite = c.neighbors.length) : entriesToWrite c edgesToWrite = some c.neighbors := by
  rw [entriesToWrite, c.index_zero, h]
  simp [hn]

theorem toSize_natCast (k : Nat) : toSize k = some k := if_pos (Int.natCast_nonneg k)

/-- What the header says. -/
theorem decodes_header {g : CSRGraph n (D n)} {tail : List UInt8} {r : (n : Nat) × CSRGraph n (D n)}
    (hlength : g.numEdgesDirected < 2 ^ 62)
    (h : Decodes (do
      let out ← readDirection D n g.numEdgesDirected
      if g.directed then
        let inn ← readDirection D n g.numEdgesDirected
        return ⟨n, .ofDirected out inn g.nodes_lt⟩
      else return ⟨n, .ofUndirected out g.nodes_lt⟩) tail r) :
    Decodes (readSerializedGraph D) ([if g.directed then 1 else 0] ++
      (ofInt 8 g.numEdgesDirected ++ (ofInt 8 n ++ tail))) r := by
  have hn := g.nodes_lt
  have hbool : Decodes readBool [if g.directed then 1 else 0] g.directed := by
    have hbyte : Decodes (readBytes 1) [if g.directed then 1 else 0] [if g.directed then 1 else 0] :=
      Decodes.readBytes rfl
    have hvalue : (match [if g.directed then (1 : UInt8) else 0] with
        | [0] => some false
        | [1] => some true
        | _ => none) = some g.directed := by
      cases g.directed <;> rfl
    exact hbyte.bind (Decodes.ofOption hvalue)
  apply hbool.bind
  apply (decodes_offset hlength).bind
  apply (decodes_offset (show n < 2 ^ 62 by omega)).bind
  apply Decodes.lift_bind (toSize_natCast n)
  apply Decodes.lift_bind (toSize_natCast g.numEdgesDirected)
  rw [dif_pos hn]
  exact h

/-- A graph of which the file holds all entries is read back, and nothing of the file is left. -/
theorem Serializable.roundTrips {g : CSRGraph n (D n)} (h : Serializable g) : RoundTrips g := by
  have hedges := h.entries
  have hout := entriesToWrite_eq (c := g.out) h.nodes hedges
  have hinn := entriesToWrite_eq (c := g.inn) h.nodes (hedges.trans h.same.symm)
  have hdecodeOut := decodes_direction (c := g.out) hedges h.length h.out
  have hdecodeInn := decodes_direction (c := g.inn) (hedges.trans h.same.symm) (h.same ▸ h.length) h.inn
  have hlength : g.numEdgesDirected < 2 ^ 62 := hedges ▸ h.length
  have hfile {file : List UInt8} (hdecode : Decodes (readSerializedGraph D) file ⟨n, g⟩) :
      readSerializedGraph D file = some (⟨n, g⟩, []) := by
    have hread := hdecode []
    rwa [List.append_nil] at hread
  rw [RoundTrips, writeSerializedGraph, hout, hinn]
  by_cases hd : g.directed = true
  · have hgraph : CSRGraph.ofDirected g.out g.inn g.nodes_lt = g := by
      obtain ⟨directed, out, inn, shared, hn⟩ := g
      obtain rfl : directed = true := hd
      rfl
    refine ⟨_, (if_pos hd).trans rfl, hfile ?_⟩
    have hheader := decodes_header (g := g) (r := ⟨n, g⟩) hlength (hdecodeOut.bind (by
      rw [if_pos hd]
      have hend := hdecodeInn.bind_pure (g := fun inn => (⟨n, .ofDirected g.out inn g.nodes_lt⟩ :
        (n : Nat) × CSRGraph n (D n)))
      rwa [hgraph] at hend))
    simp only [List.append_assoc] at hheader ⊢
    exact hheader
  · have hgraph : CSRGraph.ofUndirected g.out g.nodes_lt = g := by
      obtain ⟨directed, out, inn, shared, hn⟩ := g
      obtain rfl : directed = false := Bool.eq_false_iff.mpr hd
      obtain rfl : inn = out := shared rfl
      rfl
    refine ⟨_, (if_neg hd).trans rfl, hfile ?_⟩
    apply decodes_header hlength
    simp only [if_neg hd]
    have hend := hdecodeOut.bind_pure (g := fun out => (⟨n, .ofUndirected out g.nodes_lt⟩ :
      (n : Nat) × CSRGraph n (D n)))
    rwa [hgraph] at hend

/-! ## What a file cannot say -/

theorem length_readDirection {numEdges : Nat} {file rest : List UInt8} {c : Csr n (D n)}
    (h : readDirection D n numEdges file = some (c, rest)) : c.neighbors.length = numEdges := by
  obtain ⟨offsets, file', -, h⟩ := bind_eq_some.mp h
  obtain ⟨neighs, file'', hneighs, h⟩ := bind_eq_some.mp h
  have hpointers : Csr.ofPointers (fun i => offsets.getD i 0) neighs = some c := by
    cases hp : Csr.ofPointers (fun i => offsets.getD i 0) neighs with
    | none =>
      rw [hp] at h
      cases h
    | some c' =>
      rw [hp] at h
      exact congrArg some (Prod.mk.inj (Option.some.inj h)).1
  rw [← length_readList hneighs]
  rw [Csr.ofPointers] at hpointers
  split at hpointers
  · rw [Csr.ofArrays] at hpointers
    split at hpointers
    · rw [← Option.some.inj hpointers]
    · cases hpointers
  · cases hpointers

/-- A graph that has been read has as many entries in one direction as in the other. -/
theorem length_of_readSerializedGraph {file rest : List UInt8} {r : (n : Nat) × CSRGraph n (D n)}
    (h : readSerializedGraph D file = some (r, rest)) :
    r.2.inn.neighbors.length = r.2.out.neighbors.length := by
  obtain ⟨directed, file₁, -, h⟩ := bind_eq_some.mp h
  obtain ⟨numEdges, file₂, -, h⟩ := bind_eq_some.mp h
  obtain ⟨numNodes, file₃, -, h⟩ := bind_eq_some.mp h
  obtain ⟨n, file₄, -, h⟩ := bind_eq_some.mp h
  obtain ⟨k, file₅, -, h⟩ := bind_eq_some.mp h
  by_cases hn : n + 1 < 2 ^ 31
  · rw [dif_pos hn] at h
    obtain ⟨out, file₆, hout, h⟩ := bind_eq_some.mp h
    cases directed with
    | true =>
      obtain ⟨inn, file₇, hinn, h⟩ := bind_eq_some.mp h
      rw [← (Prod.mk.inj (Option.some.inj h)).1]
      exact (length_readDirection hinn).trans (length_readDirection hout).symm
    | false =>
      rw [← (Prod.mk.inj (Option.some.inj h)).1]
      rfl
  · rw [dif_neg hn] at h
    cases h

end Gapbs
