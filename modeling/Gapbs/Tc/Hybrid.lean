import Gapbs.Builder.Relabel
import Gapbs.Tc.OrderedCount

/-!
# Triangle counting with optional relabelling

`Hybrid` of `tc.cc`.  The heuristic `WorthRelabelling` draws random samples where the average degree is high
enough; here they may decide either way.
-/

namespace Gapbs

open Conc

variable {n : Nat}

/-- `WorthRelabelling(g)`, where the samples may decide either way; a graph without vertices has no average
degree. -/
def worthRelabelling (g : Graph n) : Prog (RelabelMem n) Bool := do
  let averageDegree ← .loadAt fun _ => if n = 0 then none else some (g.numEdges / n)
  if averageDegree < 10 then return false
  else .pick true

/-- `Hybrid(g)`; `none` when the program exits. -/
def hybrid (g : Graph n) (T : Nat) [NeZero T] : Prog (RelabelMem n) (Option SizeT) := do
  let worth ← worthRelabelling g
  if worth then
    match ← relabelByDegree g T with
    | some h =>
        let total ← orderedCount h T
        return some total
    | none => return none
  else
    let total ← orderedCount g T
    return some total

namespace Relabelled

variable {g h : Graph n}

theorem simple (hr : Relabelled g h) (hg : g.Simple) : h.Simple := by
  have hsurj (x : Fin n) : ∃ u, newId g.outDegree u = x := (newId g.outDegree).surjective x
  refine ⟨hr.undirected, fun x y hxy => ?_, fun x hx => ?_,
    hr.sorted fun u => (hg.sorted u).imp fun hlt => hlt.ne⟩
  · obtain ⟨u, rfl⟩ := hsurj x
    obtain ⟨v, rfl⟩ := hsurj y
    rw [hr.edge_iff] at hxy ⊢
    exact hg.symm u v hxy
  · obtain ⟨u, rfl⟩ := hsurj x
    rw [hr.edge_iff] at hx
    exact hg.irrefl u hx

/-- Renaming the vertices keeps the number of triangles. -/
theorem card_triangles (hr : Relabelled g h) : h.triangles.card = g.triangles.card := by
  symm
  apply Finset.card_bij fun t _ => t.map (newId g.outDegree).toEmbedding
  · intro t ht
    rw [Graph.triangles, Finset.mem_filter, Finset.mem_powersetCard_univ] at ht ⊢
    refine ⟨by rw [Finset.card_map, ht.1], fun x hx y hy hxy => ?_⟩
    obtain ⟨u, hu, rfl⟩ := Finset.mem_map.mp hx
    obtain ⟨v, hv, rfl⟩ := Finset.mem_map.mp hy
    exact (hr.edge_iff u v).mpr (ht.2 u hu v hv fun huv => hxy (huv ▸ rfl))
  · exact fun s _ t _ hst => Finset.map_injective _ hst
  · intro t ht
    rw [Graph.triangles, Finset.mem_filter, Finset.mem_powersetCard_univ] at ht
    refine ⟨t.map (newId g.outDegree).symm.toEmbedding, ?_, ?_⟩
    · rw [Graph.triangles, Finset.mem_filter, Finset.mem_powersetCard_univ]
      refine ⟨by rw [Finset.card_map, ht.1], fun u hu v hv huv => ?_⟩
      obtain ⟨x, hx, rfl⟩ := Finset.mem_map.mp hu
      obtain ⟨y, hy, rfl⟩ := Finset.mem_map.mp hv
      have hedge := ht.2 x hx y hy fun hxy => huv (hxy ▸ rfl)
      rw [← hr.edge_iff]
      simpa using hedge
    · ext x
      simp

end Relabelled

theorem worthRelabelling_solo (g : Graph n) (hn : 0 < n) (m : RelabelMem n) :
    Solo (worthRelabelling g) m fun _ m' => m' = m := by
  refine Solo.loadAt_bind (if_neg hn.ne') ?_
  split
  · exact Solo.ret rfl
  · show Solo ((Prog.pick true).bind .ret) m fun _ m' => m' = m
    exact Solo.pick_bind fun _ => Solo.ret rfl

theorem hybrid_solo {g : Graph n} (hn : 0 < n) (hg : g.Simple) (T : Nat) [NeZero T] (m : RelabelMem n) :
    Solo (hybrid g T) m fun total _ => total = some (g.triangles.card : SizeT) := by
  apply Solo.bind
  apply (worthRelabelling_solo g hn m).mono
  rintro worth _ rfl
  cases worth with
  | true =>
    simp only [if_true]
    apply Solo.bind
    apply (relabelByDegree_solo hg.undirected _).mono
    rintro _ m' ⟨h, rfl, hr⟩
    apply Solo.bind
    apply (orderedCount_solo (hr.simple hg) T m').mono
    rintro _ _ ⟨-, rfl⟩
    exact Solo.ret (by rw [hr.card_triangles])
  | false =>
    simp only [Bool.false_eq_true, if_false]
    apply Solo.bind
    apply (orderedCount_solo hg T _).mono
    rintro _ _ ⟨-, rfl⟩
    exact Solo.ret rfl

/-- Everything zero. -/
def RelabelMem.blank : RelabelMem n :=
  ⟨fun v => (0, v), fun _ => 0, id, ⟨fun _ => 0, fun _ => 0, fun _ => 0⟩, fun _ => 0, []⟩

end Gapbs
