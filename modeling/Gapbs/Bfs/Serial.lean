import Gapbs.Bfs.BottomUp

/-!
# One vertex after the other

The bottom-up step of `bfs.cc` as a single thread runs it, and what the pool's threads make of it.
-/

namespace Gapbs

open Conc

variable {n : Nat}

/-- `BUStep` of `bfs.cc` without its threads. -/
def buStepSerial (g : Graph n) : Prog (BfsMem n) Int := do
  .store fun s => { s with curr := s.curr.reset }
  .forEach (List.finRange n) 0 (buVertex g)

theorem buStepSerial_solo (g : Graph n) (s : BfsMem n) :
    Solo (buStepSerial g) s fun awake s' => BottomUp g s s' ∧
      awake = ((Finset.univ.filter fun u => (awakener g s u).isSome).card : Int) := by
  let value (u : Fin n) : Int := if (awakener g s u).isSome then 1 else 0
  let Inv (pre : List (Fin n)) (y : Int) (s' : BfsMem n) : Prop :=
    y = (pre.map value).sum ∧ SettledUpTo g s (fun _ => True) pre s'
  have hstart : Inv [] 0 { s with curr := s.curr.reset } :=
    ⟨rfl, ⟨rfl, s.curr.padded_reset⟩, by simp, fun u _ _ => ⟨rfl, Bitmap.getBit_reset s.curr u⟩⟩
  apply Solo.store_bind
  apply (Solo.forEach Inv hstart ?_).mono
  · rintro y s' ⟨hy, hs'⟩
    have hvertex (u : Fin n) : Settled g s u s' := hs'.settled u trivial (List.mem_finRange u)
    refine ⟨⟨?_, ?_, fun u => (hvertex u).1, fun u => (hvertex u).2, hs'.writes.padded⟩, ?_⟩
    · rw [hs'.writes.rest]
    · rw [hs'.writes.rest]
    · rw [hy, ← Fin.sum_univ_def]
      exact Finset.sum_boole _ _
  · intro pre u post y s₁ hsplit hs₁
    have hnotin : u ∉ pre := by
      have hnodup := List.nodup_finRange n
      rw [hsplit, List.nodup_append] at hnodup
      exact fun hmem => hnodup.2.2 u hmem u (by simp) rfl
    have hwp := hs₁.2.vertex_wp (R := fun _ _ => False) (fun _ _ _ _ hR => hR.elim)
      (stable_false _) trivial hnotin y
    refine (hwp.weaken (fun _ _ h => h) fun _ _ _ => trivial).mono ?_
    rintro z τ ⟨hz, hτ⟩
    refine ⟨?_, hτ⟩
    rw [hz, hs₁.1, List.map_append, List.sum_append]
    simp [value]

theorem awakener_eq_some_iff {g : Graph n} {s : BfsMem n} {u v : Fin n} :
    awakener g s u = some v ↔ s.parent u < 0 ∧ (g.inNeigh u).find? s.front.getBit = some v := by
  unfold awakener
  by_cases hu : s.parent u < 0
  · simp [hu]
  · simp [hu]

theorem awakener_isSome {g : Graph n} {s : BfsMem n} {u : Fin n} :
    (awakener g s u).isSome = true ↔
      s.parent u < 0 ∧ ∃ v ∈ g.inNeigh u, s.front.getBit v = true := by
  unfold awakener
  by_cases hu : s.parent u < 0
  · simp [hu]
  · simp [hu]

/-- For every team and every interleaving the chunks come to what the loop computes by itself. -/
theorem buStep_correct {n : Nat} (g : Graph n) (T : Nat) [NeZero T] (s : BfsMem n) :
    (buStep .pthread T g).Correct s fun awake s' =>
      ((buStepSerial g).Correct s fun awake' t => awake' = awake ∧
        t = { s' with nextIndex := t.nextIndex }) ∧
      s'.front = s.front ∧ s'.queue = s.queue ∧
      (∀ u v, s.parent u < 0 → (g.inNeigh u).find? s.front.getBit = some v → s'.parent u = v.val) ∧
      (∀ u, ¬ (s.parent u < 0 ∧ ∃ v ∈ g.inNeigh u, s.front.getBit v = true) →
        s'.parent u = s.parent u) ∧
      (∀ u, s'.curr.getBit u = true ↔ s.parent u < 0 ∧ ∃ v ∈ g.inNeigh u, s.front.getBit v = true) ∧
      awake = ((Finset.univ.filter fun u =>
        s.parent u < 0 ∧ ∃ v ∈ g.inNeigh u, s.front.getBit v = true).card : Int) := by
  apply ((buStep_solo .pthread g s).mono ?_).correct
  rintro _ s' ⟨h, rfl⟩
  refine ⟨?_, h.front, h.queue, fun u v hu hv => ?_, fun u hu => ?_, fun u => ?_, ?_⟩
  · apply ((buStepSerial_solo g s).mono ?_).correct
    rintro _ t ⟨ht, rfl⟩
    refine ⟨rfl, ?_⟩
    have hparent : t.parent = s'.parent := by
      funext u
      rw [ht.parent, h.parent]
    have hcurr : t.curr = s'.curr := ht.padded.ext h.padded fun u => by rw [ht.curr, h.curr]
    rw [← hparent, ← hcurr, h.front, ← ht.front, h.queue, ← ht.queue]
  · rw [h.parent, awakener_eq_some_iff.mpr ⟨hu, hv⟩]
    rfl
  · rw [← awakener_isSome, Option.not_isSome_iff_eq_none] at hu
    rw [h.parent, hu]
    rfl
  · rw [h.curr, awakener_isSome]
  · congr 2
    ext u
    rw [Finset.mem_filter_univ, Finset.mem_filter_univ, awakener_isSome]

open VertexFacts in
/-- The first vertex is in the frontier and the second one has not been visited. -/
def halfwayMem : BfsMem 2 :=
  { blankMem 2 with
    parent := ![0, -1]
    front := (blankMem 2).front.insert 0 }

example : awakener pairGraph halfwayMem 1 = some 0 := by decide

theorem buStep_correct_pair :
    (buStep .pthread 2 pairGraph).Correct halfwayMem fun awake s' =>
      ((buStepSerial pairGraph).Correct halfwayMem fun awake' t => awake' = awake ∧
        t = { s' with nextIndex := t.nextIndex }) ∧
      s'.front = halfwayMem.front ∧ s'.queue = halfwayMem.queue ∧
      (∀ u v, halfwayMem.parent u < 0 →
        (pairGraph.inNeigh u).find? halfwayMem.front.getBit = some v → s'.parent u = v.val) ∧
      (∀ u, ¬ (halfwayMem.parent u < 0 ∧
          ∃ v ∈ pairGraph.inNeigh u, halfwayMem.front.getBit v = true) →
        s'.parent u = halfwayMem.parent u) ∧
      (∀ u, s'.curr.getBit u = true ↔
        halfwayMem.parent u < 0 ∧ ∃ v ∈ pairGraph.inNeigh u, halfwayMem.front.getBit v = true) ∧
      awake = ((Finset.univ.filter fun u =>
        halfwayMem.parent u < 0 ∧ ∃ v ∈ pairGraph.inNeigh u, halfwayMem.front.getBit v = true).card : Int) :=
  buStep_correct pairGraph 2 halfwayMem

end Gapbs
