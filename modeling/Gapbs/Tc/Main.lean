import Gapbs.Bench.Benchmark
import Gapbs.Tc.Hybrid
import Gapbs.Tc.Verifier

/-!
# The program `tc`

A directed graph is turned away.  The kernel may relabel the graph before it counts; the verifier counts
in the graph itself.
-/

namespace Gapbs

open Conc Bench

variable {n : Nat}

/-- `Hybrid` -/
def tcKernel (T : Nat) [NeZero T] (g : Graph n) : Prog (RelabelMem n) SizeT := do
  let total ← hybrid g T
  match total with
  | none => .fail
  | some total => return total

/-- `main`; nothing stands for the exit code -2. -/
def tcMain {E : Type} (T : Nat) [NeZero T] (cli : CLApp) (g : Graph n) :
    Prog (TrialMem E (RelabelMem n) Unit) (Option (List (Line SizeT))) := do
  if g.directed then return none
  else do
    let printed ← benchmarkKernel cli (onNew TrialMem.workLens id (tcKernel T g)) .ret
      fun total => onNew TrialMem.checkLens id (.loadAt fun _ => tcVerifier g total)
    return some printed

/-- What the count comes to, whether the graph is relabelled or not. -/
theorem tcKernel_solo {g : Graph n} (hn : 0 < n) (hg : g.Simple) (T : Nat) [NeZero T] (m : RelabelMem n) :
    Solo (tcKernel T g) m fun total _ => total = (g.triangles.card : SizeT) := by
  apply Solo.bind
  apply (hybrid_solo hn hg T m).mono
  rintro _ _ rfl
  exact Solo.ret rfl

theorem tcVerifier_accepts {g : Graph n} (hg : g.Simple) (hsize : 6 * g.triangles.card < 2 ^ 64) :
    tcVerifier g (g.triangles.card : SizeT) = some true := by
  rw [tcVerifier, tcTotal_triangles hg]
  show some _ = _
  congr 1
  rw [beq_iff_eq, ← BitVec.toNat_inj, BitVec.toNat_udiv]
  simp only [BitVec.natCast_eq_ofNat, BitVec.toNat_ofNat]
  rw [Nat.mod_eq_of_lt hsize, Nat.mod_eq_of_lt (by omega)]
  show 6 * g.triangles.card / 6 = _
  omega

theorem tcMain_solo {g : Graph n} (hn : 0 < n) (hg : g.directed = false → g.Simple)
    (hsize : 6 * g.triangles.card < 2 ^ 64) {T : Nat} [NeZero T] {cli : CLApp}
    (s₀ : TrialMem Unit (RelabelMem n) Unit) :
    Solo (tcMain T cli g) s₀ fun result _ =>
      if g.directed then result = none
      else ∃ printed, result = some printed ∧
        AllPassed cli (fun total => total.toNat = g.triangles.card) printed := by
  unfold tcMain
  cases hdirected : g.directed with
  | true =>
    simp only [if_true]
    exact Solo.ret rfl
  | false =>
    simp only [Bool.false_eq_true, if_false]
    have hsimple := hg hdirected
    apply Solo.bind
    apply (plain_solo (fun total => total = (g.triangles.card : SizeT)) (tcKernel_solo hn hsimple T) ?_ ?_ s₀).mono
    · exact fun printed _ h => Solo.ret ⟨printed, rfl, h⟩
    · rintro _ s rfl
      refine Solo.ret ⟨?_, rfl⟩
      rw [BitVec.natCast_eq_ofNat, BitVec.toNat_ofNat]
      exact Nat.mod_eq_of_lt (by omega)
    · rintro _ s rfl
      exact Solo.loadAt (tcVerifier_accepts hsimple hsize) rfl

/-- A directed graph is turned away, and on a simple undirected one with a vertex every trial passes and the
number of the triangles is printed. -/
theorem tcMain_correct {n : Nat} (g : Graph n) (hn : 0 < n) (hg : g.directed = false → g.Simple)
    (hsize : 6 * g.triangles.card < 2 ^ 64) (T : Nat) [NeZero T] (cli : CLApp)
    (s₀ : TrialMem Unit (RelabelMem n) Unit) :
    (tcMain T cli g).Correct s₀ fun result _ =>
      if g.directed then result = none
      else ∃ printed, result = some printed ∧
        AllPassed cli (fun total => total.toNat = g.triangles.card) printed :=
  (tcMain_solo hn hg hsize s₀).correct

theorem tcMain_correct_triangle :
    (tcMain 2 ⟨true, 16, -1, true⟩ triangleGraph).Correct
      ⟨(), (), ⟨fun v => (0, v), fun _ => 0, id, ⟨fun _ => 0, fun _ => 0, fun _ => 0⟩, fun _ => 0, []⟩, ()⟩
      fun result _ => if triangleGraph.directed then result = none
        else ∃ printed, result = some printed ∧ AllPassed ⟨true, 16, -1, true⟩
          (fun total => total.toNat = triangleGraph.triangles.card) printed :=
  tcMain_correct triangleGraph (by decide) (fun _ => triangleGraph_simple) (by decide) 2 ⟨true, 16, -1, true⟩ _

end Gapbs
