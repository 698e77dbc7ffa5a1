import Mathlib.Logic.Relation
import Gapbs.Cc.Link
import Gapbs.Conc.Throughout

/-!
# Any number of concurrent calls of `Link`

Threads that call `Link` again and again on one array, from any forest and for any pairs of vertices.
What is promised of a single turn and of a single call can be checked inside the program: one that
makes the checks and never fails has kept the promises.
-/

namespace Gapbs

open Conc OrderedForest VertexFacts

variable {n T : ℕ}

/-- A turn of the loop of `Link`, and the check that it leaves the loop or lowers `p1 + p2`. -/
def checkedTurn (p : Fin n × Fin n) : Prog (Comp n) ((Fin n × Fin n) ⊕ Unit) := do
  match ← linkTurn p with
  | .inl q =>
    Prog.check fun _ => q.1.val + q.2.val < p.1.val + p.2.val
    return .inl q
  | .inr _ => return .inr ()

/-- `Link(u, v)` with its turns checked. -/
def linkInTurns (u v : Fin n) : Prog (Comp n) Unit := do
  let p1 ← loadComp u
  let p2 ← loadComp v
  Prog.iter checkedTurn (p1, p2)

/-- `Link(u, v)`, and the check that it returns with `u` and `v` in one tree. -/
def checkedLink (u v : Fin n) : Prog (Comp n) Unit := do
  linkInTurns u v
  Prog.check fun comp => root comp u = root comp v

/-- Threads that call `run` one time after the other. -/
def concurrentCalls (run : Fin n → Fin n → Prog (Comp n) Unit) (calls : Fin T → List (Fin n × Fin n)) :
    Prog (Comp n) (Fin T → Unit) :=
  .fork fun t => .forEach (calls t) () fun call _ => run call.1 call.2

/-- Two vertices belong together if they did at the start or some call says so. -/
def Component (comp₀ : Comp n) (calls : Fin T → List (Fin n × Fin n)) : Fin n → Fin n → Prop :=
  Relation.EqvGen fun x y => comp₀ x = y ∨ ∃ t, (x, y) ∈ calls t

/-- What every step does to the array. -/
structure LinkAction (r : Fin n → Fin n → Prop) (comp comp' : Comp n) : Prop where
  forest : ∀ x, comp' x ≤ x
  descends : ∀ x, comp' x ≤ comp x
  onlyRoots : ∀ x, comp' x ≠ comp x → comp x = x
  merges : ∀ x y, root comp x = root comp y → root comp' x = root comp' y
  apart : ∀ x y, root comp' x = root comp' y → r x y

section Calls

variable {r : Fin n → Fin n → Prop}

theorem checkedTurn_wp (hr : Equivalence r) {u v : Fin n} (huv : r u v) (p : Fin n × Fin n)
    (σ : Comp n × Unit) (hσ : GoodFor r σ.1 ∧ Candidates σ.1 u v p) :
    WP (LinkRely r) (LinkGuar r) (LinkTurnPost r u v p) (checkedTurn p) σ := by
  apply WP.bind
  apply (linkTurn_wp hr huv p σ hσ).mono
  rintro (q | _) τ hτ
  · -- the bound on `q` is about the values read, which no other thread changes
    have hstable : Stable (LinkRely r) (LinkTurnPost r u v p (.inl q)) :=
      fun σ τ h hl => ⟨⟨hl.good, h.1.2.links hl⟩, h.2⟩
    exact WP.check_bind hτ hstable (fun _ _ h => h.2) fun _ _ h => WP.ret h hstable
  · exact linkTurn_exit hτ

theorem checkedLink_wp (hr : Equivalence r) {u v : Fin n} (huv : r u v) {σ : Comp n × Unit}
    (hgood : GoodFor r σ.1) :
    WP (LinkRely r) (LinkGuar r) (fun _ σ => GoodFor r σ.1 ∧ root σ.1 u = root σ.1 v) (checkedLink u v) σ := by
  have hstable : Stable (LinkRely r) fun σ => GoodFor r σ.1 ∧ root σ.1 u = root σ.1 v :=
    stable_linksFor (P := fun comp => root comp u = root comp v) fun _ _ _ h hl => hl.merges _ _ h
  have hloop : WP (LinkRely r) (LinkGuar r) (fun _ σ => GoodFor r σ.1 ∧ root σ.1 u = root σ.1 v)
    (linkInTurns u v) σ := turns_wp (checkedTurn_wp hr huv) hgood
  apply WP.bind
  apply hloop.mono
  intro _ τ hτ
  apply WP.op hτ hstable fun _ => hstable
  intro comp _ hcomp
  exact ⟨(), comp, (), by simp [hcomp.2], .inl rfl, hcomp⟩

/-- What is known after some calls: they have joined their vertices. -/
def CallsJoined (r : Fin n → Fin n → Prop) (calls : List (Fin n × Fin n)) (comp : Comp n) : Prop :=
  GoodFor r comp ∧ ∀ call ∈ calls, root comp call.1 = root comp call.2

theorem CallsJoined.links {calls : List (Fin n × Fin n)} {comp comp' : Comp n}
    (h : CallsJoined r calls comp) (hl : LinksFor r comp comp') : CallsJoined r calls comp' :=
  ⟨hl.good, fun call hcall => hl.merges _ _ (h.2 call hcall)⟩

/-- A call under any interference by other links: it returns with its vertices in one tree. -/
def Joins (r : Fin n → Fin n → Prop) (run : Fin n → Fin n → Prog (Comp n) Unit) : Prop :=
  ∀ u v, r u v → ∀ σ : Comp n × Unit, GoodFor r σ.1 →
    WP (LinkRely r) (LinkGuar r) (fun _ σ => GoodFor r σ.1 ∧ root σ.1 u = root σ.1 v) (run u v) σ

theorem calls_wp {run : Fin n → Fin n → Prog (Comp n) Unit} (hrun : Joins r run)
    {calls : List (Fin n × Fin n)} (hcalls : ∀ call ∈ calls, r call.1 call.2) {σ : Comp n × Unit}
    (hgood : GoodFor r σ.1) :
    WP (LinkRely r) (LinkGuar r) (fun _ σ => CallsJoined r calls σ.1)
      (.forEach calls () fun call _ => run call.1 call.2) σ := by
  have hstable (l : List (Fin n × Fin n)) : Stable (LinkRely r) fun σ => CallsJoined r l σ.1 :=
    fun _ _ h hl => h.links hl
  apply WP.forEach (fun pre _ σ => CallsJoined r pre σ.1) ⟨hgood, nofun⟩ fun l _ => hstable l
  intro pre call post _ τ hsplit hτ
  have hrel : r call.1 call.2 := hcalls call (by simp [hsplit])
  -- what the calls before have joined stays joined while this one runs
  have hframe := (hrun _ _ hrel τ hτ.1).frame hτ (hstable pre) fun _ _ h hl =>
    h.links hl.toLinksFor
  apply hframe.mono
  rintro _ υ ⟨⟨hgood, hjoined⟩, -, hpre⟩
  refine ⟨hgood, fun c hc => ?_⟩
  rcases List.mem_append.mp hc with hc | hc
  · exact hpre c hc
  · rw [List.mem_singleton.mp hc]
    exact hjoined

theorem Hooked.linkAction (hr : Equivalence r) {comp comp' : Comp n} (h : Hooked r comp comp') :
    LinkAction r comp comp' :=
  ⟨h.good.forest, h.le, h.roots, h.merges, fun _ _ hxy => h.good.related_of_root hr hxy⟩

end Calls

theorem GoodFor.linkAction {r : Fin n → Fin n → Prop} (hr : Equivalence r) {comp : Comp n}
    (h : GoodFor r comp) : LinkAction r comp comp :=
  ⟨h.forest, fun _ => le_rfl, fun _ hne => absurd rfl hne, fun _ _ hxy => hxy,
    fun _ _ hxy => h.related_of_root hr hxy⟩

section Run

variable (calls : Fin T → List (Fin n × Fin n)) (comp₀ : Comp n)

theorem component_equivalence : Equivalence (Component comp₀ calls) := Relation.EqvGen.is_equivalence _

theorem concurrentCalls_correct {run : Fin n → Fin n → Prog (Comp n) Unit}
    (hrun : Joins (Component comp₀ calls) run) (h : ∀ x, comp₀ x ≤ x) :
    (concurrentCalls run calls).Correct comp₀ (fun _ comp =>
        ∀ t, ∀ call ∈ calls t, root comp call.1 = root comp call.2) ∧
      Throughout False (LinkAction (Component comp₀ calls)) (concurrentCalls run calls) comp₀
        fun _ _ => True := by
  let r := Component comp₀ calls
  have hr : Equivalence r := component_equivalence calls comp₀
  have hgood : GoodFor r comp₀ := ⟨h, fun x => .rel _ _ (.inl rfl)⟩
  have hcalls (t : Fin T) : ∀ call ∈ calls t, r call.1 call.2 := fun call hcall => .rel _ _ (.inr ⟨t, hcall⟩)
  -- all threads link for the same relation, so that each may rely on what the others guarantee
  have hthread (t : Fin T) := (calls_wp (σ := (comp₀, ())) hrun (hcalls t) hgood).weaken
    (U := Rely (fun _ => LinkGuar r) t) (fun _ _ ⟨_, _, hu⟩ => hu.toLinksFor) fun _ _ hu => hu
  constructor
  · refine (Solo.correct (Solo.fork _ _ () hthread)).mono ?_
    rintro _ comp ⟨_, hjoined⟩ t call hcall
    exact (hjoined t).2 call hcall
  · -- a step leaves the array alone or hooks a root; both are link actions from a good array
    have hfork := Throughout.fork (E := False) (A := fun comp comp' => comp' = comp ∨ Hooked r comp comp')
      (fun _ => .inl rfl) _ _ (fun _ => True) () trivial hthread fun _ _ _ _ hu => ⟨trivial, .inr hu⟩
    apply (hfork.strengthen hgood ?_).mono fun _ _ _ => trivial
    rintro comp comp' (rfl | hooked) hcomp
    · exact ⟨hcomp, hcomp.linkAction hr⟩
    · exact ⟨hooked.good, hooked.linkAction hr⟩

end Run

/-- From any forest and for any calls, in every interleaving: values only descend, only roots are
hooked, trees are merged and never torn apart, those of different components stay apart, and all calls
return; every turn that does not leave its loop lowers `p1 + p2`, and every call returns with its
vertices in one tree. -/
theorem concurrentLinks_correct (calls : Fin T → List (Fin n × Fin n)) (comp₀ : Comp n)
    (h : ∀ x, comp₀ x ≤ x) :
    ((concurrentCalls link calls).Correct comp₀ (fun _ comp =>
        ∀ t, ∀ call ∈ calls t, root comp call.1 = root comp call.2) ∧
      Throughout False (LinkAction (Component comp₀ calls)) (concurrentCalls link calls) comp₀
        fun _ _ => True) ∧
    (concurrentCalls checkedLink calls).Correct comp₀ fun _ _ => True := by
  have hr : Equivalence (Component comp₀ calls) := component_equivalence calls comp₀
  constructor
  · exact concurrentCalls_correct calls comp₀ (fun u v huv σ hgood => link_wp_for hr huv hgood) h
  · have hchecked := concurrentCalls_correct calls comp₀
      (fun u v huv σ hgood => checkedLink_wp hr huv hgood) h
    exact hchecked.1.mono fun _ _ _ => trivial

/-- Two vertices of three already joined. -/
def pathForest : Comp 3 := fun x => if x = 2 then 1 else x

/-- Two threads that join the vertices of a path. -/
def pathCalls : Fin 2 → List (Fin 3 × Fin 3) := fun t => if t = 0 then [(0, 1), (1, 2)] else [(2, 1)]

theorem concurrentLinks_correct_path :
    ((concurrentCalls link pathCalls).Correct pathForest (fun _ comp =>
        ∀ t, ∀ call ∈ pathCalls t, root comp call.1 = root comp call.2) ∧
      Throughout False (LinkAction (Component pathForest pathCalls)) (concurrentCalls link pathCalls)
        pathForest fun _ _ => True) ∧
    (concurrentCalls checkedLink pathCalls).Correct pathForest fun _ _ => True :=
  concurrentLinks_correct pathCalls pathForest (by decide)

end Gapbs
