import Mathlib.Data.List.GetD
import Gapbs.Cc.Link

/-!
# Afforest

The kernel of `cc.cc`: link a few sampled neighbours of every vertex, compress, guess the largest
component from the array, and link the remaining edges of the vertices outside it.  Skipping an edge
is harmless because it is covered from its other endpoint, by an earlier round, or by both endpoints
already lying in the tree of the guessed label.
-/

namespace Gapbs

open Conc OrderedForest VertexFacts

variable {n : Nat}

/-- `SampleFrequentElement`: the label of some sampled vertex.  An empty array has none. -/
def sampleFrequentElement : Prog (Comp n) (Fin n) :=
  match List.finRange n with
  | [] => .fail
  | v :: _ => do
    let sample ← Prog.pick v
    loadComp sample

/-- `for (NodeID v : neighbors) Link(u, v, comp)` -/
def linkAll (u : Fin n) (neighbors : List (Fin n)) : Prog (Comp n) Unit :=
  .forEach neighbors () fun v _ => link u v

/-- Round `r` of the sampling phase: link at most one time if neighbor available at offset `r`. -/
def linkRound (g : Graph n) (T : Nat) [NeZero T] (r : Nat) : Prog (Comp n) Unit :=
  .parallelFor T n fun u => do
    let _ ← Prog.forBreak (g.outNeigh u r) () fun v _ => do
      link u v
      return (.inr () : Unit ⊕ Unit)
    return ()

/-- The body of the final link phase for vertices outside the component of label `c`. -/
def linkRest (g : Graph n) (neighborRounds : Nat) (c u : Fin n) : Prog (Comp n) Unit := do
  let label ← loadComp u
  -- skip processing nodes in the largest component
  if label = c then return ()
  linkAll u (g.outNeigh u neighborRounds)
  -- to support directed graphs, process reverse graph completely
  if g.directed then linkAll u (g.inNeigh u) else return ()

def afforest (g : Graph n) (T : Nat) [NeZero T] (neighborRounds : Nat) : Prog (Comp n) Unit := do
  -- initialize each node to a single-node self-pointing tree
  Prog.parallelFor T n fun v => storeComp v v
  Prog.forEach (List.range neighborRounds) () fun r _ => do
    linkRound g T r
    compress T
  let c ← sampleFrequentElement
  Prog.parallelFor T n fun u => linkRest g neighborRounds c u
  compress T

/-! ## The phases -/

/-- `u` has been linked to the neighbour at offset `r`, if it has one. -/
def LinkedAt (g : Graph n) (r : Nat) (u : Fin n) (comp : Comp n) : Prop :=
  ∀ v, (g.outNeigh u)[r]? = some v → root comp u = root comp v

theorem LinkedAt.mono {g : Graph n} {r : Nat} {u : Fin n} {comp comp' : Comp n}
    (h : LinkedAt g r u comp)
    (hm : ∀ x y, root comp x = root comp y → root comp' x = root comp' y) :
    LinkedAt g r u comp' :=
  fun v hv => hm u v (h v hv)

/-- After initialisation every vertex is its own tree. -/
theorem init_solo {T : Nat} [NeZero T] (comp₀ : Comp n) :
    Solo (.parallelFor T n fun v => storeComp v v) comp₀ fun _ comp => ∀ v, comp v = v := by
  have store (v : Fin n) (comp : Comp n) : WP (Γ := Unit)
      (fun (σ τ : Comp n × Unit) => ∀ x, σ.1 x = x → τ.1 x = x)
      (fun (σ τ : Comp n × Unit) => ∀ x, σ.1 x = x → τ.1 x = x)
      (fun _ (σ : Comp n × Unit) => True ∧ σ.1 v = v) (storeComp v v) (comp, ()) := by
    apply WP.store (P := fun _ => True) trivial (fun _ _ _ _ => trivial)
      (fun _ _ _ h hR => ⟨trivial, hR v h.2⟩)
    refine fun s _ _ => ⟨(), .inr fun (x : Fin n) (hx : s x = x) => ?_, trivial, by simp⟩
    by_cases hv : x = v
    · simp [hv]
    · simpa [hv] using hx
  apply (Solo.parallelFor_of_action (fun comp comp' => ∀ x, comp x = x → comp' x = x)
    (fun _ => True) (fun v comp => comp v = v) trivial (fun _ _ _ _ => trivial)
    (fun v _ _ _ h hA => hA v h) (fun v comp _ => store v comp)).mono
  exact fun _ comp h => h.2

/-- A parallel loop of links: every iteration establishes its own facts about tree membership, which
no other link destroys. -/
theorem linkLoop_solo {g : Graph n} {T : Nat} [NeZero T] {body : Fin n → Prog (Comp n) Unit}
    {comp₀ : Comp n} (hgood : Good g comp₀) (Post : Fin n → Comp n → Prop)
    (mono : ∀ u comp comp', Post u comp → Links g comp comp' → Post u comp')
    (iteration : ∀ u comp, Good g comp → Links g comp₀ comp →
      WP (Γ := Unit) (LinkStep g) (LinkStep g) (fun _ σ => Good g σ.1 ∧ Post u σ.1)
        (body u) (comp, ())) :
    Solo (.parallelFor T n body) comp₀ fun _ comp =>
      Good g comp ∧ Links g comp₀ comp ∧ ∀ u, Post u comp := by
  have trans {comp comp' : Comp n} (h : Links g comp₀ comp) (h' : Links g comp comp') :
      Links g comp₀ comp' :=
    ⟨h'.good, fun x => (h'.le x).trans (h.le x), fun x y hxy => h'.merges x y (h.merges x y hxy)⟩
  apply (Solo.parallelFor_of_action (Links g) (Links g comp₀) Post
    ⟨hgood, fun _ => le_rfl, fun _ _ h => h⟩ (fun _ _ h hA => trans h hA)
    (fun u _ _ _ h hA => mono u _ _ h hA) fun u comp hl => ?_).mono
  · exact fun _ comp ⟨hl, hpost⟩ => ⟨hl.good, hl, hpost⟩
  · have hframe := (iteration u comp hl.good hl).frame (P := fun σ => Links g comp₀ σ.1) hl
      (fun _ _ h hA => trans h hA) (fun _ _ h hA => trans h hA)
    exact hframe.mono fun _ τ h => ⟨h.2, h.1.2⟩

theorem linkRound_solo {g : Graph n} {T : Nat} [NeZero T] {comp₀ : Comp n} (hgood : Good g comp₀)
    (r : Nat) :
    Solo (linkRound g T r) comp₀ fun _ comp =>
      Good g comp ∧ Links g comp₀ comp ∧ ∀ u, LinkedAt g r u comp := by
  apply linkLoop_solo hgood (LinkedAt g r) (fun u _ _ h hl => h.mono hl.merges)
  intro u comp hcomp _
  have hhead : (g.outNeigh u)[r]? = (g.outNeigh u r).head? := by
    rw [g.outNeigh_offset u r, List.head?_drop]
  have hedge : ∀ v ∈ g.outNeigh u r, g.Edge u v := by
    rw [g.outNeigh_offset u r]
    exact fun v hv => List.mem_of_mem_drop hv
  have stable : Stable (LinkStep g) fun σ => Good g σ.1 ∧ LinkedAt g r u σ.1 :=
    stable_links (P := LinkedAt g r u) fun _ _ _ h hl => h.mono hl.merges
  rcases hl : g.outNeigh u r with _ | ⟨v, rest⟩
  · -- no neighbour at this offset
    apply WP.ret (Q := fun _ (σ : Comp n × Unit) => Good g σ.1 ∧ LinkedAt g r u σ.1) _ stable
    exact ⟨hcomp, fun v hv => by simp [hhead, hl] at hv⟩
  · simp only [Prog.bind_eq, Prog.pure_eq, Prog.forBreak, Prog.bind_assoc, Prog.ret_bind]
    apply WP.bind
    apply (link_wp (.rel u v (hedge v (by simp [hl]))) hcomp).mono
    rintro _ τ ⟨hτ, hroot⟩
    apply WP.ret (Q := fun _ (σ : Comp n × Unit) => Good g σ.1 ∧ LinkedAt g r u σ.1) _ stable
    refine ⟨hτ, fun w hw => ?_⟩
    rw [hhead, hl] at hw
    cases hw
    exact hroot

/-- `u` is linked to all of `neighbors`. -/
def LinkedAll (u : Fin n) (neighbors : List (Fin n)) (comp : Comp n) : Prop :=
  ∀ v ∈ neighbors, root comp u = root comp v

theorem LinkedAll.mono {u : Fin n} {neighbors : List (Fin n)} {comp comp' : Comp n}
    (h : LinkedAll u neighbors comp)
    (hm : ∀ x y, root comp x = root comp y → root comp' x = root comp' y) :
    LinkedAll u neighbors comp' :=
  fun v hv => hm u v (h v hv)

theorem linkAll_wp {g : Graph n} {u : Fin n} {neighbors : List (Fin n)}
    (hweak : ∀ v ∈ neighbors, g.Weak u v) {σ : Comp n × Unit} (hσ : Good g σ.1) :
    WP (LinkStep g) (LinkStep g) (fun _ σ => Good g σ.1 ∧ LinkedAll u neighbors σ.1)
      (linkAll u neighbors) σ := by
  have stable (l : List (Fin n)) :
      Stable (LinkStep g) fun σ => Good g σ.1 ∧ LinkedAll u l σ.1 :=
    stable_links (P := LinkedAll u l) fun _ _ _ h hl => h.mono hl.merges
  apply WP.forEach (fun pre _ (σ : Comp n × Unit) => Good g σ.1 ∧ LinkedAll u pre σ.1)
    ⟨hσ, by simp [LinkedAll]⟩ (fun l _ => stable l)
  intro pre v post _ τ hsplit hτ
  have hv : g.Weak u v := hweak v (by simp [hsplit])
  have hframe := (link_wp hv hτ.1).frame hτ (stable pre) (stable pre)
  apply hframe.mono
  rintro _ τ' ⟨⟨hgood, hroot⟩, -, hpre⟩
  refine ⟨hgood, fun w hw => ?_⟩
  rcases List.mem_append.mp hw with hw | hw
  · exact hpre w hw
  · exact List.mem_singleton.mp hw ▸ hroot

/-- What the final link phase achieves for `u`: it lies in the tree of `c`, or all its remaining
edges have been linked. -/
def LinkedRest (g : Graph n) (neighborRounds : Nat) (c u : Fin n) (comp : Comp n) : Prop :=
  root comp u = root comp c ∨
    LinkedAll u (g.outNeigh u neighborRounds) comp ∧
      (g.directed = true → LinkedAll u (g.inNeigh u) comp)

theorem LinkedRest.mono {g : Graph n} {rounds : Nat} {c u : Fin n} {comp comp' : Comp n}
    (h : LinkedRest g rounds c u comp)
    (hm : ∀ x y, root comp x = root comp y → root comp' x = root comp' y) :
    LinkedRest g rounds c u comp' :=
  h.imp (hm u c) fun h => ⟨h.1.mono hm, fun hd => (h.2 hd).mono hm⟩

theorem linkRest_wp {g : Graph n} (hg : g.Transposed) (rounds : Nat) (c u : Fin n)
    {comp : Comp n} (hcomp : Good g comp) :
    WP (Γ := Unit) (LinkStep g) (LinkStep g)
      (fun _ σ => Good g σ.1 ∧ LinkedRest g rounds c u σ.1) (linkRest g rounds c u) (comp, ()) := by
  have stable : Stable (LinkStep g) fun σ => Good g σ.1 ∧ LinkedRest g rounds c u σ.1 :=
    stable_links (P := LinkedRest g rounds c u) fun _ _ _ h hl => h.mono hl.merges
  have hout : ∀ v ∈ g.outNeigh u rounds, g.Weak u v := by
    rw [g.outNeigh_offset u rounds]
    exact fun v hv => .rel u v (List.mem_of_mem_drop hv)
  have hin : ∀ v ∈ g.inNeigh u, g.Weak u v :=
    fun v hv => .symm _ _ (.rel v u ((hg v u).mp hv))
  simp only [linkRest, Prog.bind_eq, Prog.pure_eq]
  apply WP.load_bind (P := fun σ => Good g σ.1 ∧ True) ⟨hcomp, trivial⟩
    (stable_links (P := fun _ => True) fun _ _ _ h _ => h)
  rintro comp _ ⟨hcomp, -⟩
  split
  · next hlabel =>
    exact WP.ret ⟨hcomp, .inl (by rw [← hlabel, root_parent hcomp.forest])⟩ stable
  · apply WP.bind
    apply (linkAll_wp hout hcomp).mono
    rintro _ τ ⟨hτ, hall⟩
    split
    · -- the reverse edges; meanwhile the forward ones stay linked
      have hframe := (linkAll_wp hin hτ).frame
        (P := fun σ => Good g σ.1 ∧ LinkedAll u (g.outNeigh u rounds) σ.1) ⟨hτ, hall⟩
        (stable_links fun _ _ _ h hl => h.mono hl.merges)
        (stable_links fun _ _ _ h hl => h.mono hl.merges)
      exact hframe.mono fun _ τ h => ⟨h.1.1, .inr ⟨h.2.2, fun _ => h.1.2⟩⟩
    · next hdir => exact WP.ret ⟨hτ, .inr ⟨hall, fun h => absurd h hdir⟩⟩ stable

/-! ## The whole kernel -/

/-- What holds before sampling round `r`. -/
def SampledBefore (g : Graph n) (r : Nat) (comp : Comp n) : Prop :=
  Good g comp ∧ ∀ s < r, ∀ u, LinkedAt g s u comp

theorem sampling_solo {g : Graph n} {T : Nat} [NeZero T] (rounds : Nat) {comp₀ : Comp n}
    (hgood : Good g comp₀) :
    Solo (.forEach (List.range rounds) () fun r _ => do linkRound g T r; compress T) comp₀
      fun _ comp => SampledBefore g rounds comp := by
  suffices h : Solo (.forEach (List.range rounds) () fun r _ => do linkRound g T r; compress T)
      comp₀ fun _ comp => SampledBefore g (List.range rounds).length comp from
    h.mono fun _ comp hcomp => by simpa using hcomp
  apply Solo.forEach (fun pre _ comp => SampledBefore g pre.length comp) ⟨hgood, by simp⟩
  rintro pre r post _ comp hsplit ⟨hcomp, hpre⟩
  have hr : r = pre.length := by
    have hget := congrArg (fun l => l[pre.length]?) hsplit
    have hlt : pre.length < rounds := by
      have hlen := congrArg List.length hsplit
      simp only [List.length_range, List.length_append, List.length_cons] at hlen
      omega
    simpa [hlt] using hget.symm
  apply Solo.bind
  apply (linkRound_solo hcomp r).mono
  rintro _ comp' ⟨hcomp', hl, hround⟩
  apply (compress_solo hcomp').mono
  rintro _ comp'' ⟨⟨hgood'', hroot⟩, -⟩
  have hm : ∀ x y, root comp' x = root comp' y → root comp'' x = root comp'' y :=
    fun x y hxy => by rw [hroot, hroot, hxy]
  refine ⟨hgood'', fun s hs u => ?_⟩
  rw [List.length_append, List.length_singleton] at hs
  by_cases hsr : s = r
  · exact (hsr ▸ hround u).mono hm
  · exact ((hpre s (by omega) u).mono hl.merges).mono hm

/-- When the sampled edges are linked and every vertex lies in the tree of `c` or has linked its
remaining edges, the roots are the components. -/
theorem root_eq_of_linked {g : Graph n} (hg : g.Transposed) {rounds : Nat} {c : Fin n}
    {comp : Comp n} (hsampled : SampledBefore g rounds comp)
    (hrest : ∀ u, LinkedRest g rounds c u comp) {u v : Fin n} (huv : g.Weak u v) :
    root comp u = root comp v := by
  -- an edge is covered from an endpoint outside the tree of `c`, whatever its offset there
  have cover (u : Fin n) (h : ¬ root comp u = root comp c) (v : Fin n) (hv : g.Edge u v) :
      root comp u = root comp v := by
    obtain ⟨i, hi, hget⟩ := List.mem_iff_getElem.mp hv
    by_cases hlt : i < rounds
    · exact hsampled.2 i hlt u v (by rw [List.getElem?_eq_getElem hi, hget])
    · apply ((hrest u).resolve_left h).1 v
      rw [g.outNeigh_offset u rounds, List.mem_iff_getElem]
      refine ⟨i - rounds, by rw [List.length_drop]; omega, ?_⟩
      simp only [List.getElem_drop, ← hget]
      congr 1
      omega
  apply huv.lift (r := fun u v => root comp u = root comp v) ⟨fun _ => rfl, Eq.symm, Eq.trans⟩
  intro u v hedge
  by_cases hu : root comp u = root comp c
  · by_cases hv : root comp v = root comp c
    · exact hu.trans hv.symm
    · symm
      cases hd : g.directed with
      | false => exact cover v hv u (hg.symm hd hedge)
      | true => exact (((hrest v).resolve_left hv).2 hd) u ((hg u v).mpr hedge)
  · exact cover u hu v hedge

theorem afforest_solo (g : Graph n) (hg : g.Transposed) (hn : 0 < n) (T : Nat) [NeZero T]
    (neighborRounds : Nat) (comp₀ : Comp n) :
    Solo (afforest g T neighborRounds) comp₀ fun _ comp =>
      ∀ v, IsLeast { x | g.Weak v x } (comp v) := by
  apply Solo.bind
  apply (init_solo comp₀).mono
  intro _ comp hcomp
  apply Solo.bind
  apply (sampling_solo neighborRounds (Good.of_id hcomp)).mono
  intro _ comp hsampled
  apply Solo.bind
  have hsample : Solo sampleFrequentElement comp fun _ comp' => comp' = comp := by
    obtain ⟨m, rfl⟩ := Nat.exists_eq_succ_of_ne_zero hn.ne'
    rw [sampleFrequentElement, List.finRange_succ]
    exact Solo.pick_bind fun v => Solo.op rfl rfl
  apply hsample.mono
  rintro c _ rfl
  apply Solo.bind
  apply (linkLoop_solo hsampled.1 (LinkedRest g neighborRounds c)
    (fun u _ _ h hl => h.mono hl.merges) fun u _ h _ => linkRest_wp hg neighborRounds c u h).mono
  rintro _ comp' ⟨hcomp', hl, hrest⟩
  apply (compress_solo hcomp').mono
  rintro _ comp'' ⟨⟨hgood, hroot⟩, hflat⟩ v
  have hsampled' : SampledBefore g neighborRounds comp' :=
    ⟨hcomp', fun s hs u => (hsampled.2 s hs u).mono hl.merges⟩
  constructor
  · exact hgood.weak v
  · intro x hx
    have hx' := root_eq_of_linked hg hsampled' hrest hx
    rw [hflat, hroot, hx']
    exact root_le hcomp'.forest x

/-- `Afforest` terminates under every schedule and interleaving, whatever label is sampled, and
labels every vertex with the smallest vertex of its weak component. -/
theorem afforest_correct (g : Graph n) (hg : g.Transposed) (hn : 0 < n) (T : Nat) [NeZero T]
    (neighborRounds : Nat) (comp₀ : Comp n) :
    (afforest g T neighborRounds).Correct comp₀ fun _ comp =>
      ∀ v, IsLeast { x | g.Weak v x } (comp v) :=
  (afforest_solo g hg hn T neighborRounds comp₀).correct

theorem afforest_correct_pair :
    (afforest pairGraph 2 1).Correct id fun _ comp =>
      ∀ v, IsLeast { x | pairGraph.Weak v x } (comp v) :=
  afforest_correct pairGraph (by decide) (by decide) 2 1 id

end Gapbs
