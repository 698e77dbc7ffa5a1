import Gapbs.Bench.Benchmark
import Gapbs.Bench.TopScores
import Gapbs.Cc.Afforest
import Gapbs.Cc.ShiloachVishkin
import Gapbs.Cc.Verifier
import Mathlib.Data.Set.Card

/-!
# The programs `cc` and `cc_sv`

Both give every vertex the least vertex of its component as its label.  `PrintCompStats` counts the
vertices of each label in a map without an order, so that which of two clusters of one size comes first
is decided by `TopK` alone.
-/

namespace Gapbs

open Conc Bench

variable {n : Nat}

/-- `count[label]`, which is 0 when it is new. -/
def countAt (count : List (Int × Int)) (label : Int) : Int :=
  ((count.find? fun p => p.1 = label).map Prod.snd).getD 0

/-- `count[label] += 1` -/
def addCount (count : List (Int × Int)) (label : Int) : List (Int × Int) :=
  (label, countAt count label + 1) :: count.filter fun p => p.1 ≠ label

/-- The map `count`, as the list of its entries. -/
def countLabels (comp : Fin n → Int) : List (Int × Int) := (List.ofFn comp).foldl addCount []

/-- What `PrintCompStats` prints. -/
structure CompStats where
  k : Int
  topK : List (Int ×ₗ Int)
  components : Nat

def printCompStats {S : Type} (comp : Fin n → Int) : Prog S CompStats := do
  -- the entries of the map come in any order
  let countVector ← .pick (⟨countLabels comp, .refl _⟩ :
    { l : List (Int × Int) // l.Perm (countLabels comp) })
  let topK ← .loadAt fun _ => topK countVector.val 5
  return ⟨min 5 topK.length, topK, (countLabels comp).length⟩

/-- `Afforest`, with the default for `neighbor_rounds`, returns the labels. -/
def ccKernel (T : Nat) [NeZero T] (g : Graph n) : Prog (Comp n) (Fin n → Int) := do
  afforest g T 2
  .load fun comp v => (comp v).val

def ccMain {E : Type} (T : Nat) [NeZero T] (cli : CLApp) (g : Graph n) :
    Prog (TrialMem E (Comp n) (CcVerifierMem n)) (List (Line CompStats)) :=
  benchmarkKernel cli (onNew TrialMem.workLens id (ccKernel T g)) printCompStats
    fun comp => onNew TrialMem.checkLens id (ccVerifier g comp)

def svKernel (T : Nat) [NeZero T] (g : Graph n) : Prog (SvMem n) (Fin n → Int) := do
  shiloachVishkin g T
  .load fun s v => (s.comp v).val

def svMain {E : Type} (T : Nat) [NeZero T] (cli : CLApp) (g : Graph n) :
    Prog (TrialMem E (SvMem n) (CcVerifierMem n)) (List (Line CompStats)) :=
  benchmarkKernel cli (onNew TrialMem.workLens id (svKernel T g)) printCompStats
    fun comp => onNew TrialMem.checkLens id (ccVerifier g comp)

/-! ## The counts -/

/-- Every label of the list has one entry, with the number of its places. -/
structure CountsLabels (labels : List Int) (count : List (Int × Int)) : Prop where
  nodup : (count.map Prod.fst).Nodup
  mem : ∀ p, p ∈ count ↔ p.2 = labels.count p.1 ∧ p.1 ∈ labels

theorem CountsLabels.countAt {labels : List Int} {count : List (Int × Int)} (h : CountsLabels labels count)
    (label : Int) : countAt count label = labels.count label := by
  cases hfind : count.find? fun p => p.1 = label with
  | none =>
    have hnot : label ∉ labels := by
      intro hmem
      have hentry := (h.mem (label, (labels.count label : Int))).mpr ⟨rfl, hmem⟩
      simpa using List.find?_eq_none.mp hfind _ hentry
    rw [Gapbs.countAt, hfind, List.count_eq_zero_of_not_mem hnot]
    rfl
  | some p =>
    have hlabel : p.1 = label := by simpa using List.find?_some hfind
    rw [Gapbs.countAt, hfind, ← hlabel]
    exact ((h.mem p).mp (List.mem_of_find?_eq_some hfind)).1

theorem CountsLabels.add {labels : List Int} {count : List (Int × Int)} (h : CountsLabels labels count)
    (label : Int) : CountsLabels (labels ++ [label]) (addCount count label) := by
  refine ⟨?_, fun p => ?_⟩
  · rw [addCount, List.map_cons, List.nodup_cons]
    refine ⟨by simp, ?_⟩
    exact ((List.filter_sublist (l := count)).map Prod.fst).nodup h.nodup
  · rw [addCount, List.mem_cons, List.mem_filter, h.mem, h.countAt, List.count_append]
    by_cases hp : p.1 = label
    · have hone : ([label].count p.1 : Int) = 1 := by simp [hp]
      push_cast
      rw [hone, hp]
      simp [Prod.ext_iff, hp]
    · have hzero : [label].count p.1 = 0 := by simp [Ne.symm hp]
      rw [hzero]
      simp [Prod.ext_iff, hp]

theorem countLabels_counts (comp : Fin n → Int) : CountsLabels (List.ofFn comp) (countLabels comp) := by
  have hfold (l pre : List Int) (count : List (Int × Int)) (h : CountsLabels pre count) :
      CountsLabels (pre ++ l) (l.foldl addCount count) := by
    induction l generalizing pre count with
    | nil => simpa using h
    | cons label l ih => simpa using ih _ _ (h.add label)
  exact hfold _ [] [] ⟨by simp, by simp⟩

/-! ## What is printed -/

/-- The vertex that stands for its component. -/
def Graph.IsRoot (g : Graph n) (v : Fin n) : Prop := IsLeast { x | g.Weak v x } v

noncomputable def Graph.componentSize (g : Graph n) (v : Fin n) : Nat := Set.ncard { x | g.Weak v x }

noncomputable def Graph.numComponents (g : Graph n) : Nat := Set.ncard { v | g.IsRoot v }

/-- The statistics of the components of `g`: at most five of the biggest clusters in descending order,
each under its least vertex, and the number of all. -/
structure ComponentStats (g : Graph n) (a : CompStats) : Prop where
  components : a.components = g.numComponents
  k : a.k = min 5 a.components
  length : a.topK.length = a.k
  sorted : a.topK.Pairwise (· > ·)
  cluster : ∀ r ∈ a.topK, ∃ v : Fin n, g.IsRoot v ∧ (ofLex r).2 = v.val ∧ (ofLex r).1 = g.componentSize v
  best : ∀ v : Fin n, g.IsRoot v → (∀ r ∈ a.topK, (ofLex r).2 ≠ v.val) →
    ∀ r ∈ a.topK, g.componentSize v ≤ (ofLex r).1

/-- The labels that both kernels return. -/
def LeastLabels (g : Graph n) (comp : Fin n → Int) : Prop :=
  ∃ label : Fin n → Fin n, (∀ v, IsLeast { x | g.Weak v x } (label v)) ∧ comp = fun v => ((label v).val : Int)

variable {g : Graph n}

theorem isRoot_label {label : Fin n → Fin n} (h : ∀ v, IsLeast { x | g.Weak v x } (label v)) (v : Fin n) :
    g.IsRoot (label v) := by
  have hweak := g.weak_equivalence
  refine ⟨hweak.refl _, fun x hx => (h v).2 ?_⟩
  exact hweak.trans (h v).1 hx

theorem label_eq_iff {label : Fin n → Fin n} (h : ∀ v, IsLeast { x | g.Weak v x } (label v)) {r : Fin n}
    (hr : g.IsRoot r) (v : Fin n) : label v = r ↔ g.Weak r v := by
  have hweak := g.weak_equivalence
  constructor
  · rintro rfl
    exact hweak.symm (h v).1
  · intro hrv
    refine le_antisymm ((h v).2 (hweak.symm hrv)) (hr.2 ?_)
    exact hweak.trans hrv (h v).1

theorem LeastLabels.partition {comp : Fin n → Int} (h : LeastLabels g comp) (u v : Fin n) :
    comp u = comp v ↔ g.Weak u v := by
  obtain ⟨label, hlabel, rfl⟩ := h
  have hweak := g.weak_equivalence
  rw [Int.natCast_inj, Fin.val_inj, label_eq_iff hlabel (isRoot_label hlabel v)]
  exact ⟨fun huv => hweak.symm (hweak.trans (hlabel v).1 huv),
    fun huv => hweak.trans (hweak.symm (hlabel v).1) (hweak.symm huv)⟩

theorem count_ofFn (comp : Fin n → Int) (label : Int) :
    (List.ofFn comp).count label = ({ v | comp v = label } : Finset (Fin n)).card := by
  rw [List.ofFn_eq_map, List.count, List.countP_map, List.countP_eq_length_filter,
    ← List.toFinset_card_of_nodup ((List.nodup_finRange n).filter _)]
  congr 1
  ext v
  simp

/-- The entries of the map are the components with their sizes. -/
theorem LeastLabels.mem_countLabels {comp : Fin n → Int} (h : LeastLabels g comp) (p : Int × Int) :
    p ∈ countLabels comp ↔ ∃ v : Fin n, g.IsRoot v ∧ p = ((v.val : Int), (g.componentSize v : Int)) := by
  obtain ⟨label, hlabel, rfl⟩ := h
  have hcount {r : Fin n} (hr : g.IsRoot r) :
      (List.ofFn fun v => ((label v).val : Int)).count (r.val : Int) = g.componentSize r := by
    rw [count_ofFn, Graph.componentSize, ← Set.ncard_coe_finset]
    congr 1
    ext v
    simp [Fin.val_inj, label_eq_iff hlabel hr]
  rw [(countLabels_counts _).mem, List.mem_ofFn']
  constructor
  · rintro ⟨hp, v, hv⟩
    refine ⟨label v, isRoot_label hlabel v, Prod.ext (id hv.symm) ?_⟩
    rw [hp, ← hv, hcount (isRoot_label hlabel v)]
  · rintro ⟨v, hv, rfl⟩
    have hlabelv : label v = v := (label_eq_iff hlabel hv v).mpr (g.weak_equivalence.refl v)
    exact ⟨congrArg _ (hcount hv).symm, v, by simp [hlabelv]⟩

theorem LeastLabels.length_countLabels {comp : Fin n → Int} (h : LeastLabels g comp) :
    (countLabels comp).length = g.numComponents := by
  have hnodup := (countLabels_counts comp).nodup
  rw [← List.length_map (f := Prod.fst), ← List.toFinset_card_of_nodup hnodup, ← Set.ncard_coe_finset,
    Graph.numComponents, ← Set.ncard_image_of_injective _ (f := fun v : Fin n => (v.val : Int))]
  · congr 1
    ext label
    simp [h.mem_countLabels, eq_comm]
  · exact fun u v huv => Fin.ext (by simpa using huv)

theorem printCompStats_solo {S : Type} {comp : Fin n → Int} (h : LeastLabels g comp) (s : S) :
    Solo (printCompStats comp) s fun a s' => ComponentStats g a ∧ s' = s := by
  apply Solo.pick_bind
  rintro ⟨countVector, hperm⟩
  have hnodup : (countVector.map Prod.fst).Nodup :=
    (hperm.map Prod.fst).nodup_iff.mpr (countLabels_counts comp).nodup
  obtain ⟨top, htop, hranks⟩ := topK_ranks hnodup (k := 5) (by decide)
  have hlength := hranks.length
  rw [hperm.length_eq, h.length_countLabels] at hlength
  refine Solo.loadAt_bind htop (Solo.ret ⟨⟨h.length_countLabels, ?_, ?_, hranks.sorted, fun r hr => ?_,
    fun v hv hnot => ?_⟩, rfl⟩)
  · show min 5 (top.length : Int) = (min 5 (countLabels comp).length : Nat)
    rw [hlength, h.length_countLabels]
    omega
  · show (top.length : Int) = min 5 (top.length : Int)
    omega
  · have hmem := hperm.mem_iff.mp (hranks.mem r hr)
    obtain ⟨v, hv, heq⟩ := (h.mem_countLabels _).mp hmem
    exact ⟨v, hv, congrArg Prod.fst heq, congrArg Prod.snd heq⟩
  · refine hranks.best (v.val, g.componentSize v) (hperm.mem_iff.mpr ?_) fun hmem => ?_
    · exact (h.mem_countLabels _).mpr ⟨v, hv, rfl⟩
    · exact hnot _ hmem rfl

/-! ## The runs of the programs -/

/-- The verifier accepts every partition into the components. -/
theorem ccVerifier_accepts (hg : g.Transposed) {comp : Fin n → Int}
    (hcomp : ∀ u v, comp u = comp v ↔ g.Weak u v) (s₀ : CcVerifierMem n) :
    Solo (ccVerifier g comp) s₀ fun pass _ => pass = true := by
  apply Solo.store_bind
  apply Solo.pick_bind
  rintro ⟨entries, hperm⟩
  have hm := (represents_labelToSource comp).perm hperm
  have hstart : Covered g comp [] ⟨s₀.visited.reset, []⟩ := ⟨fun v => by simp, by simp⟩
  apply Solo.bind
  apply (Solo.forBreak (fun pre _ s => Covered g comp pre s) (fun _ _ => False) hstart ?_).mono
  · rintro (_ | b) s hr
    · change Covered g comp entries s at hr
      have hall := (hr.partition hm).mpr hcomp
      apply Solo.bind
      apply (Solo.forBreak (fun _ _ s' => s' = s) (fun _ _ => False) rfl ?_).mono
      · rintro (_ | b) s' hr'
        · exact Solo.ret rfl
        · exact hr'.elim
      · rintro pre v post ⟨⟩ s' - rfl
        apply Solo.load_bind
        rw [hall v]
        exact Solo.ret rfl
    · exact hr.elim
  · rintro pre ⟨label, source⟩ post ⟨⟩ s hsplit hs
    change entries = pre ++ (label, source) :: post at hsplit
    have hmem : (label, source) ∈ entries := by
      rw [hsplit]
      simp
    -- each label is in the map once
    have hnew : ∀ p ∈ pre, p.1 ≠ label := by
      intro p hp heq
      have hnodup := hm.nodup
      rw [hsplit, List.map_append, List.nodup_append] at hnodup
      exact hnodup.2.2 p.1 (List.mem_map_of_mem hp) label (by simp) heq
    apply (searchComponent_solo hg hs (hm.label (label, source) hmem) hnew).mono
    rintro (_ | b) t hr
    · exact hr
    · exact hr.2.not_partition hcomp

theorem ccMain_solo (hg : g.Transposed) (hn : 0 < n) {T : Nat} [NeZero T] {cli : CLApp}
    (s₀ : TrialMem Unit (Comp n) (CcVerifierMem n)) :
    Solo (ccMain T cli g) s₀ fun printed _ => AllPassed cli (ComponentStats g) printed := by
  apply plain_solo (LeastLabels g)
  · intro comp
    apply Solo.bind
    apply (afforest_solo g hg hn T 2 comp).mono
    exact fun _ label hlabel => Solo.op rfl ⟨label, hlabel, rfl⟩
  · exact fun comp s hcomp => printCompStats_solo hcomp s
  · exact fun comp s hcomp => ccVerifier_accepts hg hcomp.partition s

/-- Every trial of `cc` passes, and what `-a` prints are the components of the graph. -/
theorem ccMain_correct {n : Nat} (g : Graph n) (hg : g.Transposed) (hn : 0 < n) (T : Nat) [NeZero T]
    (cli : CLApp) (s₀ : TrialMem Unit (Comp n) (CcVerifierMem n)) :
    (ccMain T cli g).Correct s₀ fun printed _ => AllPassed cli (ComponentStats g) printed :=
  (ccMain_solo hg hn s₀).correct

theorem ccMain_correct_pair :
    (ccMain 2 ⟨true, 16, -1, true⟩ pairGraph).Correct ⟨(), (), id, ⟨⟨fun _ => 0⟩, []⟩⟩ fun printed _ =>
      AllPassed ⟨true, 16, -1, true⟩ (ComponentStats pairGraph) printed :=
  ccMain_correct pairGraph (by decide) (by decide) 2 ⟨true, 16, -1, true⟩ _

theorem svMain_solo (hg : g.Transposed) {T : Nat} [NeZero T] {cli : CLApp}
    (s₀ : TrialMem Unit (SvMem n) (CcVerifierMem n)) :
    Solo (svMain T cli g) s₀ fun printed _ => AllPassed cli (ComponentStats g) printed := by
  apply plain_solo (LeastLabels g)
  · intro s
    apply Solo.bind
    apply (shiloachVishkin_solo g T s).mono
    exact fun _ s' hlabel => Solo.op rfl ⟨s'.comp, hlabel, rfl⟩
  · exact fun comp s hcomp => printCompStats_solo hcomp s
  · exact fun comp s hcomp => ccVerifier_accepts hg hcomp.partition s

end Gapbs
