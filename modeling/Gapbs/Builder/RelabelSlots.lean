import Mathlib.Algebra.BigOperators.Group.Finset.Basic
import Mathlib.Algebra.Order.Group.Multiset
import Gapbs.Builder.Relabel

/-!
# The relabelled graph and the slots of the copy loop

The graph that `RelabelByDegree` returns is the old one under the names in `new_ids`, in the order of
the degrees.  A second version of the program returns with it which iteration of the copy loop has
written which slot of `neighs`.
-/

namespace Gapbs

open Conc Function RawArray

variable {n : Nat}

/-- `copyNeighborhood`, which adds the slots that it writes, each with the vertex of the iteration. -/
def copyNeighborhoodWrites (g : Graph n) (u : Fin n) (writes : Multiset (Fin n × Nat)) :
    Prog (RelabelMem n) (Multiset (Fin n × Nat)) := do
  let writes ← .forEach (g.outNeigh u) writes fun v writes => do
    let slot ← copyNeighbor u v
    return writes + {(u, slot)}
  let (first, last) ← sortNeighborhood u
  return writes + ((List.range' first (last - first)).map fun k => (u, k) : Multiset (Fin n × Nat))

/-- `RelabelByDegree(g)`, which returns the writes of the copy loop as well. -/
def relabelByDegreeWrites (g : Graph n) (T : Nat) [NeZero T] :
    Prog (RelabelMem n) (Option (Graph n × Multiset (Fin n × Nat))) :=
  relabelWith g T (.parallelSum T n (copyNeighborhoodWrites g))

/-! ## The degrees -/

section

variable {g h : Graph n}

theorem greaterPair_trans (p q r : Nat × Fin n) (hpq : greaterPair p q = true)
    (hqr : greaterPair q r = true) : greaterPair p r = true := by
  simp only [greaterPair, decide_eq_true_eq] at *
  omega

theorem greaterPair_total (p q : Nat × Fin n) : (greaterPair p q || greaterPair q p) = true := by
  simp only [greaterPair, Bool.or_eq_true, decide_eq_true_eq]
  omega

/-- The sorted degrees do not increase. -/
theorem newDegrees_antitone (g : Graph n) : Antitone (newDegrees g) := by
  have hsorted : (List.ofFn (sortedPairs g.outDegree)).Pairwise fun p q => greaterPair p q = true := by
    rw [sortedPairs_list]
    exact List.pairwise_mergeSort greaterPair_trans greaterPair_total _
  rw [List.pairwise_ofFn] at hsorted
  intro i j hij
  rcases hij.lt_or_eq with hlt | rfl
  · have hpair := hsorted hlt
    simp only [greaterPair, decide_eq_true_eq] at hpair
    unfold newDegrees
    omega
  · exact le_rfl

theorem Relabelled.outDegree_eq (hr : Relabelled g h) (x : Fin n) : h.outDegree x = newDegrees g x := by
  obtain ⟨u, rfl⟩ := (newId g.outDegree).surjective x
  rw [← h.length_outNeigh, hr.neigh, length_newNeigh, g.length_outNeigh, newDegrees, sortedPairs_fst,
    sortedPairs_newId]

/-- `h` is `g` with its vertices renamed by `newIds`, in the order of decreasing degree, and sorted. -/
structure IsRelabelling (g h : Graph n) (newIds : Fin n → Fin n) : Prop where
  undirected : h.directed = false
  bijective : Bijective newIds
  edge_iff : ∀ u w, h.Edge (newIds u) (newIds w) ↔ g.Edge u w
  degrees : ∀ i j, i ≤ j → h.outDegree j ≤ h.outDegree i
  sorted : ∀ v, (h.outNeigh v).Pairwise (· < ·)

theorem Relabelled.isRelabelling (hr : Relabelled g h) (hnodup : ∀ u, (g.outNeigh u).Nodup)
    {newIds : Fin n → Fin n} (hids : ∀ u, newIds u = newId g.outDegree u) :
    IsRelabelling g h newIds := by
  obtain rfl : newIds = newId g.outDegree := funext hids
  refine ⟨hr.undirected, (newId g.outDegree).bijective, hr.edge_iff, fun i j hij => ?_, hr.sorted hnodup⟩
  rw [hr.outDegree_eq, hr.outDegree_eq]
  exact newDegrees_antitone g hij

/-! ## The writes -/

/-- The writes of one iteration. -/
def OwnWrites (g : Graph n) (u : Fin n) (writes : Multiset (Fin n × Nat)) : Prop :=
  ∀ w ∈ writes, w.1 = u ∧ InRange g u w.2

theorem OwnWrites.add {u : Fin n} {writes writes' : Multiset (Fin n × Nat)} (h : OwnWrites g u writes)
    (h' : OwnWrites g u writes') : OwnWrites g u (writes + writes') := by
  intro w hw
  rcases Multiset.mem_add.mp hw with hw | hw
  · exact h w hw
  · exact h' w hw

theorem ownWrites_singleton {u : Fin n} {slot : Nat} (h : InRange g u slot) : OwnWrites g u {(u, slot)} := by
  intro w hw
  rw [Multiset.mem_singleton.mp hw]
  exact ⟨rfl, h⟩

theorem ownWrites_range {u : Fin n} {first last : Nat}
    (h : ∀ k, first ≤ k → k < last → InRange g u k) :
    OwnWrites g u ((List.range' first (last - first)).map fun k => (u, k) : List (Fin n × Nat)) := by
  intro w hw
  obtain ⟨k, hk, rfl⟩ := List.mem_map.mp (Multiset.mem_coe.mp hw)
  rw [List.mem_range'_1] at hk
  exact ⟨rfl, h k hk.1 (by omega)⟩

theorem copyNeighborhoodWrites_wp {u : Fin n} {x : Multiset (Fin n × Nat)} {m : RelabelMem n}
    (hlayout : Layout g m)
    (hnext : m.sums.offsets (newId g.outDegree u).castSucc = newOffset g (newId g.outDegree u).val) :
    WP (CopyOthers g u) (CopyOwn g u)
      (fun y σ => ∃ writes, y = x + writes ∧ OwnWrites g u writes ∧ Sorted g u σ.1)
      (copyNeighborhoodWrites g u x) (m, ()) := by
  let Inv (pre : List (Fin n)) (y : Multiset (Fin n × Nat)) (σ : RelabelMem n × Unit) : Prop :=
    (∃ writes, y = x + writes ∧ OwnWrites g u writes) ∧ Copied g u pre.length pre σ.1
  have stable (pre : List (Fin n)) (y : Multiset (Fin n × Nat)) : Stable (CopyOthers g u) (Inv pre y) :=
    fun σ τ hσ hR => ⟨hσ.1, Copied.stable_others u _ pre σ τ hσ.2 hR⟩
  have hstart : Inv [] x (m, ()) := ⟨⟨0, by simp, by simp [OwnWrites]⟩, hlayout, hnext, by simp, by simp⟩
  apply WP.bind
  apply (WP.forEach Inv hstart stable ?_).mono
  · rintro _ σ ⟨⟨writes, rfl, hwrites⟩, hσ⟩
    apply WP.bind
    apply (sortNeighborhood_wp hσ).mono
    rintro ⟨first, last⟩ τ ⟨hrange, hsorted⟩
    apply WP.ret
    · exact ⟨_, add_assoc x writes _, hwrites.add (ownWrites_range hrange), hsorted⟩
    · rintro _ _ ⟨w, hw, hown, hσ⟩ ⟨_, hne, hstep⟩
      exact ⟨w, hw, hown, hσ.stable hne.symm hstep⟩
  · rintro pre v post _ σ hsplit ⟨⟨writes, rfl, hwrites⟩, hσ⟩
    have hpre : pre.length < (g.outNeigh u).length := by
      rw [hsplit, List.length_append, List.length_cons]
      omega
    apply WP.bind
    apply (copyNeighbor_wp hpre hσ).mono
    rintro slot τ ⟨hslot, hτ⟩
    exact WP.ret ⟨⟨_, add_assoc x writes _, hwrites.add (ownWrites_singleton hslot)⟩, hτ⟩ (stable _ _)

/-- The writes of all iterations together: no slot is written by two. -/
theorem writes_apart {val : Fin n → Multiset (Fin n × Nat)} (hval : ∀ u, OwnWrites g u (val u))
    {u v : Fin n} {k : Nat} (hu : (u, k) ∈ ∑ i, val i) (hv : (v, k) ∈ ∑ i, val i) : u = v := by
  obtain ⟨i, -, hi⟩ := Multiset.mem_sum.mp hu
  obtain ⟨j, -, hj⟩ := Multiset.mem_sum.mp hv
  obtain ⟨rfl, hirange⟩ := hval i _ hi
  obtain ⟨rfl, hjrange⟩ := hval j _ hj
  exact hirange.unique hjrange

theorem relabelByDegreeWrites_solo {T : Nat} [NeZero T] (hg : g.directed = false) (m : RelabelMem n) :
    Solo (relabelByDegreeWrites g T) m fun r m' => ∃ h writes, r = some (h, writes) ∧ Relabelled g h ∧
      (∀ u, m'.newIds u = newId g.outDegree u) ∧
        ∀ u v k, (u, k) ∈ writes → (v, k) ∈ writes → u = v := by
  let Next (u : Fin n) (m : RelabelMem n) : Prop :=
    m.sums.offsets (newId g.outDegree u).castSucc = newOffset g (newId g.outDegree u).val
  let Post (u : Fin n) (writes : Multiset (Fin n × Nat)) (m : RelabelMem n) : Prop :=
    OwnWrites g u writes ∧ Sorted g u m
  have hsep (val : Fin n → Multiset (Fin n × Nat)) : Separate (CopyStep g) (Layout g) Next
      fun u => Post u (val u) :=
    ⟨(copies_separate g).inv, (copies_separate g).pre,
      fun u v m m' huv hI h hstep => ⟨h.1, (copies_separate g).post u v m m' huv hI h.2 hstep⟩⟩
  apply relabelWith_solo hg
  intro m' hlayout hnext
  apply (Solo.parallelSum (CopyStep g) (Layout g) Next hsep hlayout (fun u => hnext _)
    fun u x m hlayout hnext => copyNeighborhoodWrites_wp hlayout hnext).mono
  rintro _ m'' ⟨val, rfl, hlayout', hpost⟩
  exact ⟨hlayout', fun u => (hpost u).2, fun u v k => writes_apart fun i => (hpost i).1⟩

end

/-- The result is the old graph under the names in `new_ids`, and no slot is written by two iterations of
the copy loop. -/
theorem relabelByDegree_correct (g : Graph n) (hg : g.directed = false)
    (hnodup : ∀ u, (g.outNeigh u).Nodup) (T : Nat) [NeZero T] (m : RelabelMem n) :
    ((relabelByDegree g T).Correct m fun r m' => ∃ h, r = some h ∧ IsRelabelling g h m'.newIds) ∧
      (relabelByDegreeWrites g T).Correct m fun r m' => ∃ h writes, r = some (h, writes) ∧
        IsRelabelling g h m'.newIds ∧ ∀ u v k, (u, k) ∈ writes → (v, k) ∈ writes → u = v := by
  constructor
  · apply Solo.correct
    apply (relabelByDegree_newIds hg m).mono
    rintro _ m' ⟨⟨h, rfl, hr⟩, hids⟩
    exact ⟨h, rfl, hr.isRelabelling hnodup hids⟩
  · apply Solo.correct
    apply (relabelByDegreeWrites_solo hg m).mono
    rintro _ m' ⟨h, writes, rfl, hr, hids, hapart⟩
    exact ⟨h, writes, rfl, hr.isRelabelling hnodup hids, hapart⟩

theorem relabelByDegree_correct_pair :
    let m : RelabelMem 2 := ⟨fun v => (0, v), fun _ => 0, id, ⟨fun _ => 0, fun _ => 0, fun _ => 0⟩,
      fun _ => 0, []⟩
    ((relabelByDegree pairGraph 2).Correct m fun r m' =>
        ∃ h, r = some h ∧ IsRelabelling pairGraph h m'.newIds) ∧
      (relabelByDegreeWrites pairGraph 2).Correct m fun r m' => ∃ h writes, r = some (h, writes) ∧
        IsRelabelling pairGraph h m'.newIds ∧ ∀ u v k, (u, k) ∈ writes → (v, k) ∈ writes → u = v :=
  relabelByDegree_correct pairGraph rfl (by decide) 2 _

end Gapbs
