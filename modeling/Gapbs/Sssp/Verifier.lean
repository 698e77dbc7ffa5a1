import Mathlib.Algebra.BigOperators.Fin
import Mathlib.Algebra.Order.BigOperators.Group.Finset
import Gapbs.Conc.Logic
import Gapbs.Graph.Csr
import Gapbs.Lib.ShortestPath

/-!
# The verifier of the shortest-path kernel

`SSSPVerifier` is Dijkstra's algorithm with lazy deletion: an improved vertex gets a new entry in the
priority queue, and entries whose distance is out of date are skipped when they come up.
-/

namespace Gapbs

open Conc Function ShortestPath

variable {n : Nat}

/-- `numeric_limits<WeightT>::max()/2` for 32-bit weights. -/
def kDistInf : Nat := 2 ^ 30 - 1

/-- Addition of two weights; an overflow is undefined. -/
def addWeight (a b : Int) : Option Int :=
  if -2 ^ 31 ≤ a + b ∧ a + b < 2 ^ 31 then some (a + b) else none

/-- Both are at most `kDistInf`, half of what a weight can hold. -/
theorem addWeight_eq {a b : Int} (ha : 0 ≤ a ∧ a ≤ kDistInf) (hb : 0 ≤ b ∧ b ≤ kDistInf) :
    addWeight a b = some (a + b) := by
  rw [kDistInf] at ha hb
  exact if_pos ⟨by omega, by omega⟩

/-- An edge of a weighted graph, when its weight is not negative. -/
def WGraph.Edge (g : WGraph n) (u v : Fin n) (w : Nat) : Prop := ⟨v, (w : Int)⟩ ∈ g.outNeigh u

/-- All weights are between 0 and `kDistInf`. -/
def WGraph.WeightsOk (g : WGraph n) : Prop := ∀ u, ∀ wn ∈ g.outNeigh u, 0 ≤ wn.w ∧ wn.w ≤ kDistInf

instance (g : WGraph n) : Decidable g.WeightsOk :=
  inferInstanceAs (Decidable (∀ u, ∀ wn ∈ g.outNeigh u, 0 ≤ wn.w ∧ wn.w ≤ kDistInf))

/-- The local variables of `SSSPVerifier`. -/
structure DijkstraMem (n : Nat) where
  oracleDist : Fin n → Int
  mq : List (Int × Fin n)

/-- `greater<WN>` on pairs. -/
def pairLess (a b : Int × Fin n) : Bool := a.1 < b.1 || (a.1 = b.1 && a.2 < b.2)

/-- `mq.top()`: a least pair. -/
def top : List (Int × Fin n) → Option (Int × Fin n)
  | [] => none
  | p :: mq => some (mq.foldl (fun a b => if pairLess b a then b else a) p)

namespace DijkstraMem

def setDist (s : DijkstraMem n) (v : Fin n) (d : Int) : DijkstraMem n :=
  { s with oracleDist := update s.oracleDist v d }

def push (s : DijkstraMem n) (p : Int × Fin n) : DijkstraMem n := { s with mq := p :: s.mq }

def pop (s : DijkstraMem n) (p : Int × Fin n) : DijkstraMem n := { s with mq := s.mq.erase p }

end DijkstraMem

/-- The loop over the out-neighbours of a vertex at distance `td`. -/
def relaxAll (g : WGraph n) (td : Int) (u : Fin n) : Prog (DijkstraMem n) Unit :=
  .forEach (g.outNeigh u) () fun wn _ => do
    let newDist ← .loadAt fun _ => addWeight td wn.w
    let oldDist ← .load fun s => s.oracleDist wn.v
    if newDist < oldDist then
      .store fun s => s.setDist wn.v newDist
      .store fun s => s.push (newDist, wn.v)
    else return ()

/-- The computation of the oracle distances. -/
def dijkstra (g : WGraph n) (source : Fin n) : Prog (DijkstraMem n) Unit := do
  .store fun s => { s with oracleDist := fun _ => kDistInf }
  .store fun s => s.setDist source 0
  .store fun s => DijkstraMem.push { s with mq := [] } (0, source)
  .iter (fun _ => do
    let least ← .load fun s => top s.mq
    match least with
    | none => return .inr ()
    | some (td, u) =>
      .store fun s => s.pop (td, u)
      let dist ← .load fun s => s.oracleDist u
      if td = dist then relaxAll g td u
      return .inl ()) ()

def ssspVerifier (g : WGraph n) (source : Fin n) (distToTest : Fin n → Int) :
    Prog (DijkstraMem n) Bool := do
  dijkstra g source
  .forEach (List.finRange n) true fun v allOk => do
    let dist ← .load fun s => s.oracleDist v
    if distToTest v ≠ dist then return false else return allOk

/-! ## The search -/

theorem foldl_mem {α : Type} {f : α → α → α} (hf : ∀ a b, f a b = a ∨ f a b = b) (p : α) (l : List α) :
    l.foldl f p ∈ p :: l := by
  induction l generalizing p with
  | nil => simp
  | cons q l ih =>
    rw [List.foldl_cons]
    rcases hf p q with h | h
    · rw [h]
      rcases List.mem_cons.mp (ih p) with hp | hl
      · exact List.mem_cons.mpr (.inl hp)
      · exact List.mem_cons.mpr (.inr (List.mem_cons_of_mem _ hl))
    · rw [h]
      exact List.mem_cons_of_mem _ (ih q)

theorem top_mem {mq : List (Int × Fin n)} {p : Int × Fin n} (h : top mq = some p) : p ∈ mq := by
  cases mq with
  | nil => simp [top] at h
  | cons q mq =>
    obtain rfl := Option.some.inj h
    apply foldl_mem
    intro a b
    split
    · exact .inr rfl
    · exact .inl rfl

theorem top_eq_none {mq : List (Int × Fin n)} (h : top mq = none) : mq = [] := by
  cases mq with
  | nil => rfl
  | cons q mq => simp [top] at h

/-- The labels of the search: each is the cut-off or the weight of a walk, and a vertex of which an
edge may still be improved has a live entry in the queue; `done` are the edges of `busy` that have been
looked at. -/
structure Labelled (g : WGraph n) (source : Fin n) (busy : Option (Fin n)) (done : List (NodeWeight n))
    (s : DijkstraMem n) : Prop where
  root : s.oracleDist source = 0
  range : ∀ v, 0 ≤ s.oracleDist v ∧ s.oracleDist v ≤ kDistInf
  walk : ∀ v, s.oracleDist v = kDistInf ∨ Walk g.Edge source v (s.oracleDist v).toNat
  live : ∀ u, some u ≠ busy → (s.oracleDist u, u) ∉ s.mq → ∀ wn ∈ g.outNeigh u,
    s.oracleDist wn.v ≤ s.oracleDist u + wn.w
  done : ∀ u, busy = some u → ∀ wn ∈ done, s.oracleDist wn.v ≤ s.oracleDist u + wn.w

variable {g : WGraph n} {source : Fin n}

/-- An edge that improves the label of its target. -/
theorem Labelled.improve (hg : g.WeightsOk) {u : Fin n} {done : List (NodeWeight n)} {s : DijkstraMem n}
    (h : Labelled g source (some u) done s) {wn : NodeWeight n} (hwn : wn ∈ g.outNeigh u)
    (hlt : s.oracleDist u + wn.w < s.oracleDist wn.v) :
    Labelled g source (some u) (done ++ [wn])
      ((s.setDist wn.v (s.oracleDist u + wn.w)).push (s.oracleDist u + wn.w, wn.v)) := by
  obtain ⟨hw, -⟩ := hg u wn hwn
  have hu := h.range u
  have hv := h.range wn.v
  let dist := update s.oracleDist wn.v (s.oracleDist u + wn.w)
  have hself : dist wn.v = s.oracleDist u + wn.w := update_self ..
  have hother {x : Fin n} (hx : x ≠ wn.v) : dist x = s.oracleDist x := update_of_ne hx _ _
  have hle (x : Fin n) : dist x ≤ s.oracleDist x := by
    by_cases hx : x = wn.v
    · rw [hx, hself]
      exact hlt.le
    · rw [hother hx]
  -- no loop improves anything, as weights are not negative
  have hne : u ≠ wn.v := fun heq => by
    rw [← heq] at hlt
    omega
  refine ⟨?_, fun x => ?_, fun x => ?_, fun x hx hmem wn' hwn' => ?_, fun x hx wn' hwn' => ?_⟩
  · have hroot : source ≠ wn.v := fun heq => by
      have hzero := h.root
      rw [heq] at hzero
      omega
    exact (hother hroot).trans h.root
  · show 0 ≤ dist x ∧ dist x ≤ kDistInf
    by_cases hx : x = wn.v
    · rw [hx, hself]
      omega
    · rw [hother hx]
      exact h.range x
  · show dist x = kDistInf ∨ Walk g.Edge source x (dist x).toNat
    by_cases hx : x = wn.v
    · subst hx
      rw [hself]
      rcases h.walk u with heq | hwalk
      · omega
      · have hE : g.Edge u wn.v wn.w.toNat := by
          show ⟨wn.v, (wn.w.toNat : Int)⟩ ∈ g.outNeigh u
          rwa [Int.toNat_of_nonneg hw]
        have hsum : (s.oracleDist u + wn.w).toNat = (s.oracleDist u).toNat + wn.w.toNat :=
          Int.toNat_add hu.1 hw
        exact .inr (hsum ▸ hwalk.snoc hE)
    · rw [hother hx]
      exact h.walk x
  · show dist wn'.v ≤ dist x + wn'.w
    change (dist x, x) ∉ (s.oracleDist u + wn.w, wn.v) :: s.mq at hmem
    have hxv : x ≠ wn.v := fun heq => by
      subst heq
      exact hmem (by rw [hself]; exact List.mem_cons_self)
    rw [hother hxv] at hmem ⊢
    exact (hle _).trans (h.live x hx (fun hin => hmem (List.mem_cons_of_mem _ hin)) wn' hwn')
  · obtain rfl := Option.some.inj hx
    show dist wn'.v ≤ dist u + wn'.w
    rw [hother hne]
    rcases List.mem_append.mp hwn' with hwn' | hwn'
    · exact (hle _).trans (h.done u rfl wn' hwn')
    · rw [List.mem_singleton.mp hwn', hself]

/-- An edge that does not. -/
theorem Labelled.skip {u : Fin n} {done : List (NodeWeight n)} {s : DijkstraMem n}
    (h : Labelled g source (some u) done s) {wn : NodeWeight n}
    (hle : s.oracleDist wn.v ≤ s.oracleDist u + wn.w) :
    Labelled g source (some u) (done ++ [wn]) s := by
  refine ⟨h.root, h.range, h.walk, h.live, fun x hx wn' hwn' => ?_⟩
  obtain rfl := Option.some.inj hx
  rcases List.mem_append.mp hwn' with hwn' | hwn'
  · exact h.done u rfl wn' hwn'
  · rwa [List.mem_singleton.mp hwn']

/-- An entry is taken from the queue. -/
theorem Labelled.pop {s : DijkstraMem n} (h : Labelled g source none [] s) (td : Int) (u : Fin n) :
    Labelled g source (if td = s.oracleDist u then some u else none) [] (s.pop (td, u)) := by
  refine ⟨h.root, h.range, h.walk, fun x hx hmem => h.live x nofun fun hin => hmem ?_, by simp⟩
  refine (List.mem_erase_of_ne fun heq => ?_).mpr hin
  obtain ⟨htd, rfl⟩ := Prod.mk.inj heq
  change s.oracleDist x = td at htd
  rw [if_pos htd.symm] at hx
  exact hx rfl

/-- The work that is left: an improvement pays for the entry that it adds. -/
def DijkstraMem.work (s : DijkstraMem n) : Nat := 2 * ∑ v, (s.oracleDist v).toNat + s.mq.length

/-- A label that is lowered lowers the sum of all. -/
theorem sum_toNat_update_lt {dist : Fin n → Int} {v : Fin n} {d : Int} (hd : 0 ≤ d) (hlt : d < dist v) :
    ∑ x, (update dist v d x).toNat < ∑ x, (dist x).toNat := by
  apply Finset.sum_lt_sum
  · intro x _
    by_cases hx : x = v
    · rw [hx, update_self]
      omega
    · rw [update_of_ne hx]
  · refine ⟨v, Finset.mem_univ v, ?_⟩
    rw [update_self]
    omega

theorem work_improve {s : DijkstraMem n} {v : Fin n} {d : Int} (hd : 0 ≤ d) (hlt : d < s.oracleDist v) :
    ((s.setDist v d).push (d, v)).work < s.work := by
  have hsum := sum_toNat_update_lt hd hlt
  show 2 * ∑ x, (update s.oracleDist v d x).toNat + ((d, v) :: s.mq).length < s.work
  rw [DijkstraMem.work, List.length_cons]
  omega

theorem relaxAll_solo (hg : g.WeightsOk) {u : Fin n} {s : DijkstraMem n}
    (h : Labelled g source (some u) [] s) :
    Solo (relaxAll g (s.oracleDist u) u) s fun _ s' =>
      Labelled g source none [] s' ∧ s'.work ≤ s.work := by
  have htd := h.range u
  apply (Solo.forEach (fun pre _ s' => Labelled g source (some u) pre s' ∧
    s'.oracleDist u = s.oracleDist u ∧ s'.work ≤ s.work) ⟨h, rfl, le_rfl⟩ ?_).mono
  · rintro _ s' ⟨hs', -, hwork⟩
    refine ⟨⟨hs'.root, hs'.range, hs'.walk, fun x _ hmem wn hwn => ?_, by simp⟩, hwork⟩
    by_cases hx : x = u
    · exact hx ▸ hs'.done u rfl wn (hx ▸ hwn)
    · exact hs'.live x (fun heq => hx (Option.some.inj heq)) hmem wn hwn
  · rintro pre wn post ⟨⟩ s' hsplit ⟨hs', hsame, hwork⟩
    have hwn : wn ∈ g.outNeigh u := by
      rw [hsplit]
      simp
    obtain ⟨hw, hw'⟩ := hg u wn hwn
    apply Solo.loadAt_bind (b := s.oracleDist u + wn.w)
    · exact addWeight_eq htd ⟨hw, hw'⟩
    apply Solo.load_bind
    by_cases hlt : s'.oracleDist u + wn.w < s'.oracleDist wn.v
    · rw [if_pos (hsame ▸ hlt)]
      have hne : u ≠ wn.v := fun heq => by
        rw [← heq] at hlt
        omega
      have hu := hs'.range u
      rw [← hsame]
      apply Solo.store_bind
      apply Solo.store
      refine ⟨hs'.improve hg hwn hlt, update_of_ne hne _ _, ?_⟩
      exact (work_improve (by omega) hlt).le.trans hwork
    · rw [if_neg (hsame ▸ hlt)]
      exact Solo.ret ⟨hs'.skip (not_lt.mp hlt), hsame, hwork⟩

/-- Labels that no edge lowers any more are the distances. -/
theorem eq_cappedDistance {dist : Fin n → Int} (root : dist source = 0)
    (range : ∀ v, 0 ≤ dist v ∧ dist v ≤ kDistInf)
    (walk : ∀ v, dist v = kDistInf ∨ Walk g.Edge source v (dist v).toNat)
    (relaxed : ∀ u, ∀ wn ∈ g.outNeigh u, dist wn.v ≤ dist u + wn.w) (v : Fin n) :
    dist v = cappedDistance g.Edge source kDistInf v := by
  have hcast (v : Fin n) := Int.toNat_of_nonneg (range v).1
  have hroot : (dist source).toNat = 0 := by
    rw [root]
    rfl
  have hlabel : cappedDistance g.Edge source kDistInf v = (dist v).toNat :=
    cappedDistance_eq_label (fun v => (dist v).toNat) hroot ?_ ?_ ?_ v
  · rw [hlabel, hcast]
  · intro u v w hE
    have hle := relaxed u ⟨v, w⟩ hE
    have hu := hcast u
    have hv := hcast v
    change dist v ≤ dist u + (w : Int) at hle
    omega
  · intro v
    have hv := (range v).2
    omega
  · intro v
    rcases walk v with heq | hwalk
    · left
      rw [heq]
      exact Int.toNat_natCast _
    · exact .inr hwalk

/-- Without entries in the queue the labels are the distances. -/
theorem Labelled.eq_distance {s : DijkstraMem n} (h : Labelled g source none [] s)
    (hmq : s.mq = []) (v : Fin n) :
    s.oracleDist v = cappedDistance g.Edge source kDistInf v :=
  eq_cappedDistance h.root h.range h.walk (fun u => h.live u nofun (by simp [hmq])) v

/-! At the start all but the source are at the cut-off. -/

theorem start_range (source v : Fin n) :
    0 ≤ update (fun _ => (kDistInf : Int)) source 0 v ∧ update (fun _ => (kDistInf : Int)) source 0 v ≤ kDistInf := by
  have hcap := Int.natCast_nonneg kDistInf
  rw [update_apply]
  split <;> omega

theorem start_walk (source v : Fin n) : update (fun _ => (kDistInf : Int)) source 0 v = kDistInf ∨
    Walk g.Edge source v (update (fun _ => (kDistInf : Int)) source 0 v).toNat := by
  by_cases hv : v = source
  · subst hv
    rw [update_self]
    exact .inr .nil
  · exact .inl (update_of_ne hv _ _)

theorem start_relaxed (hg : g.WeightsOk) {u : Fin n} (hu : u ≠ source) {wn : NodeWeight n}
    (hwn : wn ∈ g.outNeigh u) : update (fun _ => (kDistInf : Int)) source 0 wn.v ≤
      update (fun _ => (kDistInf : Int)) source 0 u + wn.w := by
  have hw := (hg u wn hwn).1
  have hv := (start_range source wn.v).2
  rw [update_of_ne hu]
  omega

theorem dijkstra_solo (hg : g.WeightsOk) (s₀ : DijkstraMem n) :
    Solo (dijkstra g source) s₀ fun _ s =>
      ∀ v, s.oracleDist v = cappedDistance g.Edge source kDistInf v := by
  apply Solo.store_bind
  apply Solo.store_bind
  apply Solo.store_bind
  let dist : Fin n → Int := update (fun _ => (kDistInf : Int)) source 0
  have hroot : dist source = 0 := update_self ..
  have hstart : Labelled g source none [] ⟨dist, [(0, source)]⟩ := by
    refine ⟨hroot, start_range source, start_walk source, fun u _ hmem wn hwn => ?_, by simp⟩
    -- the source itself is in the queue
    have hu : u ≠ source := fun heq => by
      apply hmem
      show (dist u, u) ∈ [(0, source)]
      rw [heq, hroot]
      exact List.mem_singleton_self _
    exact start_relaxed hg hu hwn
  apply Solo.iter (fun _ s => Labelled g source none [] s) (fun _ s => s.work) hstart
  rintro ⟨⟩ s hs
  apply Solo.load_bind
  cases htop : top s.mq with
  | none => exact Solo.ret fun v => hs.eq_distance (top_eq_none htop) v
  | some p =>
    obtain ⟨td, u⟩ := p
    have hpop : (s.pop (td, u)).work < s.work := by
      have hlen := List.length_erase_of_mem (top_mem htop)
      have hpos := List.length_pos_of_mem (top_mem htop)
      show 2 * ∑ v, (s.oracleDist v).toNat + (s.mq.erase (td, u)).length < s.work
      rw [DijkstraMem.work, hlen]
      omega
    apply Solo.store_bind
    apply Solo.load_bind
    have hs' := hs.pop td u
    by_cases htd : td = s.oracleDist u
    · rw [if_pos htd] at hs'
      show Solo (if td = s.oracleDist u then _ else _) _ _
      rw [if_pos htd, htd]
      apply Solo.bind
      have hrelax := relaxAll_solo (s := s.pop (s.oracleDist u, u)) hg (htd ▸ hs')
      apply hrelax.mono
      rintro _ t ⟨ht, hwork⟩
      exact Solo.ret ⟨ht, hwork.trans_lt (htd ▸ hpop)⟩
    · rw [if_neg htd] at hs'
      show Solo (if td = s.oracleDist u then _ else _) _ _
      rw [if_neg htd]
      exact Solo.ret ⟨hs', hpop⟩

/-- `SSSPVerifier` accepts exactly the distances, cut off at `kDistInf`. -/
theorem ssspVerifier_correct {n : Nat} (g : WGraph n) (hg : g.WeightsOk) (source : Fin n)
    (distToTest : Fin n → Int) (s₀ : DijkstraMem n) :
    (ssspVerifier g source distToTest).Correct s₀ fun r _ =>
      r = true ↔ ∀ v, distToTest v = (cappedDistance g.Edge source kDistInf v : Int) := by
  apply Solo.correct
  apply Solo.bind
  apply (dijkstra_solo hg s₀).mono
  intro _ s hs
  apply (Solo.forEach (fun pre allOk s' => s' = s ∧ (allOk = true ↔
    ∀ v ∈ pre, distToTest v = (cappedDistance g.Edge source kDistInf v : Int))) ⟨rfl, by simp⟩ ?_).mono
  · rintro r s' ⟨-, hr⟩
    rw [hr]
    simp
  · rintro pre v post allOk s' - ⟨rfl, hall⟩
    apply Solo.load_bind
    rw [hs v]
    by_cases hv : distToTest v = (cappedDistance g.Edge source kDistInf v : Int)
    · rw [if_neg (not_not.mpr hv)]
      exact Solo.ret ⟨rfl, by simpa [or_imp, forall_and, hv] using hall⟩
    · rw [if_pos hv]
      exact Solo.ret ⟨rfl, iff_of_false (by simp) fun h => hv (h v (by simp))⟩

/-- One edge of weight 7. -/
def edgeGraph : WGraph 2 :=
  .ofDirected
    { index := ![0, 1, 1]
      neighbors := [⟨1, 7⟩]
      index_zero := rfl
      index_mono := by decide
      index_last := rfl }
    { index := ![0, 0, 1]
      neighbors := [⟨0, 7⟩]
      index_zero := rfl
      index_mono := by decide
      index_last := rfl } (by decide)

theorem ssspVerifier_correct_edge :
    (ssspVerifier edgeGraph 0 ![0, 7]).Correct ⟨fun _ => 0, []⟩ fun r _ =>
      r = true ↔ ∀ v, ![0, 7] v = (cappedDistance edgeGraph.Edge 0 kDistInf v : Int) :=
  ssspVerifier_correct edgeGraph (by decide) 0 ![0, 7] _

end Gapbs
