import Gapbs.Conc.Lens
import Gapbs.Graph.Csr
import Gapbs.Lib.RawArray
import Gapbs.Mem.Bitmap

/-!
# The verifier of the component labels

`CCVerifier` of `cc.cc` and `cc_sv.cc` searches from one vertex of each label, with one bitmap of
visited vertices for all searches.  Two components under one label leave vertices unvisited; two labels
in one component are met on an edge.
-/

namespace Gapbs

open Conc

variable {n : Nat}

/-- The local variables of `CCVerifier`; `n` elements are reserved in `frontier`. -/
structure CcVerifierMem (n : Nat) where
  visited : Bitmap n
  frontier : List (Fin n)

namespace CcVerifierMem

def visitedLens : Lens (CcVerifierMem n) (Bitmap n) where
  get s := s.visited
  set visited s := { s with visited }
  get_set _ _ := rfl
  set_get _ := rfl
  set_set _ _ _ := rfl

def pushBack (s : CcVerifierMem n) (v : Fin n) : Option (CcVerifierMem n) :=
  (RawArray.pushReserved n s.frontier v).map fun l => { s with frontier := l }

end CcVerifierMem

/-- `m[label] = v` -/
def assign (m : List (Int × Fin n)) (label : Int) (v : Fin n) : List (Int × Fin n) :=
  (label, v) :: m.filter fun p => p.1 ≠ label

/-- The map `label_to_source`, as the list of its entries. -/
def labelToSource (comp : Fin n → Int) : List (Int × Fin n) :=
  (List.finRange n).foldl (fun m v => assign m (comp v) v) []

/-- The loop over the neighbours of a vertex; `.inr false` stands for `return false`. -/
def searchNeigh (comp : Fin n → Int) (currLabel : Int) (neighbors : List (Fin n)) :
    Prog (CcVerifierMem n) (Unit ⊕ Bool) :=
  .forBreak neighbors () fun v _ => do
    if comp v ≠ currLabel then return .inr false
    let seen ← .load fun s => s.visited.getBit v
    if ¬ seen then
      (Bitmap.setBit v).zoom CcVerifierMem.visitedLens
      .storeAt fun s => s.pushBack v
      return .inl ()
    else return .inl ()

/-- The search from one vertex; `it` is the position of the iterator in `frontier`. -/
def searchComponent (g : Graph n) (comp : Fin n → Int) (currLabel : Int) (source : Fin n) :
    Prog (CcVerifierMem n) (Unit ⊕ Bool) := do
  .storeAt fun s => CcVerifierMem.pushBack { s with frontier := [] } source
  (Bitmap.setBit source).zoom CcVerifierMem.visitedLens
  .iter (fun it => do
    let size ← .load fun s => s.frontier.length
    if it = size then return .inr (.inl ())
    let u ← .loadAt fun s => s.frontier[it]?
    let r ← searchNeigh comp currLabel (g.outNeigh u)
    match r with
    | .inr b => return .inr (.inr b)
    | .inl _ =>
      if g.directed then
        let r ← searchNeigh comp currLabel (g.inNeigh u)
        match r with
        | .inr b => return .inr (.inr b)
        | .inl _ => return .inl (it + 1)
      else return .inl (it + 1)) 0

def ccVerifier (g : Graph n) (comp : Fin n → Int) : Prog (CcVerifierMem n) Bool := do
  .store fun s => ⟨s.visited.reset, []⟩
  -- a map without an order: its entries may come up in any
  let entries ← .pick (⟨labelToSource comp, .refl _⟩ :
    { l : List (Int × Fin n) // l.Perm (labelToSource comp) })
  let r ← .forBreak entries.val () fun entry _ => searchComponent g comp entry.1 entry.2
  match r with
  | .inr b => return b
  | .inl _ =>
    let r ← .forBreak (List.finRange n) () fun v _ => do
      let seen ← .load fun s => s.visited.getBit v
      if ¬ seen then return .inr false else return (.inl () : Unit ⊕ Bool)
    match r with
    | .inr b => return b
    | .inl _ => return true

/-! ## The map of labels -/

/-- One vertex for each label among the vertices of `l`. -/
structure Represents (comp : Fin n → Int) (l : List (Fin n)) (m : List (Int × Fin n)) : Prop where
  nodup : (m.map Prod.fst).Nodup
  label : ∀ p ∈ m, comp p.2 = p.1
  total : ∀ v ∈ l, ∃ p ∈ m, p.1 = comp v

theorem Represents.assign {comp : Fin n → Int} {l : List (Fin n)} {m : List (Int × Fin n)}
    (h : Represents comp l m) (v : Fin n) : Represents comp (l ++ [v]) (assign m (comp v) v) := by
  refine ⟨?_, fun p hp => ?_, fun w hw => ?_⟩
  · rw [Gapbs.assign, List.map_cons, List.nodup_cons]
    constructor
    · intro hmem
      obtain ⟨p, hp, heq⟩ := List.mem_map.mp hmem
      have hne := (List.mem_filter.mp hp).2
      simp [heq] at hne
    · exact h.nodup.sublist (List.filter_sublist.map _)
  · rcases List.mem_cons.mp hp with rfl | hp
    · rfl
    · exact h.label p (List.mem_filter.mp hp).1
  · by_cases hlabel : comp w = comp v
    · exact ⟨(comp v, v), List.mem_cons_self, hlabel.symm⟩
    · have hwl : w ∈ l := by
        rcases List.mem_append.mp hw with hw | hw
        · exact hw
        · exact absurd (congrArg comp (List.mem_singleton.mp hw)) hlabel
      obtain ⟨p, hp, heq⟩ := h.total w hwl
      refine ⟨p, List.mem_cons_of_mem _ (List.mem_filter.mpr ⟨hp, ?_⟩), heq⟩
      simpa [heq] using hlabel

theorem represents_labelToSource (comp : Fin n → Int) :
    Represents comp (List.finRange n) (labelToSource comp) := by
  suffices h : ∀ post pre m, Represents comp pre m →
      Represents comp (pre ++ post) (post.foldl (fun m v => assign m (comp v) v) m) from
    h (List.finRange n) [] [] ⟨List.nodup_nil, by simp, by simp⟩
  intro post
  induction post with
  | nil =>
    intro pre m h
    rwa [List.append_nil]
  | cons v post ih =>
    intro pre m h
    have hnext := ih (pre ++ [v]) _ (h.assign v)
    rwa [List.append_assoc] at hnext

theorem Represents.perm {comp : Fin n → Int} {l : List (Fin n)} {m m' : List (Int × Fin n)}
    (h : Represents comp l m) (hm : m'.Perm m) : Represents comp l m' := by
  refine ⟨(hm.map Prod.fst).nodup_iff.mpr h.nodup, fun p hp => h.label p (hm.mem_iff.mp hp), fun v hv => ?_⟩
  obtain ⟨p, hp, heq⟩ := h.total v hv
  exact ⟨p, hm.mem_iff.mpr hp, heq⟩

/-! ## One search -/

variable {g : Graph n} {comp : Fin n → Int}

/-- Between two searches the visited vertices are the components that have been searched, and each of
these has one label. -/
structure Covered (g : Graph n) (comp : Fin n → Int) (pre : List (Int × Fin n)) (s : CcVerifierMem n) :
    Prop where
  visited : ∀ v, s.visited.getBit v = true ↔ ∃ p ∈ pre, g.Weak p.2 v
  label : ∀ p ∈ pre, ∀ v, g.Weak p.2 v → comp v = p.1

/-- The search from `source` has come to position `it`. -/
structure Reaching (g : Graph n) (comp : Fin n → Int) (pre : List (Int × Fin n)) (label : Int)
    (source : Fin n) (it : Nat) (s : CcVerifierMem n) : Prop where
  le : it ≤ s.frontier.length
  nodup : s.frontier.Nodup
  root : source ∈ s.frontier
  weak : ∀ v ∈ s.frontier, g.Weak source v
  label : ∀ v ∈ s.frontier, comp v = label
  visited : ∀ v, s.visited.getBit v = true ↔ v ∈ s.frontier ∨ ∃ p ∈ pre, g.Weak p.2 v
  closed : ∀ j < it, ∀ u, s.frontier[j]? = some u → ∀ v, g.Edge u v ∨ g.Edge v u →
    s.visited.getBit v = true

variable {pre : List (Int × Fin n)} {label : Int} {source : Fin n} {it : Nat}

theorem setBit_solo {Q : Unit → CcVerifierMem n → Prop} {s : CcVerifierMem n} {v : Fin n}
    (h : Q () { s with visited := s.visited.insert v }) :
    Solo ((Bitmap.setBit v).zoom CcVerifierMem.visitedLens) s Q := by
  have hset : Solo (Bitmap.setBit v) s.visited fun _ b => b = s.visited.insert v := by
    apply Solo.load_bind
    apply Solo.store
    rfl
  apply (Solo.zoom (l := CcVerifierMem.visitedLens) hset).mono
  rintro ⟨⟩ t ⟨hb, ht⟩
  rw [ht, hb]
  exact h

/-- What a search keeps: the vertex at its position and the visited vertices. -/
def Extends (it : Nat) (u : Fin n) (s s' : CcVerifierMem n) : Prop :=
  s'.frontier[it]? = some u ∧ ∀ v, s.visited.getBit v = true → s'.visited.getBit v = true

/-- A new vertex of the component. -/
theorem Reaching.push {s : CcVerifierMem n} (h : Reaching g comp pre label source it s) {u v : Fin n}
    (hu : s.frontier[it]? = some u) (hv : g.Weak u v) (hlabel : comp v = label)
    (hnew : s.visited.getBit v = false) :
    ∃ s', CcVerifierMem.pushBack { s with visited := s.visited.insert v } v = some s' ∧
      Reaching g comp pre label source it s' ∧ Extends it u s s' ∧ s'.visited.getBit v = true := by
  have hfresh : v ∉ s.frontier := fun hmem => by
    have hbit := (h.visited v).mpr (.inl hmem)
    rw [hnew] at hbit
    cases hbit
  have hnodup : (s.frontier ++ [v]).Nodup :=
    h.nodup.append (List.nodup_singleton v) (by simpa using hfresh)
  have humem := List.mem_of_getElem? hu
  have hpos : it < s.frontier.length := (List.getElem?_eq_some_iff.mp hu).1
  have hbit (x : Fin n) : (s.visited.insert v).getBit x = true ↔ x = v ∨ s.visited.getBit x = true := by
    simp
  have hkeep {j : Nat} (hj : j < s.frontier.length) : (s.frontier ++ [v])[j]? = s.frontier[j]? :=
    List.getElem?_append_left hj
  refine ⟨⟨s.visited.insert v, s.frontier ++ [v]⟩, ?_, ⟨?_, hnodup, ?_, fun x hx => ?_, fun x hx => ?_,
    fun x => ?_, fun j hj y hy x hyx => ?_⟩, ⟨?_, fun x hx => ?_⟩, ?_⟩
  · show (RawArray.pushReserved n s.frontier v).map _ = _
    rw [RawArray.pushReserved_of_nodup hnodup]
    rfl
  · show it ≤ (s.frontier ++ [v]).length
    rw [List.length_append]
    omega
  · exact List.mem_append.mpr (.inl h.root)
  · rcases List.mem_append.mp hx with hx | hx
    · exact h.weak x hx
    · rw [List.mem_singleton.mp hx]
      exact g.weak_equivalence.trans (h.weak u humem) hv
  · rcases List.mem_append.mp hx with hx | hx
    · exact h.label x hx
    · rw [List.mem_singleton.mp hx, hlabel]
  · show (s.visited.insert v).getBit x = true ↔ x ∈ s.frontier ++ [v] ∨ _
    rw [hbit, h.visited, List.mem_append, List.mem_singleton, ← or_assoc, or_comm (a := x = v)]
  · change (s.frontier ++ [v])[j]? = some y at hy
    rw [hkeep (by omega)] at hy
    exact (hbit x).mpr (.inr (h.closed j hj y hy x hyx))
  · exact (hkeep hpos).trans hu
  · exact (hbit x).mpr (.inr hx)
  · exact (hbit v).mpr (.inl rfl)

/-- The neighbours of the vertex at position `it`: all are visited, or one has another label. -/
theorem searchNeigh_solo {s : CcVerifierMem n} (h : Reaching g comp pre label source it s) {u : Fin n}
    (hu : s.frontier[it]? = some u) {neighbors : List (Fin n)} (hweak : ∀ v ∈ neighbors, g.Weak u v) :
    Solo (searchNeigh comp label neighbors) s fun r s' => match r with
      | .inl _ => Reaching g comp pre label source it s' ∧ Extends it u s s' ∧
          ∀ v ∈ neighbors, s'.visited.getBit v = true
      | .inr b => b = false ∧ ∃ v ∈ neighbors, comp v ≠ label := by
  apply (Solo.forBreak (fun done _ s' => Reaching g comp pre label source it s' ∧ Extends it u s s' ∧
    ∀ v ∈ done, s'.visited.getBit v = true) (fun b _ => b = false ∧ ∃ v ∈ neighbors, comp v ≠ label)
    ⟨h, ⟨hu, fun _ hv => hv⟩, by simp⟩ ?_).mono
  · rintro (_ | b) s' hr <;> exact hr
  rintro done v post ⟨⟩ s' hsplit ⟨hs', hext, hdone⟩
  have hv : v ∈ neighbors := by simp [hsplit]
  by_cases hlabel : comp v = label
  · show Solo (if comp v ≠ label then _ else _) _ _
    rw [if_neg (not_not.mpr hlabel)]
    apply Solo.load_bind
    cases hseen : s'.visited.getBit v with
    | true =>
      refine Solo.ret ⟨hs', hext, fun w hw => ?_⟩
      rcases List.mem_append.mp hw with hw | hw
      · exact hdone w hw
      · rw [List.mem_singleton.mp hw, hseen]
    | false =>
      obtain ⟨t, hpush, ht, hext', htv⟩ := hs'.push hext.1 (hweak v hv) hlabel hseen
      apply Solo.bind
      apply setBit_solo
      apply Solo.storeAt_bind hpush
      refine Solo.ret ⟨ht, ⟨hext'.1, fun w hw => hext'.2 w (hext.2 w hw)⟩, fun w hw => ?_⟩
      rcases List.mem_append.mp hw with hw | hw
      · exact hext'.2 w (hdone w hw)
      · rw [List.mem_singleton.mp hw, htv]
  · show Solo (if comp v ≠ label then _ else _) _ _
    rw [if_pos hlabel]
    exact Solo.ret ⟨rfl, v, hv, hlabel⟩

/-- All neighbours of the vertex at position `it` have been visited. -/
theorem Reaching.next {s : CcVerifierMem n} (h : Reaching g comp pre label source it s) {u : Fin n}
    (hu : s.frontier[it]? = some u)
    (hall : ∀ v, g.Edge u v ∨ g.Edge v u → s.visited.getBit v = true) :
    Reaching g comp pre label source (it + 1) s := by
  refine ⟨(List.getElem?_eq_some_iff.mp hu).1, h.nodup, h.root, h.weak, h.label, h.visited, ?_⟩
  intro j hj y hy v hyv
  rcases Nat.lt_succ_iff_lt_or_eq.mp hj with hlt | rfl
  · exact h.closed j hlt y hy v hyv
  · rw [hu] at hy
    obtain rfl := Option.some.inj hy
    exact hall v hyv

/-- A set of vertices that no edge leaves in either direction is a union of components. -/
theorem weak_closed {P : Fin n → Prop} (h : ∀ u v, P u → g.Edge u v ∨ g.Edge v u → P v) {u v : Fin n}
    (huv : g.Weak u v) (hu : P u) : P v := by
  have hiff : P u ↔ P v := Graph.Weak.lift (r := fun u v => P u ↔ P v)
    ⟨fun _ => Iff.rfl, Iff.symm, Iff.trans⟩
    (fun u v hE => ⟨fun hu => h u v hu (.inl hE), fun hv => h v u hv (.inr hE)⟩) huv
  exact hiff.mp hu

/-- The end of a search: its component has been visited. -/
theorem Reaching.covered {s : CcVerifierMem n} (hcomp : comp source = label)
    (h : Reaching g comp pre label source s.frontier.length s)
    (hpre : ∀ p ∈ pre, ∀ v, g.Weak p.2 v → comp v = p.1) (hnew : ∀ p ∈ pre, p.1 ≠ label) :
    Covered g comp (pre ++ [(label, source)]) s := by
  have hclosed : ∀ u v, s.visited.getBit u = true → g.Edge u v ∨ g.Edge v u →
      s.visited.getBit v = true := by
    intro u v hu huv
    rcases (h.visited u).mp hu with hmem | ⟨p, hp, hweak⟩
    · obtain ⟨j, hj, hju⟩ := List.getElem_of_mem hmem
      exact h.closed j hj u (by rw [List.getElem?_eq_getElem hj, hju]) v huv
    · refine (h.visited v).mpr (.inr ⟨p, hp, g.weak_equivalence.trans hweak ?_⟩)
      rcases huv with hE | hE
      · exact .rel u v hE
      · exact .symm _ _ (.rel v u hE)
  have hsource : s.visited.getBit source = true := (h.visited source).mpr (.inl h.root)
  have hwhole (v : Fin n) (hv : g.Weak source v) : v ∈ s.frontier := by
    rcases (h.visited v).mp (weak_closed hclosed hv hsource) with hmem | ⟨p, hp, hweak⟩
    · exact hmem
    · -- an earlier search cannot have come to this component
      have hlabel := hpre p hp source (g.weak_equivalence.trans hweak (g.weak_equivalence.symm hv))
      exact absurd (hlabel.symm.trans hcomp) (hnew p hp)
  constructor
  · intro v
    rw [h.visited]
    constructor
    · rintro (hmem | ⟨p, hp, hweak⟩)
      · exact ⟨(label, source), by simp, h.weak v hmem⟩
      · exact ⟨p, List.mem_append.mpr (.inl hp), hweak⟩
    · rintro ⟨p, hp, hweak⟩
      rcases List.mem_append.mp hp with hp | hp
      · exact .inr ⟨p, hp, hweak⟩
      · rw [List.mem_singleton.mp hp] at hweak
        exact .inl (hwhole v hweak)
  · intro p hp v hweak
    rcases List.mem_append.mp hp with hp | hp
    · exact hpre p hp v hweak
    · rw [List.mem_singleton.mp hp] at hweak ⊢
      exact h.label v (hwhole v hweak)

/-- Two labels within one component. -/
def Split (g : Graph n) (comp : Fin n → Int) : Prop := ∃ u v, g.Weak u v ∧ comp u ≠ comp v

theorem searchComponent_solo (hg : g.Transposed) {s : CcVerifierMem n} (hs : Covered g comp pre s)
    (hcomp : comp source = label) (hnew : ∀ p ∈ pre, p.1 ≠ label) :
    Solo (searchComponent g comp label source) s fun r s' => match r with
      | .inl _ => Covered g comp (pre ++ [(label, source)]) s'
      | .inr b => b = false ∧ Split g comp := by
  have hfirst : CcVerifierMem.pushBack { s with frontier := [] } source =
      some { s with frontier := [source] } := by
    show (RawArray.pushReserved n [] source).map _ = _
    rw [RawArray.pushReserved_of_nodup (by simp)]
    rfl
  apply Solo.storeAt_bind hfirst
  apply Solo.bind
  apply setBit_solo
  have hstart : Reaching g comp pre label source 0 ⟨s.visited.insert source, [source]⟩ := by
    refine ⟨Nat.zero_le _, List.nodup_singleton _, List.mem_singleton_self _, fun v hv => ?_, fun v hv => ?_,
      fun v => ?_, fun j hj => absurd hj (Nat.not_lt_zero j)⟩
    · rw [List.mem_singleton.mp hv]
      exact g.weak_equivalence.refl source
    · rw [List.mem_singleton.mp hv, hcomp]
    · rw [Bitmap.getBit_insert, Bool.or_eq_true, decide_eq_true_eq, hs.visited, List.mem_singleton]
  apply Solo.iter (fun it s => Reaching g comp pre label source it s) (fun it _ => n - it) hstart
  intro it t ht
  have hroom := ht.nodup.length_le_card
  rw [Fintype.card_fin] at hroom
  apply Solo.load_bind
  by_cases hend : it = t.frontier.length
  · rw [if_pos hend]
    exact Solo.ret (Reaching.covered hcomp (hend ▸ ht) hs.label hnew)
  rw [if_neg hend]
  have hpos : it < t.frontier.length := lt_of_le_of_ne ht.le hend
  apply Solo.loadAt_bind (b := t.frontier[it])
  · exact List.getElem?_eq_getElem hpos
  have hu : t.frontier[it]? = some t.frontier[it] := List.getElem?_eq_getElem hpos
  generalize t.frontier[it] = u at hu
  have humem := List.mem_of_getElem? hu
  -- a neighbour with another label is in the component of `u` all the same
  have hsplit {neighbors : List (Fin n)} (hweak : ∀ v ∈ neighbors, g.Weak u v)
      (h : ∃ v ∈ neighbors, comp v ≠ label) : Split g comp := by
    obtain ⟨v, hv, hne⟩ := h
    exact ⟨u, v, hweak v hv, (ht.label u humem).trans_ne hne.symm⟩
  have hout : ∀ v ∈ g.outNeigh u, g.Weak u v := fun v hv => .rel u v hv
  have hin : ∀ v ∈ g.inNeigh u, g.Weak u v := fun v hv => .symm _ _ (.rel v u ((hg v u).mp hv))
  apply Solo.bind
  apply (searchNeigh_solo ht hu hout).mono
  rintro (_ | b) t' hr
  · obtain ⟨ht', hext, hseen⟩ := hr
    cases hd : g.directed with
    | true =>
      apply Solo.bind
      apply (searchNeigh_solo ht' hext.1 hin).mono
      rintro (_ | b) t'' hr
      · obtain ⟨ht'', hext', hseen'⟩ := hr
        refine Solo.ret ⟨ht''.next hext'.1 fun v hv => ?_, by omega⟩
        rcases hv with hE | hE
        · exact hext'.2 v (hseen v hE)
        · exact hseen' v ((hg v u).mpr hE)
      · exact Solo.ret ⟨hr.1, hsplit hin hr.2⟩
    | false =>
      refine Solo.ret ⟨ht'.next hext.1 fun v hv => ?_, by omega⟩
      rcases hv with hE | hE
      · exact hseen v hE
      · exact hseen v (hg.symm hd hE)
  · exact Solo.ret ⟨hr.1, hsplit hout hr.2⟩

/-! ## The whole verifier -/

/-- All components have been searched, without a failure. -/
theorem Covered.partition {m : List (Int × Fin n)} {s : CcVerifierMem n} (h : Covered g comp m s)
    (hm : Represents comp (List.finRange n) m) :
    (∀ v, s.visited.getBit v = true) ↔ ∀ u v, comp u = comp v ↔ g.Weak u v := by
  constructor
  · intro hall u v
    obtain ⟨p, hp, hpu⟩ := (h.visited u).mp (hall u)
    constructor
    · intro heq
      obtain ⟨q, hq, hqv⟩ := (h.visited v).mp (hall v)
      have hlabel : p.1 = q.1 := by
        rw [← h.label p hp u hpu, ← h.label q hq v hqv, heq]
      have hpq : p = q := List.inj_on_of_nodup_map hm.nodup hp hq hlabel
      exact g.weak_equivalence.trans (g.weak_equivalence.symm hpu) (hpq ▸ hqv)
    · intro huv
      rw [h.label p hp u hpu, h.label p hp v (g.weak_equivalence.trans hpu huv)]
  · intro hiff v
    obtain ⟨p, hp, hlabel⟩ := hm.total v (List.mem_finRange v)
    exact (h.visited v).mpr ⟨p, hp, (hiff p.2 v).mp ((hm.label p hp).trans hlabel)⟩

theorem Split.not_partition (h : Split g comp) : ¬ ∀ u v, comp u = comp v ↔ g.Weak u v := by
  obtain ⟨u, v, hweak, hne⟩ := h
  exact fun hiff => hne ((hiff u v).mpr hweak)

/-- `CCVerifier` accepts exactly the labellings that tell the weak components apart, in whatever order
the map is traversed, and no append outgrows the capacity of `frontier`. -/
theorem ccVerifier_correct {n : Nat} (g : Graph n) (hg : g.Transposed) (comp : Fin n → Int)
    (s₀ : CcVerifierMem n) :
    (ccVerifier g comp).Correct s₀ fun r _ => r = true ↔ ∀ u v, comp u = comp v ↔ g.Weak u v := by
  apply Solo.correct
  apply Solo.store_bind
  apply Solo.pick_bind
  rintro ⟨entries, hperm⟩
  have hm := (represents_labelToSource comp).perm hperm
  have hstart : Covered g comp [] ⟨s₀.visited.reset, []⟩ := ⟨fun v => by simp, by simp⟩
  apply Solo.bind
  apply (Solo.forBreak (fun pre _ s => Covered g comp pre s) (fun b _ => b = false ∧ Split g comp) hstart
    ?_).mono
  · rintro (_ | b) s hr
    · change Covered g comp entries s at hr
      rw [← hr.partition hm]
      apply Solo.bind
      apply (Solo.forBreak (fun pre _ s' => s' = s ∧ ∀ v ∈ pre, s.visited.getBit v = true)
        (fun b _ => b = false ∧ ∃ v, s.visited.getBit v = false) ⟨rfl, by simp⟩ ?_).mono
      · rintro (_ | b) s' hr'
        · exact Solo.ret (iff_of_true rfl fun v => hr'.2 v (List.mem_finRange v))
        · obtain ⟨rfl, v, hv⟩ := hr'
          refine Solo.ret (iff_of_false nofun fun hall => ?_)
          rw [hall v] at hv
          cases hv
      · rintro pre v post ⟨⟩ s' - ⟨rfl, hpre⟩
        apply Solo.load_bind
        cases hseen : s'.visited.getBit v with
        | true =>
          refine Solo.ret ⟨rfl, fun w hw => ?_⟩
          rcases List.mem_append.mp hw with hw | hw
          · exact hpre w hw
          · rw [List.mem_singleton.mp hw, hseen]
        | false => exact Solo.ret ⟨rfl, v, hseen⟩
    · obtain ⟨rfl, hsplit⟩ := hr
      exact Solo.ret (iff_of_false nofun hsplit.not_partition)
  · rintro pre ⟨label, source⟩ post ⟨⟩ s hsplit hs
    change entries = pre ++ (label, source) :: post at hsplit
    have hmem : (label, source) ∈ entries := by
      rw [hsplit]
      simp
    -- each label is in the map once
    have hnew : ∀ p ∈ pre, p.1 ≠ label := by
      intro p hp heq
      have hnodup := hm.nodup
      rw [hsplit, List.map_append, List.nodup_append] at hnodup
      exact hnodup.2.2 p.1 (List.mem_map_of_mem hp) label (by simp) heq
    apply (searchComponent_solo hg hs (hm.label (label, source) hmem) hnew).mono
    rintro (_ | b) t hr <;> exact hr

theorem ccVerifier_correct_pair :
    (ccVerifier pairGraph ![0, 0]).Correct ⟨⟨fun _ => 0⟩, []⟩ fun r _ =>
      r = true ↔ ∀ u v, ![(0 : Int), 0] u = ![(0 : Int), 0] v ↔ pairGraph.Weak u v :=
  ccVerifier_correct pairGraph (by decide) ![0, 0] _

end Gapbs
