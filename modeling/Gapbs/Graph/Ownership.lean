import Gapbs.Graph.Pointers

/-!
# Who owns the arrays of the graphs

Any sequence of operations on any number of `CSRGraph`s: the pointers describe the graphs that the
objects stand for, every array has one owner, and none is freed twice or left behind.
-/

namespace Gapbs

open Conc Function RawArray BlockHeap

variable {ι DestID : Type}

/-! ## What the pointers describe -/

namespace GraphMem

variable {m m' : GraphMem ι DestID} {n : Nat} {c : Csr n DestID} {index neighs : Ptr}

/-- The array at `index` points into the array at `neighs`, and these are the arrays of `c`. -/
structure Stores (m : GraphMem ι DestID) (index neighs : Ptr) (c : Csr n DestID) (i b : Nat) : Prop where
  index_eq : index = some ⟨i, 0⟩
  neighs_eq : neighs = some ⟨b, 0⟩
  pointers : m.indices.blocks i = some (List.ofFn fun k => some (some ⟨b, c.index k⟩))
  cells : m.neighbors.blocks b = some (c.neighbors.map some)

namespace Stores

variable {i b : Nat}

theorem congr (h : Stores m index neighs c i b) (hi : m'.indices.blocks i = m.indices.blocks i)
    (hb : m'.neighbors.blocks b = m.neighbors.blocks b) : Stores m' index neighs c i b :=
  ⟨h.index_eq, h.neighs_eq, hi.trans h.pointers, hb.trans h.cells⟩

theorem indexAt (h : Stores m index neighs c i b) (k : Fin (n + 1)) :
    m.indexAt index k = some (some ⟨b, c.index k⟩) := by
  have hk : k.val < (List.ofFn fun k => some (some (⟨b, c.index k⟩ : Place))).length := by
    rw [List.length_ofFn]
    exact k.isLt
  rw [GraphMem.indexAt, h.index_eq, Heap.add_eq h.pointers (by omega), Option.bind_some, Nat.zero_add,
    Heap.read_eq h.pointers, List.getElem?_eq_getElem hk, List.getElem_ofFn]
  rfl

theorem indexDiff (h : Stores m index neighs c i b) (k j : Fin (n + 1)) :
    m.indexDiff index k j = some ((c.index k : Int) - c.index j) := by
  rw [GraphMem.indexDiff, h.indexAt k, h.indexAt j, Option.bind_some, Option.bind_some, ptrDiff_eq]

theorem degree (h : Stores m index neighs c i b) (u : Fin n) :
    m.indexDiff index (u + 1) u = some (c.degree u : Int) := by
  have hle := c.index_le u
  have hdiff := h.indexDiff u.succ u.castSucc
  rw [Csr.degree, Int.natCast_sub hle, ← hdiff]
  rfl

/-- `index[num_nodes] - index[0]` -/
theorem total (h : Stores m index neighs c i b) :
    m.indexDiff index n 0 = some ((c.index (Fin.last n) - c.index 0 : Nat) : Int) := by
  have hle : c.index 0 ≤ c.index (Fin.last n) := c.index_mono (Fin.le_last 0)
  have hdiff := h.indexDiff (Fin.last n) 0
  rw [Int.natCast_sub hle, ← hdiff]
  rfl

theorem neighborhood (h : Stores m index neighs c i b) (hm : m.neighbors.Ok) (u : Fin n) (r : Nat) :
    m.neighborhood index u r = some ((c.neigh u r).map some) := by
  have hle := c.index_le u
  have hlast := c.index_le_length u.succ
  have hsmall := hm.small b _ h.cells
  rw [List.length_map] at hsmall
  have hmax : diffSize (c.degree u) = c.degree u := diffSize_eq (by rw [Csr.degree]; omega)
  have hfirst : m.indexAt index u = _ := h.indexAt u.castSucc
  have hbound : m.indexAt index (u + 1) = _ := h.indexAt u.succ
  have hadd : m.neighbors.add (some ⟨b, c.index u.castSucc⟩) (min r (c.degree u)) =
      some (some ⟨b, c.index u.castSucc + min r (c.degree u)⟩) := by
    apply Heap.add_eq h.cells
    rw [List.length_map, Csr.degree]
    omega
  have hrange : m.neighbors.range (some ⟨b, c.index u.castSucc + min r (c.degree u)⟩)
      (some ⟨b, c.index u.succ⟩) =
        some (slice (c.neighbors.map some) (c.index u.castSucc + min r (c.degree u)) (c.index u.succ)) := by
    apply Heap.range_eq h.cells
    · rw [Csr.degree]
      omega
    · rwa [List.length_map]
  simp only [GraphMem.neighborhood, h.degree u, hfirst, hbound, Option.bind_eq_bind, Option.bind_some,
    hmax, hadd, hrange]
  simp [Csr.neigh, Csr.degree, slice, List.map_take, List.map_drop]

end Stores

end GraphMem

/-! ## Slots

A slot is one direction of an object, which owns an array in each of the two heaps. -/

/-- The pointers that the object frees for the outgoing edges, and for the incoming ones. -/
def GraphVar.owned (v : GraphVar) (incoming : Bool) : Ptr × Ptr :=
  if incoming then (if v.directed then (v.inIndex, v.inNeighbors) else (none, none))
  else (v.outIndex, v.outNeighbors)

@[simp] theorem GraphVar.owned_moved (v : GraphVar) (incoming : Bool) :
    v.moved.owned incoming = (none, none) := by
  cases incoming with
  | false => rfl
  | true => exact ite_self _

/-- The array of a slot, in the heap that `pick` selects. -/
def slots (pick : Ptr × Ptr → Ptr) (vars : ι → Option GraphVar) (s : ι × Bool) : Option Nat :=
  (vars s.1).bind fun v => (pick (v.owned s.2)).map Place.block

section Slots

variable {pick : Ptr × Ptr → Ptr} {vars : ι → Option GraphVar} {x y : ι}

theorem slots_eq {v : GraphVar} (hx : vars x = some v) (incoming : Bool) :
    slots pick vars (x, incoming) = (pick (v.owned incoming)).map Place.block := by
  rw [slots, hx, Option.bind_some]

theorem slots_eq_none (hx : vars x = none) (incoming : Bool) : slots pick vars (x, incoming) = none := by
  rw [slots, hx, Option.bind_none]

variable [DecidableEq ι]

/-- The object `x` has the arrays `out` and `inn`. -/
theorem slots_update {v : Option GraphVar} {out inn : Option Nat}
    (hout : slots pick (update vars x v) (x, false) = out)
    (hinn : slots pick (update vars x v) (x, true) = inn) :
    slots pick (update vars x v) =
      update (update (slots pick vars) (x, false) out) (x, true) inn := by
  funext s
  obtain ⟨y, incoming⟩ := s
  by_cases hy : y = x
  · subst hy
    cases incoming
    · rw [hout, update_of_ne (by simp), update_self]
    · rw [hinn, update_self]
  · rw [update_of_ne (by simp [hy]), update_of_ne (by simp [hy]), slots, slots, update_of_ne hy]

/-- The arrays of a moved object belong to the new one. -/
theorem slots_moved (hpick : pick (none, none) = none) {w : GraphVar} (hx : vars x = none)
    (hy : vars y = some w) : slots pick (update (update vars x (some w)) y (some w.moved)) =
      slots pick vars ∘ (Equiv.swap x y).prodCongr (Equiv.refl Bool) := by
  funext s
  obtain ⟨z, incoming⟩ := s
  show slots pick _ (z, incoming) = slots pick vars (Equiv.swap x y z, incoming)
  by_cases hzy : z = y
  · subst hzy
    rw [Equiv.swap_apply_right, slots_eq_none hx, slots_eq (update_self ..), GraphVar.owned_moved, hpick]
    rfl
  · by_cases hzx : z = x
    · subst hzx
      rw [Equiv.swap_apply_left, slots_eq hy, slots_eq (v := w)]
      rw [update_of_ne hzy, update_self]
    · rw [Equiv.swap_apply_of_ne_of_ne hzx hzy, slots, slots, update_of_ne hzy, update_of_ne hzx]

end Slots

/-! ## The invariant -/

namespace GraphMem

/-- The members of an object that stands for `g`. -/
structure Represents (m : GraphMem ι DestID) (invert : Bool) (v : GraphVar) {n : Nat}
    (g : CSRGraph n DestID) : Prop where
  directed : v.directed = g.directed
  numNodes : v.numNodes = n
  numEdges : v.numEdges = g.numEdges
  out : ∃ i b, m.Stores v.outIndex v.outNeighbors g.out i b
  shared : g.directed = false → v.inIndex = v.outIndex ∧ v.inNeighbors = v.outNeighbors
  inverse : g.directed = true → invert = true → ∃ i b, m.Stores v.inIndex v.inNeighbors g.inn i b
  single : g.directed = true → invert = false → v.inIndex = none ∧ v.inNeighbors = none

/-- The object stands for `c`. -/
inductive Holds (m : GraphMem ι DestID) (invert : Bool) : GraphVar → GraphContent DestID → Prop
  | moved (v : GraphVar) : Holds m invert v.moved none
  | graph {v : GraphVar} {n : Nat} {g : CSRGraph n DestID} (h : m.Represents invert v g) :
    Holds m invert v (some ⟨n, g⟩)

/-- Every array has one owner, and every object stands for what the list of operations says. -/
structure Inv (m : GraphMem ι DestID) (invert : Bool) (V : ι → Option (GraphContent DestID)) : Prop where
  indices : Owns m.indices (slots Prod.fst m.vars)
  neighbors : Owns m.neighbors (slots Prod.snd m.vars)
  holds : ∀ x, Option.Rel (m.Holds invert) (m.vars x) (V x)

variable {m m' : GraphMem ι DestID} {invert : Bool} {v : GraphVar} {c : GraphContent DestID} {x : ι}
  {V : ι → Option (GraphContent DestID)}

/-- The arrays of `x` are as they were. -/
structure Kept (m m' : GraphMem ι DestID) (x : ι) : Prop where
  indices : ∀ d i, slots Prod.fst m.vars (x, d) = some i → m'.indices.blocks i = m.indices.blocks i
  neighbors : ∀ d b, slots Prod.snd m.vars (x, d) = some b →
    m'.neighbors.blocks b = m.neighbors.blocks b

theorem Represents.congr {n : Nat} {g : CSRGraph n DestID} (h : m.Represents invert v g)
    (hx : m.vars x = some v) (hkept : m.Kept m' x) : m'.Represents invert v g := by
  have hstores (d : Bool) {index neighs : Ptr} {k : Nat} {c : Csr k DestID}
      (howned : v.owned d = (index, neighs)) (h : ∃ i b, m.Stores index neighs c i b) :
      ∃ i b, m'.Stores index neighs c i b := by
    obtain ⟨i, b, h⟩ := h
    refine ⟨i, b, h.congr (hkept.indices d i ?_) (hkept.neighbors d b ?_)⟩
    · rw [slots_eq hx, howned, h.index_eq]
      rfl
    · rw [slots_eq hx, howned, h.neighs_eq]
      rfl
  refine ⟨h.directed, h.numNodes, h.numEdges, hstores false rfl h.out, h.shared, fun hd hi => ?_,
    h.single⟩
  apply hstores true _ (h.inverse hd hi)
  rw [GraphVar.owned, if_pos rfl, if_pos (h.directed.trans hd)]

theorem Holds.congr (h : m.Holds invert v c) (hx : m.vars x = some v) (hkept : m.Kept m' x) :
    m'.Holds invert v c := by
  cases h with
  | moved v => exact .moved v
  | graph h => exact .graph (h.congr hx hkept)

/-- The pointers that are freed point to the first cells of the arrays. -/
theorem Holds.owned_eq (h : m.Holds invert v c) (d : Bool) :
    v.owned d = (((v.owned d).1.map Place.block).map fun i => ⟨i, 0⟩,
      ((v.owned d).2.map Place.block).map fun b => ⟨b, 0⟩) := by
  cases h with
  | moved v => rw [GraphVar.owned_moved]; rfl
  | @graph v n g h =>
    obtain ⟨i, b, hout⟩ := h.out
    cases d with
    | false =>
      rw [GraphVar.owned, if_neg (by simp), hout.index_eq, hout.neighs_eq]
      rfl
    | true =>
      rw [GraphVar.owned, if_pos rfl, h.directed]
      cases hd : g.directed with
      | false => rfl
      | true =>
        rw [if_pos rfl]
        cases invert with
        | false =>
          obtain ⟨hindex, hneighs⟩ := h.single hd rfl
          rw [hindex, hneighs]
          rfl
        | true =>
          obtain ⟨j, e, hin⟩ := h.inverse hd rfl
          rw [hin.index_eq, hin.neighs_eq]
          rfl

/-- An object that has not changed still stands for its graph. -/
theorem Inv.rel_congr (hm : m.Inv invert V) (hx : m'.vars x = m.vars x) (hkept : m.Kept m' x) :
    Option.Rel (m'.Holds invert) (m'.vars x) (V x) := by
  have hrel := hm.holds x
  rw [hx]
  generalize V x = c at hrel ⊢
  cases hv : m.vars x with
  | none =>
    rw [hv] at hrel
    cases hrel
    exact .none
  | some v =>
    rw [hv] at hrel
    cases hrel with
    | some h => exact .some (h.congr hv hkept)

theorem Inv.content_eq_none (hm : m.Inv invert V) (hx : m.vars x = none) : V x = none := by
  have hrel := hm.holds x
  rw [hx] at hrel
  generalize V x = c at hrel ⊢
  cases hrel
  rfl

theorem Inv.content (hm : m.Inv invert V) (hx : m.vars x = some v) :
    ∃ c, V x = some c ∧ m.Holds invert v c := by
  have hrel := hm.holds x
  rw [hx] at hrel
  generalize V x = c at hrel ⊢
  cases hrel with
  | some h => exact ⟨_, rfl, h⟩

theorem inv_empty : (empty : GraphMem ι DestID).Inv invert fun _ => none :=
  ⟨Owns.empty, Owns.empty, fun _ => .none⟩

variable [DecidableEq ι] {y : ι} {w : GraphVar}

/-- One object is replaced, with arrays that no other object owns. -/
theorem Inv.replaced (hm : m.Inv invert V) {v : Option GraphVar} (hvars : m'.vars = update m.vars x v)
    (hindices : Owns m'.indices (slots Prod.fst m'.vars))
    (hneighbors : Owns m'.neighbors (slots Prod.snd m'.vars)) (hkept : ∀ y, y ≠ x → m.Kept m' y)
    {c : Option (GraphContent DestID)} (hc : Option.Rel (m'.Holds invert) v c) :
    m'.Inv invert (update V x c) := by
  refine ⟨hindices, hneighbors, fun y => ?_⟩
  by_cases hy : y = x
  · subst hy
    rwa [hvars, update_self, update_self]
  · rw [update_of_ne hy]
    apply hm.rel_congr _ (hkept y hy)
    rw [hvars, update_of_ne hy]

theorem Represents.setVar {n : Nat} {g : CSRGraph n DestID} {u : Option GraphVar}
    (h : m.Represents invert v g) : (m.setVar x u).Represents invert v g := by
  have hstores {index neighs : Ptr} {k : Nat} {c : Csr k DestID}
      (h : ∃ i b, m.Stores index neighs c i b) : ∃ i b, (m.setVar x u).Stores index neighs c i b := by
    obtain ⟨i, b, h⟩ := h
    exact ⟨i, b, h.congr rfl rfl⟩
  exact ⟨h.directed, h.numNodes, h.numEdges, hstores h.out, h.shared,
    fun hd hi => hstores (h.inverse hd hi), h.single⟩

/-- `x` is constructed over new arrays. -/
theorem Inv.built (hm : m.Inv invert V) {n : Nat} {g : CSRGraph n DestID} (hvars : m'.vars = m.vars)
    (hg : m'.Represents invert v g)
    (hindices : Owns m'.indices (update (update (slots Prod.fst m.vars) (x, false)
      ((v.owned false).1.map Place.block)) (x, true) ((v.owned true).1.map Place.block)))
    (hneighbors : Owns m'.neighbors (update (update (slots Prod.snd m.vars) (x, false)
      ((v.owned false).2.map Place.block)) (x, true) ((v.owned true).2.map Place.block)))
    (hkeptI : ∀ i, m.indices.blocks i ≠ none → m'.indices.blocks i = m.indices.blocks i)
    (hkeptN : ∀ b, m.neighbors.blocks b ≠ none → m'.neighbors.blocks b = m.neighbors.blocks b) :
    (m'.setVar x (some v)).Inv invert (update V x (some (some ⟨n, g⟩))) := by
  have hself (pick : Ptr × Ptr → Ptr) (d : Bool) : slots pick (update m.vars x (some v)) (x, d) =
      (pick (v.owned d)).map Place.block := slots_eq (update_self ..) d
  have hvars' : (m'.setVar x (some v)).vars = update m.vars x (some v) := congrArg (update · x _) hvars
  apply hm.replaced hvars' _ _ _ (.some (.graph hg.setVar))
  · rwa [hvars', slots_update (hself _ false) (hself _ true)]
  · rwa [hvars', slots_update (hself _ false) (hself _ true)]
  · exact fun y _ => ⟨fun d i hi => hkeptI i (hm.indices.alive _ i hi),
      fun d b hb => hkeptN b (hm.neighbors.alive _ b hb)⟩

/-- `x` is constructed from `y`. -/
theorem Inv.moved (hm : m.Inv invert V) (hx : m.vars x = none) (hy : m.vars y = some w) :
    ((m.setVar x (some w)).setVar y (some w.moved)).Inv invert
      (update (update V x (V y)) y (some none)) := by
  have hxy : x ≠ y := by
    rintro rfl
    rw [hx] at hy
    cases hy
  have hkept (z : ι) : m.Kept ((m.setVar x (some w)).setVar y (some w.moved)) z :=
    ⟨fun _ _ _ => rfl, fun _ _ _ => rfl⟩
  obtain ⟨c, hc, hholds⟩ := hm.content hy
  refine ⟨?_, ?_, fun z => ?_⟩
  · show Owns m.indices (slots Prod.fst (update (update m.vars x (some w)) y (some w.moved)))
    rw [slots_moved rfl hx hy]
    exact hm.indices.equiv _
  · show Owns m.neighbors (slots Prod.snd (update (update m.vars x (some w)) y (some w.moved)))
    rw [slots_moved rfl hx hy]
    exact hm.neighbors.equiv _
  · show Option.Rel _ (update (update m.vars x (some w)) y (some w.moved) z) _
    by_cases hzy : z = y
    · subst hzy
      rw [update_self, update_self]
      exact .some (.moved w)
    · rw [update_of_ne hzy, update_of_ne hzy]
      by_cases hzx : z = x
      · subst hzx
        rw [update_self, update_self, hc]
        exact .some (hholds.congr hy (hkept y))
      · rw [update_of_ne hzx, update_of_ne hzx]
        have hz : ((m.setVar x (some w)).setVar y (some w.moved)).vars z = m.vars z :=
          (update_of_ne hzy ..).trans (update_of_ne hzx ..)
        have hrel := hm.rel_congr hz (hkept z)
        rwa [hz] at hrel

end GraphMem

/-! ## Freeing arrays -/

namespace CSRGraph

open GraphMem

variable {m : GraphMem ι DestID} {x : ι} {v : GraphVar} {invert : Bool}
  {V : ι → Option (GraphContent DestID)}

theorem this_bind {α : Type} {k : GraphVar → Prog (GraphMem ι DestID) α}
    {Q : α → GraphMem ι DestID → Prop} (hx : m.vars x = some v) (h : Solo (k v) m Q) :
    Solo ((this x).bind k) m Q :=
  Solo.loadAt_bind hx h

/-- The arrays of one slot are freed. -/
structure Freed {σ : Type} [DecidableEq σ] (m m' : GraphMem ι DestID) (slotI slotN : σ → Option Nat)
    (s : σ) : Prop where
  vars : m'.vars = m.vars
  indices : Owns m'.indices (update slotI s none)
  neighbors : Owns m'.neighbors (update slotN s none)
  keptIndices : ∀ i, slotI s ≠ some i → m'.indices.blocks i = m.indices.blocks i
  keptNeighbors : ∀ b, slotN s ≠ some b → m'.neighbors.blocks b = m.neighbors.blocks b

section Free

variable {σ E : Type} [DecidableEq σ] {h : Heap E} {slot : σ → Option Nat} {s : σ}

/-- `if (p != nullptr) delete[] p` -/
theorem free_owned (ho : Owns h slot) : ∃ h', Heap.delete ((slot s).map fun b => ⟨b, 0⟩) h = some h' ∧
    Owns h' (update slot s none) ∧ ∀ b, slot s ≠ some b → h'.blocks b = h.blocks b := by
  cases hs : slot s with
  | none =>
    refine ⟨h, rfl, ?_, fun _ _ => rfl⟩
    rwa [← hs, update_eq_self]
  | some b =>
    obtain ⟨cells, hcells⟩ := Option.ne_none_iff_exists'.mp (ho.alive s b hs)
    refine ⟨h.put b none, Heap.delete_eq hcells, ho.free hs, fun b' hb' => Heap.put_of_ne ?_ _⟩
    rintro rfl
    exact hb' rfl

end Free

theorem deleteIndex_solo {p : Ptr} {indices : Heap Ptr} (hp : Heap.delete p m.indices = some indices) :
    Solo (deleteIndex p) m fun _ m' => m' = m.setIndices indices := by
  rw [deleteIndex]
  by_cases hnull : p = none
  · subst hnull
    obtain rfl := Option.some.inj hp
    rw [if_neg (not_not_intro rfl)]
    exact Solo.ret rfl
  · rw [if_pos hnull]
    exact Solo.storeAt (by rw [hp]; rfl) rfl

theorem deleteNeighs_solo {p : Ptr} {neighbors : Heap DestID}
    (hp : Heap.delete p m.neighbors = some neighbors) :
    Solo (deleteNeighs p) m fun _ m' => m' = m.setNeighbors neighbors := by
  rw [deleteNeighs]
  by_cases hnull : p = none
  · subst hnull
    obtain rfl := Option.some.inj hp
    rw [if_neg (not_not_intro rfl)]
    exact Solo.ret rfl
  · rw [if_pos hnull]
    exact Solo.storeAt (by rw [hp]; rfl) rfl

theorem releaseArrays_solo {σ : Type} [DecidableEq σ] {slotI slotN : σ → Option Nat} {s : σ}
    (hI : Owns m.indices slotI) (hN : Owns m.neighbors slotN) :
    Solo (releaseArrays ((slotI s).map fun i => ⟨i, 0⟩) ((slotN s).map fun b => ⟨b, 0⟩)) m
      fun _ m' => Freed m m' slotI slotN s := by
  obtain ⟨indices, hindices, hI', hkeptI⟩ := free_owned (s := s) hI
  obtain ⟨neighbors, hneighbors, hN', hkeptN⟩ := free_owned (s := s) hN
  apply Solo.bind
  apply (deleteIndex_solo hindices).mono
  rintro _ _ rfl
  apply (deleteNeighs_solo (m := m.setIndices indices) hneighbors).mono
  rintro _ _ rfl
  exact ⟨rfl, hI', hN', hkeptI, hkeptN⟩

variable [DecidableEq ι]

/-- What the object owned is freed; no other object notices. -/
theorem releaseResources_solo (hm : m.Inv invert V) (hx : m.vars x = some v) :
    Solo (releaseResources x) m fun _ m' => m'.vars = m.vars ∧
      (m'.setVar x none).Inv invert (update V x none) := by
  obtain ⟨c, -, hholds⟩ := hm.content hx
  have hown (d : Bool) : v.owned d = ((slots Prod.fst m.vars (x, d)).map fun i => ⟨i, 0⟩,
      (slots Prod.snd m.vars (x, d)).map fun b => ⟨b, 0⟩) := by
    rw [slots_eq hx, slots_eq hx, ← hholds.owned_eq d]
  apply this_bind hx
  apply Solo.bind
  have hout : (v.outIndex, v.outNeighbors) = _ := hown false
  obtain ⟨hindex, hneighs⟩ := Prod.mk.inj hout
  rw [hindex, hneighs]
  apply (releaseArrays_solo hm.indices hm.neighbors).mono
  intro _ m₁ hfreed
  -- the second slot of an undirected graph is empty
  suffices hin : Solo (if v.directed then releaseArrays v.inIndex v.inNeighbors else pure ()) m₁
      fun _ m' => Freed m₁ m' (update (slots Prod.fst m.vars) (x, false) none)
        (update (slots Prod.snd m.vars) (x, false) none) (x, true) by
    apply hin.mono
    intro _ m' hfreed'
    have hvars : m'.vars = m.vars := hfreed'.vars.trans hfreed.vars
    have hslots (pick : Ptr × Ptr → Ptr) : slots pick (update m.vars x none) =
        update (update (slots pick m.vars) (x, false) none) (x, true) none := by
      apply slots_update
      · exact slots_eq_none (update_self ..) _
      · exact slots_eq_none (update_self ..) _
    have hvars' : (m'.setVar x none).vars = update m.vars x none := by
      rw [← hvars]
      rfl
    refine ⟨hvars, hm.replaced hvars' ?_ ?_ (fun y hy => ⟨fun d i hi => ?_, fun d b hb => ?_⟩) .none⟩
    · rw [hvars', hslots]
      exact hfreed'.indices
    · rw [hvars', hslots]
      exact hfreed'.neighbors
    · have hne (d' : Bool) : slots Prod.fst m.vars (x, d') ≠ some i := fun hi' =>
        hy (congrArg Prod.fst (hm.indices.apart _ _ i hi hi'))
      refine (hfreed'.keptIndices i ?_).trans (hfreed.keptIndices i (hne false))
      rw [update_of_ne (by simp)]
      exact hne true
    · have hne (d' : Bool) : slots Prod.snd m.vars (x, d') ≠ some b := fun hb' =>
        hy (congrArg Prod.fst (hm.neighbors.apart _ _ b hb hb'))
      refine (hfreed'.keptNeighbors b ?_).trans (hfreed.keptNeighbors b (hne false))
      rw [update_of_ne (by simp)]
      exact hne true
  have hslot (pick : Ptr × Ptr → Ptr) : update (slots pick m.vars) (x, false) none (x, true) =
      slots pick m.vars (x, true) := update_of_ne (by simp) ..
  cases hd : v.directed with
  | false =>
    have hnone : v.owned true = (none, none) := by simp [GraphVar.owned, hd]
    have hempty (pick : Ptr × Ptr → Ptr) (hpick : pick (none, none) = none) :
        update (update (slots pick m.vars) (x, false) none) (x, true) none =
          update (slots pick m.vars) (x, false) none := by
      apply update_eq_self_iff.mpr
      rw [hslot, slots_eq hx, hnone, hpick]
      rfl
    rw [if_neg (by simp)]
    apply Solo.ret
    refine ⟨rfl, ?_, ?_, fun _ _ => rfl, fun _ _ => rfl⟩
    · rw [hempty _ rfl]
      exact hfreed.indices
    · rw [hempty _ rfl]
      exact hfreed.neighbors
  | true =>
    have hinn : v.owned true = (v.inIndex, v.inNeighbors) := by simp [GraphVar.owned, hd]
    rw [hown true, ← hslot, ← hslot] at hinn
    obtain ⟨hindex, hneighs⟩ := Prod.mk.inj hinn
    rw [if_pos rfl, ← hindex, ← hneighs]
    exact releaseArrays_solo hfreed.indices hfreed.neighbors

end CSRGraph

/-! ## Making arrays -/

namespace CSRGraph

open GraphMem

variable {m : GraphMem ι DestID} {fitsIndex : Heap Ptr → Nat → Bool} {fitsNeighs : Heap DestID → Nat → Bool}
  {T : Nat} [NeZero T] {n : Nat}

/-- An allocation throws, or gives an array that nobody owns yet. -/
theorem newNeighs_solo (hm : m.neighbors.Ok) (numEdges : Nat) :
    Solo (newNeighs fitsNeighs numEdges) m fun p m' => p = none ∨ p = some (some ⟨m.neighbors.next, 0⟩) ∧
      ∃ neighbors, m' = m.setNeighbors neighbors ∧ neighbors.Ok ∧
        neighbors.blocks m.neighbors.next = some (List.replicate numEdges none) ∧
        ∀ b, b ≠ m.neighbors.next → neighbors.blocks b = m.neighbors.blocks b := by
  cases hnew : Heap.new fitsNeighs numEdges m.neighbors with
  | none => exact Solo.op (by rw [hnew]) (.inl rfl)
  | some r =>
    obtain ⟨p, neighbors⟩ := r
    obtain ⟨rfl, hok, hblock, hkept⟩ := hm.new hnew
    exact Solo.op (by rw [hnew]) (.inr ⟨rfl, neighbors, rfl, hok, hblock, hkept⟩)

theorem newIndex_solo (hm : m.indices.Ok) (length : Nat) :
    Solo (newIndex fitsIndex length) m fun p m' => p = none ∨ p = some (some ⟨m.indices.next, 0⟩) ∧
      ∃ indices, m' = m.setIndices indices ∧ indices.Ok ∧
        indices.blocks m.indices.next = some (List.replicate length none) ∧
        ∀ i, i ≠ m.indices.next → indices.blocks i = m.indices.blocks i := by
  cases hnew : Heap.new fitsIndex length m.indices with
  | none => exact Solo.op (by rw [hnew]) (.inl rfl)
  | some r =>
    obtain ⟨p, indices⟩ := r
    obtain ⟨rfl, hok, hblock, hkept⟩ := hm.new hnew
    exact Solo.op (by rw [hnew]) (.inr ⟨rfl, indices, rfl, hok, hblock, hkept⟩)

/-- Array `b` of neighbours has other cells. -/
def withCells (m : GraphMem ι DestID) (b : Nat) (cells : List (Option DestID)) : GraphMem ι DestID :=
  m.setNeighbors (m.neighbors.put b (some cells))

theorem fillNeighs_solo {b : Nat} (vs : List DestID)
    (hb : m.neighbors.blocks b = some (List.replicate vs.length none)) :
    Solo (fillNeighs (some ⟨b, 0⟩) vs) m fun _ m' => m' = withCells m b (vs.map some) := by
  let Inv (pre : List (Fin vs.length)) (s : GraphMem ι DestID) : Prop := ∃ cur, s = withCells m b cur ∧
    cur.length = vs.length ∧ ∀ i ∈ pre, cur[i.val]? = some (some vs[i])
  have hstart : Inv [] m := by
    refine ⟨List.replicate vs.length none, ?_, List.length_replicate, by simp⟩
    rw [withCells, Heap.put_eq_self hb]
    rfl
  apply (Solo.forEach (fun pre _ s => Inv pre s) hstart ?_).mono
  · rintro _ _ ⟨cur, rfl, hlength, hcur⟩
    have hcells : cur = vs.map some := by
      apply List.ext_getElem?
      intro j
      by_cases hj : j < vs.length
      · rw [hcur ⟨j, hj⟩ (List.mem_finRange _), List.getElem?_map, List.getElem?_eq_getElem hj]
        rfl
      · rw [List.getElem?_eq_none (by omega), List.getElem?_eq_none (by rw [List.length_map]; omega)]
    rw [hcells]
  · rintro pre k post _ _ - ⟨cur, rfl, hlength, hcur⟩
    have hblock : (withCells m b cur).neighbors.blocks b = some cur := Heap.put_self _
    have hk : k.val < cur.length := by
      rw [hlength]
      exact k.isLt
    apply Solo.storeAt (t := withCells m b (cur.set k (some vs[k])))
    · rw [Heap.add_eq hblock (by omega), Option.bind_some, Nat.zero_add, Heap.write_eq hblock hk,
        Option.map_some]
      show some ((withCells m b cur).setNeighbors ((m.neighbors.put b _).put b _)) = _
      rw [Heap.put_put]
      rfl
    · refine ⟨_, rfl, by rw [List.length_set, hlength], fun i hi => ?_⟩
      by_cases heq : i = k
      · subst heq
        exact List.getElem?_set_self hk
      · rw [List.getElem?_set_ne (fun h => heq (Fin.ext h.symm))]
        apply hcur i
        simpa [heq] using hi

/-- The loop of `GenIndex`, whose iterations may run in any order. -/
theorem genIndex_solo {b : Nat} {cells : List (Option DestID)} {offsets : List Nat} (hm : m.indices.Ok)
    (hb : m.neighbors.blocks b = some cells) (hoffsets : ∀ k ∈ offsets, k ≤ cells.length) :
    Solo (genIndex fitsIndex T offsets (some ⟨b, 0⟩)) m fun p m' => p = none ∨
      p = some (some ⟨m.indices.next, 0⟩) ∧ ∃ indices, m' = m.setIndices indices ∧ indices.Ok ∧
        indices.blocks m.indices.next = some (offsets.map fun k => some (some ⟨b, k⟩)) ∧
        ∀ i, i ≠ m.indices.next → indices.blocks i = m.indices.blocks i := by
  apply Solo.bind
  apply (newIndex_solo hm offsets.length).mono
  rintro _ m₁ (rfl | ⟨rfl, indices, rfl, hok, hblock, hkept⟩)
  · exact Solo.ret (.inl rfl)
  · -- what the loop changes is the new array
    let i := m.indices.next
    let state (cur : List (Option Ptr)) : GraphMem ι DestID := m.setIndices (indices.put i (some cur))
    have hinj : Injective state := by
      intro cur cur' heq
      have hblocks := congrArg (fun m : GraphMem ι DestID => m.indices.blocks i) heq
      simpa [state, GraphMem.setIndices] using hblocks
    have hput (cur : List (Option Ptr)) : (state cur).indices.blocks i = some cur := Heap.put_self _
    have hstate : m.setIndices indices = state (List.replicate offsets.length none) := by
      show _ = m.setIndices (indices.put i _)
      rw [Heap.put_eq_self hblock]
    have hloop : Solo (.parallelFor T offsets.length fun n => (Prog.loadAt fun m : GraphMem ι DestID =>
          m.neighbors.add (some ⟨b, 0⟩) offsets[n]).bind fun p =>
        .storeAt fun m => m.setIndexAt (some ⟨i, 0⟩) n p) (state (List.replicate offsets.length none))
        fun _ m' => m' = state (offsets.map fun k => some (some ⟨b, k⟩)) := by
      apply (Solo.parallelFor_setCells hinj (by simp) (fun k => some ⟨b, offsets[k]⟩)
        (fun k => some (some ⟨b, offsets[k]⟩)) ?_ ?_).mono
      · rintro _ _ rfl
        congr 1
        exact List.ext_getElem (by simp) (by simp)
      · intro k cur _
        have hk := hoffsets _ (List.getElem_mem k.isLt)
        have hadd := Heap.add_eq (i := 0) hb (k := offsets[k]) (by rw [Nat.zero_add]; exact hk)
        rwa [Nat.zero_add] at hadd
      · intro k cur hcur
        have hk : k.val < cur.length := by
          rw [hcur, List.length_replicate]
          exact k.isLt
        rw [GraphMem.setIndexAt, Heap.add_eq (hput cur) (by omega), Option.bind_some, Nat.zero_add,
          Heap.write_eq (hput cur) hk, Option.map_some]
        show some ((state cur).setIndices ((indices.put i _).put i _)) = _
        rw [Heap.put_put]
        rfl
    apply Solo.bind
    rw [hstate]
    apply hloop.mono
    rintro _ _ rfl
    apply Solo.ret
    refine .inr ⟨rfl, _, rfl, ?_, Heap.put_self _, fun i' hi' => ?_⟩
    · apply hok.put (hok.lt_next hblock)
      rintro _ ⟨⟩
      have hsmall := hok.small i _ hblock
      simpa using hsmall
    · rw [Heap.put_of_ne hi', hkept i' hi']

/-- The slot `s` owns the new arrays of `c`. -/
structure Made {σ : Type} [DecidableEq σ] (m m' : GraphMem ι DestID) (slotI slotN : σ → Option Nat) (s : σ)
    (c : Csr n DestID) (p : Ptr × Ptr) (i b : Nat) : Prop where
  vars : m'.vars = m.vars
  indices : Owns m'.indices (update slotI s (some i))
  neighbors : Owns m'.neighbors (update slotN s (some b))
  stores : m'.Stores p.1 p.2 c i b
  keptIndices : ∀ i', m.indices.blocks i' ≠ none → m'.indices.blocks i' = m.indices.blocks i'
  keptNeighbors : ∀ b', m.neighbors.blocks b' ≠ none → m'.neighbors.blocks b' = m.neighbors.blocks b'

theorem makeArrays_solo {σ : Type} [DecidableEq σ] {slotI slotN : σ → Option Nat} {s : σ}
    (hI : Owns m.indices slotI) (hN : Owns m.neighbors slotN) (hsI : slotI s = none)
    (hsN : slotN s = none) (c : Csr n DestID) :
    Solo (makeArrays fitsIndex fitsNeighs T c) m fun p m' => p = none ∨
      ∃ q i b, p = some q ∧ Made m m' slotI slotN s c q i b := by
  apply Solo.bind
  apply (newNeighs_solo hN.ok c.neighbors.length).mono
  rintro _ _ (rfl | ⟨rfl, neighbors, rfl, hokN, hblockN, hkeptN⟩)
  · exact Solo.ret (.inl rfl)
  · let b := m.neighbors.next
    let cells := c.neighbors.map some
    have hown := hN.new hsN hokN (by rw [hblockN]; simp) hkeptN
    have hsmall : cells.length < 2 ^ 63 := by
      have hreplicate := hokN.small b _ hblockN
      rwa [List.length_replicate, ← List.length_map (f := some)] at hreplicate
    apply Solo.bind
    apply (fillNeighs_solo (m := m.setNeighbors neighbors) c.neighbors hblockN).mono
    rintro _ _ rfl
    apply Solo.bind
    have hcells : (withCells (m.setNeighbors neighbors) b cells).neighbors.blocks b = some cells :=
      Heap.put_self _
    apply (genIndex_solo (m := withCells (m.setNeighbors neighbors) b cells) hI.ok hcells ?_).mono
    · rintro _ _ (rfl | ⟨rfl, indices, rfl, hokI, hblockI, hkeptI⟩)
      · exact Solo.ret (.inl rfl)
      · apply Solo.ret
        refine .inr ⟨_, m.indices.next, b, rfl, rfl, ?_, ?_, ⟨rfl, rfl, ?_, hcells⟩, fun i' hi' => ?_,
          fun b' hb' => ?_⟩
        · apply hI.new hsI hokI _ hkeptI
          exact hblockI.trans_ne (Option.some_ne_none _)
        · exact hown.put (update_self ..) hsmall
        · refine hblockI.trans ?_
          rw [List.map_ofFn]
          rfl
        · apply hkeptI
          rintro rfl
          exact hi' (hI.ok.fresh _ (Nat.le_refl _))
        · have hne : b' ≠ b := by
            rintro rfl
            exact hb' (hN.ok.fresh _ (Nat.le_refl _))
          exact (Heap.put_of_ne hne _).trans (hkeptN b' hne)
    · intro k hk
      obtain ⟨j, rfl⟩ := List.mem_ofFn.mp hk
      rw [List.length_map]
      exact c.index_le_length j

variable [DecidableEq ι] {x : ι} {invert : Bool} {V : ι → Option (GraphContent DestID)}

theorem constructUndirected_solo {index neighs : Ptr} {c : Csr n DestID} {i b : Nat}
    (h : m.Stores index neighs c i b) : Solo (constructUndirected x n index neighs) m fun done m' =>
      done = true ∧ m' = m.setVar x (some ⟨false, n, ((c.index (Fin.last n) - c.index 0) / 2 : Nat),
        index, neighs, index, neighs⟩) := by
  apply Solo.loadAt_bind (b := ((c.index (Fin.last n) - c.index 0 : Nat) : Int))
  · exact h.total
  · apply Solo.store_bind
    exact Solo.ret ⟨rfl, rfl⟩

theorem constructDirected_solo {index neighs inIndex inNeighs : Ptr} {c : Csr n DestID} {i b : Nat}
    (h : m.Stores index neighs c i b) : Solo (constructDirected x n index neighs inIndex inNeighs) m
      fun done m' => done = true ∧ m' = m.setVar x (some ⟨true, n,
        (c.index (Fin.last n) - c.index 0 : Nat), index, neighs, inIndex, inNeighs⟩) := by
  apply Solo.loadAt_bind (b := ((c.index (Fin.last n) - c.index 0 : Nat) : Int))
  · exact h.total
  · apply Solo.store_bind
    exact Solo.ret ⟨rfl, rfl⟩

theorem build_solo (hm : m.Inv invert V) (hx : m.vars x = none) (g : CSRGraph n DestID) :
    Solo (build fitsIndex fitsNeighs T invert x g) m fun done m' => done = true →
      m'.Inv invert (update V x (some (some ⟨n, g⟩))) := by
  have hnone (pick : Ptr × Ptr → Ptr) (d : Bool) : slots pick m.vars (x, d) = none := slots_eq_none hx d
  apply Solo.bind
  apply (makeArrays_solo hm.indices hm.neighbors (hnone _ false) (hnone _ false) g.out).mono
  rintro _ m₁ (rfl | ⟨out, i, b, rfl, hout⟩)
  · exact Solo.ret (by simp)
  obtain ⟨hindex, hneighs, hpointers, hcells⟩ := id hout.stores
  -- the slot of the incoming edges is still empty
  have hempty (pick : Ptr × Ptr → Ptr) (k : Nat) :
      update (slots pick m.vars) (x, false) (some k) (x, true) = none := by
    rw [update_of_ne (by simp), hnone]
  have hsingle (pick : Ptr × Ptr → Ptr) (k : Nat) :
      update (update (slots pick m.vars) (x, false) (some k)) (x, true) none =
        update (slots pick m.vars) (x, false) (some k) :=
    update_eq_self_iff.mpr (hempty pick k).symm
  cases hd : g.directed with
  | false =>
    show Solo (constructUndirected x n out.1 out.2) m₁ _
    apply (constructUndirected_solo hout.stores).mono
    rintro _ _ ⟨rfl, rfl⟩ -
    have hedges : g.numEdges = (g.out.index (Fin.last n) - g.out.index 0) / 2 := by simp [numEdges, hd]
    apply hm.built hout.vars _ _ _ hout.keptIndices hout.keptNeighbors
    · exact ⟨hd.symm, rfl, congrArg Nat.cast hedges.symm, ⟨i, b, hout.stores⟩, fun _ => ⟨rfl, rfl⟩,
        fun hd' => by simp [hd] at hd', fun hd' => by simp [hd] at hd'⟩
    · simpa [GraphVar.owned, hindex, hsingle] using hout.indices
    · simpa [GraphVar.owned, hneighs, hsingle] using hout.neighbors
  | true =>
    have hedges : g.numEdges = g.out.index (Fin.last n) - g.out.index 0 := by simp [numEdges, hd]
    cases invert with
    | false =>
      show Solo (constructDirected x n out.1 out.2 none none) m₁ _
      apply (constructDirected_solo hout.stores).mono
      rintro _ _ ⟨rfl, rfl⟩ -
      apply hm.built hout.vars _ _ _ hout.keptIndices hout.keptNeighbors
      · exact ⟨hd.symm, rfl, congrArg Nat.cast hedges.symm, ⟨i, b, hout.stores⟩,
          fun hd' => by simp [hd] at hd', fun _ hinvert => by simp at hinvert, fun _ _ => ⟨rfl, rfl⟩⟩
      · simpa [GraphVar.owned, hindex, hsingle] using hout.indices
      · simpa [GraphVar.owned, hneighs, hsingle] using hout.neighbors
    | true =>
      show Solo ((makeArrays fitsIndex fitsNeighs T g.inn).bind _) m₁ _
      apply Solo.bind
      apply (makeArrays_solo hout.indices hout.neighbors (hempty _ i) (hempty _ b) g.inn).mono
      rintro _ m₂ (rfl | ⟨inn, j, e, rfl, hinn⟩)
      · exact Solo.ret (by simp)
      obtain ⟨hindex', hneighs', -, -⟩ := id hinn.stores
      have hstores : m₂.Stores out.1 out.2 g.out i b :=
        hout.stores.congr (hinn.keptIndices i (hpointers.trans_ne (Option.some_ne_none _)))
          (hinn.keptNeighbors b (hcells.trans_ne (Option.some_ne_none _)))
      show Solo (constructDirected x n out.1 out.2 inn.1 inn.2) m₂ _
      apply (constructDirected_solo hstores).mono
      rintro _ _ ⟨rfl, rfl⟩ -
      apply hm.built (hinn.vars.trans hout.vars) _ _ _ (fun k hk => ?_) (fun k hk => ?_)
      · exact ⟨hd.symm, rfl, congrArg Nat.cast hedges.symm, ⟨i, b, hstores⟩,
          fun hd' => by simp [hd] at hd', fun _ _ => ⟨j, e, hinn.stores⟩, fun _ hinvert => by simp at hinvert⟩
      · simpa [GraphVar.owned, hindex, hindex'] using hinn.indices
      · simpa [GraphVar.owned, hneighs, hneighs'] using hinn.neighbors
      · have hkept := hout.keptIndices k hk
        exact (hinn.keptIndices k (by rwa [hkept])).trans hkept
      · have hkept := hout.keptNeighbors k hk
        exact (hinn.keptNeighbors k (by rwa [hkept])).trans hkept

theorem assign_bind {α : Type} {v : GraphVar} {f : GraphVar → GraphVar}
    {k : Unit → Prog (GraphMem ι DestID) α} {Q : α → GraphMem ι DestID → Prop} (hx : m.vars x = some v)
    (h : Solo (k ()) (m.setVar x (some (f v))) Q) : Solo ((assign x f).bind k) m Q :=
  Solo.storeAt_bind (by rw [hx]; rfl) h

variable {y : ι} {v w : GraphVar}

theorem constructMove_solo (hm : m.Inv invert V) (hx : m.vars x = none) (hy : m.vars y = some w) :
    Solo (constructMove x y) m fun done m' => done = true ∧
      m'.Inv invert (update (update V x (V y)) y (some none)) := by
  have hyx : y ≠ x := by
    rintro rfl
    rw [hx] at hy
    cases hy
  apply this_bind hy
  apply Solo.store_bind
  apply assign_bind (v := w)
  · exact (update_of_ne hyx ..).trans hy
  · exact Solo.ret ⟨rfl, hm.moved hx hy⟩

theorem destruct_solo (hm : m.Inv invert V) (hx : m.vars x = some v) :
    Solo (destruct x) m fun done m' => done = true ∧ m'.Inv invert (update V x none) := by
  apply Solo.bind
  apply (releaseResources_solo hm hx).mono
  rintro _ m' ⟨-, hinv⟩
  apply Solo.store_bind
  exact Solo.ret ⟨rfl, hinv⟩

/-- As if `x` had been destroyed and constructed from `y`. -/
theorem moveAssign_solo (hm : m.Inv invert V) (hx : m.vars x = some v) (hy : m.vars y = some w) :
    Solo (moveAssign x y) m fun done m' => done = true ∧
      m'.Inv invert (if x = y then V else update (update V x (V y)) y (some none)) := by
  rw [moveAssign]
  by_cases hxy : x = y
  · rw [if_neg (not_not_intro hxy)]
    apply Solo.ret
    rw [if_pos hxy]
    exact ⟨rfl, hm⟩
  · rw [if_pos hxy, if_neg hxy]
    have hyx : y ≠ x := Ne.symm hxy
    apply Solo.bind
    apply (releaseResources_solo hm hx).mono
    rintro _ m' ⟨hvars, hinv⟩
    have hx' : m'.vars x = some v := (congrFun hvars x).trans hx
    have hy' : m'.vars y = some w := (congrFun hvars y).trans hy
    have hdead : (m'.setVar x none).vars x = none := update_self ..
    have hother : (m'.setVar x none).vars y = some w := (update_of_ne hyx ..).trans hy'
    have hmoved := hinv.moved hdead hother
    have hset : (m'.setVar x none).setVar x (some w) = m'.setVar x (some w) := by
      simp [GraphMem.setVar]
    rw [hset, update_idem, update_of_ne hyx] at hmoved
    apply this_bind hy'
    apply assign_bind hx'
    apply assign_bind (v := w)
    · exact (update_of_ne hyx ..).trans hy'
    · exact Solo.ret ⟨rfl, hmoved⟩

end CSRGraph

/-! ## Runs -/

namespace GraphMem

section Shows

/-- The methods read `g` through the pointers; the incoming edges are there if the directions are the
same or the inverse has been made. -/
structure Reads (m : GraphMem ι DestID) (invert : Bool) (v : GraphVar) {n : Nat} (g : CSRGraph n DestID) :
    Prop where
  directed : v.directed = g.directed
  numNodes : v.numNodes = n
  numEdges : v.numEdges = g.numEdges
  numEdgesDirected : v.numEdgesDirected = g.numEdgesDirected
  outDegree : ∀ u : Fin n, m.outDegree v u = some (g.outDegree u : Int)
  outNeigh : ∀ (u : Fin n) (r : Nat), m.outNeigh v u r = some ((g.outNeigh u r).map some)
  outOffset : ∀ k : Fin (n + 1), m.vertexOffset v false k = some (g.out.index k : Int)
  inDegree : invert = true ∨ g.directed = false → ∀ u : Fin n, m.inDegree v u = some (g.inDegree u : Int)
  inNeigh : invert = true ∨ g.directed = false → ∀ (u : Fin n) (r : Nat),
    m.inNeigh v u r = some ((g.inNeigh u r).map some)
  inOffset : invert = true ∨ g.directed = false → ∀ k : Fin (n + 1),
    m.vertexOffset v true k = some (g.inn.index k : Int)

/-- The objects stand for `V`, and every array is the one that one direction of one of them owns. -/
structure Shows (m : GraphMem ι DestID) (invert : Bool) (V : ι → Option (GraphContent DestID)) : Prop where
  dead : ∀ x, V x = none → m.vars x = none
  null : ∀ x, V x = some none → ∃ v : GraphVar, m.vars x = some v.moved
  graph : ∀ (x : ι) (n : Nat) (g : CSRGraph n DestID), V x = some (some ⟨n, g⟩) →
    ∃ v, m.vars x = some v ∧ m.Reads invert v g
  indices : Owns m.indices (slots Prod.fst m.vars)
  neighbors : Owns m.neighbors (slots Prod.snd m.vars)

variable {m m' : GraphMem ι DestID} {invert : Bool} {V : ι → Option (GraphContent DestID)}

theorem Stores.offset {n : Nat} {c : Csr n DestID} {index neighs : Ptr} {i b : Nat}
    (h : m.Stores index neighs c i b) (k : Fin (n + 1)) :
    m.indexDiff index k 0 = some (c.index k : Int) := by
  have hdiff := h.indexDiff k 0
  rw [c.index_zero, Int.natCast_zero, Int.sub_zero] at hdiff
  exact hdiff

theorem Represents.reads {v : GraphVar} {n : Nat} {g : CSRGraph n DestID} (h : m.Represents invert v g)
    (hm : m.neighbors.Ok) : m.Reads invert v g := by
  obtain ⟨i, b, hout⟩ := h.out
  have hinn (hhas : invert = true ∨ g.directed = false) :
      ∃ i b, m.Stores v.inIndex v.inNeighbors g.inn i b := by
    cases hd : g.directed with
    | false =>
      obtain ⟨hindex, hneighs⟩ := h.shared hd
      rw [hindex, hneighs, g.shared hd]
      exact h.out
    | true => exact h.inverse hd (hhas.resolve_right (by simp [hd]))
  refine ⟨h.directed, h.numNodes, h.numEdges, ?_, hout.degree, hout.neighborhood hm, hout.offset,
    fun hhas => ?_, fun hhas => ?_, fun hhas => ?_⟩
  · rw [GraphVar.numEdgesDirected, CSRGraph.numEdgesDirected, h.directed, h.numEdges]
    split <;> simp
  · obtain ⟨j, e, h⟩ := hinn hhas
    exact h.degree
  · obtain ⟨j, e, h⟩ := hinn hhas
    exact h.neighborhood hm
  · obtain ⟨j, e, h⟩ := hinn hhas
    exact h.offset

/-- An object that stands for something is alive. -/
theorem Inv.alive (hm : m.Inv invert V) {x : ι} {c : GraphContent DestID} (hx : V x = some c) :
    ∃ v, m.vars x = some v ∧ m.Holds invert v c := by
  cases hv : m.vars x with
  | none =>
    rw [hm.content_eq_none hv] at hx
    cases hx
  | some v =>
    obtain ⟨c', hc, hholds⟩ := hm.content hv
    obtain rfl := Option.some.inj (hx.symm.trans hc)
    exact ⟨v, rfl, hholds⟩

theorem Inv.shows (hm : m.Inv invert V) : m.Shows invert V := by
  refine ⟨fun x hx => ?_, fun x hx => ?_, fun x n g hx => ?_, hm.indices, hm.neighbors⟩
  · cases hv : m.vars x with
    | none => rfl
    | some v =>
      obtain ⟨c, hc, -⟩ := hm.content hv
      rw [hx] at hc
      cases hc
  · obtain ⟨v, hv, hholds⟩ := hm.alive hx
    cases hholds with
    | moved v => exact ⟨v, hv⟩
  · obtain ⟨v, hv, hholds⟩ := hm.alive hx
    cases hholds with
    | graph h => exact ⟨v, hv, h.reads hm.neighbors.ok⟩

end Shows

variable [DecidableEq ι] (fitsIndex : Heap Ptr → Nat → Bool) (fitsNeighs : Heap DestID → Nat → Bool)
  (T : Nat) [NeZero T] (invert : Bool)

/-- The operations that a program performs one after the other; it ends when one throws. -/
inductive Run : GraphMem ι DestID → List (GraphOp ι DestID) → GraphMem ι DestID → Prop
  | nil (m : GraphMem ι DestID) : Run m [] m
  | cons {op : GraphOp ι DestID} {rest : List (GraphOp ι DestID)} {m m' t : GraphMem ι DestID}
    (hallowed : op.Allowed m)
    (hexec : Prog.Reach (op.exec fitsIndex fitsNeighs T invert, m) (.ret true, m'))
    (hrest : Run m' rest t) : Run m (op :: rest) t

/-- The operations with the default schedule, when each returns within `fuel` steps. -/
def runOps (fuel : Nat) : List (GraphOp ι DestID) → GraphMem ι DestID → Option (GraphMem ι DestID)
  | [], m => some m
  | op :: rest, m =>
    let c := (op.exec fitsIndex fitsNeighs T invert).run fuel m
    if op.Allowed m ∧ c.1.ret? = some true then runOps fuel rest c.2 else none

/-- What the objects stand for after the operations. -/
def contentsAfter (ops : List (GraphOp ι DestID)) (V : ι → Option (GraphContent DestID)) :
    ι → Option (GraphContent DestID) :=
  ops.foldl GraphOp.contents V

variable {fitsIndex fitsNeighs T invert} {m m' : GraphMem ι DestID} {V : ι → Option (GraphContent DestID)}

theorem run_of_runOps {fuel : Nat} {ops : List (GraphOp ι DestID)}
    (h : runOps fitsIndex fitsNeighs T invert fuel ops m = some m') :
    Run fitsIndex fitsNeighs T invert m ops m' := by
  induction ops generalizing m with
  | nil =>
    obtain rfl := Option.some.inj h
    exact .nil m
  | cons op rest ih =>
    rw [runOps] at h
    split at h
    · next hstep =>
      have hreach := Prog.reach_run fuel (op.exec fitsIndex fitsNeighs T invert) m
      have hret := Prog.ret?_eq_some hstep.2
      refine .cons hstep.1 ?_ (ih h)
      rwa [← hret]
    · cases h

/-- The step lemma: one case for each operation. -/
theorem Inv.exec (hm : m.Inv invert V) {op : GraphOp ι DestID} (hallowed : op.Allowed m) :
    Solo (op.exec fitsIndex fitsNeighs T invert) m fun done m' =>
      (done = true → m'.Inv invert (op.contents V)) ∧ (done = false → op.mayThrow = true) := by
  cases op with
  | construct x =>
    have hnull : slots Prod.fst (update m.vars x (some .null)) = slots Prod.fst m.vars ∧
        slots Prod.snd (update m.vars x (some .null)) = slots Prod.snd m.vars := by
      constructor
      all_goals
        funext s
        obtain ⟨y, d⟩ := s
        by_cases hy : y = x
        · subst hy
          rw [slots_eq_none hallowed, slots_eq (update_self ..)]
          cases d <;> rfl
        · rw [slots, slots, update_of_ne hy]
    apply Solo.store_bind
    apply Solo.ret
    refine ⟨fun _ => ?_, by simp⟩
    have hvars : (m.setVar x (some .null)).vars = update m.vars x (some .null) := rfl
    apply hm.replaced hvars _ _ (fun y _ => ⟨fun _ _ _ => rfl, fun _ _ _ => rfl⟩)
    · exact .some (.moved .null)
    · rw [hvars, hnull.1]
      exact hm.indices
    · rw [hvars, hnull.2]
      exact hm.neighbors
  | build x g => exact (CSRGraph.build_solo hm hallowed g).mono fun _ _ h => ⟨h, fun _ => rfl⟩
  | constructMove x y =>
    obtain ⟨hx, hy⟩ := hallowed
    obtain ⟨w, hw⟩ := Option.ne_none_iff_exists'.mp hy
    apply (CSRGraph.constructMove_solo hm hx hw).mono
    rintro _ m' ⟨rfl, h⟩
    exact ⟨fun _ => h, by simp⟩
  | moveAssign x y =>
    obtain ⟨v, hv⟩ := Option.ne_none_iff_exists'.mp hallowed.1
    obtain ⟨w, hw⟩ := Option.ne_none_iff_exists'.mp hallowed.2
    apply (CSRGraph.moveAssign_solo hm hv hw).mono
    rintro _ m' ⟨rfl, h⟩
    exact ⟨fun _ => h, by simp⟩
  | destruct x =>
    obtain ⟨v, hv⟩ := Option.ne_none_iff_exists'.mp hallowed
    apply (CSRGraph.destruct_solo hm hv).mono
    rintro _ m' ⟨rfl, h⟩
    exact ⟨fun _ => h, by simp⟩

/-- The run lemma. -/
theorem Run.inv {ops : List (GraphOp ι DestID)} (hrun : Run fitsIndex fitsNeighs T invert m ops m')
    (hm : m.Inv invert V) : m'.Inv invert (contentsAfter ops V) := by
  induction hrun generalizing V with
  | nil m => exact hm
  | cons hallowed hexec _ ih => exact ih (((hm.exec hallowed).correct.result true _ hexec).1 rfl)

end GraphMem

open GraphMem in
/-- After any operations the objects stand for what the operations say, every array has one owner, none is
left when no object is, and the next operation is defined in every order of its threads. -/
theorem csrGraph_owns [DecidableEq ι] (fitsIndex : Heap Ptr → Nat → Bool)
    (fitsNeighs : Heap DestID → Nat → Bool) (T : Nat) [NeZero T] (invert : Bool)
    (ops : List (GraphOp ι DestID)) (m : GraphMem ι DestID)
    (hrun : Run fitsIndex fitsNeighs T invert .empty ops m) :
    m.Shows invert (contentsAfter ops fun _ => none) ∧
      ((∀ x, contentsAfter ops (fun _ => none) x = none) →
        ∀ b, m.indices.blocks b = none ∧ m.neighbors.blocks b = none) ∧
      ∀ op : GraphOp ι DestID, op.Allowed m →
        (op.exec fitsIndex fitsNeighs T invert).Correct m fun done m' =>
          (done = true → m'.Shows invert (contentsAfter (ops ++ [op]) fun _ => none)) ∧
            (done = false → op.mayThrow = true) := by
  have hm := hrun.inv inv_empty
  refine ⟨hm.shows, fun hdead b => ?_, fun op hallowed => ?_⟩
  · have hempty (pick : Ptr × Ptr → Ptr) (s : ι × Bool) : slots pick m.vars s = none :=
      slots_eq_none (hm.shows.dead s.1 (hdead s.1)) s.2
    exact ⟨hm.indices.blocks_eq_none (hempty _) b, hm.neighbors.blocks_eq_none (hempty _) b⟩
  · apply (hm.exec hallowed).correct.mono
    rintro done m' ⟨hnext, hthrow⟩
    refine ⟨fun hdone => ?_, hthrow⟩
    rw [contentsAfter, List.foldl_append]
    exact (hnext hdone).shows

open GraphMem in
/-- A graph is built, moved twice, and destroyed with the two objects that it has been in. -/
theorem csrGraph_owns_moved : ∃ m : GraphMem (Fin 2) (Fin 2), ∀ b,
    m.indices.blocks b = none ∧ m.neighbors.blocks b = none := by
  let ops : List (GraphOp (Fin 2) (Fin 2)) :=
    [.build 0 pairGraph, .constructMove 1 0, .moveAssign 0 1, .destruct 1, .destruct 0]
  have hops : (runOps (fun _ _ => true) (fun _ _ => true) 1 true 80 ops .empty).isSome := by
    decide +kernel
  obtain ⟨m, hm⟩ := Option.isSome_iff_exists.mp hops
  exact ⟨m, (csrGraph_owns _ _ _ _ ops m (run_of_runOps hm)).2.1 (by decide)⟩

end Gapbs
