import Gapbs.Bfs.Dobfs
import Gapbs.Lib.RawArray

/-!
# The verifier of the breadth-first search

`BFSVerifier` computes the depths of all vertices by a search of its own and compares them with the
array of parents, one vertex at a time.  An entry of that array is compared with ids and depths but
never used as an index.
-/

namespace Gapbs

open Conc Function HopDistance

variable {n : Nat}

/-- The local variables of `BFSVerifier`; `n` elements are reserved in `toVisit`. -/
structure VerifierMem (n : Nat) where
  depth : Fin n → Int
  toVisit : List (Fin n)

namespace VerifierMem

def setDepth (s : VerifierMem n) (v : Fin n) (d : Int) : VerifierMem n :=
  { s with depth := update s.depth v d }

def pushBack (s : VerifierMem n) (v : Fin n) : Option (VerifierMem n) :=
  (RawArray.pushReserved n s.toVisit v).map fun l => { s with toVisit := l }

end VerifierMem

/-- The search from `source`; `it` is the position of the iterator in `to_visit`. -/
def serialBfs (g : Graph n) (source : Fin n) : Prog (VerifierMem n) Unit := do
  .store fun s => { s with depth := fun _ => -1 }
  .store fun s => s.setDepth source 0
  .storeAt fun s => VerifierMem.pushBack { s with toVisit := [] } source
  .iter (fun it => do
    let size ← .load fun s => s.toVisit.length
    if it = size then return .inr ()
    let u ← .loadAt fun s => s.toVisit[it]?
    .forEach (g.outNeigh u) () fun v _ => do
      let depthV ← .load fun s => s.depth v
      if depthV = -1 then
        let depthU ← .load fun s => s.depth u
        .store fun s => s.setDepth v (depthU + 1)
        .storeAt fun s => s.pushBack v
      else return ()
    return .inl (it + 1)) 0

/-- The loop over `in_neigh(u)`: whether the parent is found, or has the wrong depth. -/
def findParent (g : Graph n) (parent : Fin n → Int) (u : Fin n) (depthU : Int) :
    Prog (VerifierMem n) (Unit ⊕ Bool) :=
  .forBreak (g.inNeigh u) () fun v _ =>
    if (v.val : Int) = parent u then do
      let depthV ← .load fun s => s.depth v
      if depthV ≠ depthU - 1 then return .inr false else return .inr true
    else return .inl ()

/-- The body of the loop over the vertices; `.inr false` stands for `return false`. -/
def checkVertex (g : Graph n) (source : Fin n) (parent : Fin n → Int) (u : Fin n) :
    Prog (VerifierMem n) (Unit ⊕ Bool) := do
  let depthU ← .load fun s => s.depth u
  if depthU ≠ -1 ∧ parent u ≠ -1 then
    if u = source then
      if ¬ (parent u = u.val ∧ depthU = 0) then return .inr false
      else return .inl ()
    else
      let r ← findParent g parent u depthU
      match r with
      | .inr true => return .inl ()
      | _ => return .inr false
  else if depthU ≠ parent u then return .inr false
  else return .inl ()

def bfsVerifier (g : Graph n) (source : Fin n) (parent : Fin n → Int) : Prog (VerifierMem n) Bool := do
  serialBfs g source
  let r ← .forBreak (List.finRange n) () fun u _ => checkVertex g source parent u
  match r with
  | .inl _ => return true
  | .inr b => return b

/-! ## The search -/

/-- The search has come to position `it`: the vertices in the queue are those with a depth, in the
order of their depths, and none is further from the source than one more than the next to be
processed. -/
structure Searching (g : Graph n) (source : Fin n) (it : Nat) (s : VerifierMem n) : Prop where
  le : it ≤ s.toVisit.length
  nodup : s.toVisit.Nodup
  mem : ∀ v, v ∈ s.toVisit ↔ s.depth v ≠ -1
  root : s.depth source = 0
  walk : ∀ v ∈ s.toVisit, ∃ k : Nat, s.depth v = k ∧ Steps g.Edge k source v
  sorted : s.toVisit.Pairwise fun a b => s.depth a ≤ s.depth b
  near : ∀ u, s.toVisit[it]? = some u → ∀ v ∈ s.toVisit, s.depth v ≤ s.depth u + 1
  closed : ∀ j < it, ∀ u, s.toVisit[j]? = some u → ∀ v, g.Edge u v →
    v ∈ s.toVisit ∧ s.depth v ≤ s.depth u + 1

variable {g : Graph n} {source : Fin n}

/-- In the queue every vertex has its distance as its depth, once all have been processed. -/
theorem Searching.depth_eq {s : VerifierMem n} (h : Searching g source s.toVisit.length s) (v : Fin n) :
    (s.depth v ≠ -1 ↔ Relation.ReflTransGen g.Edge source v) ∧
      ∀ k : Nat, s.depth v = k ↔ IsDistance g.Edge k source v := by
  have hcast {v : Fin n} (hv : v ∈ s.toVisit) : s.depth v = ((s.depth v).toNat : Int) := by
    obtain ⟨k, hk, -⟩ := h.walk v hv
    omega
  have hroot : source ∈ s.toVisit := (h.mem source).mpr (by rw [h.root]; decide)
  have hlabels := isDistance_of_labels (E := g.Edge) (d := fun v => (s.depth v).toNat)
    (R := fun v => v ∈ s.toVisit) hroot (by simp [h.root]) ?_ ?_ v
  · refine ⟨(h.mem v).symm.trans hlabels.1, fun k => ⟨fun hk => ?_, fun hk => ?_⟩⟩
    · have hv : v ∈ s.toVisit := (h.mem v).mpr (by omega)
      have hdist := hlabels.2 hv
      rwa [hk] at hdist
    · have hv : v ∈ s.toVisit := hlabels.1.mpr hk.reachable
      rw [hcast hv, (hlabels.2 hv).unique hk]
  · intro u v hu hE
    obtain ⟨j, hj, hju⟩ := List.getElem_of_mem hu
    obtain ⟨hv, hle⟩ := h.closed j hj u (by rw [List.getElem?_eq_getElem hj, hju]) v hE
    have hcu := hcast hu
    have hcv := hcast hv
    exact ⟨hv, by omega⟩
  · intro v hv
    obtain ⟨k, hk, hsteps⟩ := h.walk v hv
    show Steps g.Edge (s.depth v).toNat source v
    rwa [hk, Int.toNat_natCast]

theorem Searching.depth_ne {it : Nat} {s : VerifierMem n} (h : Searching g source it s) {u v : Fin n}
    (hu : u ∈ s.toVisit) (hv : s.depth v = -1) : u ≠ v :=
  fun heq => (h.mem u).mp hu (heq ▸ hv)

/-- A new vertex is appended, one step further than the vertex `u` that is being processed. -/
theorem Searching.push {it : Nat} {s : VerifierMem n} (h : Searching g source it s) {u v : Fin n}
    (hu : s.toVisit[it]? = some u) (hE : g.Edge u v) (hv : s.depth v = -1) :
    ∃ s', (s.setDepth v (s.depth u + 1)).pushBack v = some s' ∧ Searching g source it s' ∧
      s'.toVisit = s.toVisit ++ [v] ∧ s'.depth = update s.depth v (s.depth u + 1) := by
  have humem := List.mem_of_getElem? hu
  -- a vertex without a depth is not in the list, so there is room for it
  have hvnot : v ∉ s.toVisit := fun hmem => (h.mem v).mp hmem hv
  have hnodup : (s.toVisit ++ [v]).Nodup := h.nodup.append (List.nodup_singleton v) (by simpa using hvnot)
  have hlen := length_le_of_nodup hnodup
  rw [List.length_append, List.length_singleton] at hlen
  have hsame {x : Fin n} (hx : x ∈ s.toVisit) : update s.depth v (s.depth u + 1) x = s.depth x :=
    update_of_ne (h.depth_ne hx hv) _ _
  obtain ⟨k, hk, hsteps⟩ := h.walk u humem
  refine ⟨⟨update s.depth v (s.depth u + 1), s.toVisit ++ [v]⟩, ?_, ?_, rfl, rfl⟩
  · show (RawArray.pushReserved n s.toVisit v).map _ = _
    rw [RawArray.pushReserved, if_pos (by omega)]
    rfl
  · have hle := h.le
    have hpos : it < s.toVisit.length := (List.getElem?_eq_some_iff.mp hu).1
    refine ⟨?_, hnodup, fun x => ?_, ?_, fun x hx => ?_, ?_, fun y hy x hx => ?_, fun j hj y hy x hyx => ?_⟩
    · show it ≤ (s.toVisit ++ [v]).length
      rw [List.length_append]
      omega
    · show x ∈ s.toVisit ++ [v] ↔ update s.depth v (s.depth u + 1) x ≠ -1
      rw [List.mem_append, List.mem_singleton]
      by_cases hxv : x = v
      · subst hxv
        rw [update_self]
        exact iff_of_true (.inr rfl) (by omega)
      · rw [update_of_ne hxv, ← h.mem]
        exact or_iff_left hxv
    · have hroot : source ≠ v := fun heq => by
        have hzero := h.root
        rw [heq, hv] at hzero
        omega
      exact (update_of_ne hroot _ _).trans h.root
    · rcases List.mem_append.mp hx with hx | hx
      · obtain ⟨j, hj, hwalk⟩ := h.walk x hx
        exact ⟨j, (hsame hx).trans hj, hwalk⟩
      · obtain rfl := List.mem_singleton.mp hx
        refine ⟨k + 1, ?_, u, hsteps, hE⟩
        show update s.depth x (s.depth u + 1) x = _
        rw [update_self, hk]
        rfl
    · show (s.toVisit ++ [v]).Pairwise fun a b =>
        update s.depth v (s.depth u + 1) a ≤ update s.depth v (s.depth u + 1) b
      rw [List.pairwise_append]
      refine ⟨?_, List.pairwise_singleton _ _, fun a ha b hb => ?_⟩
      · refine h.sorted.imp_of_mem fun ha hb hab => ?_
        rwa [hsame ha, hsame hb]
      · rw [List.mem_singleton.mp hb, update_self, hsame ha]
        exact h.near u hu a ha
    · change (s.toVisit ++ [v])[it]? = some y at hy
      rw [List.getElem?_append_left hpos, hu] at hy
      obtain rfl := Option.some.inj hy
      show update s.depth v (s.depth u + 1) x ≤ update s.depth v (s.depth u + 1) u + 1
      rw [hsame humem]
      rcases List.mem_append.mp hx with hx | hx
      · rw [hsame hx]
        exact h.near u hu x hx
      · rw [List.mem_singleton.mp hx, update_self]
    · change (s.toVisit ++ [v])[j]? = some y at hy
      rw [List.getElem?_append_left (by omega)] at hy
      obtain ⟨hx, hle⟩ := h.closed j hj y hy x hyx
      refine ⟨List.mem_append.mpr (.inl hx), ?_⟩
      show update s.depth v (s.depth u + 1) x ≤ update s.depth v (s.depth u + 1) y + 1
      rwa [hsame hx, hsame (List.mem_of_getElem? hy)]

/-- All neighbours of the vertex at position `it` have been seen. -/
theorem Searching.next {it : Nat} {s : VerifierMem n} (h : Searching g source it s) {u : Fin n}
    (hu : s.toVisit[it]? = some u)
    (hout : ∀ v, g.Edge u v → v ∈ s.toVisit ∧ s.depth v ≤ s.depth u + 1) :
    Searching g source (it + 1) s := by
  have hpos : it < s.toVisit.length := (List.getElem?_eq_some_iff.mp hu).1
  refine ⟨hpos, h.nodup, h.mem, h.root, h.walk, h.sorted, fun y hy v hv => ?_, fun j hj y hy v hE => ?_⟩
  · obtain ⟨hit, rfl⟩ := List.getElem?_eq_some_iff.mp hu
    obtain ⟨hnext, rfl⟩ := List.getElem?_eq_some_iff.mp hy
    have hle := List.pairwise_iff_getElem.mp h.sorted it (it + 1) hit hnext (Nat.lt_succ_self it)
    exact (h.near _ hu v hv).trans (Int.add_le_add_right hle 1)
  · rcases Nat.lt_succ_iff_lt_or_eq.mp hj with hlt | rfl
    · exact h.closed j hlt y hy v hE
    · rw [hu] at hy
      obtain rfl := Option.some.inj hy
      exact hout v hE

/-- The out-neighbours `pre` of the vertex `u` at position `it` have been seen. -/
structure Expanding (g : Graph n) (source : Fin n) (it : Nat) (u : Fin n) (pre : List (Fin n))
    (s : VerifierMem n) : Prop where
  searching : Searching g source it s
  current : s.toVisit[it]? = some u
  seen : ∀ v ∈ pre, v ∈ s.toVisit ∧ s.depth v ≤ s.depth u + 1

theorem Expanding.mem_current {it : Nat} {u : Fin n} {pre : List (Fin n)} {s : VerifierMem n}
    (h : Expanding g source it u pre s) : u ∈ s.toVisit := List.mem_of_getElem? h.current

/-- A neighbour without a depth gets one and is appended. -/
theorem Expanding.push {it : Nat} {u v : Fin n} {pre : List (Fin n)} {s : VerifierMem n}
    (h : Expanding g source it u pre s) (hE : g.Edge u v) (hv : s.depth v = -1) :
    ∃ s', (s.setDepth v (s.depth u + 1)).pushBack v = some s' ∧
      Expanding g source it u (pre ++ [v]) s' ∧ s'.toVisit = s.toVisit ++ [v] ∧
      s'.depth = update s.depth v (s.depth u + 1) := by
  obtain ⟨s', hpush, hs', hvisit, hdepth⟩ := h.searching.push h.current hE hv
  have hsame {x : Fin n} (hx : x ∈ s.toVisit) : s'.depth x = s.depth x := by
    rw [hdepth, update_of_ne (h.searching.depth_ne hx hv)]
  refine ⟨s', hpush, ⟨hs', ?_, fun x hx => ?_⟩, hvisit, hdepth⟩
  · rw [hvisit, List.getElem?_append_left (List.getElem?_eq_some_iff.mp h.current).1]
    exact h.current
  · rw [hvisit, hsame h.mem_current]
    rcases List.mem_append.mp hx with hx | hx
    · obtain ⟨hmem, hle⟩ := h.seen x hx
      exact ⟨List.mem_append.mpr (.inl hmem), by rwa [hsame hmem]⟩
    · obtain rfl := List.mem_singleton.mp hx
      refine ⟨by simp, ?_⟩
      rw [hdepth, update_self]

/-- A neighbour with a depth is left as it is. -/
theorem Expanding.keep {it : Nat} {u v : Fin n} {pre : List (Fin n)} {s : VerifierMem n}
    (h : Expanding g source it u pre s) (hv : s.depth v ≠ -1) :
    Expanding g source it u (pre ++ [v]) s := by
  refine ⟨h.searching, h.current, fun x hx => ?_⟩
  rcases List.mem_append.mp hx with hx | hx
  · exact h.seen x hx
  · obtain rfl := List.mem_singleton.mp hx
    have hmem := (h.searching.mem x).mpr hv
    exact ⟨hmem, h.searching.near u h.current x hmem⟩

theorem expand_solo {it : Nat} {u : Fin n} {s : VerifierMem n} (h : Expanding g source it u [] s) :
    Solo (.forEach (g.outNeigh u) () fun v _ => do
        let depthV ← .load fun s : VerifierMem n => s.depth v
        if depthV = -1 then
          let depthU ← .load fun s => s.depth u
          .store fun s => s.setDepth v (depthU + 1)
          .storeAt fun s => s.pushBack v
        else return ()) s fun _ s' => Searching g source (it + 1) s' := by
  apply (Solo.forEach (fun pre _ s => Expanding g source it u pre s) h ?_).mono
  · exact fun _ s' hs' => hs'.searching.next hs'.current hs'.seen
  · rintro pre v post ⟨⟩ s hsplit hs
    have hE : g.Edge u v := by
      show v ∈ g.outNeigh u
      rw [hsplit]
      simp
    apply Solo.load_bind
    by_cases hv : s.depth v = -1
    · rw [if_pos hv]
      obtain ⟨s', hpush, hs', -, -⟩ := hs.push hE hv
      apply Solo.load_bind
      apply Solo.store_bind
      exact Solo.storeAt hpush hs'
    · rw [if_neg hv]
      exact Solo.ret (hs.keep hv)

theorem searching_start : Searching g source 0 ⟨update (fun _ => -1) source 0, [source]⟩ := by
  have hroot : update (fun _ => (-1 : Int)) source 0 source = 0 := update_self ..
  have hother {v : Fin n} (hv : v ≠ source) : update (fun _ => (-1 : Int)) source 0 v = -1 :=
    update_of_ne hv _ _
  refine ⟨Nat.zero_le _, List.nodup_singleton _, fun v => ?_, hroot, fun v hv => ?_,
    List.pairwise_singleton _ _, fun u hu v hv => ?_, fun j hj => absurd hj (Nat.not_lt_zero j)⟩
  · show v ∈ [source] ↔ update (fun _ => (-1 : Int)) source 0 v ≠ -1
    rw [List.mem_singleton]
    by_cases hv : v = source
    · subst hv
      rw [hroot]
      exact iff_of_true rfl (by decide)
    · rw [hother hv]
      exact iff_of_false hv (by simp)
  · obtain rfl := List.mem_singleton.mp hv
    exact ⟨0, hroot, rfl⟩
  · obtain rfl : source = u := by simpa using hu
    obtain rfl := List.mem_singleton.mp hv
    show update (fun _ => (-1 : Int)) v 0 v ≤ update (fun _ => (-1 : Int)) v 0 v + 1
    omega

theorem pushBack_source (depth : Fin n → Int) :
    VerifierMem.pushBack ⟨depth, []⟩ source = some ⟨depth, [source]⟩ := by
  have hn : 0 < n := source.pos
  simp [VerifierMem.pushBack, RawArray.pushReserved, hn]

/-- The search ends with the distances of all vertices, and no append outgrows the capacity. -/
theorem serialBfs_solo (s₀ : VerifierMem n) :
    Solo (serialBfs g source) s₀ fun _ s => Searching g source s.toVisit.length s := by
  apply Solo.store_bind
  apply Solo.store_bind
  apply Solo.storeAt_bind (t := ⟨update (fun _ => -1) source 0, [source]⟩)
  · exact pushBack_source _
  apply Solo.iter (fun it s => Searching g source it s) (fun it _ => n - it) searching_start
  intro it s hs
  apply Solo.load_bind
  have hlen := length_le_of_nodup hs.nodup
  by_cases hit : it = s.toVisit.length
  · rw [if_pos hit]
    exact Solo.ret (hit ▸ hs)
  · rw [if_neg hit]
    have hlt : it < s.toVisit.length := lt_of_le_of_ne hs.le hit
    apply Solo.loadAt_bind (b := s.toVisit[it])
    · exact List.getElem?_eq_getElem hlt
    apply Solo.bind
    apply (expand_solo ⟨hs, List.getElem?_eq_getElem hlt, by simp⟩).mono
    intro _ s' hs'
    exact Solo.ret ⟨hs', by omega⟩

/-! ## The comparison -/

/-- What the loop over the vertices accepts. -/
def GoodVertex (g : Graph n) (source : Fin n) (parent depth : Fin n → Int) (u : Fin n) : Prop :=
  if depth u ≠ -1 ∧ parent u ≠ -1 then
    if u = source then parent u = u.val ∧ depth u = 0
    else ∃ v ∈ g.inNeigh u, parent u = v.val ∧ depth v = depth u - 1
  else depth u = parent u

theorem findParent_solo {parent : Fin n → Int} {u : Fin n} {d : Int} (s : VerifierMem n) :
    Solo (findParent g parent u d) s fun r s' => s' = s ∧
      (r = .inr true ↔ ∃ v ∈ g.inNeigh u, parent u = v.val ∧ s.depth v = d - 1) := by
  apply (Solo.forBreak (fun pre _ s' => s' = s ∧ ∀ v ∈ pre, (v.val : Int) ≠ parent u)
    (fun b s' => s' = s ∧ ∃ v ∈ g.inNeigh u, parent u = v.val ∧ (b = true ↔ s.depth v = d - 1))
    ⟨rfl, by simp⟩ ?_).mono
  · rintro (⟨⟩ | b) s' h
    · refine ⟨h.1, iff_of_false (by simp) ?_⟩
      rintro ⟨v, hv, hpar, -⟩
      exact h.2 v hv hpar.symm
    · obtain ⟨hs', v, hv, hpar, hb⟩ := h
      refine ⟨hs', ?_⟩
      rw [Sum.inr.injEq, hb]
      refine ⟨fun hd => ⟨v, hv, hpar, hd⟩, ?_⟩
      rintro ⟨v', -, hpar', hd⟩
      -- the entry determines the vertex
      obtain rfl : v = v' := by omega
      exact hd
  · rintro pre v post ⟨⟩ s' hsplit ⟨rfl, hpre⟩
    have hv : v ∈ g.inNeigh u := by
      rw [hsplit]
      simp
    by_cases hpar : (v.val : Int) = parent u
    · rw [if_pos hpar]
      apply Solo.load_bind
      by_cases hd : s'.depth v = d - 1
      · rw [if_neg (not_not.mpr hd)]
        exact Solo.ret ⟨rfl, v, hv, hpar.symm, by simpa using hd⟩
      · rw [if_pos hd]
        exact Solo.ret ⟨rfl, v, hv, hpar.symm, by simpa using hd⟩
    · rw [if_neg hpar]
      refine Solo.ret ⟨rfl, fun x hx => ?_⟩
      rcases List.mem_append.mp hx with hx | hx
      · exact hpre x hx
      · exact List.mem_singleton.mp hx ▸ hpar

theorem checkVertex_solo {parent : Fin n → Int} (u : Fin n) (s : VerifierMem n) :
    Solo (checkVertex g source parent u) s fun r s' => s' = s ∧
      (r = .inl () ∧ GoodVertex g source parent s.depth u ∨
        r = .inr false ∧ ¬ GoodVertex g source parent s.depth u) := by
  apply Solo.load_bind
  simp only [GoodVertex]
  by_cases hboth : s.depth u ≠ -1 ∧ parent u ≠ -1
  · rw [if_pos hboth, if_pos hboth]
    by_cases hu : u = source
    · rw [if_pos hu, if_pos hu]
      by_cases hgood : parent u = u.val ∧ s.depth u = 0
      · rw [if_neg (not_not.mpr hgood)]
        exact Solo.ret ⟨rfl, .inl ⟨rfl, hgood⟩⟩
      · rw [if_pos hgood]
        exact Solo.ret ⟨rfl, .inr ⟨rfl, hgood⟩⟩
    · rw [if_neg hu, if_neg hu]
      apply Solo.bind
      apply (findParent_solo s).mono
      rintro r s' ⟨rfl, hr⟩
      by_cases hfound : r = .inr true
      · subst hfound
        exact Solo.ret ⟨rfl, .inl ⟨rfl, hr.mp rfl⟩⟩
      · have hbad := mt hr.mpr hfound
        cases r with
        | inl _ => exact Solo.ret ⟨rfl, .inr ⟨rfl, hbad⟩⟩
        | inr b =>
          cases b with
          | true => exact absurd rfl hfound
          | false => exact Solo.ret ⟨rfl, .inr ⟨rfl, hbad⟩⟩
  · rw [if_neg hboth, if_neg hboth]
    by_cases heq : s.depth u = parent u
    · rw [if_neg (not_not.mpr heq)]
      exact Solo.ret ⟨rfl, .inl ⟨rfl, heq⟩⟩
    · rw [if_pos heq]
      exact Solo.ret ⟨rfl, .inr ⟨rfl, heq⟩⟩

/-- With the distances for depths, the vertices are good exactly in a breadth-first tree. -/
theorem isBfsTree_iff (hg : g.Transposed) {parent : Fin n → Int} {s : VerifierMem n}
    (h : Searching g source s.toVisit.length s) :
    IsBfsTree g source parent ↔ ∀ u, GoodVertex g source parent s.depth u := by
  have hreach (v : Fin n) := (h.depth_eq v).1
  have hdist (v : Fin n) := (h.depth_eq v).2
  constructor
  · intro ht u
    rw [GoodVertex]
    have hiff := (hreach u).trans (not_iff_not.mpr (ht.unreached u) |>.trans not_not).symm
    by_cases hu : s.depth u = -1
    · have hpar : parent u = -1 := not_not.mp (mt hiff.mpr (not_not.mpr hu))
      rw [if_neg fun hboth => hboth.1 hu, hu, hpar]
    · rw [if_pos ⟨hu, hiff.mp hu⟩]
      split
      · next heq =>
        subst heq
        exact ⟨ht.root, h.root⟩
      · next hne =>
        obtain ⟨w, hw, hE, k, hk, hk'⟩ := ht.tree u hne ((hreach u).mp hu)
        refine ⟨w, (hg w u).mpr hE, hw, ?_⟩
        rw [(hdist w k).mpr hk, (hdist u (k + 1)).mpr hk']
        omega
  · intro hgood
    have hmiss {u : Fin n} (hu : parent u = -1) : s.depth u = -1 := by
      have hu' := hgood u
      rw [GoodVertex, if_neg fun hboth => hboth.2 hu] at hu'
      exact hu'.trans hu
    have hroot : s.depth source = 0 := h.root
    refine ⟨?_, fun v => ⟨fun hv hr => (hreach v).mpr hr (hmiss hv), fun hv => ?_⟩, fun v hvs hr => ?_⟩
    · have hsource := hgood source
      rw [GoodVertex, if_pos ⟨by omega, fun hp => by have hd := hmiss hp; omega⟩, if_pos rfl] at hsource
      exact hsource.1
    · have hv' := hgood v
      have hd : s.depth v = -1 := not_not.mp (mt (hreach v).mp hv)
      rw [GoodVertex, if_neg fun hboth => hboth.1 hd, hd] at hv'
      exact hv'.symm
    · have hv := (hreach v).mpr hr
      have hv' := hgood v
      rw [GoodVertex, if_pos ⟨hv, fun hp => hv (hmiss hp)⟩, if_neg hvs] at hv'
      obtain ⟨w, hw, hpar, hd⟩ := hv'
      obtain ⟨k, hk, -⟩ := h.walk v ((h.mem v).mpr hv)
      cases k with
      | zero => exact absurd (isDistance_zero.mp ((hdist v 0).mp hk)).symm hvs
      | succ k =>
        refine ⟨w, hpar, (hg w v).mp hw, k, (hdist w k).mp ?_, (hdist v (k + 1)).mp hk⟩
        rw [hd, hk]
        omega

/-- `BFSVerifier` accepts exactly the breadth-first trees, whatever the array holds. -/
theorem bfsVerifier_correct {n : Nat} (g : Graph n) (hg : g.Transposed) (source : Fin n)
    (parent : Fin n → Int) (s₀ : VerifierMem n) :
    (bfsVerifier g source parent).Correct s₀ fun r _ => r = true ↔ IsBfsTree g source parent := by
  apply Solo.correct
  apply Solo.bind
  apply (serialBfs_solo s₀).mono
  intro _ s hs
  apply Solo.bind
  apply (Solo.forBreak (fun pre _ s' => s' = s ∧ ∀ u ∈ pre, GoodVertex g source parent s.depth u)
    (fun b s' => s' = s ∧ b = false ∧ ∃ u, ¬ GoodVertex g source parent s.depth u) ⟨rfl, by simp⟩
    ?_).mono
  · rintro (⟨⟩ | b) s' h
    · refine Solo.ret (iff_of_true rfl ((isBfsTree_iff hg hs).mpr fun u => ?_))
      exact h.2 u (List.mem_finRange u)
    · obtain ⟨-, rfl, u, hu⟩ := h
      exact Solo.ret (iff_of_false (by simp) fun ht => hu ((isBfsTree_iff hg hs).mp ht u))
  · rintro pre u post ⟨⟩ s' - ⟨rfl, hpre⟩
    apply (checkVertex_solo u s').mono
    rintro r s'' ⟨rfl, ⟨rfl, hu⟩ | ⟨rfl, hu⟩⟩
    · refine ⟨rfl, fun x hx => ?_⟩
      rcases List.mem_append.mp hx with hx | hx
      · exact hpre x hx
      · exact List.mem_singleton.mp hx ▸ hu
    · exact ⟨rfl, rfl, u, hu⟩

theorem bfsVerifier_correct_pair :
    (bfsVerifier pairGraph 0 ![0, 0]).Correct ⟨fun _ => 0, []⟩ fun r _ =>
      r = true ↔ IsBfsTree pairGraph 0 ![0, 0] :=
  bfsVerifier_correct pairGraph (by decide) 0 ![0, 0] _

end Gapbs
