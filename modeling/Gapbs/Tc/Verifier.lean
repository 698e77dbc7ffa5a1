import Gapbs.Tc.OrderedCount

/-!
# The verifier of the triangle count

`TCVerifier` of `tc.cc` intersects the neighbourhoods of the two ends of every edge.  Each triangle is
met once for each of its orderings, and the total is divided by 6; it is a `size_t` and wraps around.
-/

namespace Gapbs

variable {n : Nat}

/-- `std::set_intersection`: of two heads the smaller one is skipped, and equal ones are copied. -/
def setIntersection : List (Fin n) → List (Fin n) → List (Fin n)
  | [], _ => []
  | _ :: _, [] => []
  | a :: as, b :: bs =>
      if a < b then setIntersection as (b :: bs)
      else if b < a then setIntersection (a :: as) bs
      else a :: setIntersection as bs
termination_by as bs => as.length + bs.length

/-- What is written to `intersection`, which has room for `num_nodes` elements. -/
def intersectNeighs (g : Graph n) (u v : Fin n) : Option (List (Fin n)) :=
  let intersection := setIntersection (g.outNeigh u) (g.outNeigh v)
  if intersection.length ≤ n then some intersection else none

/-- The loop over `v`. -/
def tcFrom (g : Graph n) (total : SizeT) (u : Fin n) : Option SizeT :=
  (g.outNeigh u).foldlM (fun total v => do
    let intersection ← intersectNeighs g u v
    return total + intersection.length) total

/-- `total` in front of the division. -/
def tcTotal (g : Graph n) : Option SizeT := (List.finRange n).foldlM (tcFrom g) 0

def tcVerifier (g : Graph n) (testTotal : SizeT) : Option Bool := do
  let total ← tcTotal g
  let total := total / 6
  return total == testTotal

/-! ## The intersection -/

theorem mem_setIntersection {as bs : List (Fin n)} (has : as.Pairwise (· < ·)) (hbs : bs.Pairwise (· < ·))
    (w : Fin n) : w ∈ setIntersection as bs ↔ w ∈ as ∧ w ∈ bs := by
  fun_induction setIntersection as bs with
  | case1 bs => simp
  | case2 a as => simp
  | case3 a as b bs hab ih =>
    -- `a` is below the rest of the other list
    have hnot : a ∉ b :: bs := by
      intro ha
      rcases List.mem_cons.mp ha with rfl | ha
      · exact lt_irrefl a hab
      · exact lt_asymm hab ((List.pairwise_cons.mp hbs).1 a ha)
    rw [ih has.of_cons hbs, List.mem_cons (a := w) (b := a)]
    constructor
    · exact fun h => ⟨.inr h.1, h.2⟩
    · rintro ⟨rfl | hw, hwb⟩
      · exact absurd hwb hnot
      · exact ⟨hw, hwb⟩
  | case4 a as b bs hab hba ih =>
    have hnot : b ∉ a :: as := by
      intro hb
      rcases List.mem_cons.mp hb with rfl | hb
      · exact lt_irrefl b hba
      · exact lt_asymm hba ((List.pairwise_cons.mp has).1 b hb)
    rw [ih has hbs.of_cons, List.mem_cons (a := w) (b := b)]
    constructor
    · exact fun h => ⟨h.1, .inr h.2⟩
    · rintro ⟨hwa, rfl | hw⟩
      · exact absurd hwa hnot
      · exact ⟨hwa, hw⟩
  | case5 a as b bs hab hba ih =>
    obtain rfl : a = b := le_antisymm (not_lt.mp hba) (not_lt.mp hab)
    rw [List.mem_cons, List.mem_cons, List.mem_cons, ih has.of_cons hbs.of_cons]
    constructor
    · rintro (hw | ⟨hwa, hwb⟩)
      · exact ⟨.inl hw, .inl hw⟩
      · exact ⟨.inr hwa, .inr hwb⟩
    · rintro ⟨hwa | hwa, hwb | hwb⟩
      · exact .inl hwa
      · exact .inl hwa
      · exact .inl hwb
      · exact .inr ⟨hwa, hwb⟩

theorem setIntersection_sublist (as bs : List (Fin n)) : (setIntersection as bs).Sublist as := by
  fun_induction setIntersection as bs with
  | case1 bs => exact List.Sublist.refl []
  | case2 a as => exact List.nil_sublist _
  | case3 a as b bs hab ih => exact ih.cons a
  | case4 a as b bs hab hba ih => exact ih
  | case5 a as b bs hab hba ih => exact ih.cons_cons a

/-- The number of common neighbours. -/
def common (g : Graph n) (u v : Fin n) : Nat := (Finset.univ.filter fun w => g.Edge u w ∧ g.Edge v w).card

theorem intersectNeighs_eq {g : Graph n} (hg : g.Simple) (u v : Fin n) :
    ∃ intersection, intersectNeighs g u v = some intersection ∧ intersection.length = common g u v := by
  have hnodup : (setIntersection (g.outNeigh u) (g.outNeigh v)).Nodup :=
    (setIntersection_sublist _ _).nodup ((hg.sorted u).imp fun hlt => hlt.ne)
  have hcard : (setIntersection (g.outNeigh u) (g.outNeigh v)).length = common g u v := by
    rw [← List.toFinset_card_of_nodup hnodup, common]
    congr 1
    ext w
    rw [List.mem_toFinset, mem_setIntersection (hg.sorted u) (hg.sorted v), Finset.mem_filter_univ]
    exact Iff.rfl
  have hroom : common g u v ≤ n := (Finset.card_le_univ _).trans (Fintype.card_fin n).le
  refine ⟨_, ?_, hcard⟩
  unfold intersectNeighs
  rw [if_pos (by omega)]

/-! ## The sum -/

/-- A loop that adds a number for each element. -/
theorem foldlM_add {α : Type} {body : SizeT → α → Option SizeT} {f : α → Nat} (l : List α)
    (h : ∀ x ∈ l, ∀ total, body total x = some (total + (f x : SizeT))) (total : SizeT) :
    l.foldlM body total = some (total + ((l.map f).sum : Nat)) := by
  induction l generalizing total with
  | nil => simp
  | cons x l ih =>
    rw [List.forall_mem_cons] at h
    rw [List.foldlM_cons, h.1 total]
    show l.foldlM body (total + (f x : SizeT)) = _
    rw [ih h.2, List.map_cons, List.sum_cons, Nat.cast_add, add_assoc]

/-- The ordered triples of pairwise adjacent vertices. -/
def adjacentTriples (g : Graph n) : Finset (Fin n × Fin n × Fin n) :=
  {t | g.Edge t.1 t.2.1 ∧ g.Edge t.1 t.2.2 ∧ g.Edge t.2.1 t.2.2}

theorem card_adjacentTriples {g : Graph n} (hg : g.Simple) :
    (adjacentTriples g).card = ∑ u, ((g.outNeigh u).map (common g u)).sum := by
  rw [adjacentTriples, Finset.card_filter, Fintype.sum_prod_type]
  apply Finset.sum_congr rfl
  intro u _
  have hnodup : (g.outNeigh u).Nodup := (hg.sorted u).imp fun hlt => hlt.ne
  have hneigh : (g.outNeigh u).toFinset = Finset.univ.filter (g.Edge u) := by
    ext v
    rw [List.mem_toFinset, Finset.mem_filter_univ]
    exact Iff.rfl
  rw [Fintype.sum_prod_type, ← List.sum_toFinset _ hnodup, hneigh, Finset.sum_filter]
  apply Finset.sum_congr rfl
  intro v _
  by_cases huv : g.Edge u v
  · rw [if_pos huv, common, Finset.card_filter]
    apply Finset.sum_congr rfl
    intro w _
    simp [huv]
  · rw [if_neg huv]
    apply Finset.sum_eq_zero
    intro w _
    exact if_neg fun h => huv h.1

theorem tcTotal_eq {g : Graph n} (hg : g.Simple) :
    tcTotal g = some (((adjacentTriples g).card : Nat) : SizeT) := by
  have hbody (u v : Fin n) (total : SizeT) :
      (do let intersection ← intersectNeighs g u v; return total + (intersection.length : SizeT)) =
        some (total + (common g u v : SizeT)) := by
    obtain ⟨intersection, heq, hlength⟩ := intersectNeighs_eq hg u v
    rw [heq, ← hlength]
    rfl
  have hfrom (u : Fin n) (total : SizeT) : tcFrom g total u =
      some (total + (((g.outNeigh u).map (common g u)).sum : Nat)) :=
    foldlM_add _ (fun v _ total => hbody u v total) total
  have hsum : ((List.finRange n).map fun u => ((g.outNeigh u).map (common g u)).sum).sum =
      (adjacentTriples g).card := by
    rw [card_adjacentTriples hg, Fin.sum_univ_def]
  rw [tcTotal, foldlM_add _ (fun u _ total => hfrom u total), hsum, zero_add]

/-! ## Six orderings -/

theorem eq_orderings {x y z u v w : Fin n} (hxy : x ≠ y) (hxz : x ≠ z) (hyz : y ≠ z) :
    (u ≠ v ∧ u ≠ w ∧ v ≠ w ∧ ({u, v, w} : Finset (Fin n)) = {x, y, z}) ↔
      (u, v, w) ∈ ({(x, y, z), (x, z, y), (y, x, z), (y, z, x), (z, x, y), (z, y, x)} :
        Finset (Fin n × Fin n × Fin n)) := by
  simp only [Finset.mem_insert, Finset.mem_singleton, Prod.mk.injEq]
  constructor
  · rintro ⟨huv, huw, hvw, heq⟩
    have hmem (a : Fin n) (ha : a = u ∨ a = v ∨ a = w) : a = x ∨ a = y ∨ a = z := by
      have hiff := Finset.ext_iff.mp heq a
      simp only [Finset.mem_insert, Finset.mem_singleton] at hiff
      exact hiff.mp ha
    -- two of them cannot be the same one
    rcases hmem u (.inl rfl) with rfl | rfl | rfl <;>
      rcases hmem v (.inr (.inl rfl)) with rfl | rfl | rfl <;>
      rcases hmem w (.inr (.inr rfl)) with rfl | rfl | rfl <;>
      first
      | exact absurd rfl huv
      | exact absurd rfl huw
      | exact absurd rfl hvw
      | simp
  · have hsame (a b c : Fin n) (h : ∀ d, d = a ∨ d = b ∨ d = c ↔ d = x ∨ d = y ∨ d = z) :
        ({a, b, c} : Finset (Fin n)) = {x, y, z} := by
      ext d
      simpa using h d
    rintro (⟨rfl, rfl, rfl⟩ | ⟨rfl, rfl, rfl⟩ | ⟨rfl, rfl, rfl⟩ | ⟨rfl, rfl, rfl⟩ | ⟨rfl, rfl, rfl⟩ |
      ⟨rfl, rfl, rfl⟩)
    · exact ⟨hxy, hxz, hyz, rfl⟩
    · exact ⟨hxz, hxy, hyz.symm, hsame _ _ _ fun d => by tauto⟩
    · exact ⟨hxy.symm, hyz, hxz, hsame _ _ _ fun d => by tauto⟩
    · exact ⟨hyz, hxy.symm, hxz.symm, hsame _ _ _ fun d => by tauto⟩
    · exact ⟨hxz.symm, hyz.symm, hxy, hsame _ _ _ fun d => by tauto⟩
    · exact ⟨hyz.symm, hxz.symm, hxy.symm, hsame _ _ _ fun d => by tauto⟩

theorem card_orderings {g : Graph n} (hg : g.Simple) {t : Finset (Fin n)} (ht : t ∈ g.triangles) :
    ((adjacentTriples g).filter fun p => {p.1, p.2.1, p.2.2} = t).card = 6 := by
  rw [Graph.triangles, Finset.mem_filter, Finset.mem_powersetCard_univ] at ht
  obtain ⟨hcard, hadj⟩ := ht
  obtain ⟨x, y, z, hxy, hxz, hyz, rfl⟩ := Finset.card_eq_three.mp hcard
  have hne {a b : Fin n} (h : g.Edge a b) : a ≠ b := fun hab => hg.irrefl b (hab ▸ h)
  have horderings : ((adjacentTriples g).filter fun p => {p.1, p.2.1, p.2.2} = ({x, y, z} : Finset (Fin n))) =
      {(x, y, z), (x, z, y), (y, x, z), (y, z, x), (z, x, y), (z, y, x)} := by
    ext ⟨u, v, w⟩
    rw [← eq_orderings hxy hxz hyz, Finset.mem_filter, adjacentTriples, Finset.mem_filter_univ]
    constructor
    · rintro ⟨⟨huv, huw, hvw⟩, heq⟩
      exact ⟨hne huv, hne huw, hne hvw, heq⟩
    · rintro ⟨huv, huw, hvw, heq⟩
      rw [← heq] at hadj
      exact ⟨⟨hadj u (by simp) v (by simp) huv, hadj u (by simp) w (by simp) huw,
        hadj v (by simp) w (by simp) hvw⟩, heq⟩
  rw [horderings]
  simp [hxy, hxz, hyz, hxy.symm, hxz.symm, hyz.symm]

/-- Every triangle is counted in all its orderings. -/
theorem card_adjacentTriples_eq {g : Graph n} (hg : g.Simple) :
    (adjacentTriples g).card = 6 * g.triangles.card := by
  have hmaps : ∀ p ∈ adjacentTriples g, ({p.1, p.2.1, p.2.2} : Finset (Fin n)) ∈ g.triangles := by
    intro p hp
    obtain ⟨huv, huw, hvw⟩ := (Finset.mem_filter_univ p).mp hp
    exact mem_triangles hg huv huw hvw
  rw [Finset.card_eq_sum_card_fiberwise hmaps,
    Finset.sum_const_nat fun t ht => card_orderings hg ht, Nat.mul_comm]

/-! ## The verifier -/

theorem tcTotal_triangles {g : Graph n} (hg : g.Simple) :
    tcTotal g = some ((6 * g.triangles.card : Nat) : SizeT) := by
  rw [tcTotal_eq hg, card_adjacentTriples_eq hg]

/-- The verifier compares with the number of triangles as long as the total fits into a `size_t`. -/
theorem tcVerifier_correct (g : Graph n) (hg : g.Simple) (hsize : 6 * g.triangles.card < 2 ^ 64)
    (testTotal : SizeT) :
    (∃ total, tcTotal g = some total ∧ total.toNat = 6 * g.triangles.card ∧ 6 ∣ total.toNat) ∧
    ∃ verdict, tcVerifier g testTotal = some verdict ∧
      (verdict = true ↔ testTotal.toNat = g.triangles.card) := by
  have htotal : ((6 * g.triangles.card : Nat) : SizeT).toNat = 6 * g.triangles.card := by
    rw [BitVec.natCast_eq_ofNat, BitVec.toNat_ofNat]
    exact Nat.mod_eq_of_lt hsize
  constructor
  · refine ⟨_, tcTotal_triangles hg, htotal, ?_⟩
    rw [htotal]
    exact Nat.dvd_mul_right 6 _
  · refine ⟨_, by rw [tcVerifier, tcTotal_triangles hg]; rfl, ?_⟩
    rw [beq_iff_eq, ← BitVec.toNat_inj, BitVec.toNat_udiv, htotal]
    show 6 * g.triangles.card / 6 = testTotal.toNat ↔ _
    omega

theorem triangleGraph_simple : triangleGraph.Simple := ⟨rfl, by decide, by decide, by decide⟩

theorem tcVerifier_correct_triangle :
    (∃ total, tcTotal triangleGraph = some total ∧ total.toNat = 6 * triangleGraph.triangles.card ∧
      6 ∣ total.toNat) ∧
    ∃ verdict, tcVerifier triangleGraph 1 = some verdict ∧
      (verdict = true ↔ (1 : SizeT).toNat = triangleGraph.triangles.card) :=
  tcVerifier_correct triangleGraph triangleGraph_simple (by decide) 1

/-- A total that does not fit: it is no multiple of 6, and the right number is rejected. -/
theorem tcVerifier_not_total :
    (completeGraph 3000000 (by decide)).Simple ∧
    (∃ total, tcTotal (completeGraph 3000000 (by decide)) = some total ∧ ¬ 6 ∣ total.toNat) ∧
    ∃ testTotal, testTotal.toNat = (completeGraph 3000000 (by decide)).triangles.card ∧
      tcVerifier (completeGraph 3000000 (by decide)) testTotal = some false := by
  have hn : 3000000 + 1 < 2 ^ 31 := by decide
  have hg : (completeGraph 3000000 hn).Simple := completeGraph_simple hn
  have hcard : (completeGraph 3000000 hn).triangles.card = 4499995500001000000 := by
    rw [card_triangles_completeGraph, Nat.choose_eq_descFactorial_div_factorial]
    decide
  have htotal := tcTotal_triangles hg
  rw [hcard] at htotal
  refine ⟨hg, ⟨_, htotal, by decide⟩, 4499995500001000000, by rw [hcard]; decide, ?_⟩
  rw [tcVerifier, htotal]
  decide

end Gapbs
