import Gapbs.Conc.Schedule
import Mathlib.Order.CompletePartialOrder

/-!
# Static work sharing

`StaticRange` of the pthread and Caladan ports: GOMP's default-static distribution of the indices
below `n` across a team, as a schedule.
-/

namespace Gapbs

open Conc

/-- `StaticRange(n, nthreads, tid, begin, end)` -/
def staticRange (n nthreads tid : Nat) : Nat × Nat :=
  let q := n / nthreads
  let r := n % nthreads
  -- the first `r` threads take one index more
  if tid < r then
    let start := (q + 1) * tid
    (start, start + q + 1)
  else
    let start := q * tid + r
    (start, start + q)

/-- Where the range of thread `tid` starts. -/
def staticBound (n nthreads tid : Nat) : Nat := n / nthreads * tid + min tid (n % nthreads)

theorem staticRange_eq (n nthreads tid : Nat) :
    staticRange n nthreads tid = (staticBound n nthreads tid, staticBound n nthreads (tid + 1)) := by
  simp only [staticRange, staticBound, Nat.add_mul, Nat.mul_add, Nat.one_mul, Nat.mul_one]
  split
  · rw [Prod.mk.injEq]
    omega
  · rw [Prod.mk.injEq]
    omega

theorem staticBound_zero (n nthreads : Nat) : staticBound n nthreads 0 = 0 := by
  simp [staticBound]

theorem staticBound_last {n nthreads : Nat} (h : 0 < nthreads) : staticBound n nthreads nthreads = n := by
  have hlt := Nat.mod_lt n h
  have hdiv := Nat.div_add_mod n nthreads
  rw [Nat.mul_comm] at hdiv
  rw [staticBound, Nat.min_eq_right hlt.le, hdiv]

theorem staticBound_mono (n nthreads : Nat) : Monotone (staticBound n nthreads) := by
  intro s t hst
  have hmul := Nat.mul_le_mul_left (n / nthreads) hst
  simp only [staticBound]
  omega

theorem staticBound_le {n nthreads tid : Nat} (h : tid ≤ nthreads) : staticBound n nthreads tid ≤ n := by
  rcases Nat.eq_zero_or_pos nthreads with rfl | hpos
  · obtain rfl : tid = 0 := by omega
    rw [staticBound_zero]
    exact Nat.zero_le n
  · exact (staticBound_mono n nthreads h).trans (staticBound_last hpos).le

/-- Every index lies between two consecutive bounds. -/
theorem exists_bounds {bound : Nat → Nat} {T i : Nat} (hzero : bound 0 = 0)
    (hi : i < bound T) : ∃ t < T, bound t ≤ i ∧ i < bound (t + 1) := by
  have hex : ∃ t, i < bound t := ⟨T, hi⟩
  -- the first bound above `i` is not the bound 0
  obtain ⟨t, ht⟩ : ∃ t, Nat.find hex = t + 1 := by
    apply Nat.exists_eq_succ_of_ne_zero
    intro h
    have hfind := Nat.find_spec hex
    rw [h, hzero] at hfind
    omega
  have hle := Nat.find_min' hex hi
  exact ⟨t, by omega, not_lt.mp (Nat.find_min hex (by omega)), ht ▸ Nat.find_spec hex⟩

/-- `for (i = lo; i < hi; i++)` -/
def fromTo (m lo hi : Nat) : List (Fin m) := (List.finRange m).filter fun i => lo ≤ i.val ∧ i.val < hi

@[simp] theorem mem_fromTo {m lo hi : Nat} {i : Fin m} : i ∈ fromTo m lo hi ↔ lo ≤ i.val ∧ i.val < hi := by
  simp [fromTo]

theorem fromTo_nodup (m lo hi : Nat) : (fromTo m lo hi).Nodup := (List.nodup_finRange m).filter _

/-- Consecutive ranges that end where the indices do. -/
def scheduleOfBounds (T m : Nat) (bound : Nat → Nat) (hmono : Monotone bound) (hzero : bound 0 = 0)
    (hlast : bound T = m) : Schedule T m where
  work t := fromTo m (bound t) (bound (t.val + 1))
  exact := by
    have hnodup : (List.ofFn fun t : Fin T => fromTo m (bound t) (bound (t.val + 1))).flatten.Nodup := by
      rw [List.nodup_flatten, List.pairwise_ofFn]
      constructor
      · intro l hl
        obtain ⟨t, rfl⟩ := (List.mem_ofFn' _ _).mp hl
        exact fromTo_nodup ..
      · intro t u htu i hi hi'
        have hle := hmono (show t.val + 1 ≤ u.val from htu)
        rw [mem_fromTo] at hi hi'
        omega
    apply (List.perm_ext_iff_of_nodup hnodup (List.nodup_finRange m)).mpr
    intro i
    refine iff_of_true ?_ (List.mem_finRange i)
    obtain ⟨t, htT, hlo, hhi⟩ := exists_bounds hzero (show i.val < bound T from hlast ▸ i.isLt)
    rw [List.mem_flatten]
    exact ⟨_, (List.mem_ofFn' _ _).mpr ⟨⟨t, htT⟩, rfl⟩, mem_fromTo.mpr ⟨hlo, hhi⟩⟩

/-- The worker loops over `StaticRange` visit every index exactly once. -/
def Schedule.static (T m : Nat) [NeZero T] : Schedule T m :=
  scheduleOfBounds T m (staticBound m T) (staticBound_mono m T) (staticBound_zero m T)
    (staticBound_last (Nat.pos_of_ne_zero (NeZero.ne T)))

theorem Schedule.static_work (T m : Nat) [NeZero T] (t : Fin T) : (Schedule.static T m).work t =
    fromTo m (staticRange m T t).1 (staticRange m T t).2 := by
  rw [staticRange_eq]
  rfl

/-! ## An even split -/

/-- The indices of a range. -/
def indices (range : Nat × Nat) : Set Nat := Set.Ico range.1 range.2

/-- The ranges of `nthreads` threads divide the indices below `n` evenly among them, in order. -/
structure SplitsEvenly (n nthreads : Nat) (range : Nat → Nat × Nat) : Prop where
  first : (range 0).1 = 0
  next : ∀ tid, tid + 1 < nthreads → (range (tid + 1)).1 = (range tid).2
  last : (range (nthreads - 1)).2 = n
  ordered : ∀ tid < nthreads, (range tid).1 ≤ (range tid).2
  disjoint : ∀ s < nthreads, ∀ t < nthreads, s ≠ t → Disjoint (indices (range s)) (indices (range t))
  covers : ∀ i, i < n ↔ ∃ tid < nthreads, i ∈ indices (range tid)
  decreasing : ∀ s t, s ≤ t → t < nthreads → (range t).2 - (range t).1 ≤ (range s).2 - (range s).1
  balanced : ∀ s < nthreads, ∀ t < nthreads, (range s).2 - (range s).1 ≤ (range t).2 - (range t).1 + 1

theorem length_staticRange (n nthreads tid : Nat) :
    (staticRange n nthreads tid).2 - (staticRange n nthreads tid).1 =
      n / nthreads + if tid < n % nthreads then 1 else 0 := by
  rw [staticRange]
  generalize n / nthreads = q
  split
  · dsimp only
    omega
  · dsimp only
    omega

theorem staticRange_splitsEvenly {n nthreads : Nat} (h : 0 < nthreads) :
    SplitsEvenly n nthreads (staticRange n nthreads) := by
  have hlast := staticBound_last (n := n) h
  have hmono := staticBound_mono n nthreads
  refine ⟨?_, fun tid _ => ?_, ?_, fun tid _ => ?_, fun s _ t _ hne => ?_, fun i => ?_, fun s t hst _ => ?_,
    fun s _ t _ => ?_⟩
  · rw [staticRange_eq]
    exact staticBound_zero n nthreads
  · rw [staticRange_eq, staticRange_eq]
  · rw [staticRange_eq, Nat.sub_add_cancel h]
    exact hlast
  · rw [staticRange_eq]
    exact hmono tid.le_succ
  · rw [indices, indices, staticRange_eq, staticRange_eq]
    rw [Set.disjoint_left]
    intro i hi hi'
    rcases Nat.lt_or_gt_of_ne hne with hlt | hlt
    · exact absurd (hi.2.trans_le (hmono hlt)) (not_lt.mpr hi'.1)
    · exact absurd (hi'.2.trans_le (hmono hlt)) (not_lt.mpr hi.1)
  · constructor
    · intro hi
      obtain ⟨tid, htid, hlo, hhi⟩ := exists_bounds (staticBound_zero n nthreads) (hlast ▸ hi)
      refine ⟨tid, htid, ?_⟩
      rw [indices, staticRange_eq]
      exact ⟨hlo, hhi⟩
    · rintro ⟨tid, htid, hi⟩
      rw [indices, staticRange_eq] at hi
      exact hi.2.trans_le (staticBound_le htid)
  · rw [length_staticRange, length_staticRange]
    split <;> split <;> omega
  · rw [length_staticRange, length_staticRange]
    split <;> split <;> omega

/-- No product exceeds the number of indices. -/
theorem staticRange_product_le {n nthreads tid : Nat} (h : tid < nthreads) :
    (tid < n % nthreads → (n / nthreads + 1) * tid ≤ n) ∧ n / nthreads * tid ≤ n := by
  have hbound := staticBound_le (n := n) h.le
  rw [staticBound] at hbound
  refine ⟨fun hlt => ?_, by omega⟩
  rw [Nat.add_mul, Nat.one_mul]
  omega

/-! ## In 64-bit arithmetic -/

/-- The result of an operation on `int64_t`, which is undefined when it does not fit. -/
def int64Result (x : Int) : Option Int64 :=
  if -2 ^ 63 ≤ x ∧ x < 2 ^ 63 then some (.ofInt x) else none

def addInt64 (a b : Int64) : Option Int64 := int64Result (a.toInt + b.toInt)

def mulInt64 (a b : Int64) : Option Int64 := int64Result (a.toInt * b.toInt)

/-- The quotient and the remainder, which is undefined when the quotient is. -/
def divModInt64 (a b : Int64) : Option (Int64 × Int64) :=
  if b = 0 then none
  else (int64Result (a.toInt.tdiv b.toInt)).map fun q => (q, .ofInt (a.toInt.tmod b.toInt))

/-- `StaticRange(n, nthreads, tid, begin, end)` on `int64_t` and `int` -/
def staticRange64 (n : Int64) (nthreads tid : Int32) : Option (Int64 × Int64) := do
  let (q, r) ← divModInt64 n nthreads.toInt64
  if tid.toInt64 < r then
    let start ← mulInt64 (← addInt64 q 1) tid.toInt64
    let stop ← addInt64 (← addInt64 start q) 1
    return (start, stop)
  else
    let start ← addInt64 (← mulInt64 q tid.toInt64) r
    let stop ← addInt64 start q
    return (start, stop)

theorem int64Result_natCast {k : Nat} (h : k < 2 ^ 63) : int64Result k = some (.ofNat k) := by
  rw [int64Result, if_pos (by omega), Int64.ofInt_eq_ofNat]

theorem addInt64_ofNat {a b : Nat} (h : a + b < 2 ^ 63) :
    addInt64 (.ofNat a) (.ofNat b) = some (.ofNat (a + b)) := by
  rw [addInt64, Int64.toInt_ofNat_of_lt (by omega), Int64.toInt_ofNat_of_lt (by omega)]
  exact int64Result_natCast h

theorem mulInt64_ofNat {a b : Nat} (ha : a < 2 ^ 63) (hb : b < 2 ^ 63) (h : a * b < 2 ^ 63) :
    mulInt64 (.ofNat a) (.ofNat b) = some (.ofNat (a * b)) := by
  rw [mulInt64, Int64.toInt_ofNat_of_lt ha, Int64.toInt_ofNat_of_lt hb]
  exact int64Result_natCast h

theorem divModInt64_ofNat {a b : Nat} (ha : a < 2 ^ 63) (hb : b < 2 ^ 63) (hpos : 0 < b) :
    divModInt64 (.ofNat a) (.ofNat b) = some (.ofNat (a / b), .ofNat (a % b)) := by
  have hq : a / b < 2 ^ 63 := (Nat.div_le_self a b).trans_lt ha
  have hne : Int64.ofNat b ≠ 0 := by
    intro h
    have h0 := congrArg Int64.toInt h
    rw [Int64.toInt_ofNat_of_lt hb, Int64.toInt_zero] at h0
    omega
  rw [divModInt64, if_neg hne, Int64.toInt_ofNat_of_lt ha, Int64.toInt_ofNat_of_lt hb,
    ← Int.ofNat_tdiv, int64Result_natCast hq, ← Int.ofNat_tmod, Int64.ofInt_eq_ofNat]
  rfl

theorem toInt64_ofNat {k : Nat} (h : k < 2 ^ 31) : (Int32.ofNat k).toInt64 = .ofNat k := by
  apply Int64.toInt_inj.mp
  rw [Int32.toInt_toInt64, Int32.toInt_ofNat_of_lt h, Int64.toInt_ofNat_of_lt (by omega)]

/-- Nothing overflows. -/
theorem staticRange64_eq {n nthreads tid : Nat} (hn : n < 2 ^ 63) (hnthreads : nthreads < 2 ^ 31)
    (htid : tid < nthreads) :
    staticRange64 (.ofNat n) (.ofNat nthreads) (.ofNat tid) =
      some (.ofNat (staticRange n nthreads tid).1, .ofNat (staticRange n nthreads tid).2) := by
  obtain ⟨hprod, hprod'⟩ := staticRange_product_le (n := n) htid
  have hstop : (staticRange n nthreads tid).2 ≤ n := by
    rw [staticRange_eq]
    exact staticBound_le htid
  have hq := Nat.div_le_self n nthreads
  have hr := Nat.mod_le n nthreads
  rw [staticRange64, toInt64_ofNat hnthreads, toInt64_ofNat (htid.trans hnthreads),
    divModInt64_ofNat hn (by omega) (by omega)]
  simp only [Option.bind_eq_bind, Option.bind_some, Option.pure_def]
  simp only [staticRange] at hstop ⊢
  generalize n / nthreads = q at *
  generalize n % nthreads = r at *
  have hcmp : Int64.ofNat tid < .ofNat r ↔ tid < r := Int64.ofNat_lt_iff_lt (by omega) (by omega)
  by_cases hlt : tid < r
  · rw [if_pos (hcmp.mpr hlt)]
    simp only [if_pos hlt] at hstop ⊢
    have hstart := hprod hlt
    have hone : addInt64 (.ofNat q) 1 = some (.ofNat (q + 1)) :=
      addInt64_ofNat (b := 1) (by omega)
    rw [hone, Option.bind_some, mulInt64_ofNat (by omega) (by omega) (by omega),
      Option.bind_some, addInt64_ofNat (by omega), Option.bind_some]
    have hlast : addInt64 (.ofNat ((q + 1) * tid + q)) 1 = some (.ofNat _) :=
      addInt64_ofNat (b := 1) (by omega)
    rw [hlast]
    rfl
  · rw [if_neg (hcmp.not.mpr hlt)]
    simp only [if_neg hlt] at hstop ⊢
    rw [mulInt64_ofNat (by omega) (by omega) (by omega), Option.bind_some,
      addInt64_ofNat (by omega), Option.bind_some, addInt64_ofNat (by omega)]
    rfl

end Gapbs
