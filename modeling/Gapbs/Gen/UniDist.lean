import Mathlib.Data.Int.CardIntervalMod
import Mathlib.Data.Nat.Prime.Basic
import Mathlib.Data.Nat.Count
import Gapbs.Graph.Csr
import Gapbs.Lib.Fueled

/-!
# `UniDist`

The distribution draws from an engine until a raw output is below a cutoff and reduces it modulo the
size of the range.  `uNodeID_` has 32 bits, an engine may have more.
-/

namespace Gapbs.Gen

/-- A random number engine of the standard library: its outputs are the numbers below `2 ^ bits`. -/
structure RandomEngine where
  bits : ℕ
  State : Type
  seed : ℕ → State
  next : State → ℕ × State
  next_lt : ∀ s, (next s).1 < 2 ^ bits

/-- `rng_.max()` of an engine with `bits` bits -/
def rngMax (bits : ℕ) : ℕ := 2 ^ bits - 1

/-- Conversion to `uNodeID_` -/
def toUNodeID (raw : ℕ) : ℕ := raw % 2 ^ 32

structure UniDist where
  noMod : Bool
  mod : ℕ
  cutoff : ℕ

/-- The constructor, for a `max_value` that is not negative. -/
def uniDist (bits maxValue : ℕ) : UniDist :=
  let mod := toUNodeID (maxValue + 1)
  let remainderSub1 := toUNodeID (rngMax bits % mod)
  { noMod := rngMax bits = toUNodeID maxValue
    mod
    cutoff := if remainderSub1 = mod - 1 then 0 else toUNodeID (rngMax bits - remainderSub1) }

namespace UniDist

variable (d : UniDist)

/-- Whether `operator()` returns with this raw output or draws again. -/
def accepts (raw : ℕ) : Bool := d.noMod || d.cutoff == 0 || decide (toUNodeID raw < d.cutoff)

/-- What `operator()` returns when it accepts. -/
def result (raw : ℕ) : ℤ :=
  if d.noMod then toNodeID (toUNodeID raw : ℕ) else toNodeID (toUNodeID raw % d.mod : ℕ)

/-- `operator()` -/
def call (rng : RandomEngine) : rng.State → Fueled (ℤ × rng.State) :=
  Fueled.loop fun s =>
    let (raw, s') := rng.next s
    pure (if d.accepts raw then .inr (d.result raw, s') else .inl s')

/-- How many of the raw outputs are accepted with the result `k`. -/
def outcomes (bits : ℕ) (k : ℤ) : ℕ :=
  Nat.count (fun raw => d.accepts raw = true ∧ d.result raw = k) (2 ^ bits)

end UniDist

/-- Every number in the range is the result of equally many raw outputs. -/
def Unbiased (bits maxValue : ℕ) : Prop :=
  ∀ k l, k ≤ maxValue → l ≤ maxValue →
    (uniDist bits maxValue).outcomes bits k = (uniDist bits maxValue).outcomes bits l

/-- What is promised of a distribution on an engine with `bits` bits. -/
structure Uniform (bits maxValue : ℕ) : Prop where
  unbiased : Unbiased bits maxValue
  inRange : ∀ raw, raw < 2 ^ bits → (uniDist bits maxValue).accepts raw = true →
    0 ≤ (uniDist bits maxValue).result raw ∧ (uniDist bits maxValue).result raw ≤ maxValue
  accepting : ∃ raw, raw < 2 ^ bits ∧ (uniDist bits maxValue).accepts raw = true

/-! ## Calls -/

/-- A call comes to an end if one of the following outputs is accepted. -/
theorem UniDist.call_terminates {d : UniDist} {rng : RandomEngine} {s : rng.State} {k : ℕ}
    (h : d.accepts (rng.next ((fun s => (rng.next s).2)^[k] s)).1 = true) : (d.call rng s).Terminates := by
  induction k generalizing s with
  | zero =>
    exact ⟨_, (Fueled.Returns.loop_exit (Fueled.returns_pure.mpr (if_pos h))).mpr rfl⟩
  | succ k ih =>
    by_cases hfirst : d.accepts (rng.next s).1 = true
    · exact ⟨_, (Fueled.Returns.loop_exit (Fueled.returns_pure.mpr (if_pos hfirst))).mpr rfl⟩
    · obtain ⟨r, hr⟩ := ih h
      exact ⟨r, (Fueled.Returns.loop_next (Fueled.returns_pure.mpr (if_neg hfirst))).mpr hr⟩

/-- What a call returns is the result of an accepted output. -/
theorem UniDist.call_returns {d : UniDist} {rng : RandomEngine} {s : rng.State} {r : ℤ × rng.State}
    (h : (d.call rng s).Returns r) : ∃ raw, d.accepts raw = true ∧ r.1 = d.result raw := by
  obtain ⟨t, -, ht⟩ := h.loop_invariant (fun _ => True) trivial fun _ _ _ _ => trivial
  have hbody := Fueled.returns_pure.mp ht
  by_cases haccepts : d.accepts (rng.next t).1 = true
  · rw [if_pos haccepts] at hbody
    obtain rfl := Sum.inr.inj hbody
    exact ⟨_, haccepts, rfl⟩
  · rw [if_neg haccepts] at hbody
    cases hbody

/-! ## The members -/

section Members

variable {bits maxValue : ℕ}

theorem two_pow_le_rngMax (hbits : 32 ≤ bits) : 2 ^ 32 - 1 ≤ rngMax bits :=
  Nat.sub_le_sub_right (Nat.pow_le_pow_right (by decide) hbits) 1

theorem rngMax_add_one (bits : ℕ) : rngMax bits + 1 = 2 ^ bits :=
  Nat.sub_add_cancel Nat.one_le_two_pow

theorem mod_succ_le (k maxValue : ℕ) : k % (maxValue + 1) ≤ maxValue :=
  Nat.le_of_lt_succ (Nat.mod_lt k (Nat.succ_pos maxValue))

theorem uniDist_noMod (hbits : 32 ≤ bits) (hmax : maxValue < 2 ^ 31 - 1) :
    (uniDist bits maxValue).noMod = false := by
  have hle := two_pow_le_rngMax hbits
  have hmod : toUNodeID maxValue = maxValue := Nat.mod_eq_of_lt (by omega)
  change decide (rngMax bits = toUNodeID maxValue) = false
  rw [hmod]
  exact decide_eq_false (by omega)

theorem uniDist_mod (hmax : maxValue < 2 ^ 31 - 1) : (uniDist bits maxValue).mod = maxValue + 1 :=
  Nat.mod_eq_of_lt (by omega)

theorem uniDist_cutoff (hmax : maxValue < 2 ^ 31 - 1) :
    (uniDist bits maxValue).cutoff = if rngMax bits % (maxValue + 1) = maxValue then 0
      else toUNodeID (rngMax bits - rngMax bits % (maxValue + 1)) := by
  have hmod : toUNodeID (maxValue + 1) = maxValue + 1 := Nat.mod_eq_of_lt (by omega)
  have hle := mod_succ_le (rngMax bits) maxValue
  have hrem : toUNodeID (rngMax bits % (maxValue + 1)) = rngMax bits % (maxValue + 1) :=
    Nat.mod_eq_of_lt (by omega)
  simp only [uniDist, hmod, hrem, Nat.add_sub_cancel]

/-- Only the lower half of the cutoff is kept. -/
theorem toUNodeID_rngMax_sub (hbits : 32 ≤ bits) {r : ℕ} (hr : r < 2 ^ 32) :
    toUNodeID (rngMax bits - r) = 2 ^ 32 - 1 - r := by
  obtain ⟨q, hq⟩ : 2 ^ 32 ∣ 2 ^ bits := Nat.pow_dvd_pow 2 hbits
  have hone := rngMax_add_one bits
  rw [hq] at hone
  have hpos : 0 < q := Nat.pos_of_ne_zero fun h => by simp [h] at hone
  obtain ⟨q, rfl⟩ := Nat.exists_eq_add_of_le' hpos
  have hsplit : rngMax bits - r = 2 ^ 32 - 1 - r + 2 ^ 32 * q := by omega
  rw [toUNodeID, hsplit, Nat.add_mul_mod_self_left, Nat.mod_eq_of_lt (by omega)]

/-- The 32-bit numbers that are accepted are those below this bound. -/
def acceptedBelow (bits maxValue : ℕ) : ℕ :=
  if rngMax bits % (maxValue + 1) = maxValue then 2 ^ 32
  else 2 ^ 32 - 1 - rngMax bits % (maxValue + 1)

theorem accepts_iff (hbits : 32 ≤ bits) (hmax : maxValue < 2 ^ 31 - 1) (raw : ℕ) :
    (uniDist bits maxValue).accepts raw = true ↔ toUNodeID raw < acceptedBelow bits maxValue := by
  have hle := mod_succ_le (rngMax bits) maxValue
  have hraw : toUNodeID raw < 2 ^ 32 := Nat.mod_lt raw (by decide)
  rw [UniDist.accepts, uniDist_noMod hbits hmax, uniDist_cutoff hmax, acceptedBelow]
  simp only [Bool.false_or, Bool.or_eq_true, beq_iff_eq, decide_eq_true_eq]
  split
  · exact iff_of_true (.inl rfl) hraw
  · rw [toUNodeID_rngMax_sub hbits (by omega)]
    exact or_iff_right (by omega)

theorem result_eq (hbits : 32 ≤ bits) (hmax : maxValue < 2 ^ 31 - 1) (raw : ℕ) :
    (uniDist bits maxValue).result raw = (toUNodeID raw % (maxValue + 1) : ℕ) := by
  have hle := mod_succ_le (toUNodeID raw) maxValue
  rw [UniDist.result, uniDist_noMod hbits hmax, uniDist_mod hmax, if_neg Bool.false_ne_true]
  exact toNodeID_eq (by omega)

theorem acceptedBelow_pos (bits : ℕ) (hmax : maxValue < 2 ^ 31 - 1) : 0 < acceptedBelow bits maxValue := by
  have hle := mod_succ_le (rngMax bits) maxValue
  rw [acceptedBelow]
  split <;> omega

theorem acceptedBelow_le (bits maxValue : ℕ) : acceptedBelow bits maxValue ≤ 2 ^ 32 := by
  rw [acceptedBelow]
  split <;> omega

/-- A power of two that is larger than the range and divisible by its size. -/
theorem dvd_two_pow_of_dvd (hmax : maxValue < 2 ^ 31 - 1) (h : maxValue + 1 ∣ 2 ^ bits) :
    maxValue + 1 ∣ 2 ^ 32 := by
  obtain ⟨j, -, hj⟩ := (Nat.dvd_prime_pow Nat.prime_two).mp h
  have hlt : 2 ^ j < 2 ^ 31 := by omega
  rw [hj]
  exact Nat.pow_dvd_pow 2 ((Nat.pow_lt_pow_iff_right (by decide)).mp hlt |>.le.trans (by decide))

/-- The size of the range divides the number of accepted 32-bit numbers only if it does not matter
that the cutoff was computed from a power of two with a larger exponent. -/
theorem dvd_acceptedBelow_iff (hbits : 32 ≤ bits) (hmax : maxValue < 2 ^ 31 - 1) :
    maxValue + 1 ∣ acceptedBelow bits maxValue ↔ maxValue + 1 ∣ 2 ^ bits - 2 ^ 32 := by
  have hpow : 2 ^ 32 ≤ 2 ^ bits := Nat.pow_le_pow_right (by decide) hbits
  have hle := mod_succ_le (rngMax bits) maxValue
  have hone : 2 ^ bits = (rngMax bits % (maxValue + 1) + 1) +
      (maxValue + 1) * (rngMax bits / (maxValue + 1)) := by
    rw [← rngMax_add_one, Nat.add_right_comm, Nat.mod_add_div]
  rw [acceptedBelow]
  split
  · next hrem =>
    have hbitsDvd : maxValue + 1 ∣ 2 ^ bits := by
      rw [hone, hrem]
      exact Nat.dvd_add (Nat.dvd_refl _) (Nat.dvd_mul_right _ _)
    have hdvd := dvd_two_pow_of_dvd hmax hbitsDvd
    exact iff_of_true hdvd (Nat.dvd_sub hbitsDvd hdvd)
  · next hrem =>
    have hcongr : rngMax bits % (maxValue + 1) + 1 ≡ 2 ^ bits [MOD maxValue + 1] := by
      rw [hone, Nat.ModEq, Nat.add_mul_mod_self_left]
    rw [← Nat.modEq_iff_dvd' hpow]
    have hsplit : 2 ^ 32 - 1 - rngMax bits % (maxValue + 1) =
        2 ^ 32 - (rngMax bits % (maxValue + 1) + 1) := by omega
    rw [hsplit, ← Nat.modEq_iff_dvd' (by omega)]
    exact ⟨fun h => h.symm.trans hcongr, fun h => hcongr.trans h.symm⟩

end Members

/-! ## Counting raw outputs -/

section Outcomes

variable {bits maxValue : ℕ}

/-- Each remainder is that of equally many numbers below a multiple. -/
theorem count_mod_mul (p : ℕ → Prop) [DecidablePred p] (N q : ℕ) :
    Nat.count (fun x => p (x % N)) (N * q) = q * Nat.count p N := by
  induction q with
  | zero => simp
  | succ q ih =>
    have hlast : Nat.count (fun x => p ((N * q + x) % N)) N = Nat.count p N := by
      rw [Nat.count_eq_card_filter_range, Nat.count_eq_card_filter_range]
      congr 1
      refine Finset.filter_congr fun x hx => ?_
      rw [Nat.mul_add_mod, Nat.mod_eq_of_lt (Finset.mem_range.mp hx)]
    rw [Nat.mul_succ, Nat.count_add, ih, hlast, Nat.succ_mul]

theorem count_lt_and (p : ℕ → Prop) [DecidablePred p] {a b : ℕ} (h : a ≤ b) :
    Nat.count (fun x => x < a ∧ p x) b = Nat.count p a := by
  rw [Nat.count_eq_card_filter_range, Nat.count_eq_card_filter_range]
  congr 1
  ext x
  simp only [Finset.mem_filter, Finset.mem_range]
  constructor
  · exact fun ⟨_, hx, hp⟩ => ⟨hx, hp⟩
  · exact fun ⟨hx, hp⟩ => ⟨hx.trans_le h, hx, hp⟩

theorem outcomes_eq (hbits : 32 ≤ bits) (hmax : maxValue < 2 ^ 31 - 1) {k : ℕ} (hk : k ≤ maxValue) :
    (uniDist bits maxValue).outcomes bits k =
      2 ^ (bits - 32) * (acceptedBelow bits maxValue / (maxValue + 1) +
        if k < acceptedBelow bits maxValue % (maxValue + 1) then 1 else 0) := by
  have hpow : 2 ^ bits = 2 ^ 32 * 2 ^ (bits - 32) := by
    rw [← pow_add, Nat.add_sub_cancel' hbits]
  have hkmod : k % (maxValue + 1) = k := Nat.mod_eq_of_lt (Nat.lt_succ_of_le hk)
  have hfilter : (uniDist bits maxValue).outcomes bits k =
      Nat.count (fun raw => toUNodeID raw < acceptedBelow bits maxValue ∧
        toUNodeID raw ≡ k [MOD maxValue + 1]) (2 ^ bits) := by
    unfold UniDist.outcomes
    congr 1
    funext raw
    rw [accepts_iff hbits hmax, result_eq hbits hmax, Int.natCast_inj, Nat.ModEq, hkmod]
  have hcount := count_mod_mul (fun y => y < acceptedBelow bits maxValue ∧ y ≡ k [MOD maxValue + 1])
    (2 ^ 32) (2 ^ (bits - 32))
  rw [← hpow, count_lt_and _ (acceptedBelow_le bits maxValue),
    Nat.count_modEq_card _ (Nat.succ_pos maxValue), hkmod] at hcount
  exact hfilter.trans hcount

/-- The smallest and the largest result come equally often only if no remainder is left over. -/
theorem unbiased_iff (hbits : 32 ≤ bits) (hmax : maxValue < 2 ^ 31 - 1) :
    Unbiased bits maxValue ↔ maxValue + 1 ∣ acceptedBelow bits maxValue := by
  have hle := mod_succ_le (acceptedBelow bits maxValue) maxValue
  constructor
  · intro h
    by_contra hndvd
    rw [Nat.dvd_iff_mod_eq_zero] at hndvd
    have heq := h 0 maxValue (Nat.zero_le _) le_rfl
    have hzero := outcomes_eq hbits hmax (Nat.zero_le maxValue)
    rw [Nat.cast_zero] at hzero
    rw [Nat.cast_zero, hzero, outcomes_eq hbits hmax le_rfl, if_pos (Nat.pos_of_ne_zero hndvd),
      if_neg (Nat.not_lt.mpr hle)] at heq
    have := Nat.eq_of_mul_eq_mul_left (Nat.two_pow_pos _) heq
    omega
  · intro hdvd k l hk hl
    rw [outcomes_eq hbits hmax hk, outcomes_eq hbits hmax hl, Nat.mod_eq_zero_of_dvd hdvd,
      if_neg (Nat.not_lt_zero _), if_neg (Nat.not_lt_zero _)]

theorem inRange (hbits : 32 ≤ bits) (hmax : maxValue < 2 ^ 31 - 1) (raw : ℕ) :
    0 ≤ (uniDist bits maxValue).result raw ∧ (uniDist bits maxValue).result raw ≤ maxValue := by
  rw [result_eq hbits hmax]
  exact ⟨Int.natCast_nonneg _, Int.ofNat_le.mpr (mod_succ_le _ _)⟩

theorem accepts_zero (hbits : 32 ≤ bits) (hmax : maxValue < 2 ^ 31 - 1) :
    (uniDist bits maxValue).accepts 0 = true :=
  (accepts_iff hbits hmax 0).mpr (acceptedBelow_pos bits hmax)

/-- On an engine with 32 bits or more, the distribution is uniform exactly if the size of the range
divides `2 ^ bits - 2 ^ 32`; on one with 32 bits it always does. -/
theorem uniDist_uniform_iff (bits maxValue : ℕ) (hbits : bits = 32 ∨ bits = 64)
    (hmax : maxValue < 2 ^ 31 - 1) :
    Uniform bits maxValue ↔ maxValue + 1 ∣ 2 ^ bits - 2 ^ 32 := by
  have hle : 32 ≤ bits := by omega
  rw [← dvd_acceptedBelow_iff hle hmax, ← unbiased_iff hle hmax]
  constructor
  · exact Uniform.unbiased
  · exact fun h => ⟨h, fun raw _ _ => inRange hle hmax raw, 0, Nat.two_pow_pos bits, accepts_zero hle hmax⟩

/-- Weights up to 255, drawn from `mt19937`. -/
theorem uniDist_uniform_iff_weights : Uniform 32 254 ↔ 254 + 1 ∣ 2 ^ 32 - 2 ^ 32 :=
  uniDist_uniform_iff 32 254 (.inl rfl) (by decide)

/-- A source among seven vertices, drawn from `mt19937_64`. -/
theorem not_uniform_seven : ¬ Uniform 64 6 := by
  intro h
  have hdvd := (unbiased_iff (by decide) (by decide)).mp h.unbiased
  exact absurd hdvd (by decide)

end Outcomes

end Gapbs.Gen
