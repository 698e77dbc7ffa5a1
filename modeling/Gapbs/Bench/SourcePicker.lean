import Gapbs.Gen.Blocks

/-!
# `SourcePicker`

The sources of the trials of `bfs`, `sssp` and `bc` come from a `SourcePicker`, which returns the vertex
that the user has given or draws until it comes to one with an out-edge.
-/

namespace Gapbs.Gen

/-! ## The outputs of an engine -/

namespace RandomEngine

variable (rng : RandomEngine)

/-- The state after `k` outputs. -/
def after (value k : ℕ) : rng.State := (fun s => (rng.next s).2)^[k] (rng.seed value)

def output (value k : ℕ) : ℕ := (rng.next (rng.after value k)).1

theorem after_succ (value k : ℕ) : rng.after value (k + 1) = (rng.next (rng.after value k)).2 :=
  Function.iterate_succ_apply' _ k _

/-- Whatever has been drawn, every number in the range of the engine is still to come: within the
period of a Mersenne twister it does. -/
def Recurrent (value : ℕ) : Prop := ∀ raw, raw < 2 ^ rng.bits → ∀ j, ∃ k, j ≤ k ∧ rng.output value k = raw

end RandomEngine

theorem UniDist.call_returns_of_accepts {d : UniDist} {rng : RandomEngine} {s : rng.State}
    (h : d.accepts (rng.next s).1 = true) :
    (d.call rng s).Returns (d.result (rng.next s).1, (rng.next s).2) :=
  (Fueled.Returns.loop_exit (Fueled.returns_pure.mpr (if_pos h))).mpr rfl

theorem UniDist.call_returns_next {d : UniDist} {rng : RandomEngine} {s : rng.State}
    (h : d.accepts (rng.next s).1 = false) {r : ℤ × rng.State} :
    (d.call rng s).Returns r ↔ (d.call rng (rng.next s).2).Returns r :=
  (Fueled.returns_pure.mpr (if_neg (by simp [h]))).loop_next

/-- A call returns at the next output that is accepted. -/
theorem UniDist.call_after {d : UniDist} {rng : RandomEngine} {value j k : ℕ} (hjk : j ≤ k)
    (hk : d.accepts (rng.output value k) = true) :
    ∃ i, j ≤ i ∧ i ≤ k ∧ d.accepts (rng.output value i) = true ∧
      (d.call rng (rng.after value j)).Returns (d.result (rng.output value i), rng.after value (i + 1)) := by
  induction hd : k - j generalizing j with
  | zero =>
    obtain rfl : j = k := by omega
    refine ⟨j, le_rfl, le_rfl, hk, ?_⟩
    rw [rng.after_succ]
    exact call_returns_of_accepts hk
  | succ d' ih =>
    by_cases hj : d.accepts (rng.output value j) = true
    · refine ⟨j, le_rfl, hjk, hj, ?_⟩
      rw [rng.after_succ]
      exact call_returns_of_accepts hj
    · obtain ⟨i, hji, hik, hi, hreturns⟩ := ih (j := j + 1) (by omega) (by omega)
      refine ⟨i, by omega, hik, hi, ?_⟩
      rw [rng.after_succ] at hreturns
      exact (call_returns_next (Bool.not_eq_true _ ▸ hj)).mpr hreturns

/-- What a call leaves behind is a state of the same sequence. -/
theorem UniDist.call_stays {d : UniDist} {rng : RandomEngine} {value j : ℕ} {r : ℤ × rng.State}
    (h : (d.call rng (rng.after value j)).Returns r) : ∃ k, r.2 = rng.after value k := by
  obtain ⟨t, ⟨k, rfl⟩, ht⟩ := h.loop_invariant (fun s => ∃ k, s = rng.after value k) ⟨j, rfl⟩ fun s s' hs hs' => by
    obtain ⟨k, rfl⟩ := hs
    have hbody := Fueled.returns_pure.mp hs'
    by_cases haccepts : d.accepts (rng.next (rng.after value k)).1 = true
    · rw [if_pos haccepts] at hbody
      cases hbody
    · rw [if_neg haccepts] at hbody
      exact ⟨k + 1, (Sum.inl.inj hbody).symm.trans (rng.after_succ value k).symm⟩
  have hbody := Fueled.returns_pure.mp ht
  by_cases haccepts : d.accepts (rng.next (rng.after value k)).1 = true
  · rw [if_pos haccepts] at hbody
    obtain rfl := Sum.inr.inj hbody
    exact ⟨k + 1, (rng.after_succ value k).symm⟩
  · rw [if_neg haccepts] at hbody
    cases hbody

end Gapbs.Gen

namespace Gapbs.Bench

open Gen

variable {n : ℕ}

/-- The members that do not change; the state of `rng_` is kept apart. -/
structure SourcePicker (n : ℕ) where
  givenSource : ℤ
  rng : RandomEngine
  /-- `g_.out_degree` -/
  outDegree : Fin n → ℕ

/-- A `NodeID` as an index. -/
def vertex? (k : ℤ) : Option (Fin n) := if h : k.toNat < n ∧ 0 ≤ k then some ⟨k.toNat, h.1⟩ else none

theorem vertex?_natCast (v : Fin n) : vertex? ((v.val : ℕ) : ℤ) = some v :=
  dif_pos ⟨v.isLt, Int.natCast_nonneg _⟩

namespace SourcePicker

variable (p : SourcePicker n)

/-- The constructor seeds `rng_`. -/
def start : p.rng.State := p.rng.seed kRandSeed

/-- `udist_` -/
def udist : UniDist := uniDist p.rng.bits (n - 1)

/-- One turn of the loop; the degree of a number that is no vertex is undefined. -/
def draw (s : p.rng.State) : Fueled (p.rng.State ⊕ Option (Fin n) × p.rng.State) := do
  let (source, s') ← p.udist.call p.rng s
  match vertex? source with
  | none => return .inr (none, s')
  | some v => return if p.outDegree v = 0 then .inl s' else .inr (some v, s')

/-- `PickNext` -/
def pickNext (s : p.rng.State) : Fueled (Option (Fin n) × p.rng.State) :=
  if p.givenSource ≠ -1 then pure (vertex? p.givenSource, s)
  else .loop p.draw s

/-! ## What is picked -/

variable {p}

/-- A pick that draws returns a vertex with an out-edge. -/
theorem pickNext_mem (hn : 0 < n) (hbits : 32 ≤ p.rng.bits) (hsize : n < 2 ^ 31)
    (hgiven : p.givenSource = -1) {s : p.rng.State} {r : Option (Fin n) × p.rng.State}
    (h : (p.pickNext s).Returns r) : ∃ v, r.1 = some v ∧ p.outDegree v ≠ 0 := by
  rw [pickNext, if_neg (not_not.mpr hgiven)] at h
  obtain ⟨t, -, ht⟩ := h.loop_invariant (fun _ => True) trivial fun _ _ _ _ => trivial
  rw [draw, Fueled.returns_bind] at ht
  obtain ⟨⟨source, s'⟩, hcall, hbody⟩ := ht
  obtain ⟨raw, -, hsource⟩ := UniDist.call_returns hcall
  change source = p.udist.result raw at hsource
  rw [udist, result_eq hbits (by omega), Nat.sub_add_cancel hn] at hsource
  have hlt : toUNodeID raw % n < n := Nat.mod_lt _ hn
  have hvertex : vertex? source = some ⟨toUNodeID raw % n, hlt⟩ := by
    rw [hsource]
    exact vertex?_natCast ⟨_, hlt⟩
  simp only [hvertex] at hbody
  have hr := Fueled.returns_pure.mp hbody
  split at hr
  · cases hr
  · next hdegree =>
    cases hr
    exact ⟨_, rfl, hdegree⟩

theorem pickNext_given (hgiven : p.givenSource ≠ -1) (s : p.rng.State) :
    (p.pickNext s).Returns (vertex? p.givenSource, s) := by
  rw [pickNext, if_pos hgiven]
  exact Fueled.returns_pure.mpr rfl

theorem draw_stays {j : ℕ} {r : p.rng.State ⊕ Option (Fin n) × p.rng.State}
    (h : (p.draw (p.rng.after kRandSeed j)).Returns r) :
    ∃ k, r.elim id Prod.snd = p.rng.after kRandSeed k := by
  rw [draw, Fueled.returns_bind] at h
  obtain ⟨⟨source, s'⟩, hcall, hbody⟩ := h
  obtain ⟨k, rfl⟩ := UniDist.call_stays hcall
  refine ⟨k, ?_⟩
  cases hv : vertex? (n := n) source with
  | none =>
    simp only [hv] at hbody
    rw [← Fueled.returns_pure.mp hbody]
    rfl
  | some v =>
    simp only [hv] at hbody
    rw [← Fueled.returns_pure.mp hbody]
    split <;> rfl

/-- The state that a pick leaves behind is one of the sequence that the seed has begun. -/
theorem pickNext_stays {j : ℕ} {r : Option (Fin n) × p.rng.State}
    (h : (p.pickNext (p.rng.after kRandSeed j)).Returns r) : ∃ k, r.2 = p.rng.after kRandSeed k := by
  by_cases hgiven : p.givenSource = -1
  · rw [pickNext, if_neg (not_not.mpr hgiven)] at h
    obtain ⟨t, ⟨k, rfl⟩, ht⟩ := h.loop_invariant (fun s => ∃ k, s = p.rng.after kRandSeed k) ⟨j, rfl⟩ (by
      rintro s s' ⟨k, rfl⟩ hs'
      exact draw_stays hs')
    exact draw_stays ht
  · rw [← (pickNext_given hgiven _).unique h]
    exact ⟨j, rfl⟩

/-- The draws come to an end at the latest when the number of `v` is drawn. -/
theorem loop_draw_terminates (hbits : 32 ≤ p.rng.bits) (hsize : n < 2 ^ 31) {v : Fin n}
    (hv : p.outDegree v ≠ 0) {j k : ℕ} (hjk : j ≤ k) (hk : p.rng.output kRandSeed k = v.val) :
    (Fueled.loop p.draw (p.rng.after kRandSeed j)).Terminates := by
  have hpos := v.pos
  have hraw (raw : ℕ) : p.udist.result raw = (toUNodeID raw % n : ℕ) := by
    rw [udist, result_eq hbits (by omega), Nat.sub_add_cancel hpos]
  have hnum : toUNodeID v.val % n = v.val := by
    rw [toUNodeID, Nat.mod_eq_of_lt (show v.val < 2 ^ 32 by omega), Nat.mod_eq_of_lt v.isLt]
  have haccepts : p.udist.accepts (p.rng.output kRandSeed k) = true := by
    have hle := mod_succ_le (rngMax p.rng.bits) (n - 1)
    rw [hk, udist, accepts_iff hbits (by omega), toUNodeID, Nat.mod_eq_of_lt (by omega), acceptedBelow]
    split <;> omega
  induction hd : k - j using Nat.strongRecOn generalizing j with
  | ind d ih =>
    obtain ⟨i, hji, hik, -, hcall⟩ := UniDist.call_after hjk haccepts
    rw [hraw] at hcall
    let u : Fin n := ⟨toUNodeID (p.rng.output kRandSeed i) % n, Nat.mod_lt _ hpos⟩
    have hvertex : vertex? ((toUNodeID (p.rng.output kRandSeed i) % n : ℕ) : ℤ) = some u :=
      vertex?_natCast u
    have hdraw : (p.draw (p.rng.after kRandSeed j)).Returns
        (if p.outDegree u = 0 then .inl (p.rng.after kRandSeed (i + 1))
          else .inr (some u, p.rng.after kRandSeed (i + 1))) := by
      rw [draw, hcall.bind_iff]
      simp only [hvertex]
      exact Fueled.returns_pure.mpr rfl
    by_cases hu : p.outDegree u = 0
    · rw [if_pos hu] at hdraw
      -- the number of `v` is still to come
      have hne : i ≠ k := by
        rintro rfl
        have huv : u = v := Fin.ext (by simp only [u, hk, hnum])
        exact hv (huv ▸ hu)
      obtain ⟨r, hr⟩ := ih (k - (i + 1)) (by omega) (by omega) rfl
      exact ⟨r, hdraw.loop_next.mpr hr⟩
    · rw [if_neg hu] at hdraw
      exact ⟨_, hdraw.loop_exit.mpr rfl⟩

/-- `PickNext` returns unless it has to draw and no vertex has an out-edge. -/
theorem pickNext_returns (hbits : 32 ≤ p.rng.bits) (hrng : p.rng.Recurrent kRandSeed) (hsize : n < 2 ^ 31)
    (h : p.givenSource ≠ -1 ∨ ∃ v, p.outDegree v ≠ 0) (j : ℕ) :
    (p.pickNext (p.rng.after kRandSeed j)).Terminates := by
  by_cases hgiven : p.givenSource = -1
  · obtain ⟨v, hv⟩ := h.resolve_left (not_not.mpr hgiven)
    have hpow : 2 ^ 31 ≤ 2 ^ p.rng.bits := Nat.pow_le_pow_right (by decide) (by omega)
    obtain ⟨k, hjk, hk⟩ := hrng v.val (by omega) j
    rw [pickNext, if_neg (not_not.mpr hgiven)]
    exact loop_draw_terminates hbits hsize hv hjk hk
  · exact ⟨_, pickNext_given hgiven _⟩

/-- What `PickNext` may return. -/
def MayPick (p : SourcePicker n) (v : Fin n) : Prop :=
  if p.givenSource = -1 then p.outDegree v ≠ 0 else p.givenSource = v.val

/-- There is something to be picked, by an engine that is wide enough. -/
structure Usable (p : SourcePicker n) : Prop where
  size : n < 2 ^ 31
  bits : 32 ≤ p.rng.bits
  recurrent : p.rng.Recurrent kRandSeed
  source : ∃ v, p.MayPick v

theorem Usable.pickNext_returns (h : p.Usable) (j : ℕ) :
    ∃ v k, (p.pickNext (p.rng.after kRandSeed j)).Returns (some v, p.rng.after kRandSeed k) ∧
      p.MayPick v := by
  obtain ⟨w, hw⟩ := h.source
  unfold MayPick at hw ⊢
  by_cases hgiven : p.givenSource = -1
  · rw [if_pos hgiven] at hw
    obtain ⟨⟨x, s⟩, hr⟩ := SourcePicker.pickNext_returns h.bits h.recurrent h.size (.inr ⟨w, hw⟩) j
    obtain ⟨v, rfl, hv⟩ := pickNext_mem w.pos h.bits h.size hgiven hr
    obtain ⟨k, rfl⟩ := pickNext_stays hr
    exact ⟨v, k, hr, by rwa [if_pos hgiven]⟩
  · rw [if_neg hgiven] at hw
    have hr := pickNext_given hgiven (p.rng.after kRandSeed j)
    rw [hw, vertex?_natCast] at hr
    exact ⟨w, j, hr, by rwa [if_neg hgiven]⟩

/-- Wherever the engine stands, `PickNext` returns exactly if a source is given or some vertex has an
out-edge, and then it returns the given vertex or one with an out-edge. -/
theorem pickNext_correct (p : SourcePicker n) (hn : 0 < n) (hsize : n < 2 ^ 31) (hbits : 32 ≤ p.rng.bits)
    (hrng : p.rng.Recurrent kRandSeed) (j : ℕ) :
    ((p.pickNext (p.rng.after kRandSeed j)).Terminates ↔
      p.givenSource ≠ -1 ∨ ∃ v, p.outDegree v ≠ 0) ∧
    ∀ r, (p.pickNext (p.rng.after kRandSeed j)).Returns r →
      (if p.givenSource = -1 then ∃ v, r.1 = some v ∧ p.outDegree v ≠ 0
        else r = (vertex? p.givenSource, p.rng.after kRandSeed j)) ∧
      ∃ k, r.2 = p.rng.after kRandSeed k := by
  refine ⟨⟨fun h => ?_, fun h => pickNext_returns hbits hrng hsize h j⟩, fun r hr => ⟨?_, pickNext_stays hr⟩⟩
  · obtain ⟨r, hr⟩ := h
    by_cases hgiven : p.givenSource = -1
    · obtain ⟨v, -, hv⟩ := pickNext_mem hn hbits hsize hgiven hr
      exact .inr ⟨v, hv⟩
    · exact .inl hgiven
  · split
    · next hgiven => exact pickNext_mem hn hbits hsize hgiven hr
    · next hgiven => exact hr.unique (pickNext_given hgiven _)

end SourcePicker

/-- An engine that counts. -/
def countingEngine : RandomEngine where
  bits := 64
  State := ℕ
  seed value := value
  next s := (s % 2 ^ 64, s + 1)
  next_lt s := Nat.mod_lt s (Nat.two_pow_pos 64)

theorem countingEngine_recurrent (value : ℕ) : countingEngine.Recurrent value := by
  have hafter (k : ℕ) : countingEngine.after value k = value + k := by
    induction k with
    | zero => rfl
    | succ k ih =>
      rw [RandomEngine.after_succ, ih]
      rfl
  intro raw hraw j
  refine ⟨raw + 2 ^ 64 * (value + j) - value, by omega, ?_⟩
  rw [RandomEngine.output, hafter]
  show (value + (raw + 2 ^ 64 * (value + j) - value)) % 2 ^ 64 = raw
  rw [Nat.add_sub_cancel' (by omega), Nat.add_mul_mod_self_left]
  exact Nat.mod_eq_of_lt hraw

/-- Two vertices of which only the second has an out-edge. -/
def secondPicker : SourcePicker 2 := ⟨-1, countingEngine, ![0, 1]⟩

namespace SourcePicker

theorem pickNext_correct_second :
    ((secondPicker.pickNext (secondPicker.rng.after kRandSeed 0)).Terminates ↔
      secondPicker.givenSource ≠ -1 ∨ ∃ v, secondPicker.outDegree v ≠ 0) ∧
    ∀ r, (secondPicker.pickNext (secondPicker.rng.after kRandSeed 0)).Returns r →
      (if secondPicker.givenSource = -1 then ∃ v, r.1 = some v ∧ secondPicker.outDegree v ≠ 0
        else r = (vertex? secondPicker.givenSource, secondPicker.rng.after kRandSeed 0)) ∧
      ∃ k, r.2 = secondPicker.rng.after kRandSeed k :=
  pickNext_correct secondPicker (by decide) (by decide) (by decide) (countingEngine_recurrent _) 0

end SourcePicker

end Gapbs.Bench
