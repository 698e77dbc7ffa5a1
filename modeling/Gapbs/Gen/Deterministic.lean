import Mathlib.Tactic.Linarith
import Gapbs.Gen.Generator

/-!
# The generated lists

What `Generator` makes depends neither on the number of threads nor on the blocks that each is given nor on
their order.
-/

namespace Gapbs.Gen

open Conc Function DestID Endpoint

/-! ## Draws -/

section Draws

variable {maxValue : ℕ} {state : mt19937.State}

/-- On 32 bits the cutoff rejects no output but the largest. -/
theorem call_terminates_of_rem (hmax : maxValue < 2 ^ 31 - 1)
    (hrem : rngMax 32 % (maxValue + 1) = maxValue ∨ rngMax 32 % (maxValue + 1) = 0) :
    ((uniDist 32 maxValue).call mt19937 state).Terminates := by
  apply call_mt19937_terminates
  intro raw hraw
  rw [accepts_iff le_rfl hmax]
  have hlt : raw < 2 ^ 32 - 1 := hraw
  have heq : toUNodeID raw = raw := Nat.mod_eq_of_lt (by omega)
  rw [heq, acceptedBelow]
  split
  · omega
  · next hne =>
    have hzero := hrem.resolve_left hne
    omega

theorem rngMax_mod_two_pow {scale : ℕ} (hscale : scale ≤ 32) : rngMax 32 % 2 ^ scale = 2 ^ scale - 1 := by
  obtain ⟨q, hq⟩ : 2 ^ scale ∣ 2 ^ 32 := Nat.pow_dvd_pow 2 hscale
  have hpos := Nat.two_pow_pos scale
  have hqpos : 0 < q := Nat.pos_of_ne_zero fun h => by simp [h] at hq
  obtain ⟨q, rfl⟩ := Nat.exists_eq_add_of_le' hqpos
  have hsplit : rngMax 32 = 2 ^ scale - 1 + 2 ^ scale * q := by
    rw [rngMax, hq, Nat.mul_succ]
    omega
  rw [hsplit, Nat.add_mul_mod_self_left, Nat.mod_eq_of_lt (by omega)]

theorem call_inRange (hmax : maxValue < 2 ^ 31 - 1) {r : ℤ × mt19937.State}
    (h : ((uniDist 32 maxValue).call mt19937 state).Returns r) : 0 ≤ r.1 ∧ r.1 ≤ maxValue := by
  obtain ⟨raw, -, hraw⟩ := UniDist.call_returns h
  rw [hraw]
  exact inRange le_rfl hmax raw

end Draws

namespace Generator

variable (gen : Generator)

theorem scale_lt : gen.scale < 31 := by
  have hle := gen.numNodes_le
  rw [gen.numNodes_eq] at hle
  exact (Nat.pow_lt_pow_iff_right (by decide : 1 < 2)).mp (by omega)

theorem numNodes_pos : 0 < gen.numNodes := by
  rw [gen.numNodes_eq]
  exact Nat.two_pow_pos gen.scale

theorem udist_terminates (state : mt19937.State) :
    ((uniDist mt19937.bits (gen.numNodes - 1)).call mt19937 state).Terminates := by
  have hle := gen.numNodes_le
  have hpos := gen.numNodes_pos
  have hlt := gen.scale_lt
  apply call_terminates_of_rem (by omega)
  left
  rw [Nat.sub_add_cancel hpos, gen.numNodes_eq]
  exact rngMax_mod_two_pow (by omega)

theorem udist_inRange {state : mt19937.State} {r : ℤ × mt19937.State}
    (h : ((uniDist mt19937.bits (gen.numNodes - 1)).call mt19937 state).Returns r) :
    0 ≤ r.1 ∧ r.1 < gen.numNodes := by
  have hle := gen.numNodes_le
  have hpos := gen.numNodes_pos
  obtain ⟨hlo, hhi⟩ := call_inRange (by omega) h
  omega

end Generator

/-- Both endpoints of the edge are ids of vertices. -/
structure InNodes {D : Type} [Endpoint D] (numNodes : ℕ) (edge : EdgePair ℤ D) : Prop where
  u_nonneg : 0 ≤ edge.u
  u_lt : edge.u < numNodes
  v_nonneg : 0 ≤ nodeID edge.v
  v_lt : nodeID edge.v < numNodes

theorem inNodes_mk {D : Type} [Endpoint D] {numNodes : ℕ} {u v : ℤ} (hu : 0 ≤ u ∧ u < numNodes)
    (hv : 0 ≤ v ∧ v < numNodes) : InNodes numNodes (⟨u, ofNodeID v⟩ : EdgePair ℤ D) := by
  have hid := nodeID_ofNodeID (D := D) v
  exact ⟨hu.1, hu.2, hid.symm ▸ hv.1, hid.symm ▸ hv.2⟩

section Edges

variable {D : Type} [Endpoint D] (gen : Generator)

theorem uniformEdge_terminates (rightFirst : Bool) (state : mt19937.State) :
    (uniformEdge (D := D) rightFirst (uniDist mt19937.bits (gen.numNodes - 1)) mt19937 state).Terminates := by
  apply (gen.udist_terminates state).bind
  intro first _
  apply (gen.udist_terminates first.2).bind
  intro second _
  exact Fueled.terminates_pure _

theorem uniformEdge_inNodes {rightFirst : Bool} {state : mt19937.State} {r : EdgePair ℤ D × mt19937.State}
    (h : (uniformEdge rightFirst (uniDist mt19937.bits (gen.numNodes - 1)) mt19937 state).Returns r) :
    InNodes gen.numNodes r.1 := by
  obtain ⟨first, hfirst, h⟩ := Fueled.returns_bind.mp h
  obtain ⟨second, hsecond, h⟩ := Fueled.returns_bind.mp h
  obtain rfl := Fueled.returns_pure.mp h
  have hfirst := gen.udist_inRange hfirst
  have hsecond := gen.udist_inRange hsecond
  cases rightFirst with
  | true => exact inNodes_mk hsecond hfirst
  | false => exact inNodes_mk hfirst hsecond

/-- The ids `src` and `dst` when the descent has come to depth `depth`. -/
structure InQuadrant (depth : ℕ) (ids : ℤ × ℤ) : Prop where
  src_nonneg : 0 ≤ ids.1
  src_lt : ids.1 < 2 ^ depth
  dst_nonneg : 0 ≤ ids.2
  dst_lt : ids.2 < 2 ^ depth

theorem InQuadrant.descend {depth : ℕ} {src dst : ℤ} (h : InQuadrant depth (src, dst)) (randPoint : ℕ) :
    InQuadrant (depth + 1) (descend randPoint src dst) := by
  obtain ⟨hsrc, hsrc', hdst, hdst'⟩ := h
  simp only at hsrc hsrc' hdst hdst'
  unfold Gen.descend
  -- the new bits of the two ids, quadrant by quadrant
  split <;> split <;> constructor <;> simp only [pow_succ] <;> omega

/-- Each turn of the loop adds a bit to both ids. -/
theorem InQuadrant.descent (rng : RandomEngine) {depth : ℕ} (turns : ℕ) {ids : ℤ × ℤ} (h : InQuadrant depth ids)
    (state : rng.State) : InQuadrant (depth + turns) (descent rng turns ids state).1 := by
  induction turns generalizing depth ids state with
  | zero => exact h
  | succ turns ih =>
    obtain ⟨src, dst⟩ := ids
    have hdeeper := ih (h.descend (rng.next state).1) (rng.next state).2
    rw [Nat.add_assoc, Nat.add_comm 1 turns] at hdeeper
    exact hdeeper

theorem rmatEdge_terminates (state : mt19937.State) :
    (rmatEdge (D := D) gen.scale mt19937 state).Terminates :=
  Fueled.terminates_pure _

theorem rmatEdge_inNodes {state : mt19937.State} {r : EdgePair ℤ D × mt19937.State}
    (h : (rmatEdge gen.scale mt19937 state).Returns r) : InNodes gen.numNodes r.1 := by
  obtain rfl := Fueled.returns_pure.mp h
  have hstart : InQuadrant 0 (0, 0) := ⟨le_rfl, one_pos, le_rfl, one_pos⟩
  have hids := hstart.descent mt19937 gen.scale state
  rw [Nat.zero_add] at hids
  have hpow : (gen.numNodes : ℤ) = 2 ^ gen.scale := by
    rw [gen.numNodes_eq]
    norm_cast
  exact inNodes_mk ⟨hids.src_nonneg, hpow ▸ hids.src_lt⟩ ⟨hids.dst_nonneg, hpow ▸ hids.dst_lt⟩

end Edges

theorem drawWeight_terminates (state : mt19937.State) : (drawWeight mt19937 state).Terminates := by
  apply Fueled.Terminates.bind
  · exact call_terminates_of_rem (by decide) (.inr (by decide))
  · exact fun _ _ => Fueled.terminates_pure _

theorem drawWeight_inRange {state : mt19937.State} {r : ℤ × mt19937.State}
    (h : (drawWeight mt19937 state).Returns r) : 1 ≤ r.1 ∧ r.1 ≤ 255 := by
  obtain ⟨⟨x, state'⟩, hx, h⟩ := Fueled.returns_bind.mp h
  obtain rfl := Fueled.returns_pure.mp h
  obtain ⟨hlo, hhi⟩ := @call_inRange 254 _ (by decide) _ hx
  simp only at hlo hhi
  have hconvert : toNodeID (x + 1) = x + 1 := by
    rw [toNodeID, Int.bmod_eq_of_le] <;> omega
  show 1 ≤ toNodeID (x + 1) ∧ toNodeID (x + 1) ≤ 255
  rw [hconvert]
  omega

/-! ## `PermuteIDs` -/

section Permute

variable {D : Type} [Endpoint D] {numNodes numEdges : ℕ}

/-- `edge'` is `edge` with each id `i` renamed to `σ i`. -/
def Renamed (σ : Equiv.Perm (Fin numNodes)) (edge edge' : EdgePair ℤ D) : Prop :=
  ∃ i j : Fin numNodes, edge.u = (i.val : ℤ) ∧ nodeID edge.v = (j.val : ℤ) ∧
    edge' = ⟨((σ i).val : ℤ), ofNodeID ((σ j).val : ℤ)⟩

theorem Renamed.inNodes {σ : Equiv.Perm (Fin numNodes)} {edge edge' : EdgePair ℤ D} (h : Renamed σ edge edge') :
    InNodes numNodes edge' := by
  obtain ⟨i, j, -, -, rfl⟩ := h
  have hi := (σ i).isLt
  have hj := (σ j).isLt
  exact inNodes_mk (by omega) (by omega)

theorem Renamed.unique {σ : Equiv.Perm (Fin numNodes)} {edge edge₁ edge₂ : EdgePair ℤ D}
    (h₁ : Renamed σ edge edge₁) (h₂ : Renamed σ edge edge₂) : edge₁ = edge₂ := by
  obtain ⟨i, j, hi, hj, rfl⟩ := h₁
  obtain ⟨i', j', hi', hj', rfl⟩ := h₂
  obtain rfl : i = i' := Fin.ext (Int.ofNat_inj.mp (hi.symm.trans hi'))
  obtain rfl : j = j' := Fin.ext (Int.ofNat_inj.mp (hj.symm.trans hj'))
  rfl

theorem exists_fin_of_inRange {n : ℕ} {v : ℤ} (h : 0 ≤ v ∧ v < n) : ∃ i : Fin n, v = (i.val : ℤ) :=
  ⟨⟨v.toNat, by omega⟩, (Int.toNat_of_nonneg h.1).symm⟩

omit [Endpoint D] in
theorem permutationAt_of_eq {m : RMatMem D numNodes numEdges} {v : ℤ} {i : Fin numNodes}
    (h : v = (i.val : ℤ)) : m.permutationAt v = some (m.permutation i) := by
  have hi := i.isLt
  subst h
  simp [RMatMem.permutationAt]

/-- What the iteration that renames slot `e` may do. -/
def RenameStep (e : Fin numEdges) (m m' : RMatMem D numNodes numEdges) : Prop :=
  m'.permutation = m.permutation ∧ ∀ e', e' ≠ e → Untouched e' m.list m'.list

/-- Slot `e` has been renamed, by a single write. -/
def SlotRenamed (σ : Equiv.Perm (Fin numNodes)) (e : Fin numEdges) (l l' : ListMem (EdgePair ℤ D) numEdges) :
    Prop :=
  Renamed σ (l.el e) (l'.el e) ∧ l'.writes e = l.writes e + 1

theorem renameSlot_wp {σ : Equiv.Perm (Fin numNodes)} {e : Fin numEdges} {m₀ m : RMatMem D numNodes numEdges}
    (hin : InNodes numNodes (m₀.list.el e)) (hperm : ∀ i, m.permutation i = ((σ i).val : ℤ))
    (hm : Untouched e m₀.list m.list) :
    WP (Γ := Unit) (fun ρ τ => ∃ e', e' ≠ e ∧ RenameStep e' ρ.1 τ.1) (fun ρ τ => RenameStep e ρ.1 τ.1)
      (fun _ τ => SlotRenamed σ e m₀.list τ.1.list) (renameSlot e) (m, ()) := by
  obtain ⟨i, hi⟩ := exists_fin_of_inRange ⟨hin.u_nonneg, hin.u_lt⟩
  obtain ⟨j, hj⟩ := exists_fin_of_inRange ⟨hin.v_nonneg, hin.v_lt⟩
  -- the permutation is only read here, and no other iteration writes this slot
  let Known (τ : RMatMem D numNodes numEdges × Unit) : Prop :=
    (∀ i, τ.1.permutation i = ((σ i).val : ℤ)) ∧ Untouched e m₀.list τ.1.list
  have hstable : Stable (fun ρ τ => ∃ e', e' ≠ e ∧ RenameStep e' ρ.1 τ.1) Known := by
    intro ρ τ hρ hR
    obtain ⟨e', hne, hstep⟩ := hR
    exact ⟨fun i => (congrFun hstep.1 i).trans (hρ.1 i), hρ.2.trans (hstep.2 e hne.symm)⟩
  apply WP.load_bind (P := Known) ⟨hperm, hm⟩ hstable
  intro m _ hm
  have hu : (m.list.el e).u = (i.val : ℤ) := by
    rw [hm.2.1, hi]
  apply WP.loadAt_bind (P := Known) hm hstable
  intro m _ hm
  use ((σ i).val : ℤ), (permutationAt_of_eq hu).trans (congrArg some (hm.1 i))
  apply WP.load_bind (P := Known) hm hstable
  intro m _ hm
  have hv : nodeID (m.list.el e).v = (j.val : ℤ) := by
    rw [hm.2.1, hj]
  apply WP.loadAt_bind (P := Known) hm hstable
  intro m _ hm
  use ((σ j).val : ℤ), (permutationAt_of_eq hv).trans (congrArg some (hm.1 j))
  apply WP.store (P := Known) hm hstable
  · -- the other slots' writes do not touch this one
    intro _ ρ τ hρ hR
    obtain ⟨e', hne, hstep⟩ := hR
    have hsame := hstep.2 e hne.symm
    exact ⟨hsame.1.symm ▸ hρ.1, hsame.2.trans hρ.2⟩
  · intro m _ hm
    have hgiven : Given (fun edge _ => edge) ⟨((σ i).val : ℤ), ofNodeID ((σ j).val : ℤ)⟩ e m₀.list
      (m.list.write e _) := hm.2.given
    refine ⟨(), .inr ⟨rfl, fun e' he' => untouched_write he'⟩, ?_, hgiven.2⟩
    exact ⟨i, j, hi, hj, hgiven.1⟩

theorem renameSlots_solo {σ : Equiv.Perm (Fin numNodes)} {T : ℕ} [NeZero T]
    {m₀ : RMatMem D numNodes numEdges} (hperm : ∀ i, m₀.permutation i = ((σ i).val : ℤ))
    (hids : ∀ e, InNodes numNodes (m₀.list.el e)) :
    Solo (.parallelFor T numEdges renameSlot) m₀ fun _ m' => ∀ e, SlotRenamed σ e m₀.list m'.list := by
  let Permuted (m : RMatMem D numNodes numEdges) : Prop := ∀ i, m.permutation i = ((σ i).val : ℤ)
  apply (Solo.parallelFor_of_own RenameStep Permuted (fun e m => Untouched e m₀.list m.list)
    (fun e m => SlotRenamed σ e m₀.list m.list) hperm (fun e => ⟨rfl, rfl⟩) ?_ ?_ ?_ ?_).mono
  · exact fun _ _ h => h.2
  · exact fun e m m' hm hstep i => (congrFun hstep.1 i).trans (hm i)
  · exact fun e e' m m' hne _ h hstep => h.trans (hstep.2 e hne)
  · intro e e' m m' hne _ h hstep
    have hsame := hstep.2 e hne
    exact ⟨hsame.1.symm ▸ h.1, hsame.2.trans h.2⟩
  · exact fun e m hm h => renameSlot_wp (hids e) hm h

/-- `PermuteIDs` renames the ids by the permutation that `shuffle` makes out of the identity. -/
theorem permuteIDs_solo (shuffle : mt19937.State → (n : ℕ) → Equiv.Perm (Fin n)) {T : ℕ} [NeZero T]
    {m₀ : RMatMem D numNodes numEdges} (hids : ∀ e, InNodes numNodes (m₀.list.el e)) :
    Solo (permuteIDs shuffle T) m₀ fun _ m' =>
      ∀ e, SlotRenamed (shuffle (mt19937.seed kRandSeed) numNodes) e m₀.list m'.list := by
  apply Solo.bind
  let place (n : Fin numNodes) : ℤ := n.val
  apply (Solo.parallelFor_store_rest _ RMatMem.permutation RMatMem.list place ?_ ?_ ?_).mono
  · rintro _ m ⟨hlist, hperm⟩
    apply Solo.store_bind
    apply (renameSlots_solo (fun i => hperm _) ?_).mono
    · exact fun _ m' h e => by simpa only [hlist] using h e
    · exact fun e => by simpa only [hlist] using hids e
  · exact fun n m => update_self n (place n) m.permutation
  · exact fun n n' m hne => update_of_ne hne (place n) m.permutation
  · exact fun n m => rfl

end Permute

/-! ## Every schedule -/

section Deterministic

variable {D : Type} [Endpoint D]

/-- A list whose slots do not depend on what has been in them. -/
theorem given_const {X : Type} {size : ℕ} {x : ℕ → X} {m m' : ListMem X size}
    (h : ∀ e : Fin size, Given (fun y _ => y) (x e) e m m') :
    (m'.el = fun e : Fin size => x e) ∧ ∀ e, m'.writes e = m.writes e + 1 :=
  ⟨funext fun e => (h e).1, fun e => (h e).2⟩

/-- `MakeUniformEL` ends with `list`, whatever the schedule and the first contents of the memory, and writes
each slot once.  `Schedule.serial 1` is the schedule of one thread that does the blocks in order. -/
structure UniformResult (gen : Generator) (rightFirst : Bool) (list : Fin gen.numEdges → EdgePair ℤ D) :
    Prop where
  every : ∀ (m : ListMem (EdgePair ℤ D) gen.numEdges) (T : ℕ) [NeZero T]
    (sched : Schedule T (blockCount gen.numEdges blockSize)),
    (gen.makeUniformEL rightFirst T sched).Correct m fun _ m' =>
      m'.el = list ∧ ∀ e, m'.writes e = m.writes e + 1
  inNodes : ∀ e, InNodes gen.numNodes (list e)

/-- The loop over the blocks in `MakeRMatEL` ends with `drawn` and writes each slot once.  `PermuteIDs`
renames the ids of this list, and of any other, by the bijection `σ`; it writes each slot once more. -/
structure RMatResult (gen : Generator) (shuffle : mt19937.State → (n : ℕ) → Equiv.Perm (Fin n))
    (σ : Equiv.Perm (Fin gen.numNodes)) (drawn list : Fin gen.numEdges → EdgePair ℤ D) : Prop where
  blocks : ∀ (m : ListMem (EdgePair ℤ D) gen.numEdges) (T : ℕ) [NeZero T]
    (sched : Schedule T (blockCount gen.numEdges blockSize)),
    (gen.rmatBlocks T sched).Correct m fun _ m' => m'.el = drawn ∧ ∀ e, m'.writes e = m.writes e + 1
  every : ∀ (m : RMatMem D gen.numNodes gen.numEdges) (T : ℕ) [NeZero T]
    (sched : Schedule T (blockCount gen.numEdges blockSize)),
    (gen.makeRMatEL shuffle T sched).Correct m fun _ m' =>
      m'.list.el = list ∧ ∀ e, m'.list.writes e = m.list.writes e + 1 + 1
  permutes : ∀ (m : RMatMem D gen.numNodes gen.numEdges) (T : ℕ) [NeZero T],
    (∀ e, InNodes gen.numNodes (m.list.el e)) →
      (permuteIDs shuffle T).Correct m fun _ m' => ∀ e, SlotRenamed σ e m.list m'.list
  renamed : ∀ e, Renamed σ (drawn e) (list e)
  inNodes : ∀ e, InNodes gen.numNodes (list e)

/-- `InsertWeights` gives each slot the weight at its place in `weights` and leaves its ids as they are. -/
structure WeightsResult (size : ℕ) (weights : Fin size → ℤ) : Prop where
  every : ∀ (m : ListMem (EdgePair ℤ (ℤ × ℤ)) size) (T : ℕ) [NeZero T]
    (sched : Schedule T (blockCount size blockSize)),
    (insertWeights T sched).Correct m fun _ m' =>
      ∀ e, m'.el e = ⟨(m.el e).u, (m.el e).v.1, weights e⟩ ∧ m'.writes e = m.writes e + 1
  inRange : ∀ e, 1 ≤ weights e ∧ weights e ≤ 255

theorem makeUniformEL_result (gen : Generator) (rightFirst : Bool) :
    ∃ list : Fin gen.numEdges → EdgePair ℤ D, UniformResult gen rightFirst list := by
  obtain ⟨value, hvalue, hsolo⟩ := @drawBlocks_solo _ (EdgePair ℤ D) _ _ (fun edge _ => edge)
    (uniformEdge_terminates gen rightFirst)
  refine ⟨fun e => value e, fun m T _ sched => ?_, fun e => ?_⟩
  · exact ((hsolo _ m T sched).mono fun _ _ h => given_const h).correct
  · obtain ⟨state, r, hr, heq⟩ := hvalue e
    rw [heq]
    exact uniformEdge_inNodes gen hr

theorem exists_renamed {numNodes : ℕ} (σ : Equiv.Perm (Fin numNodes)) {edge : EdgePair ℤ D}
    (h : InNodes numNodes edge) : ∃ edge', Renamed σ edge edge' := by
  obtain ⟨i, hi⟩ := exists_fin_of_inRange ⟨h.u_nonneg, h.u_lt⟩
  obtain ⟨j, hj⟩ := exists_fin_of_inRange ⟨h.v_nonneg, h.v_lt⟩
  exact ⟨_, i, j, hi, hj, rfl⟩

theorem makeRMatEL_result (gen : Generator) (shuffle : mt19937.State → (n : ℕ) → Equiv.Perm (Fin n)) :
    ∃ (σ : Equiv.Perm (Fin gen.numNodes)) (drawn list : Fin gen.numEdges → EdgePair ℤ D),
      RMatResult gen shuffle σ drawn list := by
  obtain ⟨value, hvalue, hsolo⟩ := @drawBlocks_solo _ (EdgePair ℤ D) _ _ (fun edge _ => edge)
    (rmatEdge_terminates gen)
  -- the ids that are drawn can be looked up in the permutation
  have hnodes (e : ℕ) : InNodes gen.numNodes (value e) := by
    obtain ⟨state, r, hr, heq⟩ := hvalue e
    rw [heq]
    exact rmatEdge_inNodes gen hr
  let σ : Equiv.Perm (Fin gen.numNodes) := shuffle (mt19937.seed kRandSeed) gen.numNodes
  choose renamed hrenamed using fun e => exists_renamed σ (hnodes e)
  refine ⟨σ, fun e => value e, fun e => renamed e, ?_⟩
  constructor
  · exact fun m T _ sched => ((hsolo _ m T sched).mono fun _ _ h => given_const h).correct
  · intro m T _ sched
    apply Solo.correct
    apply Solo.bind
    -- the loops over the blocks see the list only
    apply (Solo.zoom (l := RMatMem.listLens) (hsolo _ m.list T sched)).mono
    rintro _ m' ⟨hdrawn, -⟩
    obtain ⟨hlist, hwrites⟩ := given_const hdrawn
    have hel (e : Fin gen.numEdges) : m'.list.el e = value e := congrFun hlist e
    apply (permuteIDs_solo shuffle fun e => by rw [hel]; exact hnodes e).mono
    intro _ m'' h
    constructor
    · funext e
      have he := (h e).1
      rw [hel] at he
      exact he.unique (hrenamed e)
    · intro e
      rw [(h e).2]
      exact congrArg (· + 1) (hwrites e)
  · exact fun m T _ hm => (permuteIDs_solo shuffle hm).correct
  · exact fun e => hrenamed e
  · exact fun e => (hrenamed e).inNodes

omit D in
theorem insertWeights_result (size : ℕ) : ∃ weights, WeightsResult size weights := by
  obtain ⟨value, hvalue, hsolo⟩ := @drawBlocks_solo _ (EdgePair ℤ (ℤ × ℤ)) _ _
    (fun w edge => { edge with v := (edge.v.1, w) }) drawWeight_terminates
  refine ⟨fun e => value e, fun m T _ sched => (hsolo _ m T sched).correct, fun e => ?_⟩
  obtain ⟨state, r, hr, heq⟩ := hvalue e
  rw [heq]
  exact drawWeight_inRange hr

theorem Generator.new_eq_some {scale degree : ℤ} {gen : Generator} (h : Generator.new scale degree = some gen) :
    gen.numNodes = 2 ^ scale.toNat ∧ gen.numEdges = 2 ^ scale.toNat * degree.toNat := by
  unfold Generator.new at h
  split at h
  · obtain rfl := Option.some.inj h
    exact ⟨rfl, rfl⟩
  · cases h

/-- For each of the three there is one list that all threads together make, however the blocks are dealt out
and in whatever order each thread draws its own: that of a single thread that draws them in order. -/
theorem generator_deterministic (scale degree : ℤ) (gen : Generator)
    (hgen : Generator.new scale degree = some gen) (rightFirst : Bool)
    (shuffle : mt19937.State → (n : ℕ) → Equiv.Perm (Fin n)) :
    (gen.numNodes = 2 ^ scale.toNat ∧ gen.numEdges = 2 ^ scale.toNat * degree.toNat) ∧
      (∃ list : Fin gen.numEdges → EdgePair ℤ D, UniformResult gen rightFirst list) ∧
      (∃ (σ : Equiv.Perm (Fin gen.numNodes)) (drawn list : Fin gen.numEdges → EdgePair ℤ D),
        RMatResult gen shuffle σ drawn list) ∧
      ∀ size, ∃ weights, WeightsResult size weights :=
  ⟨Generator.new_eq_some hgen, makeUniformEL_result gen rightFirst, makeRMatEL_result gen shuffle,
    insertWeights_result⟩

/-- The graph of scale 16 has four blocks of edges; `shuffle` turns the vertices round. -/
theorem generator_deterministic_four :
    let gen : Generator := ⟨16, 2 ^ 16, 2 ^ 20, rfl, by decide⟩
    let shuffle : mt19937.State → (n : ℕ) → Equiv.Perm (Fin n) := fun _ _ => Fin.revPerm
    (gen.numNodes = 2 ^ (16 : ℤ).toNat ∧ gen.numEdges = 2 ^ (16 : ℤ).toNat * (16 : ℤ).toNat) ∧
      (∃ list : Fin gen.numEdges → EdgePair ℤ ℤ, UniformResult gen true list) ∧
      (∃ (σ : Equiv.Perm (Fin gen.numNodes)) (drawn list : Fin gen.numEdges → EdgePair ℤ ℤ),
        RMatResult gen shuffle σ drawn list) ∧
      ∀ size, ∃ weights, WeightsResult size weights :=
  generator_deterministic 16 16 _ rfl true _

example : blockCount (2 ^ 20) blockSize = 4 := by decide

end Deterministic

end Gapbs.Gen
