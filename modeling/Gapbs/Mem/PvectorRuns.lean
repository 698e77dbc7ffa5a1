import Mathlib.Logic.Equiv.Basic
import Gapbs.Mem.PvectorLists

/-!
# Runs over vectors

Any sequence of operations on any number of `pvector`s: the vectors describe their lists after every
operation, except after a `leak` of storage, which leaves two of the three pointers behind.
-/

namespace Gapbs

open Conc Function RawArray BlockHeap

variable {ι E : Type}

/-! ## Moving storage -/

namespace PvectorMem

variable {m m' : PvectorMem ι E}

/-- The vectors trade places, and some of them are set to null. -/
theorem Inv.rearranged (hm : m.Inv) (hheap : m'.heap = m.heap) {origin : ι → ι}
    (horigin : Injective origin)
    (hvars : ∀ y v, m'.vars y = some v → v = .null ∨ m.vars (origin y) = some v) : m'.Inv := by
  have hfrom (y : ι) (v : Pvector) (a : Place) (hy : m'.vars y = some v) (ha : v.start = some a) :
      m.vars (origin y) = some v := by
    rcases hvars y v hy with rfl | h
    · cases ha
    · exact h
  refine ⟨hheap ▸ hm.heap, fun y v hy => ?_, fun y v a hy ha z hz w c hw hc => ?_⟩
  · rcases hvars y v hy with rfl | h
    · exact ⟨[], [], .null⟩
    · rw [hheap]
      exact hm.holds _ v h
  · have hne : origin z ≠ origin y := fun heq => hz (horigin heq)
    exact hm.apart (origin y) v a (hfrom y v a hy ha) ha (origin z) hne w c (hfrom z w c hw hc) hc

variable [DecidableEq ι] {x y : ι} {v w : Pvector}

/-- `x` takes over what `y` owns, and `y` what `x` owned or nothing. -/
theorem Inv.traded (hm : m.Inv) (hy : m.vars y = some w) (hv : v = .null ∨ m.vars x = some v) :
    ((m.setVar x (some w)).setVar y (some v)).Inv ∧
      ((m.setVar x (some w)).setVar y (some v)).lists =
        update (update m.lists x (m.lists y)) y (m.heap.range v.iterBegin v.iterEnd) := by
  have hheap : ((m.setVar x (some w)).setVar y (some v)).heap = m.heap := rfl
  constructor
  -- every vector has the pointers that some vector had, and no two have those of the same one
  · apply hm.rearranged hheap (Equiv.swap x y).injective
    intro z u hz
    change update (update m.vars x (some w)) y (some v) z = some u at hz
    by_cases hzy : z = y
    · subst hzy
      rw [update_self] at hz
      obtain rfl := Option.some.inj hz
      rwa [Equiv.swap_apply_right]
    · rw [update_of_ne hzy] at hz
      by_cases hzx : z = x
      · subst hzx
        rw [update_self] at hz
        rw [Equiv.swap_apply_left, hy]
        exact .inr hz
      · rw [update_of_ne hzx] at hz
        rw [Equiv.swap_apply_of_ne_of_ne hzx hzy]
        exact .inr hz
  · funext z
    change (update (update m.vars x (some w)) y (some v) z).bind _ = _
    by_cases hzy : z = y
    · subst hzy
      rw [update_self, update_self]
      rfl
    · rw [update_of_ne hzy, update_of_ne hzy]
      by_cases hzx : z = x
      · subst hzx
        rw [update_self, update_self, lists, hy]
        rfl
      · rw [update_of_ne hzx, update_of_ne hzx]
        rfl

end PvectorMem

namespace Pvector

open PvectorMem

variable [DecidableEq ι] {m : PvectorMem ι E} {x y : ι} {v w : Pvector} {xs spare : List (Option E)}

theorem swap_solo (hm : m.Inv) (hx : m.vars x = some v) (hy : m.vars y = some w) :
    Solo (swap x y) m fun done m' => done = true ∧ m'.Inv ∧
      m'.lists = update (update m.lists x (m.lists y)) y (m.lists x) := by
  have htraded := hm.traded hy (.inr hx)
  have hlist : m.lists x = m.heap.range v.iterBegin v.iterEnd := by
    rw [lists, hx]
    rfl
  rw [← hlist] at htraded
  apply this_bind hx
  apply this_bind hy
  apply assign_bind hx
  by_cases hyx : y = x
  · subst hyx
    apply assign_bind (vars_setVar_self ..)
    exact Solo.ret ⟨rfl, htraded⟩
  · apply assign_bind (v := w)
    · exact (update_of_ne hyx ..).trans hy
    · exact Solo.ret ⟨rfl, htraded⟩

/-- The new vector takes over what the other one owns. -/
theorem constructMove_solo (hm : m.Inv) (hxy : y ≠ x) (hy : m.vars y = some w) :
    Solo (constructMove x y) m fun done m' => done = true ∧ m'.Inv ∧
      m'.lists = update (update m.lists x (m.lists y)) y (some []) := by
  apply this_bind hy
  apply Solo.store_bind
  apply assign_bind (v := w)
  · exact (update_of_ne hxy ..).trans hy
  · exact Solo.ret ⟨rfl, hm.traded hy (.inl rfl)⟩

/-- What the vector owned is freed; no other vector notices. -/
theorem releaseResources_solo (hm : m.Inv) (hx : m.vars x = some v) :
    Solo (releaseResources x) m fun _ m' => ∃ heap, m' = m.setHeap heap ∧
      Replaced m (m'.setVar x none) x none := by
  obtain ⟨xs, spare, hv⟩ := hm.holds x v hx
  have hown (w : Pvector) (a : Place) (hw : none = some w) (_ : w.start = some a) :
      m.OnlyOf x a.block := by
    cases hw
  apply this_bind hx
  by_cases hnull : v.start = none
  · rw [if_neg (not_not_intro hnull)]
    exact Solo.ret ⟨m.heap, rfl, rfl, hm.heap, fun _ _ => rfl, hown⟩
  · rw [if_pos hnull]
    obtain ⟨heap, hdelete, hok, hkept⟩ := hv.delete hm.heap
    apply Solo.storeAt (t := m.setHeap heap) (by rw [hdelete]; rfl)
    refine ⟨heap, rfl, rfl, hok, fun b hb => hkept b ?_, hown⟩
    rintro a ha rfl
    exact hb (hm.apart x v a hx ha)

theorem destruct_solo (hm : m.Inv) (hx : m.vars x = some v) :
    Solo (destruct x) m fun done m' => done = true ∧ m'.Inv ∧ m'.lists = update m.lists x none := by
  apply Solo.bind
  apply (releaseResources_solo hm hx).mono
  rintro _ m' ⟨heap, rfl, hreleased⟩
  apply Solo.store_bind
  have hinv := hm.replaced hreleased nofun
  rw [lists_eq_none (vars_setVar_self _ x none)] at hinv
  exact Solo.ret ⟨rfl, hinv⟩

/-- The vector frees what it owned and takes over what the other one owns. -/
theorem moveAssign_solo (hm : m.Inv) (hx : m.vars x = some v) (hy : m.vars y = some w) :
    Solo (moveAssign x y) m fun done m' => done = true ∧ m'.Inv ∧ m'.lists =
      if x = y then m.lists else update (update m.lists x (m.lists y)) y (some []) := by
  rw [moveAssign]
  by_cases hxy : x = y
  · rw [if_neg (not_not_intro hxy)]
    apply Solo.ret
    rw [if_pos hxy]
    exact ⟨rfl, hm, rfl⟩
  · rw [if_pos hxy, if_neg hxy]
    apply Solo.bind
    apply (releaseResources_solo hm hx).mono
    rintro _ m' ⟨heap, rfl, hreleased⟩
    obtain ⟨hinv, hlists⟩ := hm.replaced hreleased nofun
    have hyx : y ≠ x := Ne.symm hxy
    have hy' : ((m.setHeap heap).setVar x none).vars y = some w := (update_of_ne hyx ..).trans hy
    -- as if `x` had been destroyed and constructed from the other vector
    have hmoved := hinv.traded (x := x) hy' (.inl rfl)
    have hset : ((m.setHeap heap).setVar x none).setVar x (some w) =
        (m.setHeap heap).setVar x (some w) := by
      simp [setVar]
    rw [hset, hlists, update_idem, update_of_ne hyx] at hmoved
    apply this_bind (m := m.setHeap heap) hy
    apply assign_bind (m := m.setHeap heap) hx
    apply assign_bind (v := w)
    · exact (update_of_ne hyx ..).trans hy
    · exact Solo.ret ⟨rfl, hmoved⟩

end Pvector

/-! ## All operations -/

namespace PvectorMem

/-- Every vector is valid and describes the list of its elements. -/
def Described (m : PvectorMem ι E) : Prop :=
  ∀ x v, m.vars x = some v → v.Valid m.heap ∧ ∃ xs, m.lists x = some xs ∧ v.Describes m.heap xs

theorem Inv.described {m : PvectorMem ι E} (hm : m.Inv) : m.Described := by
  intro x v hx
  obtain ⟨xs, spare, hv⟩ := hm.holds x v hx
  exact ⟨hv.valid, xs, lists_eq hx hv, hv.describes hm.heap⟩

theorem inv_empty : (empty : PvectorMem ι E).Inv := ⟨Heap.ok_empty, nofun, nofun⟩

variable [DecidableEq ι] (fits : Heap E → Nat → Bool) (T : Nat) [NeZero T]

/-- In all interleavings the operation is defined and returns, the vectors describe their lists
afterwards, and these are the lists of the model. -/
def Meets (m : PvectorMem ι E) (op : PvectorOp ι E) : Prop :=
  (op.exec fits T).Correct m fun done m' => m'.Described ∧ op.ListOutcome done m.lists m'.lists

/-- The operation hands over no storage, or there is none. -/
def LeaksNone (m : PvectorMem ι E) (op : PvectorOp ι E) : Prop :=
  ∀ x v, op = .leak x → m.vars x = some v → v.start = none

/-- The operations that a program performs one after the other, with the memory after each. -/
inductive Run : PvectorMem ι E → List (PvectorOp ι E × PvectorMem ι E) → Prop
  | nil (m : PvectorMem ι E) : Run m []
  | cons {m m' : PvectorMem ι E} {op : PvectorOp ι E} {done : Bool}
    {rest : List (PvectorOp ι E × PvectorMem ι E)} (hallowed : op.Allowed m)
    (hexec : Prog.Reach (op.exec fits T, m) (.ret done, m')) (hrest : Run m' rest) :
    Run m ((op, m') :: rest)

/-- `P` holds of every operation of a run and the memory that it starts from. -/
def AllSteps (P : PvectorMem ι E → PvectorOp ι E → Prop) :
    PvectorMem ι E → List (PvectorOp ι E × PvectorMem ι E) → Prop
  | _, [] => True
  | m, (op, m') :: rest => P m op ∧ AllSteps P m' rest

variable {fits T} {m m' : PvectorMem ι E}

/-- The step lemma: one case for each operation. -/
theorem Inv.exec (hm : m.Inv) {op : PvectorOp ι E} (hallowed : op.Allowed m) (hleak : m.LeaksNone op) :
    Solo (op.exec fits T) m fun done m' => m'.Inv ∧ op.ListOutcome done m.lists m'.lists := by
  cases op with
  | construct x =>
    apply Solo.store_bind
    have hnew : Replaced m (m.setVar x (some .null)) x (some .null) :=
      ⟨rfl, hm.heap, fun _ _ => rfl, fun _ _ hw ha => by cases hw; cases ha⟩
    exact Solo.ret (hm.becomes ⟨_, _, hnew, .null, rfl⟩)
  | constructSized x numElements =>
    apply (Pvector.constructSized_solo hm numElements).mono
    rintro _ m' (⟨rfl, rfl⟩ | ⟨rfl, hblock, hnew⟩)
    · exact ⟨hm, rfl, rfl⟩
    · have hholds := Pvector.Holds.new hblock
      rw [List.length_replicate] at hholds
      obtain ⟨hinv, hlists⟩ := hm.becomes ⟨_, _, hnew, hholds, rfl⟩
      exact ⟨hinv, _, List.length_replicate, hlists⟩
  | constructFilled x numElements initVal =>
    apply (Pvector.constructFilled_solo hm numElements initVal).mono
    rintro _ m' (⟨rfl, rfl⟩ | ⟨rfl, h⟩)
    · exact ⟨hm, rfl, rfl⟩
    · exact hm.becomes h
  | constructCopy x y lo hi =>
    obtain ⟨hx, hlo, ys, hlist, hhi⟩ := hallowed
    obtain ⟨v, spare, hy, hv⟩ := hm.holds_of_lists hlist
    have hyx : y ≠ x := by
      rintro rfl
      rw [hx] at hy
      cases hy
    -- the iterators that the caller passes point into the other vector
    have hptr (k : Nat) (hk : k ≤ ys.length) :
        m.elementPtr y k = some (v.start.map fun a => ⟨a.block, k⟩) := by
      rw [elementPtr, hy, Option.bind_some, hv.add (by omega)]
    apply Solo.loadAt_bind (b := v.start.map fun a => ⟨a.block, lo⟩)
    · exact hptr lo (hlo.trans hhi)
    apply Solo.loadAt_bind (b := v.start.map fun a => ⟨a.block, hi⟩)
    · exact hptr hi hhi
    apply (Pvector.constructCopy_solo hm hyx hy hv hlo hhi).mono
    rintro _ m' (⟨rfl, rfl⟩ | ⟨rfl, h⟩)
    · exact ⟨hm, rfl, rfl⟩
    · obtain ⟨hinv, hlists⟩ := hm.becomes h
      exact ⟨hinv, ys, hlist, hlists⟩
  | constructMove x y =>
    obtain ⟨hx, hy⟩ := hallowed
    obtain ⟨w, hw⟩ := Option.ne_none_iff_exists'.mp hy
    have hyx : y ≠ x := by
      rintro rfl
      exact hy hx
    apply (Pvector.constructMove_solo hm hyx hw).mono
    rintro _ m' ⟨rfl, h⟩
    exact h
  | moveAssign x y =>
    obtain ⟨v, hv⟩ := Option.ne_none_iff_exists'.mp hallowed.1
    obtain ⟨w, hw⟩ := Option.ne_none_iff_exists'.mp hallowed.2
    apply (Pvector.moveAssign_solo hm hv hw).mono
    rintro _ m' ⟨rfl, h⟩
    exact h
  | destruct x =>
    obtain ⟨v, hv⟩ := Option.ne_none_iff_exists'.mp hallowed
    apply (Pvector.destruct_solo hm hv).mono
    rintro _ m' ⟨rfl, h⟩
    exact h
  | reserve x numElements =>
    obtain ⟨v, xs, spare, hx, hv, hlist⟩ := hm.holds_of_alive hallowed
    apply (Pvector.reserve_solo hm hx hv numElements).mono
    rintro _ m' (⟨rfl, rfl⟩ | ⟨rfl, room, -, h⟩)
    · exact ⟨hm, rfl, rfl⟩
    -- the array may be another one, but the list is the same
    · obtain ⟨hinv, hlists⟩ := hm.becomes h
      rw [← hlist, update_eq_self] at hlists
      exact ⟨hinv, hlists⟩
  | leak x =>
    obtain ⟨v, xs, spare, hx, hv, -⟩ := hm.holds_of_alive hallowed
    -- the only operation that asks for more than being allowed
    apply (Pvector.leak_solo hm hx hv (hleak x v rfl hx)).mono
    rintro _ m' ⟨rfl, h⟩
    exact hm.becomes h
  | clear x =>
    obtain ⟨v, xs, spare, hx, hv, -⟩ := hm.holds_of_alive hallowed
    apply (Pvector.clear_solo hm hx hv).mono
    rintro _ m' ⟨rfl, h⟩
    exact hm.becomes h
  | resize x numElements =>
    obtain ⟨v, xs, spare, hx, hv, hlist⟩ := hm.holds_of_alive hallowed
    apply (Pvector.resize_solo hm hx hv numElements).mono
    rintro _ m' (⟨rfl, rfl⟩ | ⟨rfl, ys, room, hlength, hkept, h⟩)
    · exact ⟨hm, rfl, rfl⟩
    · obtain ⟨hinv, hlists⟩ := hm.becomes h
      exact ⟨hinv, xs, ys, hlist, hlength, hkept, hlists⟩
  | setAt x n val =>
    obtain ⟨xs, hlist, hn⟩ := hallowed
    obtain ⟨v, spare, hx, hv⟩ := hm.holds_of_lists hlist
    apply (Pvector.setAt_solo hm hx hv hn val).mono
    rintro _ m' ⟨rfl, h⟩
    obtain ⟨hinv, hlists⟩ := hm.becomes h
    exact ⟨hinv, xs, hlist, hlists⟩
  | pushBack x val =>
    obtain ⟨v, xs, spare, hx, hv, hlist⟩ := hm.holds_of_alive hallowed
    apply (Pvector.pushBack_solo hm hx hv val).mono
    rintro _ m' (⟨rfl, rfl⟩ | ⟨rfl, room, h⟩)
    · exact ⟨hm, rfl, rfl⟩
    · obtain ⟨hinv, hlists⟩ := hm.becomes h
      exact ⟨hinv, xs, hlist, hlists⟩
  | fill x initVal =>
    obtain ⟨v, xs, spare, hx, hv, hlist⟩ := hm.holds_of_alive hallowed
    apply (Pvector.fill_solo hm hx hv initVal).mono
    rintro _ m' ⟨rfl, h⟩
    obtain ⟨hinv, hlists⟩ := hm.becomes h
    exact ⟨hinv, xs, hlist, hlists⟩
  | swap x y =>
    obtain ⟨v, hv⟩ := Option.ne_none_iff_exists'.mp hallowed.1
    obtain ⟨w, hw⟩ := Option.ne_none_iff_exists'.mp hallowed.2
    apply (Pvector.swap_solo hm hv hw).mono
    rintro _ m' ⟨rfl, h⟩
    exact h

/-- A `leak` of storage leaves `end_size_` and `end_capacity_` behind. -/
theorem Inv.not_meets_leak (hm : m.Inv) {x : ι} {v : Pvector} (hx : m.vars x = some v)
    (hstorage : v.start ≠ none) : ¬ Meets fits T m (.leak x) := by
  intro hmeets
  obtain ⟨xs, spare, hv⟩ := hm.holds x v hx
  have hleak : Solo (PvectorOp.exec fits T (.leak x)) m fun _ m' =>
      m' = m.setVar x (some { v with start := none }) := by
    apply Pvector.assign_bind hx
    exact Solo.ret rfl
  obtain ⟨done, m', hreach⟩ := hleak.correct.returns .refl
  obtain rfl := hleak.correct.result done m' hreach
  obtain ⟨hvalid, -⟩ := (hmeets.result done _ hreach).1 x _ (vars_setVar_self ..)
  cases hv with
  | null => exact hstorage rfl
  | array hb =>
    rcases hvalid with hnull | ⟨b, cells, i, j, k, -, heq, -⟩
    · cases hnull
    · cases heq

/-- One step does what the list model says exactly unless it leaks storage. -/
theorem Inv.meets_iff (hm : m.Inv) {op : PvectorOp ι E} (hallowed : op.Allowed m) :
    Meets fits T m op ↔ m.LeaksNone op := by
  constructor
  · rintro hmeets x v rfl hx
    by_contra hstorage
    exact hm.not_meets_leak hx hstorage hmeets
  · intro hleak
    exact (hm.exec hallowed hleak).correct.mono fun _ _ h => ⟨h.1.described, h.2⟩

/-- The run lemma. -/
theorem Inv.run_iff {run : List (PvectorOp ι E × PvectorMem ι E)} (hrun : Run fits T m run)
    (hm : m.Inv) :
    AllSteps (Meets fits T) m run ↔ AllSteps LeaksNone m run := by
  induction hrun with
  | nil m => exact Iff.rfl
  | @cons m m' op done rest hallowed hexec _ ih =>
    have hnext (hleak : m.LeaksNone op) : m'.Inv :=
      ((hm.exec hallowed hleak).correct.result done m' hexec).1
    constructor
    · rintro ⟨hmeets, hrest⟩
      have hleak := (hm.meets_iff hallowed).mp hmeets
      exact ⟨hleak, (ih (hnext hleak)).mp hrest⟩
    · rintro ⟨hleak, hrest⟩
      exact ⟨(hm.meets_iff hallowed).mpr hleak, (ih (hnext hleak)).mpr hrest⟩

end PvectorMem

/-- In a run that starts without vectors, all of them describe their lists after every operation exactly
if no operation leaks storage. -/
theorem pvector_describes_iff [DecidableEq ι] (fits : Heap E → Nat → Bool) (T : Nat) [NeZero T]
    (run : List (PvectorOp ι E × PvectorMem ι E)) (hrun : PvectorMem.Run fits T .empty run) :
    PvectorMem.AllSteps (PvectorMem.Meets fits T) .empty run ↔
      PvectorMem.AllSteps PvectorMem.LeaksNone .empty run :=
  PvectorMem.inv_empty.run_iff hrun

/-- An element is added, the storage moved, and the vector that it came from leaked. -/
theorem pvector_describes_iff_moved : ∃ m₁ m₂ m₃ m₄ : PvectorMem Bool Int,
    PvectorMem.AllSteps (PvectorMem.Meets (fun _ _ => true) 2) .empty
      [(.construct false, m₁), (.pushBack false 7, m₂), (.constructMove true false, m₃),
        (.leak false, m₄)] := by
  let exec (op : PvectorOp Bool Int) : Prog (PvectorMem Bool Int) Bool := op.exec (fun _ _ => true) 2
  let after (op : PvectorOp Bool Int) (m : PvectorMem Bool Int) : PvectorMem Bool Int :=
    ((exec op).run 40 m).2
  let m₁ := after (.construct false) .empty
  let m₂ := after (.pushBack false 7) m₁
  let m₃ := after (.constructMove true false) m₂
  let m₄ := after (.leak false) m₃
  have h₁ : Prog.Reach (exec (.construct false), .empty) (.ret true, m₁) := Prog.reach_run 40 _ _
  have h₂ : Prog.Reach (exec (.pushBack false 7), m₁) (.ret true, m₂) := Prog.reach_run 40 _ _
  have h₃ : Prog.Reach (exec (.constructMove true false), m₂) (.ret true, m₃) := Prog.reach_run 40 _ _
  have h₄ : Prog.Reach (exec (.leak false), m₃) (.ret true, m₄) := Prog.reach_run 40 _ _
  have hvar₁ : m₁.vars false = some .null := rfl
  have hvar₂ : m₂.vars false = some ⟨some ⟨0, 0⟩, some ⟨0, 1⟩, some ⟨0, 1⟩⟩ := rfl
  have hvar₃ : m₃.vars false = some .null := rfl
  have hrun : PvectorMem.Run (fun _ _ => true) 2 .empty [(.construct false, m₁), (.pushBack false 7, m₂),
      (.constructMove true false, m₃), (.leak false, m₄)] := by
    refine .cons rfl h₁ (.cons ?_ h₂ (.cons ⟨rfl, ?_⟩ h₃ (.cons ?_ h₄ (.nil m₄))))
    · exact hvar₁.trans_ne (Option.some_ne_none _)
    · exact hvar₂.trans_ne (Option.some_ne_none _)
    · exact hvar₃.trans_ne (Option.some_ne_none _)
  refine ⟨m₁, m₂, m₃, m₄, (pvector_describes_iff (fun _ _ => true) 2 _ hrun).mpr ?_⟩
  refine ⟨nofun, nofun, nofun, ?_, trivial⟩
  rintro _ v ⟨⟩ hv
  obtain rfl := Option.some.inj (hvar₃.symm.trans hv)
  rfl

/-- A vector of one element still has the end of the storage that it has handed over. -/
theorem pvector_leak_stale : ∃ m₁ m₂ : PvectorMem Bool Int,
    PvectorMem.Run (fun _ _ => true) 1 .empty [(.constructSized false 1, m₁), (.leak false, m₂)] ∧
      m₂.vars false = some ⟨none, some ⟨0, 1⟩, some ⟨0, 1⟩⟩ ∧
      ¬ PvectorMem.AllSteps (PvectorMem.Meets (fun _ _ => true) 1) .empty
        [(.constructSized false 1, m₁), (.leak false, m₂)] := by
  let exec (op : PvectorOp Bool Int) : Prog (PvectorMem Bool Int) Bool := op.exec (fun _ _ => true) 1
  let m₁ := ((exec (.constructSized false 1)).run 40 .empty).2
  let m₂ := ((exec (.leak false)).run 40 m₁).2
  have h₁ : Prog.Reach (exec (.constructSized false 1), .empty) (.ret true, m₁) := Prog.reach_run 40 _ _
  have h₂ : Prog.Reach (exec (.leak false), m₁) (.ret true, m₂) := Prog.reach_run 40 _ _
  have hvar₁ : m₁.vars false = some ⟨some ⟨0, 0⟩, some ⟨0, 1⟩, some ⟨0, 1⟩⟩ := rfl
  have hconstruct : (PvectorOp.constructSized false 1).Allowed (.empty : PvectorMem Bool Int) := rfl
  have hm₁ : m₁.Inv :=
    ((PvectorMem.inv_empty.exec hconstruct nofun).correct.result true m₁ h₁).1
  have hrun : PvectorMem.Run (fun _ _ => true) 1 .empty
      [(.constructSized false 1, m₁), (.leak false, m₂)] := by
    refine .cons hconstruct h₁ (.cons ?_ h₂ (.nil m₂))
    exact hvar₁.trans_ne (Option.some_ne_none _)
  refine ⟨m₁, m₂, hrun, rfl, fun ⟨_, hmeets, _⟩ => ?_⟩
  exact hm₁.not_meets_leak hvar₁ (Option.some_ne_none _) hmeets

end Gapbs
