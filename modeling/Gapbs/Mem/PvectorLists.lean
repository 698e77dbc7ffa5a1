import Gapbs.Mem.Pvector

/-!
# Vectors as lists

What every operation of `pvector` makes of the list that its vector stands for, and of the storage that
the vector owns.
-/

namespace Gapbs

open Conc Function RawArray BlockHeap

variable {ι E : Type}

/-! ## Lists on the heap -/

namespace Pvector

/-- `v` owns an array with the elements `xs` and unused cells `spare`, or nothing. -/
inductive Holds (h : Heap E) : Pvector → List (Option E) → List (Option E) → Prop
  | null : Holds h null [] []
  | array {b : Nat} {xs spare : List (Option E)} (hb : h.blocks b = some (xs ++ spare)) :
    Holds h ⟨some ⟨b, 0⟩, some ⟨b, xs.length⟩, some ⟨b, xs.length + spare.length⟩⟩ xs spare

/-- The pointers are null, or in order within one array. -/
def Valid (h : Heap E) (v : Pvector) : Prop :=
  v = null ∨ ∃ (b : Nat) (cells : List (Option E)) (i j k : Nat), h.blocks b = some cells ∧
    v = ⟨some ⟨b, i⟩, some ⟨b, j⟩, some ⟨b, k⟩⟩ ∧ i ≤ j ∧ j ≤ k ∧ k ≤ cells.length

/-- `size()`, `begin()`, `end()` and `empty()` describe the list. -/
structure Describes (h : Heap E) (v : Pvector) (xs : List (Option E)) : Prop where
  size : v.size = some xs.length
  range : h.range v.iterBegin v.iterEnd = some xs
  isEmpty : v.isEmpty = decide (xs.length = 0)

variable {h h' : Heap E} {v : Pvector} {xs spare : List (Option E)}

theorem Holds.valid (hv : v.Holds h xs spare) : v.Valid h := by
  cases hv with
  | null => exact .inl rfl
  | @array b xs spare hb =>
    refine .inr ⟨b, xs ++ spare, 0, xs.length, xs.length + spare.length, hb, rfl, ?_, ?_, ?_⟩
    · omega
    · omega
    · rw [List.length_append]

theorem Holds.capacity (hv : v.Holds h xs spare) (hh : h.Ok) :
    v.capacity = some (xs.length + spare.length) ∧ xs.length + spare.length < 2 ^ 63 := by
  cases hv with
  | null => exact ⟨rfl, by simp⟩
  | @array b xs spare hb =>
    have hsmall := hh.small _ _ hb
    rw [List.length_append] at hsmall
    refine ⟨?_, hsmall⟩
    rw [Pvector.capacity, ptrDiff_eq, Option.map_some]
    simp only [Int.natCast_zero, Int.sub_zero]
    rw [diffSize_eq (by omega)]

theorem Holds.diff (hv : v.Holds h xs spare) : ptrDiff v.endSize v.start = some (xs.length : Int) := by
  cases hv with
  | null => rfl
  | array hb => rw [ptrDiff_eq, Int.natCast_zero, Int.sub_zero]

theorem Holds.size (hv : v.Holds h xs spare) (hh : h.Ok) : v.size = some xs.length := by
  have hsmall := (hv.capacity hh).2
  rw [Pvector.size, hv.diff, Option.map_some, diffSize_eq (by omega)]

theorem Holds.range (hv : v.Holds h xs spare) : h.range v.iterBegin v.iterEnd = some xs := by
  cases hv with
  | null => rfl
  | array hb =>
    refine (Heap.range_eq hb (Nat.zero_le _) (by simp)).trans ?_
    simp [slice]

theorem Holds.describes (hv : v.Holds h xs spare) (hh : h.Ok) : v.Describes h xs := by
  refine ⟨hv.size hh, hv.range, ?_⟩
  cases hv with
  | null => rfl
  | array hb => simp [isEmpty]

/-- Only the array that `v` owns matters. -/
theorem Holds.congr (hv : v.Holds h xs spare)
    (hkept : ∀ a, v.start = some a → h'.blocks a.block = h.blocks a.block) : v.Holds h' xs spare := by
  cases hv with
  | null => exact .null
  | array hb => exact .array ((hkept _ rfl).trans hb)

/-- `start_ + k` -/
theorem Holds.add (hv : v.Holds h xs spare) {k : Nat} (hk : k ≤ xs.length + spare.length) :
    h.add v.start k = some (v.start.map fun a => ⟨a.block, k⟩) := by
  cases hv with
  | null =>
    obtain rfl : k = 0 := by simpa using hk
    rfl
  | array hb =>
    rw [Heap.add_eq hb (by simpa using hk), Nat.zero_add]
    rfl

/-- Storage of its own, with no room for more. -/
theorem Holds.new {b : Nat} {cells : List (Option E)} (hb : h.blocks b = some cells) :
    Holds h ⟨some ⟨b, 0⟩, some ⟨b, cells.length⟩, some ⟨b, cells.length⟩⟩ cells [] :=
  .array (by rw [hb, List.append_nil])

/-- `start_[k]` -/
theorem Holds.read (hv : v.Holds h xs spare) {k : Nat} (hk : k < xs.length) :
    (h.add v.start k).bind h.read = some xs[k] := by
  rw [hv.add (by omega), Option.bind_some]
  cases hv with
  | null => exact absurd hk (Nat.not_lt_zero k)
  | array hb =>
    rw [Option.map_some, Heap.read_eq hb, List.getElem?_append_left hk, List.getElem?_eq_getElem hk]

/-- An element behind an iterator. -/
theorem Holds.read_from (hv : v.Holds h xs spare) {lo k : Nat} (hk : lo + k < xs.length) :
    (h.add (v.start.map fun a => ⟨a.block, lo⟩) k).bind h.read = some xs[lo + k] := by
  cases hv with
  | null => exact absurd hk (Nat.not_lt_zero _)
  | array hb =>
    rw [Option.map_some, Heap.add_eq hb (by rw [List.length_append]; omega), Option.bind_some,
      Heap.read_eq hb, List.getElem?_append_left hk, List.getElem?_eq_getElem hk]

/-- `delete[] start_` -/
theorem Holds.delete (hv : v.Holds h xs spare) (hh : h.Ok) :
    ∃ h', Heap.delete v.start h = some h' ∧ h'.Ok ∧
      ∀ b, (∀ a, v.start = some a → b ≠ a.block) → h'.blocks b = h.blocks b := by
  cases hv with
  | null => exact ⟨h, rfl, hh, fun _ _ => rfl⟩
  | @array b xs spare hb =>
    exact ⟨h.put b none, Heap.delete_eq hb, hh.put (hh.lt_next hb) nofun,
      fun b' hb' => Heap.put_of_ne (hb' _ rfl) _⟩

/-- A vector whose cells are divided anew between the elements and the unused ones. -/
theorem Holds.split (hv : v.Holds h xs spare) {ys rest : List (Option E)}
    (hcells : ys ++ rest = xs ++ spare) :
    Holds h { v with endSize := v.start.map fun a => ⟨a.block, ys.length⟩ } ys rest := by
  have hlength := congrArg List.length hcells
  rw [List.length_append, List.length_append] at hlength
  cases hv with
  | null =>
    obtain ⟨rfl, rfl⟩ := List.append_eq_nil_iff.mp hcells
    exact .null
  | @array b xs spare hb =>
    rw [← hcells] at hb
    rw [← hlength]
    exact .array hb

end Pvector

/-! ## Memories of vectors -/

namespace PvectorMem

variable {m m' : PvectorMem ι E} {x : ι}

/-- No other vector owns array `b`. -/
def OnlyOf (m : PvectorMem ι E) (x : ι) (b : Nat) : Prop :=
  ∀ y, y ≠ x → ∀ v a, m.vars y = some v → v.start = some a → a.block ≠ b

/-- Every vector owns its array alone. -/
structure Inv (m : PvectorMem ι E) : Prop where
  heap : m.heap.Ok
  holds : ∀ x v, m.vars x = some v → ∃ xs spare, v.Holds m.heap xs spare
  apart : ∀ x v a, m.vars x = some v → v.start = some a → m.OnlyOf x a.block

theorem lists_eq {v : Pvector} {xs spare : List (Option E)} (hx : m.vars x = some v)
    (hv : v.Holds m.heap xs spare) : m.lists x = some xs := by
  rw [lists, hx, Option.bind_some]
  exact hv.range

theorem lists_eq_none (hx : m.vars x = none) : m.lists x = none := by
  rw [lists, hx]
  rfl

/-- A vector of its own, and the array that it owns. -/
theorem Inv.holds_of_alive (hm : m.Inv) (hx : m.vars x ≠ none) :
    ∃ v xs spare, m.vars x = some v ∧ v.Holds m.heap xs spare ∧ m.lists x = some xs := by
  obtain ⟨v, hv⟩ := Option.ne_none_iff_exists'.mp hx
  obtain ⟨xs, spare, hholds⟩ := hm.holds x v hv
  exact ⟨v, xs, spare, hv, hholds, lists_eq hv hholds⟩

theorem Inv.holds_of_lists (hm : m.Inv) {xs : List (Option E)} (hlist : m.lists x = some xs) :
    ∃ v spare, m.vars x = some v ∧ v.Holds m.heap xs spare := by
  have hx : m.vars x ≠ none := by
    intro hx
    rw [lists_eq_none hx] at hlist
    cases hlist
  obtain ⟨v, ys, spare, hv, hholds, hlist'⟩ := hm.holds_of_alive hx
  obtain rfl := Option.some.inj (hlist'.symm.trans hlist)
  exact ⟨v, spare, hv, hholds⟩

theorem Inv.onlyOf_next (hm : m.Inv) (x : ι) : m.OnlyOf x m.heap.next := by
  intro y hy v a hv ha
  obtain ⟨xs, spare, hholds⟩ := hm.holds y v hv
  cases hholds with
  | null => cases ha
  | array hb =>
    cases ha
    exact (hm.heap.lt_next hb).ne

variable [DecidableEq ι]

@[simp] theorem vars_setVar_self (m : PvectorMem ι E) (x : ι) (v : Option Pvector) :
    (m.setVar x v).vars x = v := update_self ..

/-- Vector `x` is replaced, and with it arrays that no other vector owns. -/
structure Replaced (m m' : PvectorMem ι E) (x : ι) (v : Option Pvector) : Prop where
  vars : m'.vars = update m.vars x v
  heap : m'.heap.Ok
  kept : ∀ b, ¬ m.OnlyOf x b → m'.heap.blocks b = m.heap.blocks b
  own : ∀ w a, v = some w → w.start = some a → m.OnlyOf x a.block

theorem Replaced.onlyOf_iff {v : Option Pvector} (h : Replaced m m' x v) (b : Nat) :
    m'.OnlyOf x b ↔ m.OnlyOf x b := by
  have hvars (y : ι) (hy : y ≠ x) : m'.vars y = m.vars y := by rw [h.vars, update_of_ne hy]
  constructor
  · exact fun hb y hy w a hw => hb y hy w a ((hvars y hy).trans hw)
  · exact fun hb y hy w a hw => hb y hy w a ((hvars y hy).symm.trans hw)

theorem Replaced.trans {m'' : PvectorMem ι E} {v w : Option Pvector} (h : Replaced m m' x v)
    (h' : Replaced m' m'' x w) : Replaced m m'' x w := by
  refine ⟨?_, h'.heap, fun b hb => ?_, fun u a hu ha => ?_⟩
  · rw [h'.vars, h.vars, update_idem]
  · rw [h'.kept b fun hb' => hb ((h.onlyOf_iff b).mp hb'), h.kept b hb]
  · exact (h.onlyOf_iff _).mp (h'.own u a hu ha)

/-- Then the members are set, with the same start. -/
theorem Replaced.setVar {v w : Pvector} (h : Replaced m m' x (some v)) (hw : w.start = v.start) :
    Replaced m (m'.setVar x (some w)) x (some w) := by
  refine ⟨?_, h.heap, h.kept, fun u a hu ha => ?_⟩
  · show update m'.vars x _ = _
    rw [h.vars, update_idem]
  · cases hu
    exact h.own v a rfl (hw.symm.trans ha)

/-- The other vectors keep their lists. -/
theorem Inv.replaced (hm : m.Inv) {v : Option Pvector} (h : Replaced m m' x v)
    (hv : ∀ w, v = some w → ∃ xs spare, w.Holds m'.heap xs spare) :
    m'.Inv ∧ m'.lists = update m.lists x (m'.lists x) := by
  have hvars (y : ι) (hy : y ≠ x) : m'.vars y = m.vars y := by rw [h.vars, update_of_ne hy]
  have hself : m'.vars x = v := by rw [h.vars, update_self]
  -- the array of another vector is not one that may have changed
  have hkept (y : ι) (hy : y ≠ x) (w : Pvector) (hw : m.vars y = some w) (a : Place)
      (ha : w.start = some a) : m'.heap.blocks a.block = m.heap.blocks a.block :=
    h.kept _ fun hb => hb y hy w a hw ha rfl
  refine ⟨⟨h.heap, fun y w hw => ?_, fun y w a hw ha z hz u c hu hc => ?_⟩, ?_⟩
  · by_cases hy : y = x
    · subst hy
      exact hv w (hself.symm.trans hw)
    · rw [hvars y hy] at hw
      obtain ⟨xs, spare, hholds⟩ := hm.holds y w hw
      exact ⟨xs, spare, hholds.congr (hkept y hy w hw)⟩
  · by_cases hy : y = x
    · subst hy
      exact h.own w a (hself.symm.trans hw) ha z hz u c ((hvars z hz).symm.trans hu) hc
    · rw [hvars y hy] at hw
      by_cases hzx : z = x
      · subst hzx
        have howned := h.own u c (hself.symm.trans hu) hc y hy w a hw ha
        exact fun heq => howned heq.symm
      · rw [hvars z hzx] at hu
        exact hm.apart y w a hw ha z hz u c hu hc
  · funext y
    by_cases hy : y = x
    · subst hy
      rw [update_self]
    · rw [update_of_ne hy]
      cases hw : m.vars y with
      | none => rw [lists_eq_none hw, lists_eq_none ((hvars y hy).trans hw)]
      | some w =>
        obtain ⟨xs, spare, hholds⟩ := hm.holds y w hw
        rw [lists_eq hw hholds, lists_eq ((hvars y hy).trans hw) (hholds.congr (hkept y hy w hw))]

/-- Vector `x` stands for `xs` afterwards, and has room for `room` more elements. -/
def Becomes (m m' : PvectorMem ι E) (x : ι) (xs : List (Option E)) (room : Nat) : Prop :=
  ∃ v spare, Replaced m m' x (some v) ∧ v.Holds m'.heap xs spare ∧ spare.length = room

theorem Inv.becomes (hm : m.Inv) {xs : List (Option E)} {room : Nat} (h : Becomes m m' x xs room) :
    m'.Inv ∧ m'.lists = update m.lists x (some xs) := by
  obtain ⟨v, spare, hreplaced, hv, -⟩ := h
  have hx : m'.vars x = some v := by rw [hreplaced.vars, update_self]
  rw [← lists_eq hx hv]
  apply hm.replaced hreplaced
  rintro w heq
  cases heq
  exact ⟨xs, spare, hv⟩

end PvectorMem

/-! ## Loops over the cells of an array -/

section Cells

variable {T : Nat} [NeZero T] {β : Type}

/-- The array `b` holds other cells. -/
def PvectorMem.withCells (m : PvectorMem ι E) (b : Nat) (cells : List (Option E)) : PvectorMem ι E :=
  m.setHeap (m.heap.put b (some cells))

@[simp] theorem PvectorMem.vars_withCells (m : PvectorMem ι E) (b : Nat) (cells : List (Option E)) :
    (m.withCells b cells).vars = m.vars := rfl

@[simp] theorem PvectorMem.blocks_withCells (m : PvectorMem ι E) (b : Nat) (cells : List (Option E)) :
    (m.withCells b cells).heap.blocks b = some cells := Heap.put_self ..

theorem PvectorMem.blocks_withCells_of_ne (m : PvectorMem ι E) {b b' : Nat} (hb : b' ≠ b)
    (cells : List (Option E)) : (m.withCells b cells).heap.blocks b' = m.heap.blocks b' :=
  Heap.put_of_ne hb _

/-- Cells that stand there already. -/
theorem PvectorMem.withCells_eq_self {m : PvectorMem ι E} {b : Nat} {cells : List (Option E)}
    (hb : m.heap.blocks b = some cells) : m.withCells b cells = m := by
  rw [withCells, Heap.put_eq_self hb]
  rfl

theorem PvectorMem.withCells_inj {m : PvectorMem ι E} {b : Nat} {cells cells' : List (Option E)}
    (h : m.withCells b cells = m.withCells b cells') : cells = cells' := by
  have hblocks := congrArg (fun m : PvectorMem ι E => m.heap.blocks b) h
  simpa using hblocks

theorem PvectorMem.storeAt_withCells (m : PvectorMem ι E) (b : Nat) {cells : List (Option E)} {i : Nat}
    (hi : i < cells.length) (val : Option E) : (m.withCells b cells).storeAt (some ⟨b, i⟩) val =
      some (m.withCells b (cells.set i val)) := by
  rw [storeAt, Heap.write_eq (m.blocks_withCells b cells) hi]
  show some (m.setHeap ((m.heap.put b _).put b _)) = _
  rw [Heap.put_put]
  rfl

theorem PvectorMem.elementPtr_withCells (m : PvectorMem ι E) {x : ι} {v : Pvector} {b : Nat}
    (hx : m.vars x = some v) (hv : v.start = some ⟨b, 0⟩) {cells : List (Option E)} {i : Nat}
    (hi : i ≤ cells.length) : (m.withCells b cells).elementPtr x i = some (some ⟨b, i⟩) := by
  rw [elementPtr, vars_withCells, hx, Option.bind_some, hv,
    Heap.add_eq (m.blocks_withCells b cells) (by omega), Nat.zero_add]

/-- The first cells of an array are written, each from what its own iteration has loaded. -/
theorem writeCells_solo {k : Nat} {get : Fin k → PvectorMem ι E → Option β}
    {put : Fin k → β → PvectorMem ι E → Option (PvectorMem ι E)} {m : PvectorMem ι E} {b : Nat}
    {cells : List (Option E)} (hcells : m.heap.blocks b = some cells) (hk : k ≤ cells.length)
    (arg : Fin k → β) (value : Fin k → Option E)
    (hget : ∀ i cur, cur.length = cells.length → get i (m.withCells b cur) = some (arg i))
    (hput : ∀ i cur, cur.length = cells.length → put i (arg i) (m.withCells b cur) =
      some (m.withCells b (cur.set i (value i)))) :
    Solo (.parallelFor T k fun i => (Prog.loadAt (get i)).bind fun c => .storeAt (put i c)) m
      fun _ m' => m' = m.withCells b (List.ofFn value ++ cells.drop k) := by
  have hinj : Injective (m.withCells b) := fun _ _ => PvectorMem.withCells_inj
  have hloop : Solo (.parallelFor T k fun i => (Prog.loadAt (get i)).bind fun c => .storeAt (put i c))
      (m.withCells b cells) _ := Solo.parallelFor_setCells hinj hk arg value hget hput
  rwa [PvectorMem.withCells_eq_self hcells] at hloop

/-- A loop without iterations. -/
theorem parallelFor_zero_solo {S : Type} {body : Fin 0 → Prog S Unit} (s : S) :
    Solo (.parallelFor T 0 body) s fun _ s' => s' = s := by
  apply (Solo.parallelFor_of_own (fun _ _ _ => False) (fun s' => s' = s) (fun _ _ => True)
    (fun _ _ => True) rfl (fun _ => trivial) ?_ ?_ ?_ ?_).mono fun _ _ h => h.1
  · exact fun i => i.elim0
  · exact fun i => i.elim0
  · exact fun i => i.elim0
  · exact fun i => i.elim0

end Cells

/-! ## The methods -/

namespace Pvector

open PvectorMem

variable {fits : Heap E → Nat → Bool} {T : Nat} [NeZero T] {m : PvectorMem ι E} {x : ι} {v : Pvector}
  {xs spare : List (Option E)}

theorem this_bind {α : Type} {k : Pvector → Prog (PvectorMem ι E) α} {Q : α → PvectorMem ι E → Prop}
    (hx : m.vars x = some v) (h : Solo (k v) m Q) : Solo ((this x).bind k) m Q :=
  Solo.loadAt_bind hx h

theorem sizeOf_bind {α : Type} {k : Nat → Prog (PvectorMem ι E) α} {Q : α → PvectorMem ι E → Prop}
    (hm : m.heap.Ok) (hx : m.vars x = some v) (hv : v.Holds m.heap xs spare)
    (h : Solo (k xs.length) m Q) : Solo ((sizeOf x).bind k) m Q :=
  Solo.loadAt_bind (by rw [hx]; exact hv.size hm) h

theorem capacityOf_bind {α : Type} {k : Nat → Prog (PvectorMem ι E) α} {Q : α → PvectorMem ι E → Prop}
    (hm : m.heap.Ok) (hx : m.vars x = some v) (hv : v.Holds m.heap xs spare)
    (h : Solo (k (xs.length + spare.length)) m Q) : Solo ((capacityOf x).bind k) m Q :=
  Solo.loadAt_bind (by rw [hx]; exact (hv.capacity hm).1) h

theorem deleteArray_bind {α : Type} {p : Ptr} {heap : Heap E} {k : Unit → Prog (PvectorMem ι E) α}
    {Q : α → PvectorMem ι E → Prop} (hp : Heap.delete p m.heap = some heap)
    (h : Solo (k ()) (m.setHeap heap) Q) : Solo ((deleteArray p).bind k) m Q :=
  Solo.storeAt_bind (by rw [hp]; rfl) h

/-- An allocation throws, or gives an array that no vector owns yet. -/
theorem newArray_solo (hm : m.heap.Ok) (numElements : Nat) :
    Solo (newArray fits numElements) m fun p m' => p = none ∧ m' = m ∨
      p = some (some ⟨m.heap.next, 0⟩) ∧ ∃ heap, m' = m.setHeap heap ∧ heap.Ok ∧
        heap.blocks m.heap.next = some (List.replicate numElements none) ∧
        ∀ b, b ≠ m.heap.next → heap.blocks b = m.heap.blocks b := by
  cases hnew : Heap.new fits numElements m.heap with
  | none => exact Solo.op (by rw [hnew]) (.inl ⟨rfl, rfl⟩)
  | some r =>
    obtain ⟨p, heap⟩ := r
    obtain ⟨rfl, hok, hblock, hkept⟩ := hm.new hnew
    exact Solo.op (by rw [hnew]) (.inr ⟨rfl, heap, rfl, hok, hblock, hkept⟩)

/-- The elements are copied to an array that `x` does not own yet. -/
theorem copyElements_solo (hx : m.vars x = some v) (hv : v.Holds m.heap xs spare) {b numElements : Nat}
    (hblock : m.heap.blocks b = some (List.replicate numElements none))
    (hold : ∀ a, v.start = some a → a.block ≠ b) (hroom : xs.length ≤ numElements) :
    Solo (.parallelFor T xs.length fun i => (Prog.loadAt fun m : PvectorMem ι E =>
        (m.elementPtr x i).bind m.heap.read).bind fun val =>
      .storeAt fun m => (m.heap.add (some ⟨b, 0⟩) i).bind fun p => m.storeAt p val) m fun _ m' =>
      m' = m.withCells b (xs ++ List.replicate (numElements - xs.length) none) := by
  have hlength : (List.replicate numElements (none : Option E)).length = numElements :=
    List.length_replicate
  apply (writeCells_solo hblock (by omega) (fun i => xs[i.val]) (fun i => xs[i.val])
    (fun i cur hlen => ?_) fun i cur hlen => ?_).mono
  · rintro _ _ rfl
    rw [List.ofFn_getElem, List.drop_replicate]
  · rw [elementPtr, vars_withCells, hx]
    exact (hv.congr fun a ha => m.blocks_withCells_of_ne (hold a ha) cur).read i.isLt
  · rw [Heap.add_eq (m.blocks_withCells _ cur) (by omega), Nat.zero_add]
    exact m.storeAt_withCells _ (by omega) _

/-- The old array of a vector is none that has been handed out since. -/
theorem Holds.start_ne_next {h : Heap E} (hv : v.Holds h xs spare) (hh : h.Ok) (a : Place)
    (ha : v.start = some a) : a.block ≠ h.next := by
  cases hv with
  | null => cases ha
  | array hb =>
    cases ha
    exact (hh.lt_next hb).ne

variable [DecidableEq ι]

theorem assign_bind {α : Type} {f : Pvector → Pvector} {k : Unit → Prog (PvectorMem ι E) α}
    {Q : α → PvectorMem ι E → Prop} (hx : m.vars x = some v)
    (h : Solo (k ()) (m.setVar x (some (f v))) Q) : Solo ((assign x f).bind k) m Q :=
  Solo.storeAt_bind (by rw [hx]; rfl) h

/-- The cells of an array that only `x` can own are written. -/
theorem withCells_replaced (hm : m.Inv) (hx : m.vars x = some v) {b : Nat} {cells cur : List (Option E)}
    (hb : m.heap.blocks b = some cells) (honly : m.OnlyOf x b) (hlength : cur.length = cells.length) :
    Replaced m (m.withCells b cur) x (some v) := by
  refine ⟨?_, ?_, fun b' hb' => ?_, fun w a hw ha => ?_⟩
  · rw [← hx, update_eq_self]
    rfl
  · apply hm.heap.put (hm.heap.lt_next hb)
    rintro _ ⟨⟩
    rw [hlength]
    exact hm.heap.small b cells hb
  · apply Heap.put_of_ne
    rintro rfl
    exact hb' honly
  · cases hw
    exact hm.apart x v a hx ha

theorem unchanged_replaced (hm : m.Inv) (hx : m.vars x = some v) : Replaced m m x (some v) := by
  refine ⟨?_, hm.heap, fun _ _ => rfl, fun w a hw ha => ?_⟩
  · rw [← hx, update_eq_self]
  · cases hw
    exact hm.apart x v a hx ha

/-- The start stays. -/
theorem setVar_replaced (hm : m.Inv) (hx : m.vars x = some v) {w : Pvector} (hw : w.start = v.start) :
    Replaced m (m.setVar x (some w)) x (some w) := by
  refine ⟨rfl, hm.heap, fun _ _ => rfl, fun u a hu ha => ?_⟩
  cases hu
  exact hm.apart x v a hx (hw.symm.trans ha)

theorem fill_solo (hm : m.Inv) (hx : m.vars x = some v) (hv : v.Holds m.heap xs spare) (initVal : E) :
    Solo (fill T x initVal) m fun done m' => done = true ∧
      Becomes m m' x (List.replicate xs.length (some initVal)) spare.length := by
  apply Solo.loadAt_bind (b := xs.length)
  · rw [hx, Option.bind_some, hv.diff]
    rfl
  apply Solo.bind
  cases hv with
  | null =>
    apply (parallelFor_zero_solo m).mono
    rintro _ _ rfl
    exact Solo.ret ⟨rfl, null, [], unchanged_replaced hm hx, .null, rfl⟩
  | @array b xs spare hb =>
    have hlength : (xs ++ spare).length = xs.length + spare.length := List.length_append
    apply (writeCells_solo hb (by omega) (fun i => some ⟨b, i.val⟩) (fun _ => some initVal)
      (fun i cur hcur => ?_) fun i cur hcur => ?_).mono
    · rintro _ _ rfl
      have hcells : List.ofFn (fun _ : Fin xs.length => some initVal) ++ (xs ++ spare).drop xs.length =
          List.replicate xs.length (some initVal) ++ spare := by
        rw [List.ofFn_const, List.drop_left]
      rw [hcells]
      refine Solo.ret ⟨rfl, _, spare, withCells_replaced hm hx hb (hm.apart x _ _ hx rfl) ?_, ?_, rfl⟩
      · rw [List.length_append, List.length_replicate, hlength]
      · have hlen : (List.replicate xs.length (some initVal)).length = xs.length := List.length_replicate
        have hholds := @Holds.array E (m.withCells b _).heap b _ _ (m.blocks_withCells b
          (List.replicate xs.length (some initVal) ++ spare))
        rwa [hlen] at hholds
    · exact m.elementPtr_withCells hx rfl (by omega)
    · exact m.storeAt_withCells b (by omega) _

/-- A constructor that allocates gives `x` an array of its own. -/
theorem constructSized_solo (hm : m.Inv) (numElements : Nat) :
    Solo (constructSized fits x numElements) m fun done m' => done = false ∧ m' = m ∨
      done = true ∧ m'.heap.blocks m.heap.next = some (List.replicate numElements none) ∧
        Replaced m m' x (some ⟨some ⟨m.heap.next, 0⟩, some ⟨m.heap.next, numElements⟩,
          some ⟨m.heap.next, numElements⟩⟩) := by
  apply Solo.bind
  apply (newArray_solo hm.heap numElements).mono
  rintro _ _ (⟨rfl, rfl⟩ | ⟨rfl, heap, rfl, hok, hblock, hkept⟩)
  · exact Solo.ret (.inl ⟨rfl, rfl⟩)
  · apply Solo.loadAt_bind (b := some ⟨m.heap.next, numElements⟩)
    · show heap.add _ _ = _
      rw [Heap.add_eq hblock (by simp), Nat.zero_add]
    apply Solo.store_bind
    refine Solo.ret (.inr ⟨rfl, hblock, rfl, hok, fun b hb => ?_, fun w a hw ha => ?_⟩)
    · apply hkept
      rintro rfl
      exact hb (hm.onlyOf_next x)
    · cases hw
      cases ha
      exact hm.onlyOf_next x

theorem constructFilled_solo (hm : m.Inv) (numElements : Nat) (initVal : E) :
    Solo (constructFilled fits T x numElements initVal) m fun done m' => done = false ∧ m' = m ∨
      done = true ∧ Becomes m m' x (List.replicate numElements (some initVal)) 0 := by
  apply Solo.bind
  apply (constructSized_solo hm numElements).mono
  rintro _ m' (⟨rfl, rfl⟩ | ⟨rfl, hblock, hnew⟩)
  · exact Solo.ret (.inl ⟨rfl, rfl⟩)
  · have hholds := Holds.new hblock
    rw [List.length_replicate] at hholds
    have hx : m'.vars x = some _ := hnew.vars ▸ update_self ..
    have hm' := (hm.becomes ⟨_, _, hnew, hholds, rfl⟩).1
    apply (fill_solo hm' hx hholds initVal).mono
    rintro _ m'' ⟨rfl, w, rest, hfill, hholds', hroom⟩
    rw [List.length_replicate] at hholds'
    exact .inr ⟨rfl, w, rest, hnew.trans hfill, hholds', hroom⟩

/-- Storage that is too small is replaced by a larger array with the same elements. -/
theorem reserve_solo (hm : m.Inv) (hx : m.vars x = some v) (hv : v.Holds m.heap xs spare)
    (numElements : Nat) :
    Solo (reserve fits T x numElements) m fun done m' => done = false ∧ m' = m ∨
      done = true ∧ ∃ room, numElements ≤ xs.length + room ∧ Becomes m m' x xs room := by
  apply capacityOf_bind hm.heap hx hv
  by_cases hgrow : xs.length + spare.length < numElements
  · rw [if_pos hgrow]
    apply Solo.bind
    apply (newArray_solo hm.heap numElements).mono
    rintro _ _ (⟨rfl, rfl⟩ | ⟨rfl, heap, rfl, hok, hblock, hkept⟩)
    · exact Solo.ret (.inl ⟨rfl, rfl⟩)
    -- the new array is not the old one, whose elements are still there
    have hold := hv.start_ne_next hm.heap
    let m₁ := m.setHeap heap
    have hx₁ : m₁.vars x = some v := hx
    have hv₁ : v.Holds m₁.heap xs spare := hv.congr fun a ha => hkept _ (hold a ha)
    apply sizeOf_bind (m := m₁) hok hx₁ hv₁
    apply Solo.bind
    apply (copyElements_solo (m := m₁) hx₁ hv₁ hblock hold (by omega)).mono
    rintro _ _ rfl
    -- the copied elements, and room behind them that nothing has been written to
    let rest : List (Option E) := List.replicate (numElements - xs.length) none
    have hlen : (xs ++ rest).length = numElements := by
      rw [List.length_append, List.length_replicate]
      omega
    let m₂ := m₁.withCells m.heap.next (xs ++ rest)
    have hv₂ : v.Holds m₂.heap xs spare := hv₁.congr fun a ha => m₁.blocks_withCells_of_ne (hold a ha) _
    have hok₂ : m₂.heap.Ok := by
      apply hok.put (hok.lt_next hblock)
      rintro _ ⟨⟩
      have hsmall := hok.small _ _ hblock
      rw [List.length_replicate] at hsmall
      exact hlen.trans_lt hsmall
    apply sizeOf_bind (m := m₂) hok₂ hx₁ hv₂
    apply Solo.loadAt_bind (b := some ⟨m.heap.next, xs.length⟩)
    · rw [Heap.add_eq (m₁.blocks_withCells _ _) (by omega), Nat.zero_add]
    apply assign_bind (m := m₂) hx₁
    apply this_bind (vars_setVar_self ..)
    -- `delete[] start_` ends the old array; `start_` is assigned only behind it
    obtain ⟨heap₃, hdelete, hok₃, hkept₃⟩ := hv₂.delete hok₂
    apply deleteArray_bind (m := m₂.setVar x _) hdelete
    apply assign_bind (m := (m₂.setVar x _).setHeap heap₃) (vars_setVar_self m₂ x _)
    have hblock₃ : heap₃.blocks m.heap.next = some (xs ++ rest) :=
      (hkept₃ _ fun a ha => (hold a ha).symm).trans (m₁.blocks_withCells _ _)
    apply Solo.loadAt_bind (b := some ⟨m.heap.next, numElements⟩)
    · rw [elementPtr, vars_setVar_self, Option.bind_some]
      exact (Heap.add_eq hblock₃ (by omega)).trans (by rw [Nat.zero_add])
    apply assign_bind (vars_setVar_self ..)
    let w : Pvector :=
      ⟨some ⟨m.heap.next, 0⟩, some ⟨m.heap.next, xs.length⟩, some ⟨m.heap.next, numElements⟩⟩
    have hroom : xs.length + rest.length = numElements := by rw [← List.length_append, hlen]
    refine Solo.ret (.inr ⟨rfl, rest.length, hroom.ge, w, rest, ⟨?_, hok₃, fun b hb => ?_,
      fun w a hw ha => ?_⟩, ?_, rfl⟩)
    · show update (update (update m.vars x _) x _) x _ = _
      rw [update_idem, update_idem]
    · have hnext : b ≠ m.heap.next := by
        rintro rfl
        exact hb (hm.onlyOf_next x)
      show heap₃.blocks b = m.heap.blocks b
      rw [hkept₃ b, m₁.blocks_withCells_of_ne hnext]
      · exact hkept b hnext
      · rintro a ha rfl
        exact hb (hm.apart x v a hx ha)
    · cases hw
      cases ha
      exact hm.onlyOf_next x
    · have hholds := @Holds.array E heap₃ m.heap.next xs rest hblock₃
      rwa [hroom] at hholds
  · rw [if_neg hgrow]
    exact Solo.ret (.inr ⟨rfl, spare.length, by omega, v, spare, unchanged_replaced hm hx, hv, rfl⟩)

theorem resize_solo (hm : m.Inv) (hx : m.vars x = some v) (hv : v.Holds m.heap xs spare)
    (numElements : Nat) :
    Solo (resize fits T x numElements) m fun done m' => done = false ∧ m' = m ∨
      done = true ∧ ∃ ys room, ys.length = numElements ∧ ys.take xs.length = xs.take numElements ∧
        Becomes m m' x ys room := by
  apply Solo.bind
  apply (reserve_solo hm hx hv numElements).mono
  rintro _ m' (⟨rfl, rfl⟩ | ⟨rfl, room, hroom, w, rest, hreserve, hw, rfl⟩)
  · exact Solo.ret (.inl ⟨rfl, rfl⟩)
  · have hx' : m'.vars x = some w := hreserve.vars ▸ update_self ..
    apply Solo.loadAt_bind (b := w.start.map fun a => ⟨a.block, numElements⟩)
    · rw [elementPtr, hx', Option.bind_some, hw.add hroom]
    apply assign_bind hx'
    have hlength : ((xs ++ rest).take numElements).length = numElements := by
      rw [List.length_take, List.length_append]
      omega
    have hsplit := hw.split (List.take_append_drop numElements (xs ++ rest))
    rw [hlength] at hsplit
    refine Solo.ret (.inr ⟨rfl, _, _, hlength, ?_, _, _, hreserve.setVar rfl, hsplit, rfl⟩)
    rw [List.take_take, Nat.min_comm, ← List.take_take, List.take_left]

/-- The element goes behind the last one, where there is room. -/
theorem storeBack_solo (hm : m.Inv) (hx : m.vars x = some v) (hv : v.Holds m.heap xs spare)
    (hroom : 0 < spare.length) (val : E) :
    Solo (do
      let v ← this x
      .storeAt fun m => m.storeAt v.endSize (some val)
      let endSize ← .loadAt fun m => m.heap.add v.endSize 1
      assign x fun v => { v with endSize }
      return true) m fun done m' => done = true ∧ ∃ room, Becomes m m' x (xs ++ [some val]) room := by
  apply this_bind hx
  cases hv with
  | null => exact absurd hroom (Nat.lt_irrefl 0)
  | @array b xs spare hb =>
    have hm₁ : m = m.withCells b (xs ++ spare) := (withCells_eq_self hb).symm
    -- the element takes the place of the first spare cell
    obtain ⟨c, rest, rfl⟩ := List.exists_cons_of_length_pos hroom
    have hset : (xs ++ c :: rest).set xs.length (some val) = (xs ++ [some val]) ++ rest := by
      rw [List.set_append_right _ _ (Nat.le_refl _), Nat.sub_self, List.set_cons_zero, List.append_assoc,
        List.singleton_append]
    have hlength : ((xs ++ [some val]) ++ rest).length = xs.length + 1 + rest.length := by
      simp only [List.length_append, List.length_singleton]
    let m₂ := m.withCells b ((xs ++ [some val]) ++ rest)
    apply Solo.storeAt_bind (t := m₂)
    · rw [hm₁, m.storeAt_withCells b (by simp), hset]
    apply Solo.loadAt_bind (b := some ⟨b, xs.length + 1⟩)
    · exact Heap.add_eq (m.blocks_withCells b _) (by rw [hlength]; omega)
    apply assign_bind (m := m₂) hx
    have hwritten : Replaced m m₂ x _ := withCells_replaced hm hx hb (hm.apart x _ _ hx rfl) (by
      rw [hlength, List.length_append, List.length_cons]
      omega)
    have hholds := Holds.array (m.blocks_withCells b ((xs ++ [some val]) ++ rest))
    have hsize : (xs ++ [some val]).length = xs.length + 1 := List.length_append
    have hcapacity : xs.length + 1 + rest.length = xs.length + (c :: rest).length := by
      rw [List.length_cons]
      omega
    -- the size has grown by one, and the capacity is the same
    rw [hsize, hcapacity] at hholds
    exact Solo.ret ⟨rfl, rest.length, _, rest, hwritten.setVar rfl, hholds, rfl⟩

theorem pushBack_solo (hm : m.Inv) (hx : m.vars x = some v) (hv : v.Holds m.heap xs spare) (val : E) :
    Solo (pushBack fits T x val) m fun done m' => done = false ∧ m' = m ∨
      done = true ∧ ∃ room, Becomes m m' x (xs ++ [some val]) room := by
  apply sizeOf_bind hm.heap hx hv
  apply capacityOf_bind hm.heap hx hv
  have hsmall := (hv.capacity hm.heap).2
  let newSize := if xs.length + spare.length = 0 then 1
    else (xs.length + spare.length) * growthFactor % 2 ^ 64
  have hnewSize : xs.length + spare.length < newSize := by
    simp only [newSize, growthFactor]
    split <;> omega
  -- there is room for one more element, or the capacity is doubled
  have hgrown :
      Solo (if xs.length = xs.length + spare.length then reserve fits T x newSize else pure true) m
        fun done m' => done = false ∧ m' = m ∨
        done = true ∧ ∃ room, 0 < room ∧ Becomes m m' x xs room := by
    by_cases hfull : xs.length = xs.length + spare.length
    · rw [if_pos hfull]
      apply (reserve_solo hm hx hv newSize).mono
      rintro done m' (h | ⟨hdone, room, hroom, h⟩)
      · exact .inl h
      · exact .inr ⟨hdone, room, by omega, h⟩
    · rw [if_neg hfull]
      exact Solo.ret (.inr ⟨rfl, spare.length, by omega, v, spare, unchanged_replaced hm hx, hv, rfl⟩)
  apply Solo.bind
  apply hgrown.mono
  rintro _ m' (⟨rfl, rfl⟩ | ⟨rfl, room, hroom, w, rest, hreserve, hw, rfl⟩)
  · exact Solo.ret (.inl ⟨rfl, rfl⟩)
  · have hm' := (hm.becomes ⟨w, rest, hreserve, hw, rfl⟩).1
    have hx' : m'.vars x = some w := hreserve.vars ▸ update_self ..
    apply (storeBack_solo hm' hx' hw hroom val).mono
    rintro _ m'' ⟨rfl, room, u, spare', hstore, hu⟩
    exact .inr ⟨rfl, room, u, spare', hreserve.trans hstore, hu⟩

theorem setAt_solo (hm : m.Inv) (hx : m.vars x = some v) (hv : v.Holds m.heap xs spare) {n : Nat}
    (hn : n < xs.length) (val : E) :
    Solo (setAt x n val) m fun done m' => done = true ∧
      Becomes m m' x (xs.set n (some val)) spare.length := by
  cases hv with
  | null => exact absurd hn (Nat.not_lt_zero n)
  | @array b xs spare hb =>
    have hm₁ : m = m.withCells b (xs ++ spare) := (withCells_eq_self hb).symm
    have hfits : n < (xs ++ spare).length := by
      rw [List.length_append]
      omega
    let m₂ := m.withCells b (xs.set n (some val) ++ spare)
    apply Solo.storeAt_bind (t := m₂)
    · rw [hm₁, m.elementPtr_withCells hx rfl hfits.le, Option.bind_some, m.storeAt_withCells b hfits,
        List.set_append_left _ _ hn]
    · have hwritten : Replaced m m₂ x _ := withCells_replaced hm hx hb (hm.apart x _ _ hx rfl) (by
        rw [List.length_append, List.length_append, List.length_set])
      have hholds := Holds.array (m.blocks_withCells b (xs.set n (some val) ++ spare))
      rw [List.length_set] at hholds
      exact Solo.ret ⟨rfl, _, spare, hwritten, hholds, rfl⟩

theorem clear_solo (hm : m.Inv) (hx : m.vars x = some v) (hv : v.Holds m.heap xs spare) :
    Solo (clear x) m fun done m' => done = true ∧
      Becomes m m' x [] (xs ++ spare).length := by
  apply assign_bind hx
  have hstart :
      { v with endSize := v.start.map fun a => ⟨a.block, 0⟩ } = { v with endSize := v.start } := by
    cases hv <;> rfl
  have hsplit := hv.split (List.nil_append (xs ++ spare))
  rw [List.length_nil, hstart] at hsplit
  exact Solo.ret ⟨rfl, _, _, setVar_replaced hm hx rfl, hsplit, rfl⟩

/-- Without storage there is nothing to hand over. -/
theorem leak_solo (hm : m.Inv) (hx : m.vars x = some v) (hv : v.Holds m.heap xs spare)
    (hnull : v.start = none) :
    Solo (leak x) m fun done m' => done = true ∧ Becomes m m' x [] 0 := by
  apply assign_bind hx
  cases hv with
  | null => exact Solo.ret ⟨rfl, null, [], setVar_replaced hm hx rfl, .null, rfl⟩
  | array hb => cases hnull

/-- The elements are copied from another vector. -/
theorem constructCopy_solo (hm : m.Inv) {y : ι} (hxy : y ≠ x) (hy : m.vars y = some v)
    (hv : v.Holds m.heap xs spare) {lo hi : Nat} (hlo : lo ≤ hi) (hhi : hi ≤ xs.length) :
    Solo (constructCopy fits T x (v.start.map fun a => ⟨a.block, lo⟩)
      (v.start.map fun a => ⟨a.block, hi⟩)) m fun done m' =>
        done = false ∧ m' = m ∨ done = true ∧ Becomes m m' x (slice xs lo hi) 0 := by
  have hlength : (slice xs lo hi).length = hi - lo := length_slice hhi
  have hsmall := (hv.capacity hm.heap).2
  apply Solo.loadAt_bind (b := (slice xs lo hi).length)
  · rw [hlength]
    cases hv with
    | null =>
      obtain rfl : hi = 0 := Nat.le_zero.mp hhi
      rw [Nat.zero_sub]
      rfl
    | array hb =>
      rw [Option.map_some, Option.map_some, ptrDiff_eq, Option.map_some, ← Int.ofNat_sub hlo,
        diffSize_eq (by omega)]
  apply Solo.bind
  apply (constructSized_solo hm _).mono
  rintro _ m' (⟨rfl, rfl⟩ | ⟨rfl, hblock, hnew⟩)
  · exact Solo.ret (.inl ⟨rfl, rfl⟩)
  · have hholds := Holds.new hblock
    rw [List.length_replicate] at hholds
    have hx' : m'.vars x = some _ := hnew.vars ▸ update_self ..
    have hm' := (hm.becomes ⟨_, _, hnew, hholds, rfl⟩).1
    apply Solo.loadAt_bind (b := (slice xs lo hi).length)
    · rw [hx', Option.bind_some, (hholds.capacity hm'.heap).1, List.length_replicate]
      rfl
    apply Solo.bind
    -- the new array is another one than the array that is copied
    have hsource (cur : List (Option E)) : v.Holds (m'.withCells m.heap.next cur).heap xs spare := by
      apply hv.congr
      intro a ha
      rw [m'.blocks_withCells_of_ne (hv.start_ne_next hm.heap a ha)]
      exact hnew.kept _ fun honly => honly y hxy v a hy ha rfl
    apply (writeCells_solo hblock (by simp) (fun i => (slice xs lo hi)[i.val])
      (fun i => (slice xs lo hi)[i.val]) (fun i cur hlen => ?_) fun i cur hlen => ?_).mono
    · rintro _ _ rfl
      rw [List.ofFn_getElem, List.drop_replicate, Nat.sub_self, List.replicate_zero, List.append_nil]
      have hown := hnew.own _ _ rfl rfl
      have hwritten : Replaced m' (m'.withCells m.heap.next (slice xs lo hi)) x _ :=
        withCells_replaced hm' hx' hblock ((hnew.onlyOf_iff _).mpr hown) (by simp)
      exact Solo.ret (.inr ⟨rfl, _, [], hnew.trans hwritten, .new (m'.blocks_withCells _ _), rfl⟩)
    · have hi := i.isLt
      rw [(hsource cur).read_from (by omega), Option.some_inj]
      simp [slice]
    · rw [List.length_replicate] at hlen
      rw [m'.elementPtr_withCells hx' rfl (by omega), Option.bind_some]
      exact m'.storeAt_withCells _ (by omega) _

end Pvector

end Gapbs
