import Mathlib.Data.List.Basic
import Mathlib.Algebra.Group.Nat.Defs

/-!
# Binary files

Values of fixed width as they stand in the memory of a little-endian machine, and readers that take
such values from the front of a file.  `Decodes r bytes a` says that the reader `r` takes exactly
`bytes` and makes `a` of them, whatever comes after; it composes like the readers do.
-/

namespace Bytes

variable {α β : Type}

/-- The `k` lowest bytes of a number. -/
def ofNat : Nat → Nat → List UInt8
  | 0, _ => []
  | k + 1, x => UInt8.ofNat x :: ofNat k (x / 256)

def toNat : List UInt8 → Nat
  | [] => 0
  | b :: l => b.toNat + 256 * toNat l

/-- A signed number of `k` bytes, in two's complement. -/
def ofInt (k : Nat) (x : Int) : List UInt8 := ofNat k (x % (256 ^ k : Nat)).toNat

def toInt (l : List UInt8) : Int := (toNat l : Int).bmod (256 ^ l.length)

@[simp] theorem length_ofNat (k x : Nat) : (ofNat k x).length = k := by
  induction k generalizing x with
  | zero => rfl
  | succ k ih => rw [ofNat, List.length_cons, ih]

@[simp] theorem length_ofInt (k : Nat) (x : Int) : (ofInt k x).length = k := length_ofNat k _

theorem toNat_ofNat {k x : Nat} (hx : x < 256 ^ k) : toNat (ofNat k x) = x := by
  induction k generalizing x with
  | zero =>
    rw [Nat.pow_zero] at hx
    rw [ofNat, toNat]
    omega
  | succ k ih =>
    rw [Nat.pow_succ] at hx
    rw [ofNat, toNat, ih (by omega), UInt8.toNat_ofNat']
    omega

/-- A number in the range of its type is read back. -/
theorem toInt_ofInt {k : Nat} {x : Int} (hlo : -((256 ^ k : Nat) : Int) ≤ 2 * x)
    (hhi : 2 * x < (256 ^ k : Nat)) : toInt (ofInt k x) = x := by
  have hpos : (0 : Int) < (256 ^ k : Nat) := by exact_mod_cast Nat.pow_pos (by decide)
  have hnonneg := Int.emod_nonneg x (Int.ne_of_gt hpos)
  have hlt := Int.emod_lt_of_pos x hpos
  rw [toInt, length_ofInt, ofInt, toNat_ofNat (by omega), Int.toNat_of_nonneg hnonneg, Int.emod_bmod]
  apply Int.bmod_eq_of_le <;> omega

/-! ## Readers -/

/-- A reader fails on a file that is too short. -/
abbrev Reader (α : Type) := StateT (List UInt8) Option α

/-- `file.read` of `k` bytes. -/
def readBytes (k : Nat) : Reader (List UInt8) := fun file =>
  if k ≤ file.length then some (file.take k, file.drop k) else none

def readInt (k : Nat) : Reader Int := do
  let bytes ← readBytes k
  return toInt bytes

def readList (r : Reader α) : Nat → Reader (List α)
  | 0 => return []
  | k + 1 => do
    let a ← r
    let l ← readList r k
    return a :: l

theorem bind_eq_some {r : Reader α} {f : α → Reader β} {file : List UInt8} {p : β × List UInt8} :
    (r >>= f) file = some p ↔ ∃ a rest, r file = some (a, rest) ∧ f a rest = some p := by
  have hbind : (r >>= f) file = (r file).bind fun q => f q.1 q.2 := rfl
  rw [hbind, Option.bind_eq_some_iff, Prod.exists]

theorem length_readList {r : Reader α} {k : Nat} {file rest : List UInt8} {l : List α}
    (h : readList r k file = some (l, rest)) : l.length = k := by
  induction k generalizing file rest l with
  | zero =>
    obtain ⟨rfl, -⟩ := Prod.mk.inj (Option.some.inj h)
    rfl
  | succ k ih =>
    obtain ⟨a, file', -, htail⟩ := bind_eq_some.mp h
    obtain ⟨l', file'', hlist, hcons⟩ := bind_eq_some.mp htail
    obtain ⟨rfl, -⟩ := Prod.mk.inj (Option.some.inj hcons)
    rw [List.length_cons, ih hlist]

/-- The reader takes `bytes` from the front of any file and makes `a` of them. -/
def Decodes (r : Reader α) (bytes : List UInt8) (a : α) : Prop :=
  ∀ rest, r (bytes ++ rest) = some (a, rest)

namespace Decodes

variable {r : Reader α} {f : α → Reader β} {bytes bytes' : List UInt8} {a : α} {b : β}

theorem pure (a : α) : Decodes (pure a) [] a := fun _ => rfl

theorem bind (h : Decodes r bytes a) (h' : Decodes (f a) bytes' b) :
    Decodes (r >>= f) (bytes ++ bytes') b := by
  intro rest
  have hbind : (r >>= f) (bytes ++ bytes' ++ rest) =
      (r (bytes ++ bytes' ++ rest)).bind fun p => f p.1 p.2 := rfl
  rw [hbind, List.append_assoc, h]
  exact h' rest

theorem bind_pure {g : α → β} (h : Decodes r bytes a) :
    Decodes (r >>= fun x => Pure.pure (g x)) bytes (g a) := by
  have hbind := h.bind (f := fun x => Pure.pure (g x)) (pure (g a))
  rwa [List.append_nil] at hbind

/-- A step that reads nothing. -/
theorem ofOption {x : Option α} (hx : x = some a) : Decodes (StateT.lift x) [] a := by
  subst hx
  exact fun _ => rfl

theorem lift_bind {x : Option α} (hx : x = some a) (h : Decodes (f a) bytes b) :
    Decodes (StateT.lift x >>= f) bytes b :=
  (ofOption hx).bind h

theorem readBytes {k : Nat} (h : bytes.length = k) : Decodes (Bytes.readBytes k) bytes bytes := by
  intro rest
  have hlen : k ≤ (bytes ++ rest).length := by
    rw [List.length_append, h]
    exact Nat.le_add_right k _
  rw [Bytes.readBytes, if_pos hlen, ← h, List.take_left, List.drop_left]

theorem readInt {k : Nat} {x : Int} (hlo : -((256 ^ k : Nat) : Int) ≤ 2 * x)
    (hhi : 2 * x < (256 ^ k : Nat)) : Decodes (Bytes.readInt k) (ofInt k x) x := by
  have hread := (readBytes (length_ofInt k x)).bind_pure (g := toInt)
  rwa [toInt_ofInt hlo hhi] at hread

theorem readList {l : List α} {enc : α → List UInt8} (h : ∀ a ∈ l, Decodes r (enc a) a) :
    Decodes (Bytes.readList r l.length) (l.flatMap enc) l := by
  induction l with
  | nil => exact pure []
  | cons a l ih =>
    rw [List.flatMap_cons]
    apply (h a List.mem_cons_self).bind
    exact (ih fun b hb => h b (List.mem_cons_of_mem a hb)).bind_pure

end Decodes

end Bytes
