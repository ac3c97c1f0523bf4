import Mathlib.Data.UInt
import Mathlib.Data.List.Basic

/-! Integers as bytes, least significant byte first, and objects as bytes: each member at
an offset that its alignment divides, with padding before it and at the end. -/
namespace LobCity.Library

def leBytes : Nat → Nat → List UInt8
  | 0, _ => []
  | width + 1, n => UInt8.ofNat n :: leBytes width (n / 256)

def ofLE : List UInt8 → Nat
  | [] => 0
  | b :: bytes => b.toNat + 256 * ofLE bytes

@[simp] theorem length_leBytes (width n : Nat) : (leBytes width n).length = width := by
  induction width generalizing n with
  | zero => rfl
  | succ width ih => simp [leBytes, ih]

structure Member where
  bytes : List UInt8
  align : Nat

/-- The least multiple of `align` from `n` on. -/
def alignUp (n align : Nat) : Nat := (n + align - 1) / align * align

theorem le_alignUp {n align : Nat} (h : 0 < align) : n ≤ alignUp n align := by
  have hmod := Nat.mod_lt (n + align - 1) h
  have hdiv := Nat.div_add_mod (n + align - 1) align
  rw [Nat.mul_comm] at hdiv
  unfold alignUp
  omega

variable (padding : Nat → UInt8)

/-- Fill up to a multiple of `align`; `padding` gives the byte for each offset. -/
def pad (align : Nat) (object : List UInt8) : List UInt8 :=
  object ++ (List.range' object.length (alignUp object.length align - object.length)).map padding

def place (object : List UInt8) (m : Member) : List UInt8 := pad padding m.align object ++ m.bytes

def representation (align : Nat) (members : List Member) : List UInt8 :=
  pad padding align (members.foldl (place padding) [])

theorem length_pad {align : Nat} (h : 0 < align) (object : List UInt8) :
    (pad padding align object).length = alignUp object.length align := by
  have hle : object.length ≤ alignUp object.length align := le_alignUp h
  simp only [pad, List.length_append, List.length_map, List.length_range']
  omega

theorem length_foldl_place {members : List Member} (h : ∀ m ∈ members, 0 < m.align)
    (object : List UInt8) :
    (members.foldl (place padding) object).length =
      members.foldl (fun n m => alignUp n m.align + m.bytes.length) object.length := by
  induction members generalizing object with
  | nil => rfl
  | cons m members ih =>
    have hplace : (place padding object m).length = alignUp object.length m.align + m.bytes.length := by
      rw [place, List.length_append, length_pad padding (h m (by simp))]
    rw [List.foldl_cons, ih (fun m hm => h m (by simp [hm])), hplace]
    rfl

theorem length_representation {align : Nat} (ha : 0 < align) {members : List Member}
    (h : ∀ m ∈ members, 0 < m.align) :
    (representation padding align members).length =
      alignUp (members.foldl (fun n m => alignUp n m.align + m.bytes.length) 0) align := by
  rw [representation, length_pad padding ha, length_foldl_place padding h]
  rfl

end LobCity.Library
