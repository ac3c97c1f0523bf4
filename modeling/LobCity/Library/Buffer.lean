import Mathlib.Data.List.Basic

/-! Views into a buffer that is overwritten in place: an offset and a length, and when
what they denote survives a write. -/
namespace LobCity.Library
variable {α : Type*}

structure View where
  offset : Nat
  length : Nat
deriving DecidableEq, Repr

def overwrite (buffer : List α) (start : Nat) (items : List α) : List α :=
  buffer.take start ++ (items ++ buffer.drop (start + items.length))

theorem length_overwrite {buffer items : List α} {start : Nat}
    (h : start + items.length ≤ buffer.length) :
    (overwrite buffer start items).length = buffer.length := by
  simp only [overwrite, List.length_append, List.length_take, List.length_drop]
  omega

theorem take_overwrite {buffer written rest : List α} {start : Nat} (h : start ≤ buffer.length) :
    (overwrite buffer start (written ++ rest)).take (start + written.length) =
      buffer.take start ++ written := by
  have hlen : (buffer.take start ++ written).length = start + written.length := by
    rw [List.length_append, List.length_take_of_le h]
  rw [overwrite, List.append_assoc, ← List.append_assoc, List.take_left' hlen]

namespace View

def empty : View := ⟨0, 0⟩

/-- What a view denotes, as the buffer under it stands now. -/
def read (buffer : List α) (v : View) : List α := (buffer.drop v.offset).take v.length

def Within (v : View) (n : Nat) : Prop := v.offset + v.length ≤ n

def Apart (v r : View) : Prop :=
  v.length = 0 ∨ v.offset + v.length ≤ r.offset ∨ r.offset + r.length ≤ v.offset

instance (v r : View) : Decidable (v.Apart r) := inferInstanceAs (Decidable (_ ∨ _ ∨ _))

variable {v : View} {buffer items : List α} {start n : Nat}

theorem read_of_length_eq_zero (h : v.length = 0) (buffer : List α) : v.read buffer = [] := by
  rw [read, h, List.take_zero]

theorem read_take (h : v.Within n) : v.read (buffer.take n) = v.read buffer := by
  have hle : v.length ≤ n - v.offset := Nat.le_sub_of_add_le' h
  rw [read, List.drop_take, List.take_take, Nat.min_eq_left hle, read]

theorem read_overwrite (h : start + items.length ≤ buffer.length)
    (hv : v.Apart ⟨start, items.length⟩) : v.read (overwrite buffer start items) = v.read buffer := by
  have hfront : (buffer.take start).length = start := List.length_take_of_le (by omega)
  rcases hv with hzero | hbefore | hbehind
  · rw [read_of_length_eq_zero hzero, read_of_length_eq_zero hzero]
  · -- the view ends in the part that is kept in front
    have hcut : (overwrite buffer start items).take start = buffer.take start := by
      rw [overwrite, List.take_left' hfront]
    rw [← read_take (n := start) hbefore, hcut, read_take hbefore]
  · -- it begins in the part that is kept behind
    have hkept : (overwrite buffer start items).drop (start + items.length) =
        buffer.drop (start + items.length) := by
      rw [overwrite, ← List.append_assoc]
      exact List.drop_left' (by rw [List.length_append, hfront])
    have hshift (l : List α) : v.read l =
        ((l.drop (start + items.length)).drop (v.offset - (start + items.length))).take v.length := by
      rw [List.drop_drop, Nat.add_sub_cancel' hbehind, read]
    rw [hshift, hkept, ← hshift]

theorem length_eq_zero (h : v.Within n) (hv : v.Apart ⟨0, n⟩) : v.length = 0 := by
  simp only [Within, Apart] at h hv
  omega

end View
end LobCity.Library
