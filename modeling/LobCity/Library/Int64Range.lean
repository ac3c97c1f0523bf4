import Mathlib.Algebra.Ring.Int.Defs

/-! Signed 64-bit arithmetic that does not wrap: an operation is the one on integers
exactly when the result of that one is in range. -/
namespace LobCity.Library

def Fits64 (n : Int) : Prop := -2 ^ 63 ≤ n ∧ n < 2 ^ 63

instance (n : Int) : Decidable (Fits64 n) := inferInstanceAs (Decidable (_ ∧ _))

namespace Fits64
variable {x y : Int64} {n : Int}

theorem toInt (x : Int64) : Fits64 x.toInt := ⟨x.le_toInt, x.toInt_lt⟩

theorem toInt_ofInt (h : Fits64 n) : (Int64.ofInt n).toInt = n :=
  Int64.toInt_ofInt_of_le h.1 h.2

/-- The value of the 64-bit result is the integer result, if that is in range. -/
theorem eq_iff (hx : x = Int64.ofInt n) : x.toInt = n ↔ Fits64 n := by
  constructor
  · intro h
    rw [← h]
    exact toInt x
  · intro h
    rw [hx, h.toInt_ofInt]

theorem add_iff : (x + y).toInt = x.toInt + y.toInt ↔ Fits64 (x.toInt + y.toInt) :=
  eq_iff (by rw [Int64.ofInt_add, Int64.ofInt_toInt, Int64.ofInt_toInt])

theorem sub_iff : (x - y).toInt = x.toInt - y.toInt ↔ Fits64 (x.toInt - y.toInt) :=
  eq_iff (by rw [Int64.ofInt_sub, Int64.ofInt_toInt, Int64.ofInt_toInt])

theorem mul_iff : (x * y).toInt = x.toInt * y.toInt ↔ Fits64 (x.toInt * y.toInt) :=
  eq_iff (by rw [Int64.ofInt_mul, Int64.ofInt_toInt, Int64.ofInt_toInt])

theorem neg_iff : (-x).toInt = -x.toInt ↔ Fits64 (-x.toInt) :=
  eq_iff (by rw [Int64.ofInt_neg, Int64.ofInt_toInt])

theorem neg_of_ne_min (hx : x ≠ Int64.minValue) : Fits64 (-x.toInt) := by
  have hmin : x.toInt ≠ -2 ^ 63 := fun h => hx (Int64.toInt_inj.mp (h.trans Int64.toInt_minValue.symm))
  obtain ⟨hlow, hhigh⟩ := toInt x
  exact ⟨by omega, by omega⟩

theorem neg_lt_neg_iff (hx : x ≠ Int64.minValue) (hy : y ≠ Int64.minValue) : -x < -y ↔ y < x := by
  rw [Int64.lt_iff_toInt_lt, neg_iff.mpr (neg_of_ne_min hx), neg_iff.mpr (neg_of_ne_min hy),
    Int64.lt_iff_toInt_lt, Int.neg_lt_neg_iff]

end Fits64
end LobCity.Library
