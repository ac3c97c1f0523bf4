import Mathlib.Algebra.Order.Floor.Ring
import Mathlib.Data.Rat.Floor
import Mathlib.Tactic.FieldSimp
import Mathlib.Tactic.Ring

/-! Positional numerals to a base: what a list of digits denotes in front of the point and
behind it, and cutting off behind the point as rounding down. -/
namespace LobCity.Library
variable {b : ℕ}

def positional (ds : List (Fin b)) : ℕ := ds.foldl (fun n d => n * b + d.val) 0

theorem foldl_positional (ds : List (Fin b)) (n : ℕ) :
    ds.foldl (fun n d => n * b + d.val) n = n * b ^ ds.length + positional ds := by
  induction ds generalizing n with
  | nil => simp [positional]
  | cons d ds ih =>
    have hcons : positional (d :: ds) = (0 * b + d) * b ^ ds.length + positional ds := ih _
    rw [List.foldl_cons, ih, hcons, List.length_cons]
    ring

@[simp] theorem positional_nil : positional ([] : List (Fin b)) = 0 := rfl

theorem positional_cons (d : Fin b) (ds : List (Fin b)) :
    positional (d :: ds) = d * b ^ ds.length + positional ds := by
  rw [positional, List.foldl_cons, foldl_positional, zero_mul, zero_add]

theorem positional_append (ds es : List (Fin b)) :
    positional (ds ++ es) = positional ds * b ^ es.length + positional es := by
  rw [positional, List.foldl_append, foldl_positional]
  rfl

theorem positional_concat (ds : List (Fin b)) (d : Fin b) :
    positional (ds ++ [d]) = positional ds * b + d := by
  rw [positional_append, positional_cons]
  simp

theorem positional_lt (ds : List (Fin b)) : positional ds < b ^ ds.length := by
  induction ds with
  | nil => simp
  | cons d ds ih =>
    rw [positional_cons, List.length_cons, pow_succ']
    calc d * b ^ ds.length + positional ds
        < d * b ^ ds.length + b ^ ds.length := Nat.add_lt_add_left ih _
      _ = (d + 1) * b ^ ds.length := (Nat.succ_mul _ _).symm
      _ ≤ b * b ^ ds.length := Nat.mul_le_mul_right _ d.isLt

section Zeros
variable [NeZero b]

theorem positional_zeros (k : ℕ) : positional (List.replicate k (0 : Fin b)) = 0 := by
  induction k with
  | zero => rfl
  | succ k ih => rw [List.replicate_succ, positional_cons, ih, Fin.val_zero, zero_mul]

theorem positional_append_zeros (ds : List (Fin b)) (k : ℕ) :
    positional (ds ++ List.replicate k 0) = positional ds * b ^ k := by
  rw [positional_append, positional_zeros, List.length_replicate, add_zero]

/-- The last `k` digits of a number, with zeros in front. -/
def lastDigits : ℕ → ℕ → List (Fin b)
  | 0, _ => []
  | k + 1, n => lastDigits k (n / b) ++ [Fin.ofNat b n]

theorem length_lastDigits (k n : ℕ) : (lastDigits k n : List (Fin b)).length = k := by
  induction k generalizing n with
  | zero => rfl
  | succ k ih => rw [lastDigits, List.length_append, ih, List.length_singleton]

theorem positional_lastDigits (k n : ℕ) : positional (lastDigits k n : List (Fin b)) = n % b ^ k := by
  induction k generalizing n with
  | zero => rw [lastDigits, positional_nil, pow_zero, Nat.mod_one]
  | succ k ih =>
    rw [lastDigits, positional_concat, ih, Fin.val_ofNat, pow_succ', Nat.mod_mul]
    ring

end Zeros

def fraction (ds : List (Fin b)) : ℚ := positional ds / b ^ ds.length

theorem fraction_nonneg (ds : List (Fin b)) : 0 ≤ fraction ds := by
  unfold fraction
  positivity

theorem fraction_lt_one (ds : List (Fin b)) : fraction ds < 1 := by
  have hlt : (positional ds : ℚ) < b ^ ds.length := by exact_mod_cast positional_lt ds
  exact (div_lt_one (lt_of_le_of_lt (Nat.cast_nonneg _) hlt)).mpr hlt

theorem fraction_cons (d : Fin b) (ds : List (Fin b)) :
    fraction (d :: ds) * b = d + fraction ds := by
  have hb : (b : ℚ) ≠ 0 := by exact_mod_cast (Fin.pos d).ne'
  rw [fraction, fraction, positional_cons, List.length_cons]
  push_cast
  field_simp
  ring

/-- The number written by the first `k` digits behind the point, zeros where there are none. -/
def places : ℕ → List (Fin b) → ℕ
  | 0, _ => 0
  | _ + 1, [] => 0
  | k + 1, d :: ds => d * b ^ k + places k ds

theorem places_eq_positional (ds : List (Fin b)) (k : ℕ) :
    places (ds.length + k) ds = positional ds * b ^ k := by
  induction ds with
  | nil => cases k <;> simp [places]
  | cons d ds ih =>
    rw [List.length_cons, Nat.add_right_comm, places, ih, positional_cons, pow_add]
    ring

theorem floor_fraction (ds : List (Fin b)) (k : ℕ) : ⌊fraction ds * b ^ k⌋ = places k ds := by
  induction k generalizing ds with
  | zero =>
    rw [pow_zero, mul_one, places, Nat.cast_zero]
    exact Int.floor_eq_zero_iff.mpr ⟨fraction_nonneg ds, fraction_lt_one ds⟩
  | succ k ih =>
    cases ds with
    | nil => simp [fraction, places]
    | cons d ds =>
      have hshift : fraction (d :: ds) * b ^ (k + 1) =
          fraction ds * b ^ k + ((d * b ^ k : ℕ) : ℚ) := by
        rw [pow_succ', ← mul_assoc, fraction_cons, add_mul]
        push_cast
        ring
      rw [hshift, Int.floor_add_natCast, ih, places]
      push_cast
      ring

end LobCity.Library
