import Mathlib.Algebra.BigOperators.Group.List.Basic
import Mathlib.Data.Int.Cast.Field
import Mathlib.Tactic.FieldSimp
import Mathlib.Tactic.LinearCombination
import Mathlib.Tactic.Ring

/-! Average cost accounting of a position that may be long or short. The rules are stated
for any number types; over the integers and a field, what was realized and what the
position is worth at its entry price differ by the cash that was paid. -/
namespace LobCity.Library

structure Holding (Z D : Type*) where
  net : Z
  realized : D
  entry : D

namespace Holding

section Rules
variable {Z D : Type*} [OfNat Z 0] [Add Z] [Neg Z] [LT Z] [DecidableEq Z] [DecidableLT Z] [Min Z]
  [Add D] [Sub D] [Mul D] [Div D]

def magnitude (x : Z) : Z := if x < 0 then -x else x

/-- One fill: adding weights the entry price, reducing realizes against it, crossing zero
starts again at the price of the fill. -/
def update (cast : Z → D) (h : Holding Z D) (qty : Z) (price : D) : Holding Z D :=
  if h.net = 0 then { h with net := qty, entry := price }
  else if (0 < h.net ∧ 0 < qty) ∨ (h.net < 0 ∧ qty < 0) then
    { h with
      net := h.net + qty
      entry := (h.entry * cast (magnitude h.net) + price * cast (magnitude qty)) /
        cast (magnitude (h.net + qty)) }
  else
    { net := h.net + qty
      realized :=
        if 0 < h.net then
          h.realized + cast (min (magnitude qty) (magnitude h.net)) * (price - h.entry)
        else h.realized + cast (min (magnitude qty) (magnitude h.net)) * (h.entry - price)
      entry :=
        if h.net + qty = 0 then cast 0
        else if (0 < h.net ∧ h.net + qty < 0) ∨ (h.net < 0 ∧ 0 < h.net + qty) then price
        else h.entry }

def unrealized (cast : Z → D) (h : Holding Z D) (mark : D) : D :=
  if h.net = 0 then cast 0
  else if 0 < h.net then cast h.net * (mark - h.entry)
  else cast (magnitude h.net) * (h.entry - mark)

end Rules

section Identity
variable {K : Type*} [Field K]

def cash (fills : List (ℤ × K)) : K := -(fills.map fun f => (f.1 : K) * f.2).sum

def position (fills : List (ℤ × K)) : ℤ := (fills.map Prod.fst).sum

def run (h : Holding ℤ K) (fills : List (ℤ × K)) : Holding ℤ K :=
  fills.foldl (fun h f => h.update Int.cast f.1 f.2) h

theorem net_update (h : Holding ℤ K) (qty : ℤ) (price : K) :
    (h.update Int.cast qty price).net = h.net + qty := by
  unfold update
  by_cases hflat : h.net = 0
  · rw [if_pos hflat, hflat, zero_add]
  · rw [if_neg hflat]
    split <;> rfl

theorem unrealized_eq (h : Holding ℤ K) (mark : K) :
    h.unrealized Int.cast mark = h.net * (mark - h.entry) := by
  unfold unrealized
  split_ifs with hflat hlong
  · rw [hflat]
    simp
  · rfl
  · have hshort : h.net < 0 := by omega
    rw [magnitude, if_pos hshort]
    push_cast
    ring

theorem closed_long {n q : ℤ} (hn : 0 < n) (hq : q ≤ 0) :
    min (magnitude q) (magnitude n) = if n + q < 0 then n else -q := by
  unfold magnitude
  split_ifs <;> omega

theorem closed_short {n q : ℤ} (hn : n < 0) (hq : 0 ≤ q) :
    min (magnitude q) (magnitude n) = if 0 < n + q then -n else q := by
  unfold magnitude
  split_ifs <;> omega

variable [CharZero K]

/-- The entry value after adding to a position is what was paid in all. -/
theorem entry_value {n q : ℤ} (hdir : (0 < n ∧ 0 < q) ∨ (n < 0 ∧ q < 0)) (e p : K) :
    ((n + q : ℤ) : K) * ((e * (magnitude n : ℤ) + p * (magnitude q : ℤ)) / (magnitude (n + q) : ℤ)) =
      n * e + q * p := by
  have hne : ((n + q : ℤ) : K) ≠ 0 := by
    rw [Int.cast_ne_zero]
    omega
  cases hdir with
  | inl h =>
    have hn : magnitude n = n := if_neg (by omega)
    have hq : magnitude q = q := if_neg (by omega)
    have hnq : magnitude (n + q) = n + q := if_neg (by omega)
    rw [hn, hq, hnq, mul_div_cancel₀ _ hne]
    ring
  | inr h =>
    have hn : magnitude n = -n := if_pos h.1
    have hq : magnitude q = -q := if_pos h.2
    have hnq : magnitude (n + q) = -(n + q) := if_pos (by omega)
    rw [hn, hq, hnq, Int.cast_neg (n + q), div_neg, mul_neg, mul_div_cancel₀ _ hne]
    push_cast
    ring

/-- A fill changes realized profit less the entry value of the position by its cash. -/
theorem balance_update (h : Holding ℤ K) (qty : ℤ) (price : K) :
    (h.update Int.cast qty price).realized -
        (h.update Int.cast qty price).net * (h.update Int.cast qty price).entry =
      h.realized - h.net * h.entry - qty * price := by
  obtain ⟨n, r, e⟩ := h
  rw [net_update]
  by_cases hflat : n = 0
  · simp [update, hflat]
  by_cases hdir : (0 < n ∧ 0 < qty) ∨ (n < 0 ∧ qty < 0)
  · simp only [update, if_neg hflat, if_pos hdir, entry_value hdir]
    ring
  · simp only [update, if_neg hflat, if_neg hdir]
    -- the rest of the position is none, of the other sign, or of the same
    by_cases hzero : n + qty = 0
    · have hcast : (n : K) = -qty := by
        rw [eq_neg_iff_add_eq_zero, ← Int.cast_add, hzero, Int.cast_zero]
      rw [if_pos hzero]
      by_cases hlong : 0 < n
      · rw [if_pos hlong, closed_long hlong (by omega), if_neg (by omega), hzero]
        push_cast
        rw [hcast]
        ring
      · rw [if_neg hlong, closed_short (by omega) (by omega), if_neg (by omega), hzero]
        push_cast
        rw [hcast]
        ring
    rw [if_neg hzero]
    by_cases hlong : 0 < n
    · rw [if_pos hlong, closed_long hlong (by omega)]
      by_cases hcross : n + qty < 0
      · rw [if_pos hcross, if_pos (Or.inl ⟨hlong, hcross⟩)]
        push_cast
        ring
      · rw [if_neg hcross, if_neg (by omega)]
        push_cast
        ring
    · rw [if_neg hlong, closed_short (by omega) (by omega)]
      by_cases hcross : 0 < n + qty
      · rw [if_pos hcross, if_pos (Or.inr ⟨by omega, hcross⟩)]
        push_cast
        ring
      · rw [if_neg hcross, if_neg (by omega)]
        push_cast
        ring

/-- Of any sequence of fills: the position is their sum, and realized profit less its entry
value is the cash. -/
theorem run_balance (h : Holding ℤ K) (fills : List (ℤ × K)) :
    (h.run fills).net = h.net + position fills ∧
      (h.run fills).realized - (h.run fills).net * (h.run fills).entry =
        h.realized - h.net * h.entry + cash fills := by
  induction fills generalizing h with
  | nil => simp [run, position, cash]
  | cons f fills ih =>
    obtain ⟨hnet, hbalance⟩ := ih (h.update Int.cast f.1 f.2)
    have hrun : h.run (f :: fills) = (h.update Int.cast f.1 f.2).run fills := rfl
    have hposition : position (f :: fills) = f.1 + position fills := rfl
    have hcash : cash (f :: fills) = cash fills - f.1 * f.2 := by
      simp only [cash, List.map_cons, List.sum_cons]
      ring
    rw [hrun, hbalance, balance_update, hnet, net_update, hposition, hcash]
    constructor
    · ring
    · ring

/-- From a flat start, realized and unrealized profit are the cash and the position at its mark. -/
theorem run_total (fills : List (ℤ × K)) (r e mark : K) :
    ((Holding.mk 0 r e).run fills).net = position fills ∧
      ((Holding.mk 0 r e).run fills).realized + ((Holding.mk 0 r e).run fills).unrealized Int.cast mark =
        r + cash fills + position fills * mark := by
  obtain ⟨hnet, hbalance⟩ := run_balance (Holding.mk 0 r e) fills
  rw [zero_add] at hnet
  refine ⟨hnet, ?_⟩
  rw [unrealized_eq, ← hnet]
  push_cast at hbalance
  linear_combination hbalance

end Identity
end Holding
end LobCity.Library
