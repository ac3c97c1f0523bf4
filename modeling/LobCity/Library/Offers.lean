import Mathlib.Algebra.BigOperators.Group.List.Basic
import Mathlib.Algebra.Order.Monoid.Defs
import Mathlib.Algebra.Order.Monoid.Unbundled.Pow
import Mathlib.Tactic.Abel

/-! Units offered at prices, and taking some of them. Where the offers come cheapest first,
nothing is cheaper than to take from the front. -/
namespace LobCity.Library
variable {P : Type*}

structure Offer (P : Type*) where
  price : P
  units : ℕ

namespace Offer

def available (L : List (Offer P)) : ℕ := (L.map units).sum

def Allocation (L : List (Offer P)) (a : List ℕ) : Prop := List.Forall₂ (fun o n => n ≤ o.units) L a

/-- `q` units from the front, or all there are. -/
def takeFirst : List (Offer P) → ℕ → List ℕ
  | [], _ => []
  | o :: L, q => min q o.units :: takeFirst L (q - o.units)

section Units
variable {L : List (Offer P)} {a : List ℕ}

theorem available_cons (o : Offer P) (L : List (Offer P)) :
    available (o :: L) = o.units + available L := List.sum_cons

theorem Allocation.sum_le (h : Allocation L a) : a.sum ≤ available L := by
  induction h with
  | nil => exact Nat.le_refl 0
  | cons hle _ ih =>
    rw [List.sum_cons, available_cons]
    exact Nat.add_le_add hle ih

end Units

section Cost
variable [AddCommMonoid P]

def cost (L : List (Offer P)) (a : List ℕ) : P := (List.zipWith (fun o n => n • o.price) L a).sum

theorem cost_cons (o : Offer P) (L : List (Offer P)) (n : ℕ) (a : List ℕ) :
    cost (o :: L) (n :: a) = n • o.price + cost L a := List.sum_cons

theorem cost_takeFirst_zero (L : List (Offer P)) : cost L (takeFirst L 0) = 0 := by
  induction L with
  | nil => rfl
  | cons o L ih => rw [takeFirst, cost_cons, Nat.zero_min, zero_nsmul, Nat.zero_sub, ih, add_zero]

variable [PartialOrder P] [IsOrderedAddMonoid P] {L : List (Offer P)} {p : P}

/-- Further units cost at least what the cheapest offer asks for each. -/
theorem cost_takeFirst_add (hp : ∀ o ∈ L, p ≤ o.price) {q d : ℕ} (hfits : q + d ≤ available L) :
    cost L (takeFirst L q) + d • p ≤ cost L (takeFirst L (q + d)) := by
  induction L generalizing q d with
  | nil =>
    have hd : d = 0 := by
      simp [available] at hfits
      omega
    rw [hd, zero_nsmul]
    exact le_of_eq (add_zero _)
  | cons o L ih =>
    have ho : p ≤ o.price := hp o List.mem_cons_self
    have hL : ∀ x ∈ L, p ≤ x.price := fun x hx => hp x (List.mem_cons_of_mem o hx)
    rw [available_cons] at hfits
    -- of the `d` units further on, `near` come from this offer and the others from behind it
    obtain ⟨near, far, hd, hnear, hfar⟩ : ∃ near far, d = near + far ∧
        min (q + d) o.units = min q o.units + near ∧ q + d - o.units = q - o.units + far :=
      ⟨min (q + d) o.units - min q o.units, q + d - o.units - (q - o.units), by omega, by omega,
        by omega⟩
    have hrest := ih hL (q := q - o.units) (d := far) (by omega)
    rw [takeFirst, takeFirst, cost_cons, cost_cons, hnear, hfar, add_nsmul]
    calc min q o.units • o.price + cost L (takeFirst L (q - o.units)) + d • p
        = min q o.units • o.price + near • p + (cost L (takeFirst L (q - o.units)) + far • p) := by
          rw [hd, add_nsmul]
          abel
      _ ≤ _ := add_le_add (add_le_add_right (nsmul_le_nsmul_right ho near) _) hrest

/-- No other way to take as many units costs less. -/
theorem takeFirst_cheapest (hs : L.Pairwise fun o o' => o.price ≤ o'.price) {a : List ℕ}
    (ha : Allocation L a) : cost L (takeFirst L a.sum) ≤ cost L a := by
  induction ha with
  | nil => exact le_of_eq rfl
  | @cons o n L a hle ha ih =>
    obtain ⟨hfirst, hs⟩ := List.pairwise_cons.mp hs
    have hsum : a.sum ≤ available L := Allocation.sum_le ha
    -- from the front, `d` units more come from this offer
    obtain ⟨d, hd, hrest⟩ : ∃ d, min (n + a.sum) o.units = n + d ∧ n + a.sum - o.units + d = a.sum :=
      ⟨min (n + a.sum) o.units - n, by omega, by omega⟩
    have hfurther := cost_takeFirst_add hfirst (hrest.trans_le hsum)
    rw [List.sum_cons, takeFirst, cost_cons, cost_cons, hd, add_nsmul]
    calc n • o.price + d • o.price + cost L (takeFirst L (n + a.sum - o.units))
        = n • o.price + (cost L (takeFirst L (n + a.sum - o.units)) + d • o.price) := by abel
      _ ≤ n • o.price + cost L (takeFirst L a.sum) := by
          rw [hrest] at hfurther
          exact add_le_add_right hfurther _
      _ ≤ n • o.price + cost L a := add_le_add_right (ih hs) _

end Cost
end Offer
end LobCity.Library
