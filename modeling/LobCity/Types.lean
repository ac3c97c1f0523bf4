import LobCity.Library.Chain
import Mathlib.Data.UInt

/-! Orders, trades and price levels. Orders live on a heap of addressed cells; a null
`Order*` is `none`. Prices, quantities and ids keep their machine widths. -/
namespace LobCity

abbrev Price := Int64
abbrev Quantity := UInt32
abbrev OrderId := UInt64
abbrev Timestamp := UInt64
abbrev Addr := Nat

/-- `static_cast<Quantity>` of an `int64_t`. -/
def toQuantity (qty : Int64) : Quantity := qty.toUInt64.toUInt32

theorem toNat_toQuantity {x : Int64} (hx : 0 ≤ x.toInt) :
    ((toQuantity x).toNat : Int) = x.toInt % 2 ^ 32 := by
  have hmod : (toQuantity x).toNat = x.toUInt64.toNat % 2 ^ 32 := rfl
  have hnat : x.toUInt64.toNat = x.toInt.toNat :=
    Int64.toNat_toUInt64_of_le (Int64.le_iff_toInt_le.mpr hx)
  omega

/-- `static_cast<int64_t>` of a quantity. -/
def Quantity.toSigned (q : Quantity) : Int64 := q.toUInt64.toInt64

theorem Quantity.min_cases (q f : Quantity) : (min q f = f ∧ f ≤ q) ∨ (min q f = q ∧ q < f) := by
  have hm : min q f = if q ≤ f then q else f := rfl
  by_cases h : q < f
  · exact Or.inr ⟨by rw [hm, if_pos (by grind)], h⟩
  · refine Or.inl ⟨?_, by grind⟩
    rw [hm]
    split_ifs <;> grind

inductive Side where
  | buy | sell
deriving DecidableEq, Repr

def Side.opposite : Side → Side
  | .buy => .sell
  | .sell => .buy

theorem Side.opposite_opposite (s : Side) : s.opposite.opposite = s := by cases s <;> rfl

structure Trade where
  buyOrderId : OrderId
  sellOrderId : OrderId
  price : Price
  quantity : Quantity
  timeStampNs : Timestamp
deriving DecidableEq, Repr

structure Order where
  id : OrderId
  price : Price
  quantity : Quantity
  side : Side
  isMarket : Bool
  next : Option Addr
  prev : Option Addr
deriving DecidableEq, Repr

def Order.new (id : OrderId) (p : Price) (q : Quantity) (s : Side) (m : Bool) : Order :=
  ⟨id, p, q, s, m, none, none⟩

abbrev Heap := Addr → Order

namespace Heap

def setNext (h : Heap) (a : Addr) (n : Option Addr) : Heap :=
  Function.update h a { h a with next := n }

def setPrev (h : Heap) (a : Addr) (p : Option Addr) : Heap :=
  Function.update h a { h a with prev := p }

def setQuantity (h : Heap) (a : Addr) (q : Quantity) : Heap :=
  Function.update h a { h a with quantity := q }

def setId (h : Heap) (a : Addr) (id : OrderId) : Heap :=
  Function.update h a { h a with id := id }

def setPrice (h : Heap) (a : Addr) (p : Price) : Heap :=
  Function.update h a { h a with price := p }

end Heap

structure PriceLevel where
  price : Price
  head : Option Addr
  tail : Option Addr
  totalVolume : Quantity
deriving DecidableEq, Repr

namespace PriceLevel

/-- `PriceLevel(p)`; the default constructor is the one at price 0. -/
def new (p : Price) : PriceLevel := ⟨p, none, none, 0⟩

def appendOrder (lvl : PriceLevel) (order : Addr) (h : Heap) : PriceLevel × Heap :=
  match lvl.head with
  | none =>
    ({ lvl with head := some order, tail := some order,
                totalVolume := lvl.totalVolume + (h order).quantity }, h)
  | some _ =>
    -- `tail->next = order; order->prev = tail;` the tail of a non-empty level is not null
    let h1 := match lvl.tail with
      | some t => h.setNext t (some order)
      | none => h
    let h2 := h1.setPrev order lvl.tail
    ({ lvl with tail := some order, totalVolume := lvl.totalVolume + (h2 order).quantity }, h2)

def removeOrder (lvl : PriceLevel) (order : Addr) (h : Heap) : PriceLevel × Heap :=
  let (lvl1, h1) := match (h order).prev with
    | some p => (lvl, h.setNext p (h order).next)
    | none => ({ lvl with head := (h order).next }, h)
  let (lvl2, h2) := match (h1 order).next with
    | some n => (lvl1, h1.setPrev n (h1 order).prev)
    | none => ({ lvl1 with tail := (h1 order).prev }, h1)
  ({ lvl2 with totalVolume := lvl2.totalVolume - (h2 order).quantity },
    (h2.setNext order none).setPrev order none)

end PriceLevel
end LobCity
