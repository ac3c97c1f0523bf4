import LobCity.Types

/-! The order pool: a free list used as a stack, and the record of everything ever
allocated. `new` hands out the next unused address. -/
namespace LobCity

structure OrderPool where
  /-- the back of the vector is the head of this list -/
  freeList : List Addr
  allAllocated : List Addr
deriving Repr

namespace OrderPool

def new (poolSize : Nat) : OrderPool := ⟨(List.range poolSize).reverse, List.range poolSize⟩

/-- Every pooled cell starts as `Order(0, 0, 0, Side::BUY)`. -/
def initialHeap : Heap := fun _ => Order.new 0 0 0 .buy false

def acquire (pool : OrderPool) (h : Heap) (id : OrderId) (p : Price) (q : Quantity) (s : Side)
    (m : Bool) : Addr × OrderPool × Heap :=
  match pool.freeList with
  | [] =>
    let order := pool.allAllocated.length
    (order, { pool with allAllocated := pool.allAllocated ++ [order] },
      Function.update h order (Order.new id p q s m))
  | order :: rest =>
    (order, { pool with freeList := rest },
      Function.update h order
        { h order with id := id, price := p, quantity := q, side := s, isMarket := m,
                       next := none, prev := none })

def release (pool : OrderPool) (h : Heap) (order : Addr) : OrderPool × Heap :=
  ({ pool with freeList := order :: pool.freeList }, (h.setNext order none).setPrev order none)

end OrderPool
end LobCity
