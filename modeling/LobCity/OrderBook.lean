import LobCity.MemoryPool
import LobCity.MarketData
import LobCity.Library.SortedMap

/-! The matching engine as `OrderBook.cpp` computes it: two price maps of intrusive
lists, the id index, the trade log, and the pool and snapshot ring they share.
The two loops of the matchers take fuel; running out of it is `none`. -/
namespace LobCity
open Library

/-- `s.better p q`: price `p` comes strictly before `q` in the map of side `s`
(`std::greater` for bids, `std::less` for asks). -/
def Side.better : Side → Price → Price → Prop
  | .buy, p, q => q < p
  | .sell, p, q => p < q

instance (s : Side) : DecidableRel s.better := fun p q =>
  match s with
  | .buy => inferInstanceAs (Decidable (q < p))
  | .sell => inferInstanceAs (Decidable (p < q))

instance (s : Side) : IsStrictTotalOrder Price s.better where
  trichotomous p q := by cases s <;> simp only [Side.better] <;> grind
  irrefl p := by cases s <;> simp only [Side.better] <;> grind
  trans p q r := by cases s <;> simp only [Side.better] <;> grind

abbrev LevelMap (s : Side) := SortedMap Price PriceLevel s.better

structure OrderBook where
  /-- whether a publisher is attached -/
  udpPub : Bool
  bids : LevelMap .buy
  asks : LevelMap .sell
  orderMap : OrderId → Option Addr
  tradeLog : List Trade

/-- The objects the matching thread works on: one pool, one book, the heap of pooled
orders and the global snapshot ring. -/
structure Engine extends OrderPool, OrderBook where
  heap : Heap
  buffer : RingBufferBBO

namespace Engine

def new (poolSize : Nat) (udpPub : Bool) : Engine where
  toOrderPool := OrderPool.new poolSize
  udpPub := udpPub
  bids := SortedMap.empty
  asks := SortedMap.empty
  orderMap := fun _ => none
  tradeLog := []
  heap := OrderPool.initialHeap
  buffer := RingBuffer.new fun _ => BboMessage.zero

def acquire (e : Engine) (id : OrderId) (p : Price) (q : Quantity) (s : Side) (m : Bool) :
    Addr × Engine :=
  let (order, pool, h) := e.toOrderPool.acquire e.heap id p q s m
  (order, { e with toOrderPool := pool, heap := h })

def release (e : Engine) (order : Addr) : Engine :=
  let (pool, h) := e.toOrderPool.release e.heap order
  { e with toOrderPool := pool, heap := h }

def levels (e : Engine) : (s : Side) → LevelMap s
  | .buy => e.bids
  | .sell => e.asks

def setLevels (e : Engine) : (s : Side) → LevelMap s → Engine
  | .buy, m => { e with bids := m }
  | .sell, m => { e with asks := m }

/-- `begin()->first` of a side, if it is not empty. -/
def best? (e : Engine) (s : Side) : Option Price := (e.levels s).first?.map (·.1)

def level? (e : Engine) (s : Side) (p : Price) : Option PriceLevel := (e.levels s).find? p

/-- `bids[p]` or `asks[p]`: a missing level reads as a default one. -/
def levelAt (e : Engine) (s : Side) (p : Price) : PriceLevel :=
  (e.level? s p).getD (PriceLevel.new 0)

def putLevel (e : Engine) (s : Side) (p : Price) (lvl : PriceLevel) : Engine :=
  e.setLevels s ((e.levels s).insert p lvl)

def eraseLevel (e : Engine) (s : Side) (p : Price) : Engine :=
  e.setLevels s ((e.levels s).erase p)

def getBestBid (e : Engine) : Price := (e.best? .buy).getD 0
def getBestAsk (e : Engine) : Price := (e.best? .sell).getD 0

def recordTrade (e : Engine) (buyId sellId : OrderId) (price : Price) (qty : Quantity)
    (time : Timestamp) : Engine :=
  { e with tradeLog := e.tradeLog ++ [⟨buyId, sellId, price, qty, time⟩] }

def eraseId (e : Engine) (id : OrderId) : Engine :=
  { e with orderMap := Function.update e.orderMap id none }

def setId (e : Engine) (id : OrderId) (order : Addr) : Engine :=
  { e with orderMap := Function.update e.orderMap id (some order) }

def subVolume (e : Engine) (s : Side) (p : Price) (q : Quantity) : Engine :=
  let lvl := e.levelAt s p
  e.putLevel s p { lvl with totalVolume := lvl.totalVolume - q }

/-- `bids[p].removeOrder(order)` -/
def removeFrom (e : Engine) (s : Side) (p : Price) (order : Addr) : Engine :=
  let (lvl, h) := (e.levelAt s p).removeOrder order e.heap
  { e.putLevel s p lvl with heap := h }

/-- `if (bids[p].head == nullptr) bids.erase(p)` -/
def eraseIfEmpty (e : Engine) (s : Side) (p : Price) : Engine :=
  if (e.levelAt s p).head = none then e.eraseLevel s p else e

/-- The body of the inner matching loop: one trade between the incoming `order` and
`resting`, the head of level `px` on side `s`. `names` puts the two ids in buyer, seller
order. -/
def fill (s : Side) (names : OrderId → OrderId → OrderId × OrderId) (px : Price)
    (time : Timestamp) (order resting : Addr) (e : Engine) : Engine :=
  let tradeQty := min (e.heap order).quantity (e.heap resting).quantity
  let h1 := e.heap.setQuantity order ((e.heap order).quantity - tradeQty)
  let h2 := h1.setQuantity resting ((h1 resting).quantity - tradeQty)
  let e1 := { e with heap := h2 }
  let ids := names (e1.heap order).id (e1.heap resting).id
  let e2 := e1.recordTrade ids.1 ids.2 px tradeQty time
  let e3 := e2.subVolume s px tradeQty
  if (e3.heap resting).quantity = 0 then
    ((e3.eraseId (e3.heap resting).id).removeFrom s px resting).release resting
  else e3

/-- `while (resting != nullptr && order->quantity > 0)` -/
def matchLevel (s : Side) (names : OrderId → OrderId → OrderId × OrderId) (px : Price)
    (time : Timestamp) (order : Addr) : Nat → Option Addr → Engine → Option Engine
  | _, none, e => some e
  | 0, some _, _ => none
  | fuel + 1, some resting, e =>
    if (e.heap order).quantity > 0 then
      matchLevel s names px time order fuel (e.heap resting).next
        (fill s names px time order resting e)
    else some e

/-- `while (order->quantity > 0 && !levels.empty())`; `stops limit best` is the test that
breaks out for a limit order. -/
def matchOrder (s : Side) (stops : Price → Price → Bool)
    (names : OrderId → OrderId → OrderId × OrderId) (time : Timestamp) (order : Addr) :
    Nat → Engine → Option Engine
  | 0, _ => none
  | fuel + 1, e =>
    if (e.heap order).quantity > 0 then
      match (e.levels s).first? with
      | none => some e
      | some (px, lvl) =>
        if !(e.heap order).isMarket && stops (e.heap order).price px then some e
        else do
          let e' ← matchLevel s names px time order (e.allAllocated.length + 1) lvl.head e
          matchOrder s stops names time order fuel (e'.eraseIfEmpty s px)
    else some e

def matchBuyOrder (e : Engine) (order : Addr) (time : Timestamp) : Option Engine :=
  matchOrder .sell (fun limit best => limit < best) (fun taker maker => (taker, maker)) time order
    (e.allAllocated.length + 1) e

def matchSellOrder (e : Engine) (order : Addr) (time : Timestamp) : Option Engine :=
  matchOrder .buy (fun limit best => limit > best) (fun taker maker => (maker, taker)) time order
    (e.allAllocated.length + 1) e

/-- The first part of `processOrder`: match on the other side of the book. -/
def matchIncoming (e : Engine) (order : Addr) (time : Timestamp) : Option Engine :=
  match (e.heap order).side with
  | .buy => e.matchBuyOrder order time
  | .sell => e.matchSellOrder order time

def addOrder (e : Engine) (order : Addr) : Engine :=
  let o := e.heap order
  let e1 := e.setId o.id order
  -- `try_emplace` keeps a level that is already there
  let (lvl, h) := ((e1.level? o.side o.price).getD (PriceLevel.new o.price)).appendOrder order e1.heap
  { e1.putLevel o.side o.price lvl with heap := h }

def bboSnapshot (e : Engine) (now : Timestamp) : BboMessage :=
  let bid := e.bids.first?
  let ask := e.asks.first?
  { timestamp := now
    bestBidPrice := (bid.map (·.1)).getD 0
    bestBidQty := (bid.map (·.2.totalVolume)).getD 0
    bestAskPrice := (ask.map (·.1)).getD 0
    bestAskQty := (ask.map (·.2.totalVolume)).getD 0
    messageType := 66 }

/-- The result of `buffer.push(msg)` is dropped. -/
def publishBBO (e : Engine) (now : Timestamp) : Engine :=
  if e.udpPub then { e with buffer := (e.buffer.push (e.bboSnapshot now)).2 } else e

def publishIfMoved (before e : Engine) (now : Timestamp) : Engine :=
  if before.getBestBid ≠ e.getBestBid ∨ before.getBestAsk ≠ e.getBestAsk then e.publishBBO now
  else e

/-- `time` is the clock read on entry, `now` the one read by a snapshot. -/
def processOrder (e : Engine) (order : Addr) (time now : Timestamp) : Option Engine := do
  let e1 ← e.matchIncoming order time
  let e2 :=
    if (e1.heap order).quantity > 0 then
      if (e1.heap order).isMarket then e1.release order else e1.addOrder order
    else e1.release order
  return publishIfMoved e e2 now

def cancelOrder (e : Engine) (id : OrderId) (now : Timestamp) : Engine :=
  match e.orderMap id with
  | none => e
  | some order =>
    let e1 := e.eraseId id
    let o := e1.heap order
    let e2 := (e1.removeFrom o.side o.price order).eraseIfEmpty o.side o.price
    (e2.release order).publishBBO now

def modifyOrder (e : Engine) (origId newId : OrderId) (newPrice : Price) (newQty : Quantity)
    (now : Timestamp) : Engine :=
  match e.orderMap origId with
  | none => e
  | some order =>
    let o := e.heap order
    let e3 :=
      if newPrice = o.price ∧ newQty < o.quantity then
        -- case 1: same place in the queue
        let e1 := { e with heap := (e.heap.setQuantity order newQty).setId order newId }
        let e2 := e1.subVolume o.side (e1.heap order).price (o.quantity - newQty)
        (e2.eraseId origId).setId newId order
      else
        -- case 2: leave the old level, rest again at the tail of the new one
        let e1 := ((e.eraseId origId).removeFrom o.side o.price order).eraseIfEmpty o.side o.price
        let h := ((((e1.heap.setId order newId).setPrice order newPrice).setQuantity order
          newQty).setNext order none).setPrev order none
        { e1 with heap := h }.addOrder order
    publishIfMoved e e3 now

theorem cancelOrder_unknown {e : Engine} {id : OrderId} (h : e.orderMap id = none)
    (now : Timestamp) : e.cancelOrder id now = e := by
  rw [cancelOrder, h]

theorem modifyOrder_unknown {e : Engine} {origId : OrderId} (h : e.orderMap origId = none)
    (newId : OrderId) (newPrice : Price) (newQty : Quantity) (now : Timestamp) :
    e.modifyOrder origId newId newPrice newQty now = e := by
  rw [modifyOrder, h]

end Engine
end LobCity
