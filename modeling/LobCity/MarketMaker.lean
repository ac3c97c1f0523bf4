import LobCity.OrderBook

/-! The market maker. What it does to the book and to its position is integer arithmetic;
its profit and loss is `double`, of which only the operations are given. -/
namespace LobCity

/-- The operations on `double` that the market maker uses. -/
class Double (D : Type) extends Add D, Sub D, Mul D, Div D where
  ofInt64 : Int64 → D
  lt : D → D → Bool

structure MarketMakerConfig where
  halfSpread : Price := 5000
  quoteSize : Quantity := 50
  maxPosition : Int64 := 500
  skewPerUnit : Price := 100
  maxLoss : Int64 := 50000000
  startingId : OrderId := 5000000
deriving DecidableEq, Repr

structure PnlSnapshot (D : Type) where
  tickNumber : UInt64
  netPosition : Int64
  realizedPnl : D
  unrealizedPnl : D
  totalPnl : D
  midPrice : Price

structure MarketMaker (D : Type) where
  config : MarketMakerConfig
  netPosition : Int64
  realizedPnl : D
  avgEntryPrice : D
  killed : Bool
  currentBidId : OrderId
  currentAskId : OrderId
  currentBidPx : Price
  currentAskPx : Price
  nextOrderId : OrderId
  pnlHistory : List (PnlSnapshot D)
  tickCount : UInt64
  totalFills : UInt64
  totalQuoteUpdates : UInt64

/-- The clock readings of one tick: by the two cancels, and by the two quotes on entry to
the matcher and for a snapshot. -/
structure TickClock where
  cancelBid : Timestamp
  cancelAsk : Timestamp
  bidTime : Timestamp
  bidNow : Timestamp
  askTime : Timestamp
  askNow : Timestamp
deriving DecidableEq, Repr

def abs64 (x : Int64) : Int64 := if x < 0 then -x else x

def Side.signed : Side → Quantity → Int64
  | .buy, q => q.toSigned
  | .sell, q => -q.toSigned

namespace MarketMaker
variable {D : Type} [Double D]
open Double (ofInt64)

def new (cfg : MarketMakerConfig) : MarketMaker D where
  config := cfg
  netPosition := 0
  realizedPnl := ofInt64 0
  avgEntryPrice := ofInt64 0
  killed := false
  currentBidId := 0
  currentAskId := 0
  currentBidPx := 0
  currentAskPx := 0
  nextOrderId := cfg.startingId
  pnlHistory := []
  tickCount := 0
  totalFills := 0
  totalQuoteUpdates := 0

def computeSkew (m : MarketMaker D) : Price := m.netPosition * m.config.skewPerUnit

/-- Average cost: adding weights the entry price, reducing realizes against it, crossing
zero starts again at the fill price. -/
def updatePosition (m : MarketMaker D) (qtyChange : Int64) (fillPrice : D) : MarketMaker D :=
  if m.netPosition = 0 then { m with netPosition := qtyChange, avgEntryPrice := fillPrice }
  else if (m.netPosition > 0 ∧ qtyChange > 0) ∨ (m.netPosition < 0 ∧ qtyChange < 0) then
    let totalCost := m.avgEntryPrice * ofInt64 (abs64 m.netPosition) +
      fillPrice * ofInt64 (abs64 qtyChange)
    let newPosition := m.netPosition + qtyChange
    { m with netPosition := newPosition, avgEntryPrice := totalCost / ofInt64 (abs64 newPosition) }
  else
    let closeQty := min (abs64 qtyChange) (abs64 m.netPosition)
    let realized :=
      if m.netPosition > 0 then m.realizedPnl + ofInt64 closeQty * (fillPrice - m.avgEntryPrice)
      else m.realizedPnl + ofInt64 closeQty * (m.avgEntryPrice - fillPrice)
    let newPosition := m.netPosition + qtyChange
    let entry :=
      if newPosition = 0 then ofInt64 0
      else if (m.netPosition > 0 ∧ newPosition < 0) ∨ (m.netPosition < 0 ∧ newPosition > 0) then
        fillPrice
      else m.avgEntryPrice
    { m with realizedPnl := realized, netPosition := newPosition, avgEntryPrice := entry }

def applyFill (m : MarketMaker D) (t : Trade) (side : Side) : MarketMaker D :=
  let fillPx := ofInt64 t.price / ofInt64 10000
  let m1 := m.updatePosition (side.signed t.quantity) fillPx
  { m1 with totalFills := m1.totalFills + 1 }

def scanTrade (m : MarketMaker D) (t : Trade) : MarketMaker D :=
  let m1 := if t.buyOrderId = m.currentBidId then m.applyFill t .buy else m
  if t.sellOrderId = m1.currentAskId then m1.applyFill t .sell else m1

def processFills (m : MarketMaker D) (trades : List Trade) (tradeLogStartIdx : Nat) :
    MarketMaker D :=
  (trades.drop tradeLogStartIdx).foldl scanTrade m

def computeUnrealizedPnl (m : MarketMaker D) (midPrice : Price) : D :=
  let mid := ofInt64 midPrice / ofInt64 10000
  if m.netPosition = 0 then ofInt64 0
  else if m.netPosition > 0 then ofInt64 m.netPosition * (mid - m.avgEntryPrice)
  else ofInt64 (abs64 m.netPosition) * (m.avgEntryPrice - mid)

/-- The id of the tracked quote of a side; 0 stands for no quote. -/
def current (m : MarketMaker D) : Side → OrderId
  | .buy => m.currentBidId
  | .sell => m.currentAskId

def track (m : MarketMaker D) (side : Side) (id : OrderId) (price : Price) : MarketMaker D :=
  match side with
  | .buy => { m with currentBidId := id, currentBidPx := price }
  | .sell => { m with currentAskId := id, currentAskPx := price }

/-- The part of `cancelExistingQuotes` for one side. -/
def cancelQuote (m : MarketMaker D) (e : Engine) (side : Side) (now : Timestamp) :
    MarketMaker D × Engine :=
  if m.current side ≠ 0 then (m.track side 0 0, e.cancelOrder (m.current side) now) else (m, e)

def cancelExistingQuotes (m : MarketMaker D) (e : Engine) (clock : TickClock) :
    MarketMaker D × Engine :=
  let (m1, e1) := m.cancelQuote e .buy clock.cancelBid
  m1.cancelQuote e1 .sell clock.cancelAsk

/-- The bookkeeping of `placeQuote`: the next id goes to the quote of one side. -/
def issue (m : MarketMaker D) (side : Side) (price : Price) : MarketMaker D :=
  { m.track side m.nextOrderId price with
    nextOrderId := m.nextOrderId + 1
    totalQuoteUpdates := m.totalQuoteUpdates + 1 }

def placeQuote (m : MarketMaker D) (e : Engine) (price : Price) (qty : Quantity) (side : Side)
    (time now : Timestamp) : Option (MarketMaker D × Engine) :=
  let (order, e1) := e.acquire m.nextOrderId price qty side false
  (e1.processOrder order time now).map fun e2 => (m.issue side price, e2)

def placeQuote? (m : MarketMaker D) (e : Engine) (quote : Option (Price × Quantity)) (side : Side)
    (time now : Timestamp) : Option (MarketMaker D × Engine) :=
  match quote with
  | none => some (m, e)
  | some (price, qty) => m.placeQuote e price qty side time now

/-- The size of a quote, capped by the room left before the position limit. -/
def cappedSize (m : MarketMaker D) (quoted : Bool) (room : Int64) : Quantity :=
  if quoted ∧ room < m.config.quoteSize.toSigned then toQuantity room else m.config.quoteSize

/-- Steps 3 to 5: `none` if no price changed, else the quotes to place. -/
def requote (m : MarketMaker D) (midPrice : Price) :
    Option (Option (Price × Quantity) × Option (Price × Quantity)) :=
  let skew := m.computeSkew
  let newBidPx := midPrice - m.config.halfSpread - skew
  let newAskPx := midPrice + m.config.halfSpread - skew
  let quoteBid : Bool := m.netPosition < m.config.maxPosition
  let quoteAsk : Bool := m.netPosition > -m.config.maxPosition
  let bidSize := m.cappedSize quoteBid (m.config.maxPosition - m.netPosition)
  let askSize := m.cappedSize quoteAsk (m.config.maxPosition + m.netPosition)
  let bidChanged := newBidPx ≠ m.currentBidPx ∨ (!quoteBid ∧ m.currentBidId ≠ 0)
  let askChanged := newAskPx ≠ m.currentAskPx ∨ (!quoteAsk ∧ m.currentAskId ≠ 0)
  if bidChanged ∨ askChanged then
    some (if quoteBid ∧ newBidPx > 0 ∧ bidSize > 0 then some (newBidPx, bidSize) else none,
      if quoteAsk ∧ newAskPx > 0 ∧ askSize > 0 then some (newAskPx, askSize) else none)
  else none

def detects (e : Engine) : Bool := e.getBestBid ≠ 0 ∧ e.getBestAsk ≠ 0

/-- Steps 1 and 2 and the snapshot: fills, kill switch, history. -/
def markToMarket (m : MarketMaker D) (e : Engine) (tradeLogStartIdx : Nat) (midPrice : Price)
    (clock : TickClock) : MarketMaker D × Engine :=
  let m1 := m.processFills e.tradeLog tradeLogStartIdx
  let unrealizedPnl := m1.computeUnrealizedPnl midPrice
  let totalPnl := m1.realizedPnl + unrealizedPnl
  let (m2, e2) :=
    if Double.lt (totalPnl * ofInt64 10000) (ofInt64 (-m1.config.maxLoss)) ∧ !m1.killed then
      { m1 with killed := true }.cancelExistingQuotes e clock
    else (m1, e)
  let snapshot := ⟨m2.tickCount, m2.netPosition, m2.realizedPnl, unrealizedPnl, totalPnl, midPrice⟩
  ({ m2 with pnlHistory := m2.pnlHistory ++ [snapshot] }, e2)

/-- A tick up to its quotes: the old ones are cancelled if there are to be new ones. -/
def prepare (m : MarketMaker D) (e : Engine) (tradeLogStartIdx : Nat) (clock : TickClock) :
    (MarketMaker D × Engine) × Option (Price × Quantity) × Option (Price × Quantity) :=
  let m0 := { m with tickCount := m.tickCount + 1 }
  if detects e then
    let midPrice := (e.getBestBid + e.getBestAsk) / 2
    let (m1, e1) := m0.markToMarket e tradeLogStartIdx midPrice clock
    if m1.killed then ((m1, e1), none, none)
    else
      match m1.requote midPrice with
      | none => ((m1, e1), none, none)
      | some quotes => (m1.cancelExistingQuotes e1 clock, quotes)
  else ((m0, e), none, none)

def onTick (m : MarketMaker D) (e : Engine) (tradeLogStartIdx : Nat) (clock : TickClock) :
    Option (MarketMaker D × Engine) := do
  let ((m1, e1), bid, ask) := m.prepare e tradeLogStartIdx clock
  let (m2, e2) ← m1.placeQuote? e1 bid .buy clock.bidTime clock.bidNow
  m2.placeQuote? e2 ask .sell clock.askTime clock.askNow

end MarketMaker
end LobCity
