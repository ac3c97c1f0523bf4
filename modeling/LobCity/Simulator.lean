import LobCity.MarketMaker

/-! The order flow simulator. It seeds the book; in every tick it moves its mid price, makes
up an order or a cancel, and lets the market maker react. What the distributions return is
given, tick by tick. -/
namespace LobCity

/-- The casts of the simulator, from and to `double`. -/
class DoubleCasts (D : Type) extends Double D where
  ofSize : UInt64 → D
  castPrice : D → Price
  castInt : D → Int32
  castQuantity : D → Quantity
  castSize : D → UInt64

open Double (ofInt64)

/-- The volatility is left out: it only shapes what the price distribution returns. -/
structure SimConfig (D : Type) [Double D] where
  startPrice : D := ofInt64 150
  numTicks : Int32 := 100000
  limitOrderProb : D := ofInt64 60 / ofInt64 100
  marketOrderProb : D := ofInt64 15 / ofInt64 100
  cancelProb : D := ofInt64 15 / ofInt64 100
  avgOrderSize : D := ofInt64 30
  spreadTicks : Int32 := 3
  seedDepthLevels : Int32 := 10
  seedQtyPerLevel : Int32 := 200
  seedTickSize : Price := 1000

/-- What the distributions return in one tick. `side`, `offset` and `pick` are the further
calls of `uniformDist`, of which a tick makes those that it needs. -/
structure Draws (D : Type) where
  returns : D
  roll : D
  side : D
  offset : D
  size : D
  pick : D
deriving DecidableEq, Repr

structure SeedClock where
  bidTime : Timestamp
  bidNow : Timestamp
  askTime : Timestamp
  askNow : Timestamp
deriving DecidableEq, Repr

structure SimTick (D : Type) where
  draws : Draws D
  time : Timestamp
  now : Timestamp
  clock : TickClock
deriving DecidableEq, Repr

def swapAndPop {α : Type} (v : List α) (i : Nat) : List α :=
  match v.getLast? with
  | none => v
  | some back => (v.set i back).dropLast

/-- `book.processOrder(pool.acquire(..))` -/
def Engine.submit (e : Engine) (id : OrderId) (p : Price) (q : Quantity) (s : Side) (m : Bool)
    (time now : Timestamp) : Option Engine :=
  let (order, e1) := e.acquire id p q s m
  e1.processOrder order time now

structure Simulator (D : Type) [Double D] where
  simCfg : SimConfig D
  mmCfg : MarketMakerConfig
  currentMidPrice : D
  nextOrderId : OrderId
  outstandingOrders : List OrderId

namespace Simulator
variable {D : Type} [DoubleCasts D]
open DoubleCasts

def new (sc : SimConfig D) (mc : MarketMakerConfig) : Simulator D where
  simCfg := sc
  mmCfg := mc
  currentMidPrice := sc.startPrice
  nextOrderId := 1
  outstandingOrders := []

def midPx (sim : Simulator D) : Price := castPrice (sim.currentMidPrice * ofInt64 10000)

/-- One level of `seedBook`: both ids are taken before the orders are submitted. -/
def seedLevel (sim : Simulator D) (e : Engine) (midPx : Price) (i : Price) (clock : SeedClock) :
    Option (Simulator D × Engine) := do
  let bidPx := midPx - i * sim.simCfg.seedTickSize
  let askPx := midPx + i * sim.simCfg.seedTickSize
  let bidId := sim.nextOrderId
  let askId := sim.nextOrderId + 1
  let qty := sim.simCfg.seedQtyPerLevel.toUInt32
  let e1 ← e.submit bidId bidPx qty .buy false clock.bidTime clock.bidNow
  let e2 ← e1.submit askId askPx qty .sell false clock.askTime clock.askNow
  return ({ sim with
    nextOrderId := sim.nextOrderId + 1 + 1
    outstandingOrders := sim.outstandingOrders ++ [bidId] ++ [askId] }, e2)

def seedLevels (sim : Simulator D) (e : Engine) (midPx : Price) (clocks : Nat → SeedClock) :
    Nat → Nat → Option (Simulator D × Engine)
  | _, 0 => some (sim, e)
  | i, n + 1 => do
    let (sim1, e1) ← sim.seedLevel e midPx (Int64.ofNat i) (clocks i)
    sim1.seedLevels e1 midPx clocks (i + 1) n

def seedBook (sim : Simulator D) (e : Engine) (clocks : Nat → SeedClock) :
    Option (Simulator D × Engine) :=
  sim.seedLevels e sim.midPx clocks 1 sim.simCfg.seedDepthLevels.toNatClampNeg

def drawSide (draws : Draws D) : Side :=
  if Double.lt draws.side (ofInt64 1 / ofInt64 2) then .buy else .sell

def drawSize (sim : Simulator D) (draws : Draws D) (cap : Quantity) : Quantity :=
  let qty := castQuantity (draws.size * sim.simCfg.avgOrderSize) + 1
  if qty > cap then cap else qty

def drawPrice (sim : Simulator D) (draws : Draws D) (midPx : Price) : Price :=
  let tickOffset := castInt (draws.offset * ofInt64 sim.simCfg.spreadTicks.toInt64) + 1
  match drawSide draws with
  | .buy => midPx - tickOffset.toInt64 * sim.simCfg.seedTickSize
  | .sell => midPx + tickOffset.toInt64 * sim.simCfg.seedTickSize

def generateLimitOrder (sim : Simulator D) (e : Engine) (midPx : Price) (tick : SimTick D) :
    Option (Simulator D × Engine) :=
  let price := sim.drawPrice tick.draws midPx
  if price ≤ 0 then some (sim, e)
  else
    let id := sim.nextOrderId
    let qty := sim.drawSize tick.draws 500
    (e.submit id price qty (drawSide tick.draws) false tick.time tick.now).map fun e1 =>
      ({ sim with
        nextOrderId := sim.nextOrderId + 1
        outstandingOrders := sim.outstandingOrders ++ [id] }, e1)

def generateMarketOrder (sim : Simulator D) (e : Engine) (tick : SimTick D) :
    Option (Simulator D × Engine) :=
  let id := sim.nextOrderId
  let qty := sim.drawSize tick.draws 200
  (e.submit id 0 qty (drawSide tick.draws) true tick.time tick.now).map fun e1 =>
    ({ sim with nextOrderId := sim.nextOrderId + 1 }, e1)

/-- The index of the order to cancel, the last one if the draw is past the end. -/
def pickIndex (sim : Simulator D) (draws : Draws D) : Nat :=
  let size := UInt64.ofNat sim.outstandingOrders.length
  let idx := castSize (draws.pick * ofSize size)
  (if idx ≥ size then size - 1 else idx).toNat

def generateCancel (sim : Simulator D) (e : Engine) (tick : SimTick D) : Simulator D × Engine :=
  if sim.outstandingOrders = [] then (sim, e)
  else
    let idx := sim.pickIndex tick.draws
    ({ sim with outstandingOrders := swapAndPop sim.outstandingOrders idx },
      e.cancelOrder (sim.outstandingOrders.getD idx 0) tick.now)

def generateOrder (sim : Simulator D) (e : Engine) (tick : SimTick D) :
    Option (Simulator D × Engine) :=
  let roll := tick.draws.roll
  let cfg := sim.simCfg
  if Double.lt roll cfg.limitOrderProb then sim.generateLimitOrder e sim.midPx tick
  else if Double.lt roll (cfg.limitOrderProb + cfg.marketOrderProb) then
    sim.generateMarketOrder e tick
  else if Double.lt roll (cfg.limitOrderProb + cfg.marketOrderProb + cfg.cancelProb) then
    some (sim.generateCancel e tick)
  else some (sim, e)

end Simulator

/-- What the loop of `Simulator::run` works on; the engine is the book with its pool. -/
structure Floor (D : Type) [Double D] where
  sim : Simulator D
  engine : Engine
  mm : MarketMaker D

namespace Floor
variable {D : Type} [DoubleCasts D]

def turn (f : Floor D) (tick : SimTick D) : Option (Floor D) := do
  let tradeLogBefore := f.engine.tradeLog.length
  let evolved := { f.sim with
    currentMidPrice := f.sim.currentMidPrice * (ofInt64 1 + tick.draws.returns) }
  let (sim, e1) ← evolved.generateOrder f.engine tick
  let (mm, e2) ← f.mm.onTick e1 tradeLogBefore tick.clock
  return ⟨sim, e2, mm⟩

/-- The loop ends early once the market maker is killed. -/
def loop (f : Floor D) : List (SimTick D) → Option (Floor D)
  | [] => some f
  | tick :: ticks => (f.turn tick).bind fun f' => if f'.mm.killed then some f' else f'.loop ticks

def shutdown (f : Floor D) (clock : TickClock) : Floor D :=
  let (mm, e) := f.mm.cancelExistingQuotes f.engine clock
  { f with engine := e, mm := mm }

end Floor

structure SimInputs (D : Type) where
  seed : Nat → SeedClock
  ticks : Nat → SimTick D
  shutdown : TickClock

namespace Simulator
variable {D : Type} [DoubleCasts D]

/-- The loop begins on the seeded book, of a pool of `poolSize` orders. -/
def seeded (sim : Simulator D) (poolSize : Nat) (inputs : SimInputs D) : Option (Floor D) :=
  (sim.seedBook (Engine.new poolSize false) inputs.seed).map fun (sim1, e) =>
    ⟨sim1, e, .new sim.mmCfg⟩

def runWith (sim : Simulator D) (poolSize : Nat) (inputs : SimInputs D) : Option (Floor D) := do
  let f ← sim.seeded poolSize inputs
  let f' ← f.loop ((List.range sim.simCfg.numTicks.toNatClampNeg).map inputs.ticks)
  return f'.shutdown inputs.shutdown

/-- `Simulator::run` up to its reports. -/
def run (sim : Simulator D) (inputs : SimInputs D) : Option (Floor D) := sim.runWith 2000000 inputs

end Simulator
end LobCity
