import LobCity.MarketMaker
import LobCity.Quotes

/-! The simulator's loop around the market maker: others act on the book, then one tick.
An observer notes the ids of the quotes, the fills that a tick applies to the position
and how much of the trade log the last fill detection had before it. -/
namespace LobCity
open Library

/-- Where in the log, starting at index `i`, the trades name an order: once for each side
whose id is one of `names`. -/
def fillsFrom (names : Side → OrderId → Prop) [∀ s, DecidablePred (names s)] :
    Nat → List Trade → List (Nat × Side)
  | _, [] => []
  | i, t :: log =>
    (if names .buy t.buyOrderId then [(i, .buy)] else []) ++
      (if names .sell t.sellOrderId then [(i, .sell)] else []) ++ fillsFrom names (i + 1) log

def netTraded (names : Side → OrderId → Prop) [∀ s, DecidablePred (names s)] : List Trade → Int
  | [] => 0
  | t :: log =>
    (if names .buy t.buyOrderId then (t.quantity.toNat : Int) else 0) -
      (if names .sell t.sellOrderId then (t.quantity.toNat : Int) else 0) + netTraded names log

namespace MarketMaker
variable {D : Type} [Double D]

/-- `processFills` from log index `i` on, with the fills it applies. -/
def traceFills (m : MarketMaker D) : Nat → List Trade → List (Nat × Side) × MarketMaker D
  | _, [] => ([], m)
  | i, t :: log =>
    let m1 := if t.buyOrderId = m.currentBidId then m.applyFill t .buy else m
    let m2 := if t.sellOrderId = m1.currentAskId then m1.applyFill t .sell else m1
    let x := m2.traceFills (i + 1) log
    ((if t.buyOrderId = m.currentBidId then [(i, .buy)] else []) ++
      (if t.sellOrderId = m1.currentAskId then [(i, .sell)] else []) ++ x.1, x.2)

theorem traceFills_snd (m : MarketMaker D) (i : Nat) (log : List Trade) :
    (m.traceFills i log).2 = log.foldl scanTrade m := by
  induction log generalizing m i with
  | nil => rfl
  | cons t log ih => exact ih _ _

end MarketMaker

/-- The others' calls of a tick, and the clock of the market maker's. -/
structure Tick where
  ops : List Op
  clock : TickClock

structure Desk (D : Type) where
  session : Session
  maker : MarketMaker D
  /-- the ids given out by `placeQuote` -/
  issued : List OrderId
  /-- the fills that went into the position, by log index and side -/
  applied : List (Nat × Side)
  /-- the length of the log at the last fill detection -/
  scanned : Nat

namespace Desk
variable {D : Type} [Double D]

def idsBetween (a b : OrderId) : List OrderId :=
  (List.range (b - a).toNat).map fun i => a + UInt64.ofNat i

/-- One turn of the loop in `Simulator::run`. -/
def step (w : Desk D) (tick : Tick) : Option (Desk D) := do
  let tradeLogBefore := w.session.engine.tradeLog.length
  let S ← run Session.step w.session tick.ops
  let (maker, engine) ← w.maker.onTick S.engine tradeLogBefore tick.clock
  let log := S.engine.tradeLog
  let issued := w.issued ++ idsBetween w.maker.nextOrderId maker.nextOrderId
  if MarketMaker.detects S.engine then
    return { session := { S with engine }, maker, issued,
             applied := w.applied ++
               (w.maker.traceFills tradeLogBefore (log.drop tradeLogBefore)).1,
             scanned := log.length }
  else
    return { w with session := { S with engine }, maker, issued }

def seeded (poolSize : Nat) (udpPub : Bool) (cfg : MarketMakerConfig) (seed : List Op) :
    Option (Desk D) :=
  (run Session.step (Session.new poolSize udpPub) seed).map fun S => ⟨S, .new cfg, [], [], 0⟩

def simulate (poolSize : Nat) (udpPub : Bool) (cfg : MarketMakerConfig) (seed : List Op)
    (ticks : List Tick) : Option (Desk D) :=
  (seeded poolSize udpPub cfg seed).bind fun w => run step w ticks

/-- At the last fill detection every trade of a quote had been applied exactly once, and the
position was what the quotes had bought minus what they had sold. -/
structure Accounted (w : Desk D) : Prop where
  applied : w.applied =
    fillsFrom (fun _ id => id ∈ w.issued) 0 (w.session.engine.tradeLog.take w.scanned)
  position : w.maker.netPosition = Int64.ofInt
    (netTraded (fun _ id => id ∈ w.issued) (w.session.engine.tradeLog.take w.scanned))

def Fair (w : Desk D) (tick : Tick) : Prop := Along Session.step Session.Owned w.session tick.ops

theorem along_ids {P : OrderId → Prop} {seed : List Op} {ticks : List Tick}
    (h : ∀ op ∈ seed ++ ticks.flatMap Tick.ops, ∀ id ∈ op.ids, P id) (w : Desk D) :
    Along step (fun _ tick => ∀ op ∈ tick.ops, ∀ id ∈ op.ids, P id) w ticks :=
  along_of_forall fun tick htick op hop =>
    h op (List.mem_append_right _ (List.mem_flatMap.mpr ⟨tick, htick, hop⟩))

end Desk

def Engine.StandsOff (e : Engine) (s : Side) (p : Price) : Prop :=
  ∀ best ∈ e.best? s.opposite, s.opposite.better p best

namespace MarketMaker
variable {D : Type} [Double D]

/-- A quote is placed under an id other than 0, at a price that does not reach the other
side. -/
def QuietQuote (m : MarketMaker D) (e : Engine) (quote : Option (Price × Quantity)) (s : Side) :
    Prop :=
  ∀ q ∈ quote, m.nextOrderId ≠ 0 ∧ e.StandsOff s q.1

/-- A tick in which no fill gets past the detection: if it finds a side without a best
price, the log from `start` on does not name a current quote, and its own quotes are quiet
in the states in which they are placed. -/
def QuietTick (m : MarketMaker D) (e : Engine) (start : Nat) (clock : TickClock) : Prop :=
  (detects e = false → ∀ t ∈ e.tradeLog.drop start,
    t.buyOrderId ≠ m.currentBidId ∧ t.sellOrderId ≠ m.currentAskId) ∧
  let x := m.prepare e start clock
  x.1.1.QuietQuote x.1.2 x.2.1 .buy ∧
    ∀ y, x.1.1.placeQuote? x.1.2 x.2.1 .buy clock.bidTime clock.bidNow = some y →
      y.1.QuietQuote y.2 x.2.2 .sell

end MarketMaker

def Desk.Careful {D : Type} [Double D] (w : Desk D) (tick : Tick) : Prop :=
  ∀ S, run Session.step w.session tick.ops = some S →
    w.maker.QuietTick S.engine w.session.engine.tradeLog.length tick.clock

section Decidable
variable {D : Type} [Double D]

instance (e : Engine) (s : Side) (p : Price) : Decidable (e.StandsOff s p) :=
  match h : e.best? s.opposite with
  | none => isTrue (by simp [Engine.StandsOff, h])
  | some best => decidable_of_iff (s.opposite.better p best) (by simp [Engine.StandsOff, h])

instance (m : MarketMaker D) (e : Engine) (quote : Option (Price × Quantity)) (s : Side) :
    Decidable (m.QuietQuote e quote s) :=
  match quote with
  | none => isTrue (by simp [MarketMaker.QuietQuote])
  | some q => decidable_of_iff (m.nextOrderId ≠ 0 ∧ e.StandsOff s q.1)
      (by simp [MarketMaker.QuietQuote])

def decidableForallSome {α : Type} (x : Option α) (p : α → Prop) [DecidablePred p] :
    Decidable (∀ y, x = some y → p y) :=
  match x with
  | none => isTrue (by simp)
  | some y => decidable_of_iff (p y) (by simp)

instance (m : MarketMaker D) (e : Engine) (start : Nat) (clock : TickClock) :
    Decidable (m.QuietTick e start clock) :=
  have : Decidable (∀ y, (m.prepare e start clock).1.1.placeQuote? (m.prepare e start clock).1.2
      (m.prepare e start clock).2.1 .buy clock.bidTime clock.bidNow = some y →
        y.1.QuietQuote y.2 (m.prepare e start clock).2.2 .sell) := decidableForallSome _ _
  inferInstanceAs (Decidable (_ ∧ _ ∧ _))

instance (w : Desk D) : DecidablePred w.Careful := fun tick =>
  decidableForallSome (run Session.step w.session tick.ops) _

instance (w : Desk D) : DecidablePred w.Fair := fun tick =>
  inferInstanceAs (Decidable (Along Session.step Session.Owned w.session tick.ops))

end Decidable
end LobCity
