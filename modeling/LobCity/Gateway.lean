import LobCity.RiskEngine
import LobCity.Session

/-! The order entry gateway: the handlers of `D`, `F` and `G` messages over the engine.
A message is handled with its ids as text; who reads that text, and when, is not the
gateway's concern. -/
namespace LobCity

abbrev FixMessage := ParsedFixMessage (List Byte)

/-- The clock readings made while one message is handled: by the rate limiter, on entry to
the matcher, for a snapshot. -/
structure Clock where
  risk : UInt64
  time : Timestamp
  now : Timestamp
deriving DecidableEq, Repr

/-- `static_cast<OrderId>(parseFastInt(...))` -/
def numericId (text : List Byte) : OrderId := (parseFastInt text).toUInt64

structure OrderEntryGateway where
  engine : Engine
  risk : RiskEngine

namespace OrderEntryGateway

def new (poolSize : Nat) (udpPub : Bool) (cfg : RiskConfig) : OrderEntryGateway :=
  ⟨Engine.new poolSize udpPub, { config := cfg }⟩

def synced (g : OrderEntryGateway) : RiskEngine :=
  g.risk.updateBBO g.engine.getBestBid g.engine.getBestAsk

def handleNewOrderSingle (g : OrderEntryGateway) (msg : FixMessage) (clock : Clock) :
    Option OrderEntryGateway :=
  let (rejection, risk) := g.synced.checkOrder msg clock.risk
  if rejection ≠ .none then some { g with risk }
  else
    let orderSide : Side := if msg.side = byte '1' then .buy else .sell
    let isMarket := msg.ordType = byte '1'
    let (newOrder, engine) :=
      g.engine.acquire (numericId msg.clOrdID) msg.price (toQuantity msg.qty) orderSide isMarket
    (engine.processOrder newOrder clock.time clock.now).map fun e => ⟨e, risk⟩

def handleCancelRequest (g : OrderEntryGateway) (msg : FixMessage) (clock : Clock) :
    OrderEntryGateway :=
  { g with engine := g.engine.cancelOrder (numericId msg.clOrdID) clock.now }

def handleCancelReplace (g : OrderEntryGateway) (msg : FixMessage) (clock : Clock) :
    OrderEntryGateway :=
  let (rejection, risk) := g.synced.checkOrder msg clock.risk
  if rejection ≠ .none then { g with risk }
  else
    ⟨g.engine.modifyOrder (numericId msg.origClOrdID) (numericId msg.clOrdID) msg.price
      (toQuantity msg.qty) clock.now, risk⟩

def onParsedMessage (g : OrderEntryGateway) (msg : FixMessage) (clock : Clock) :
    Option OrderEntryGateway :=
  if msg.msgType = byte 'D' then g.handleNewOrderSingle msg clock
  else if msg.msgType = byte 'F' then some (g.handleCancelRequest msg clock)
  else if msg.msgType = byte 'G' then some (g.handleCancelReplace msg clock)
  else some g

def step (g : OrderEntryGateway) (m : FixMessage × Clock) : Option OrderEntryGateway :=
  g.onParsedMessage m.1 m.2

def verdict (g : OrderEntryGateway) (msg : FixMessage) (clock : Clock) : RiskRejectReason :=
  (g.synced.checkOrder msg clock.risk).1

def screened (g : OrderEntryGateway) (msg : FixMessage) (clock : Clock) : RiskEngine :=
  (g.synced.checkOrder msg clock.risk).2

section Handlers
variable {g : OrderEntryGateway} {msg : FixMessage} {clock : Clock}

theorem handleNewOrderSingle_accepted (hv : g.verdict msg clock = .none) {a : Addr} {e1 e2 : Engine}
    (ha : g.engine.acquire (numericId msg.clOrdID) msg.price (toQuantity msg.qty)
      (if msg.side = byte '1' then .buy else .sell) (msg.ordType = byte '1') = (a, e1))
    (he : e1.processOrder a clock.time clock.now = some e2) :
    g.handleNewOrderSingle msg clock = some ⟨e2, g.screened msg clock⟩ := by
  have hv : (g.synced.checkOrder msg clock.risk).1 = .none := hv
  simp [handleNewOrderSingle, screened, hv, ha, he]

theorem handleNewOrderSingle_rejected (hv : g.verdict msg clock ≠ .none) :
    g.handleNewOrderSingle msg clock = some { g with risk := g.screened msg clock } := if_pos hv

theorem handleCancelReplace_accepted (hv : g.verdict msg clock = .none) :
    g.handleCancelReplace msg clock =
      ⟨g.engine.modifyOrder (numericId msg.origClOrdID) (numericId msg.clOrdID) msg.price
        (toQuantity msg.qty) clock.now, g.screened msg clock⟩ := if_neg (not_not.mpr hv)

theorem handleCancelReplace_rejected (hv : g.verdict msg clock ≠ .none) :
    g.handleCancelReplace msg clock = { g with risk := g.screened msg clock } := if_pos hv

end Handlers
end OrderEntryGateway

/-- The order a `D` message asks for, and the book once its cell is handed out. -/
def Book.newOrder (b : Book) (msg : FixMessage) : Incoming × Book :=
  b.acquire (numericId msg.clOrdID) msg.price (toQuantity msg.qty)
    (if msg.side = byte '1' then .buy else .sell) (msg.ordType = byte '1')

theorem Book.newOrder_price (b : Book) (msg : FixMessage) : (b.newOrder msg).1.price = msg.price := by
  unfold newOrder acquire
  split <;> rfl

theorem Book.newOrder_id (b : Book) (msg : FixMessage) :
    (b.newOrder msg).1.id = numericId msg.clOrdID := by
  unfold newOrder acquire
  split <;> rfl

theorem Book.newOrder_isMarket (b : Book) (msg : FixMessage) :
    (b.newOrder msg).1.isMarket = decide (msg.ordType = byte '1') := by
  unfold newOrder acquire
  split <;> rfl

namespace OrderEntryGateway

/-- What a message does to the sequence book. -/
def bookAfter (g : OrderEntryGateway) (msg : FixMessage) (clock : Clock) : Book :=
  let b := g.engine.book
  if msg.msgType = byte 'D' then
    if g.verdict msg clock = .none then (b.newOrder msg).2.process (b.newOrder msg).1 clock.time
    else b
  else if msg.msgType = byte 'F' then b.cancel (numericId msg.clOrdID)
  else if msg.msgType = byte 'G' then
    if g.verdict msg clock = .none then
      b.modify (numericId msg.origClOrdID) (numericId msg.clOrdID) msg.price (toQuantity msg.qty)
    else b
  else b

theorem bookAfter_cases (g : OrderEntryGateway) (msg : FixMessage) (clock : Clock) :
    (msg.msgType = byte 'D' ∧ g.verdict msg clock = .none ∧
      g.bookAfter msg clock =
        (g.engine.book.newOrder msg).2.process (g.engine.book.newOrder msg).1 clock.time) ∨
    (msg.msgType = byte 'F' ∧
      g.bookAfter msg clock = g.engine.book.cancel (numericId msg.clOrdID)) ∨
    (msg.msgType = byte 'G' ∧ g.verdict msg clock = .none ∧
      g.bookAfter msg clock = g.engine.book.modify (numericId msg.origClOrdID)
        (numericId msg.clOrdID) msg.price (toQuantity msg.qty)) ∨
    (msg.msgType ≠ byte 'F' ∧
      ¬ (g.verdict msg clock = .none ∧ (msg.msgType = byte 'D' ∨ msg.msgType = byte 'G')) ∧
      g.bookAfter msg clock = g.engine.book) := by
  have hDF : byte 'D' ≠ byte 'F' := by decide
  have hGD : byte 'G' ≠ byte 'D' := by decide
  have hGF : byte 'G' ≠ byte 'F' := by decide
  unfold bookAfter
  by_cases hD : msg.msgType = byte 'D'
  · by_cases hv : g.verdict msg clock = .none <;> simp [hD, hv, hDF]
  by_cases hF : msg.msgType = byte 'F'
  · simp [hF, hDF.symm]
  by_cases hG : msg.msgType = byte 'G'
  · by_cases hv : g.verdict msg clock = .none <;> simp [hG, hv, hGD, hGF]
  · simp [hD, hF, hG]

/-- Nobody but the engine holds a cell between two messages. -/
def Sound (g : OrderEntryGateway) : Prop := Session.Sound ⟨g.engine, []⟩

theorem new_sound (poolSize : Nat) (udpPub : Bool) (cfg : RiskConfig) :
    (new poolSize udpPub cfg).Sound := Session.new_sound poolSize udpPub

namespace Sound
variable {g : OrderEntryGateway}

theorem newOrder (h : g.Sound) (msg : FixMessage) (time now : Timestamp) :
    ∃ a e1 e2, g.engine.acquire (numericId msg.clOrdID) msg.price (toQuantity msg.qty)
        (if msg.side = byte '1' then .buy else .sell) (msg.ordType = byte '1') = (a, e1) ∧
      e1.processOrder a time now = some e2 ∧ Session.Sound ⟨e2, []⟩ ∧
      e2.book = (g.engine.book.newOrder msg).2.process (g.engine.book.newOrder msg).1 time ∧
      (g.engine.book.newOrder msg).1.ref = a ∧ ∀ s, a ∉ refs (g.engine.book.side s) := by
  obtain ⟨a, e1, e2, ha, he, h2, hnew, hb, hfresh, -⟩ := Session.Sound.submit h
    (numericId msg.clOrdID) msg.price (toQuantity msg.qty)
    (if msg.side = byte '1' then .buy else .sell) (msg.ordType = byte '1') time now
  refine ⟨a, e1, e2, ha, he, h2, ?_, congrArg Incoming.ref hnew, hfresh⟩
  rw [hb, Book.newOrder, hnew]

/-- The step lemma: a message is handled, and does to the book what `bookAfter` says. -/
theorem onParsedMessage (h : g.Sound) (msg : FixMessage) (clock : Clock) :
    ∃ g', g.onParsedMessage msg clock = some g' ∧ g'.Sound ∧
      g'.engine.book = g.bookAfter msg clock ∧ g'.risk.config = g.risk.config := by
  have hcfg : (g.screened msg clock).config = g.risk.config :=
    g.synced.checkOrder_config msg clock.risk
  unfold OrderEntryGateway.onParsedMessage bookAfter
  by_cases hD : msg.msgType = byte 'D'
  · simp only [if_pos hD]
    by_cases hv : g.verdict msg clock = .none
    · obtain ⟨a, e1, e2, ha, he, h2, hb, -⟩ := h.newOrder msg clock.time clock.now
      rw [if_pos hv]
      exact ⟨⟨e2, g.screened msg clock⟩, handleNewOrderSingle_accepted hv ha he, h2, hb, hcfg⟩
    · rw [if_neg hv]
      exact ⟨_, handleNewOrderSingle_rejected hv, h, rfl, hcfg⟩
  by_cases hF : msg.msgType = byte 'F'
  · simp only [if_neg hD, if_pos hF]
    have hcancel : Session.Owned ⟨g.engine, []⟩ (.cancel (numericId msg.clOrdID) clock.now) := trivial
    obtain ⟨S', hs, h', hb, -⟩ := Session.Sound.step h hcancel
    obtain rfl := Option.some.inj hs
    exact ⟨_, rfl, h', hb, rfl⟩
  by_cases hG : msg.msgType = byte 'G'
  · simp only [if_neg hD, if_neg hF, if_pos hG]
    by_cases hv : g.verdict msg clock = .none
    · have hmodify : Session.Owned ⟨g.engine, []⟩ (.modify (numericId msg.origClOrdID)
          (numericId msg.clOrdID) msg.price (toQuantity msg.qty) clock.now) := trivial
      obtain ⟨S', hs, h', hb, -⟩ := Session.Sound.step h hmodify
      obtain rfl := Option.some.inj hs
      rw [if_pos hv, handleCancelReplace_accepted hv]
      exact ⟨_, rfl, h', hb, hcfg⟩
    · rw [if_neg hv, handleCancelReplace_rejected hv]
      exact ⟨_, rfl, h, rfl, hcfg⟩
  · simp only [if_neg hD, if_neg hF, if_neg hG]
    exact ⟨g, rfl, h, rfl, rfl⟩

end Sound
end OrderEntryGateway
end LobCity
