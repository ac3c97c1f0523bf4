import LobCity.Gateway

/-! Prices and the price checks, over histories of messages. A ghost admission says for
each cell what the last message asked that placed or re-priced its order, and which best
prices it met. The checks skip a message whose tag 40 says market; a cancel/replace with
that tag still re-prices a limit order. -/
namespace LobCity
open Library

structure Admission where
  price : Price
  qty : Int64
  bid : Price
  ask : Price
deriving DecidableEq, Repr

/-- The price tests that a limit order has to pass, in `int64` arithmetic. -/
structure Admission.Checked (cfg : RiskConfig) (m : Admission) : Prop where
  positive : 0 < m.price
  notional : m.price * m.qty ≤ cfg.maxNotional
  collar : ∀ ref ∈ ({ config := cfg, bestBid := m.bid, bestAsk := m.ask } : RiskEngine).refPrice,
    (if m.price > ref then m.price - ref else ref - m.price) ≤ ref * cfg.collarBps / 10000

namespace OrderEntryGateway
variable {g : OrderEntryGateway} {msg : FixMessage} {clock : Clock}

def admission (g : OrderEntryGateway) (msg : FixMessage) : Admission :=
  ⟨msg.price, msg.qty, g.engine.getBestBid, g.engine.getBestAsk⟩

/-- What a message has to pass, the price tests only if it does not say market. -/
theorem verdict_iff : g.verdict msg clock = .none ↔
    0 < msg.qty ∧ toQuantity msg.qty ≤ g.risk.config.maxOrderQty ∧
      (msg.ordType ≠ byte '1' → (g.admission msg).Checked g.risk.config) ∧
      (g.synced.checkRateLimit clock.risk).1 = .none := by
  unfold verdict
  rw [RiskEngine.checkOrder_eq_none_iff, RiskEngine.checkValidity_iff,
    RiskEngine.checkFatFingerSize_iff, RiskEngine.checkNotional_iff, RiskEngine.checkPriceCollar_iff]
  constructor
  · rintro ⟨⟨hq, hp⟩, hs, hn, hc, hr⟩
    exact ⟨hq, hs, fun hm => ⟨hp hm, hn hm, hc hm⟩, hr⟩
  · rintro ⟨hq, hs, hm, hr⟩
    exact ⟨⟨hq, fun h => (hm h).positive⟩, hs, fun h => (hm h).notional, fun h => (hm h).collar, hr⟩

theorem checked_of_limit (hm : msg.ordType ≠ byte '1') (hv : g.verdict msg clock = .none) :
    (g.admission msg).Checked g.risk.config := (verdict_iff.mp hv).2.2.1 hm

/-- A replacement that is let through on its quantity and its rate alone, because it says
market, and gives a resting order a price that the price tests refuse. -/
def ExemptReplace (g : OrderEntryGateway) (msg : FixMessage) (clock : Clock) : Prop :=
  msg.msgType = byte 'G' ∧ msg.ordType = byte '1' ∧
    g.engine.orderMap (numericId msg.origClOrdID) ≠ none ∧
    0 < msg.qty ∧ toQuantity msg.qty ≤ g.risk.config.maxOrderQty ∧
    (g.synced.checkRateLimit clock.risk).1 = .none ∧ ¬ (g.admission msg).Checked g.risk.config

theorem verdict_market_iff (hm : msg.ordType = byte '1') :
    g.verdict msg clock = .none ↔ 0 < msg.qty ∧ toQuantity msg.qty ≤ g.risk.config.maxOrderQty ∧
      (g.synced.checkRateLimit clock.risk).1 = .none := by
  rw [verdict_iff]
  simp [hm]

end OrderEntryGateway

structure Watched where
  gateway : OrderEntryGateway
  admission : Addr → Option Admission

namespace Watched

def new (poolSize : Nat) (udpPub : Bool) (cfg : RiskConfig) : Watched :=
  ⟨.new poolSize udpPub cfg, fun _ => none⟩

def note (w : Watched) (msg : FixMessage) (clock : Clock) : Addr → Option Admission :=
  if w.gateway.verdict msg clock ≠ .none then w.admission
  else if msg.msgType = byte 'D' then
    Function.update w.admission (w.gateway.engine.book.newOrder msg).1.ref
      (some (w.gateway.admission msg))
  else if msg.msgType = byte 'G' then
    match w.gateway.engine.orderMap (numericId msg.origClOrdID) with
    | none => w.admission
    | some order => Function.update w.admission order (some (w.gateway.admission msg))
  else w.admission

def step (w : Watched) (m : FixMessage × Clock) : Option Watched :=
  (w.gateway.onParsedMessage m.1 m.2).map fun g => ⟨g, w.note m.1 m.2⟩

/-- Every resting order has a positive price, which passed the price tests when it was
admitted or last replaced. -/
def Vetted (w : Watched) : Prop :=
  ∀ s, ∀ order ∈ w.gateway.engine.orders s, 0 < (w.gateway.engine.heap order).price ∧
    ∃ m ∈ w.admission order, m.price = (w.gateway.engine.heap order).price ∧
      m.Checked w.gateway.risk.config

end Watched

def Book.Vetted (b : Book) (cfg : RiskConfig) (admission : Addr → Option Admission) : Prop :=
  ∀ s, ∀ r ∈ b.side s, 0 < r.price ∧ ∃ m ∈ admission r.ref, m.price = r.price ∧ m.Checked cfg

theorem Watched.vetted_iff {w : Watched} :
    w.Vetted ↔ w.gateway.engine.book.Vetted w.gateway.risk.config w.admission := by
  constructor
  · intro h s r hr
    obtain ⟨a, ha, rfl⟩ := List.mem_map.mp hr
    exact h s a ha
  · intro h s a ha
    exact h s (w.gateway.engine.resting a) (List.mem_map_of_mem ha)

namespace Book.Vetted
variable {b : Book} {cfg : RiskConfig} {admission : Addr → Option Admission}

theorem acquire (h : b.Vetted cfg admission) (id : OrderId) (p : Price) (q : Quantity) (s : Side)
    (m : Bool) : (b.acquire id p q s m).2.Vetted cfg admission := by
  simpa only [Vetted, side_acquire] using h

theorem process (h : b.Vetted cfg admission) {o : Incoming} {m : Admission}
    (ho : ∀ s, o.ref ∉ refs (b.side s)) (hp : m.price = o.price)
    (hm : o.isMarket = false → m.Checked cfg) (time : Timestamp) :
    (b.process o time).Vetted cfg (Function.update admission o.ref (some m)) := by
  intro t x hx
  cases mem_of_process hx with
  | inl hx =>
    obtain ⟨-, hmarket, -, rfl⟩ := hx
    have hc : m.Checked cfg := hm hmarket
    exact ⟨hp ▸ hc.positive, m, Function.update_self .., hp, hc⟩
  | inr hx =>
    obtain ⟨r, hr, hs, -⟩ := hx
    have hne : r.ref ≠ o.ref := fun he => ho t (he ▸ List.mem_map_of_mem hr)
    rw [hs.1, hs.2.2, Function.update_of_ne hne]
    exact h t r hr

theorem cancel (h : b.Vetted cfg admission) (hd : b.Distinct) (hi : b.Indexed) (id : OrderId) :
    (b.cancel id).Vetted cfg admission := fun t x hx => h t x (mem_of_cancel hd hi hx)

end Book.Vetted

theorem Book.vetted_modify {b : Book} {cfg : RiskConfig} {admission : Addr → Option Admission}
    (h : b.Vetted cfg admission) (hd : b.Distinct) (hi : b.Indexed) {origId : OrderId}
    {order : Addr} (hk : b.index origId = some order) (newId : OrderId) (newQty : Quantity)
    (m : Admission) :
    (b.modify origId newId m.price newQty).Vetted cfg (Function.update admission order (some m)) ↔
      m.Checked cfg := by
  obtain ⟨s, r, hr, rfl, -⟩ := hi origId order hk
  constructor
  · intro hall
    have hmem : (⟨r.ref, newId, m.price, newQty⟩ : Resting) ∈
        (b.modify origId newId m.price newQty).side s :=
      (mem_modify hd hi hr hk).mpr (Or.inl ⟨rfl, rfl⟩)
    obtain ⟨-, m', hm', -, hc⟩ := hall s _ hmem
    rw [Function.update_self] at hm'
    obtain rfl := Option.some.inj hm'
    exact hc
  · intro hc t x hx
    cases (mem_modify hd hi hr hk).mp hx with
    | inl h =>
      obtain ⟨-, rfl⟩ := h
      exact ⟨hc.positive, m, Function.update_self .., rfl, hc⟩
    | inr hcase =>
      obtain ⟨hx, hne⟩ := hcase
      rw [Function.update_of_ne hne]
      exact h t x hx

namespace Watched
variable {w : Watched}

theorem vetted_newOrder (h : w.gateway.Sound)
    (hv : w.gateway.engine.book.Vetted w.gateway.risk.config w.admission) {msg : FixMessage}
    {clock : Clock} (hverdict : w.gateway.verdict msg clock = .none) :
    ((w.gateway.engine.book.newOrder msg).2.process (w.gateway.engine.book.newOrder msg).1
        clock.time).Vetted w.gateway.risk.config
      (Function.update w.admission (w.gateway.engine.book.newOrder msg).1.ref
        (some (w.gateway.admission msg))) := by
  obtain ⟨a, -, -, -, -, -, -, rfl, hfresh⟩ := h.newOrder msg clock.time clock.now
  have hbook : (w.gateway.engine.book.newOrder msg).2.Vetted w.gateway.risk.config
      w.admission := hv.acquire _ _ _ _ _
  refine hbook.process (fun s => ?_) ?_ (fun hm => ?_) clock.time
  · rw [Book.newOrder, Book.side_acquire]
    exact hfresh s
  · exact (w.gateway.engine.book.newOrder_price msg).symm
  · rw [Book.newOrder_isMarket] at hm
    exact OrderEntryGateway.checked_of_limit (of_decide_eq_false hm) hverdict

/-- An admitted `G` leaves the book vetted unless it is exempt. -/
theorem vetted_replace (h : w.gateway.Sound)
    (hv : w.gateway.engine.book.Vetted w.gateway.risk.config w.admission) {msg : FixMessage}
    {clock : Clock} (hG : msg.msgType = byte 'G') (hverdict : w.gateway.verdict msg clock = .none) :
    (w.gateway.engine.book.modify (numericId msg.origClOrdID) (numericId msg.clOrdID) msg.price
        (toQuantity msg.qty)).Vetted w.gateway.risk.config
      (match w.gateway.engine.orderMap (numericId msg.origClOrdID) with
        | none => w.admission
        | some order => Function.update w.admission order (some (w.gateway.admission msg))) ↔
      ¬ w.gateway.ExemptReplace msg clock := by
  have hd := h.distinct
  have hi := h.indexed
  cases hk : w.gateway.engine.orderMap (numericId msg.origClOrdID) with
  | none =>
    have hno : ¬ w.gateway.ExemptReplace msg clock := fun hx => hx.2.2.1 hk
    have hk : w.gateway.engine.book.index (numericId msg.origClOrdID) = none := hk
    rw [Book.modify_unknown hk]
    exact iff_of_true hv hno
  | some order =>
    have hiff := Book.vetted_modify hv hd hi hk (numericId msg.clOrdID) (toQuantity msg.qty)
      (w.gateway.admission msg)
    refine hiff.trans ?_
    by_cases hm : msg.ordType = byte '1'
    · obtain ⟨hq, hs, hr⟩ := (OrderEntryGateway.verdict_market_iff hm).mp hverdict
      simp [OrderEntryGateway.ExemptReplace, hG, hm, hk, hq, hs, hr]
    · exact iff_of_true (OrderEntryGateway.checked_of_limit hm hverdict) fun hx => hm hx.2.1

/-- One message keeps the book vetted, unless it is an exempt replacement. -/
theorem vetted_step (h : w.gateway.Sound) (hv : w.Vetted) (msg : FixMessage) (clock : Clock) :
    ∃ w', w.step (msg, clock) = some w' ∧ w'.gateway.Sound ∧
      (w'.Vetted ↔ ¬ w.gateway.ExemptReplace msg clock) := by
  obtain ⟨g', hg, h', hb, hcfg⟩ := h.onParsedMessage msg clock
  refine ⟨⟨g', w.note msg clock⟩, by simp [step, hg], h', ?_⟩
  rw [vetted_iff] at hv ⊢
  simp only [hb, hcfg]
  unfold OrderEntryGateway.bookAfter note
  by_cases hD : msg.msgType = byte 'D'
  · have hno : ¬ w.gateway.ExemptReplace msg clock := by
      rintro ⟨hG, -⟩
      exact absurd (hD.symm.trans hG) (by decide)
    simp only [if_pos hD, hno, not_false_eq_true, iff_true]
    by_cases hverdict : w.gateway.verdict msg clock = .none
    · rw [if_pos hverdict, if_neg (not_not.mpr hverdict)]
      exact vetted_newOrder h hv hverdict
    · rw [if_neg hverdict, if_pos hverdict]
      exact hv
  by_cases hF : msg.msgType = byte 'F'
  · have hG : msg.msgType ≠ byte 'G' := by
      rw [hF]
      decide
    have hno : ¬ w.gateway.ExemptReplace msg clock := fun hx => hG hx.1
    simp only [if_neg hD, if_pos hF, if_neg hG, ite_self, hno, not_false_eq_true, iff_true]
    exact hv.cancel h.distinct h.indexed _
  by_cases hG : msg.msgType = byte 'G'
  · simp only [if_neg hD, if_neg hF, if_pos hG]
    by_cases hverdict : w.gateway.verdict msg clock = .none
    · rw [if_pos hverdict, if_neg (not_not.mpr hverdict)]
      exact vetted_replace h hv hG hverdict
    · rw [if_neg hverdict, if_pos hverdict]
      have hno : ¬ w.gateway.ExemptReplace msg clock := by
        rintro ⟨-, hm, -, hq, hs, hr, -⟩
        exact hverdict ((OrderEntryGateway.verdict_market_iff hm).mpr ⟨hq, hs, hr⟩)
      exact iff_of_true hv hno
  · have hno : ¬ w.gateway.ExemptReplace msg clock := fun hx => hG hx.1
    simp only [if_neg hD, if_neg hF, if_neg hG, ite_self, hno, not_false_eq_true, iff_true]
    exact hv

/-- Over every history of messages: after each of them every resting order has passed the
price tests, exactly when no message of the history is an exempt replacement. -/
theorem run_vetted_iff (poolSize : Nat) (udpPub : Bool) (cfg : RiskConfig)
    (msgs : List (FixMessage × Clock)) :
    (∀ n w, run step (new poolSize udpPub cfg) (msgs.take n) = some w → w.Vetted) ↔
      Along step (fun w m => ¬ w.gateway.ExemptReplace m.1 m.2) (new poolSize udpPub cfg) msgs := by
  have hnew : (new poolSize udpPub cfg).Vetted := by
    rw [vetted_iff]
    show (Engine.new poolSize udpPub).book.Vetted cfg _
    rw [(Engine.new_wellFormed poolSize udpPub).2]
    simp [Book.Vetted, Book.new]
  have hstep : ∀ (w : Watched) (m : FixMessage × Clock), w.gateway.Sound → True → w.Vetted →
      ∃ w', w.step m = some w' ∧ w'.gateway.Sound ∧
        (w'.Vetted ↔ ¬ w.gateway.ExemptReplace m.1 m.2) := fun w m h _ hv => vetted_step h hv m.1 m.2
  exact forall_prefix_iff hstep (OrderEntryGateway.new_sound poolSize udpPub cfg) hnew
    (along_of_forall fun _ _ => trivial)

/-- A limit buy of 10 at 100 is replaced by a message that says market and has no price. -/
def exemptMsgs : List (FixMessage × Clock) :=
  [({ msgType := byte 'D', side := byte '1', ordType := byte '2', qty := 10, price := 100,
      clOrdID := [byte '1'], origClOrdID := [] }, ⟨5, 6, 7⟩),
   ({ msgType := byte 'G', side := byte '1', ordType := byte '1', qty := 10, price := 0,
      clOrdID := [byte '2'], origClOrdID := [byte '1'] }, ⟨8, 9, 10⟩)]

/-- It rests at price 0. -/
theorem exemptMsgs_unvetted :
    ∃ w, run step (new 2 false {}) exemptMsgs = some w ∧ w.gateway.engine.orders .buy = [1] ∧
      (w.gateway.engine.heap 1).price = 0 ∧ ¬ w.Vetted := by
  have hrest : (run step (new 2 false {}) exemptMsgs).map (fun w =>
      (w.gateway.engine.orders .buy, (w.gateway.engine.heap 1).price)) = some ([1], 0) := by
    decide +kernel
  obtain ⟨w, hw, heq⟩ := Option.map_eq_some_iff.mp hrest
  obtain ⟨horders, hprice⟩ := Prod.mk.inj heq
  refine ⟨w, hw, horders, hprice, fun hv => ?_⟩
  have hpos := (hv .buy 1 (by rw [horders]; simp)).1
  rw [hprice] at hpos
  exact absurd hpos (by decide)

end Watched
end LobCity
