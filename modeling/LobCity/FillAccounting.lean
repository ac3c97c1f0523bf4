import LobCity.Ticks

/-! What one tick of the market maker does: the scan adds the trades of the current quotes
to the position, cancelling and placing quiet quotes trades with nobody. -/
namespace LobCity
open Library

theorem Quantity.toSigned_eq (q : Quantity) : q.toSigned = Int64.ofInt q.toNat := by
  apply Int64.toBitVec_inj.mp
  simp only [Quantity.toSigned, Int64.ofInt_eq_ofNat]
  exact (BitVec.ofNat_toNat 64 q.toBitVec).symm

theorem Quantity.toInt_toSigned (q : Quantity) : q.toSigned.toInt = q.toNat := by
  have hq := q.toNat_lt
  rw [q.toSigned_eq, Int64.toInt_ofInt_of_le (by omega) (by omega)]

section Log
variable {names : Side → OrderId → Prop} [∀ s, DecidablePred (names s)] {log log' : List Trade}

theorem fillsFrom_append (i : Nat) :
    fillsFrom names i (log ++ log') =
      fillsFrom names i log ++ fillsFrom names (i + log.length) log' := by
  induction log generalizing i with
  | nil => rfl
  | cons t log ih =>
    have hi : i + 1 + log.length = i + (t :: log).length := by
      rw [List.length_cons]
      omega
    simp only [List.cons_append, fillsFrom, ih, hi, List.append_assoc]

theorem netTraded_append :
    netTraded names (log ++ log') = netTraded names log + netTraded names log' := by
  induction log with
  | nil => simp [netTraded]
  | cons t log ih =>
    simp only [List.cons_append, netTraded, ih]
    omega

theorem fillsFrom_congr (names names' : Side → OrderId → Prop) [∀ s, DecidablePred (names s)]
    [∀ s, DecidablePred (names' s)] (i : Nat)
    (h : ∀ t ∈ log, (names .buy t.buyOrderId ↔ names' .buy t.buyOrderId) ∧
      (names .sell t.sellOrderId ↔ names' .sell t.sellOrderId)) :
    fillsFrom names i log = fillsFrom names' i log := by
  induction log generalizing i with
  | nil => rfl
  | cons t log ih =>
    obtain ⟨hb, hs⟩ := h t (by simp)
    simp only [fillsFrom, hb, hs, ih (i + 1) fun t ht => h t (by simp [ht])]

theorem netTraded_congr (names names' : Side → OrderId → Prop) [∀ s, DecidablePred (names s)]
    [∀ s, DecidablePred (names' s)]
    (h : ∀ t ∈ log, (names .buy t.buyOrderId ↔ names' .buy t.buyOrderId) ∧
      (names .sell t.sellOrderId ↔ names' .sell t.sellOrderId)) :
    netTraded names log = netTraded names' log := by
  induction log with
  | nil => rfl
  | cons t log ih =>
    obtain ⟨hb, hs⟩ := h t (by simp)
    simp only [netTraded, hb, hs, ih fun t ht => h t (by simp [ht])]

theorem fillsFrom_nil (i : Nat)
    (h : ∀ t ∈ log, ¬ names .buy t.buyOrderId ∧ ¬ names .sell t.sellOrderId) :
    fillsFrom names i log = [] := by
  induction log generalizing i with
  | nil => rfl
  | cons t log ih =>
    obtain ⟨hb, hs⟩ := h t (by simp)
    simp [fillsFrom, hb, hs, ih (i + 1) fun t ht => h t (by simp [ht])]

theorem netTraded_zero (h : ∀ t ∈ log, ¬ names .buy t.buyOrderId ∧ ¬ names .sell t.sellOrderId) :
    netTraded names log = 0 := by
  induction log with
  | nil => rfl
  | cons t log ih =>
    obtain ⟨hb, hs⟩ := h t (by simp)
    simp [netTraded, hb, hs, ih fun t ht => h t (by simp [ht])]

end Log

namespace MarketMaker
variable {D : Type} [Double D] {m m' : MarketMaker D} {e e' : Engine}

theorem updatePosition_netPosition (m : MarketMaker D) (q : Int64) (px : D) :
    (m.updatePosition q px).netPosition = m.netPosition + q := by
  unfold updatePosition
  by_cases h0 : m.netPosition = 0
  · rw [if_pos h0, h0]
    exact (Int64.zero_add q).symm
  · rw [if_neg h0]
    split_ifs <;> rfl

/-- One comparison of the scan: the fill, if the ids agree. -/
theorem applyFill_if (m : MarketMaker D) (t : Trade) (s : Side) (c : Prop) [Decidable c] :
    SameQuotes m (if c then m.applyFill t s else m) ∧
      (if c then m.applyFill t s else m).netPosition =
        m.netPosition + if c then s.signed t.quantity else 0 := by
  by_cases hc : c
  · simp only [if_pos hc]
    exact ⟨m.applyFill_same t s, m.updatePosition_netPosition _ _⟩
  · simp only [if_neg hc]
    exact ⟨.refl m, (Int64.add_zero _).symm⟩

theorem scanTrade_netPosition (m : MarketMaker D) (t : Trade) :
    (m.scanTrade t).netPosition =
      m.netPosition + Int64.ofInt (netTraded (fun s id => id = m.current s) [t]) := by
  obtain ⟨hsame, hp1⟩ := m.applyFill_if t .buy (t.buyOrderId = m.currentBidId)
  set m1 := if t.buyOrderId = m.currentBidId then m.applyFill t .buy else m with hm1
  have hask : m1.currentAskId = m.currentAskId := congrFun hsame.current .sell
  have hscan : m.scanTrade t =
      if t.sellOrderId = m1.currentAskId then m1.applyFill t .sell else m1 := rfl
  rw [hscan, (m1.applyFill_if t .sell (t.sellOrderId = m1.currentAskId)).2, hp1, hask,
    Int64.add_assoc]
  congr 1
  have hnet : netTraded (fun s id => id = m.current s) [t] =
      (if t.buyOrderId = m.currentBidId then (t.quantity.toNat : Int) else 0) +
        if t.sellOrderId = m.currentAskId then -(t.quantity.toNat : Int) else 0 := by
    by_cases hb : t.buyOrderId = m.currentBidId <;>
      by_cases hs : t.sellOrderId = m.currentAskId <;> simp [netTraded, current, hb, hs]
  rw [hnet, Int64.ofInt_add]
  congr 1
  · split_ifs
    · exact t.quantity.toSigned_eq
    · rfl
  · split_ifs
    · rw [Int64.ofInt_neg]
      exact congrArg Neg.neg t.quantity.toSigned_eq
    · rfl

/-- The scan adds what the current quotes traded. -/
theorem foldl_scanTrade (m : MarketMaker D) (log : List Trade) :
    (log.foldl scanTrade m).netPosition =
      m.netPosition + Int64.ofInt (netTraded (fun s id => id = m.current s) log) := by
  induction log generalizing m with
  | nil => exact (Int64.add_zero _).symm
  | cons t log ih =>
    have hsplit : netTraded (fun s id => id = m.current s) (t :: log) =
        netTraded (fun s id => id = m.current s) [t] +
          netTraded (fun s id => id = m.current s) log := by
      rw [← netTraded_append, List.singleton_append]
    rw [List.foldl_cons, ih, m.scanTrade_netPosition, hsplit, Int64.ofInt_add, Int64.add_assoc]
    simp only [(m.scanTrade_same t).current]

theorem scanned_netPosition (m : MarketMaker D) (e : Engine) (start : Nat) :
    (m.scanned e start).netPosition = m.netPosition + Int64.ofInt
      (netTraded (fun s id => id = m.current s) (e.tradeLog.drop start)) :=
  { m with tickCount := m.tickCount + 1 }.foldl_scanTrade _

theorem traceFills_fst (m : MarketMaker D) (i : Nat) (log : List Trade) :
    (m.traceFills i log).1 = fillsFrom (fun s id => id = m.current s) i log := by
  induction log generalizing m i with
  | nil => rfl
  | cons t log ih =>
    have hc1 := (m.applyFill_if t .buy (t.buyOrderId = m.currentBidId)).1.current
    have hc2 := (m.scanTrade_same t).current
    have hask : (if t.buyOrderId = m.currentBidId then m.applyFill t .buy else m).currentAskId =
        m.currentAskId := congrFun hc1 .sell
    have hrest := ih (m.scanTrade t) (i + 1)
    simp only [hc2] at hrest
    simp only [traceFills, fillsFrom, hask]
    congr 1
    simpa only [scanTrade, hask] using hrest

end MarketMaker

namespace Session.Shared
variable {S : Session} {own : OrderId → Prop} {cur : Side → OrderId} {s : Side}

/-- A limit order that does not reach the other side trades with nobody. -/
theorem quiet_fills (h : S.Sound) {o : Incoming} (hm : o.isMarket = false)
    (hp : S.engine.StandsOff o.side o.price) : (S.engine.book.execution o).fills = [] := by
  unfold Engine.StandsOff at hp
  rw [h.wellFormed.best?_eq] at hp
  unfold Book.execution
  cases hL : S.engine.book.side o.side.opposite with
  | nil => rfl
  | cons r L =>
    have hr : o.reaches r.price = false := by
      have hbest := hp r.price (by simp [hL])
      simpa [Incoming.reaches, hm] using hbest
    rw [fillGreedily_stop (Or.inr hr)]

theorem submit_own (h : S.Shared own cur) (hs : cur s = 0) {id : OrderId} (h0 : id ≠ 0)
    (hfresh : ∀ t, cur t ≠ id) (price : Price) (qty : Quantity) (time now : Timestamp) :
    ∃ a e1 e2, S.engine.acquire id price qty s false = (a, e1) ∧
      e1.processOrder a time now = some e2 ∧
      Shared own (Function.update cur s id) { S with engine := e2 } ∧
      e2.book = (S.engine.book.acquire id price qty s false).2.process
        ⟨a, id, price, qty, s, false⟩ time := by
  obtain ⟨a, e1, e2, ha, he, h2, hb, hk⟩ :=
    h.tracks.submit_own (fun r hr => h.quoted.no_own hs hr) hfresh price qty time now
  refine ⟨a, e1, e2, ha, he, of_tracks h2 ?_ fun c hc => ?_, hb⟩
  · rw [hb]
    have hnonzero : S.engine.book.RestingIds (· ≠ 0) := h.quoted.nonzero
    have hacquired := Book.RestingIds.acquire hnonzero id price qty s false
    exact hacquired.process (o := ⟨a, id, price, qty, s, false⟩) h0 time
  · rw [hk c hc]
    exact (h.hands c hc).1

theorem place (h : S.Shared own cur) (hs : cur s = 0) {id : OrderId} (h0 : id ≠ 0)
    (hfresh : ∀ t, cur t ≠ id) {price : Price} (hp : S.engine.StandsOff s price) (qty : Quantity)
    (time now : Timestamp) :
    ∃ a e1 e2, S.engine.acquire id price qty s false = (a, e1) ∧
      e1.processOrder a time now = some e2 ∧
      Shared own (Function.update cur s id) { S with engine := e2 } ∧
      e2.tradeLog = S.engine.tradeLog := by
  obtain ⟨a, e1, e2, ha, he, h2, hb⟩ := h.submit_own hs h0 hfresh price qty time now
  refine ⟨a, e1, e2, ha, he, h2, ?_⟩
  have hlog := congrArg Book.trades hb
  rw [Book.trades_process_eq, Book.trades_acquire] at hlog
  have hfills : ((S.engine.book.acquire id price qty s false).2.execution
      ⟨a, id, price, qty, s, false⟩).fills = [] := by
    unfold Book.execution
    rw [Book.side_acquire]
    exact quiet_fills h.sound (o := ⟨a, id, price, qty, s, false⟩) rfl hp
  rw [hfills, List.map_nil, List.append_nil] at hlog
  exact hlog

end Session.Shared

namespace MarketMaker
variable {D : Type} {m : MarketMaker D} {S : Session} {own : OrderId → Prop}

@[simp] theorem current_track (m : MarketMaker D) (s : Side) (id : OrderId) (price : Price) :
    (m.track s id price).current = Function.update m.current s id := by
  funext t
  cases s <;> cases t <;> rfl

theorem track_accounts (m : MarketMaker D) (s : Side) (id : OrderId) (price : Price) :
    (m.track s id price).nextOrderId = m.nextOrderId ∧
      (m.track s id price).netPosition = m.netPosition := by
  cases s <;> exact ⟨rfl, rfl⟩

@[simp] theorem current_issue (m : MarketMaker D) (s : Side) (price : Price) :
    (m.issue s price).current = Function.update m.current s m.nextOrderId :=
  m.current_track s m.nextOrderId price

theorem cancelQuote_spec (h : S.Tracks own m.current) (s : Side) (now : Timestamp) :
    ∃ m' e', m.cancelQuote S.engine s now = (m', e') ∧
      Session.Tracks own m'.current { S with engine := e' } ∧
      (e'.book = S.engine.book ∨ e'.book = S.engine.book.cancel (m.current s)) ∧
      (∀ c ∈ S.hands, e'.incoming c = S.engine.incoming c) ∧
      m'.current = Function.update m.current s 0 ∧ m'.nextOrderId = m.nextOrderId ∧
      m'.netPosition = m.netPosition := by
  unfold cancelQuote
  by_cases hs : m.current s = 0
  · have hcur : Function.update m.current s 0 = m.current := by
      rw [← hs]
      exact Function.update_eq_self s m.current
    exact ⟨m, S.engine, if_neg (not_not.mpr hs), h, Or.inl rfl, fun _ _ => rfl, hcur.symm, rfl, rfl⟩
  · obtain ⟨h', hb, hk⟩ := h.cancel_own s now
    obtain ⟨hnext, hpos⟩ := m.track_accounts s 0 0
    rw [← m.current_track s 0 0] at h'
    exact ⟨_, _, if_pos hs, h', Or.inr hb, hk, m.current_track s 0 0, hnext, hpos⟩

theorem cancelExistingQuotes_tracks (h : S.Tracks own m.current) (clock : TickClock) :
    ∃ m' e', m.cancelExistingQuotes S.engine clock = (m', e') ∧
      Session.Tracks own m'.current { S with engine := e' } ∧ e'.tradeLog = S.engine.tradeLog ∧
      (∀ t, ∀ x ∈ e'.book.side t, x ∈ S.engine.book.side t) ∧
      (∀ c ∈ S.hands, e'.incoming c = S.engine.incoming c) ∧
      (∀ s, m'.current s = 0) ∧ m'.nextOrderId = m.nextOrderId ∧ m'.netPosition = m.netPosition := by
  obtain ⟨m1, e1, hbid, h1, hb1, hk1, hcur1, hnext1, hpos1⟩ :=
    cancelQuote_spec h .buy clock.cancelBid
  obtain ⟨m2, e2, hask, h2, hb2, hk2, hcur2, hnext2, hpos2⟩ :=
    cancelQuote_spec h1 .sell clock.cancelAsk
  have hkept {S : Session} (hsound : S.Sound) {id : OrderId} {e : Engine}
      (hb : e.book = S.engine.book ∨ e.book = S.engine.book.cancel id) :
      e.tradeLog = S.engine.tradeLog ∧ ∀ t, ∀ x ∈ e.book.side t, x ∈ S.engine.book.side t := by
    cases hb with
    | inl hb =>
      exact ⟨congrArg Book.trades hb, fun t x hx => hb ▸ hx⟩
    | inr hb =>
      refine ⟨(congrArg Book.trades hb).trans (Book.trades_cancel _ _), fun t x hx => ?_⟩
      rw [hb] at hx
      exact Book.mem_of_cancel hsound.distinct hsound.indexed hx
  obtain ⟨hlog1, hmem1⟩ := hkept h.sound hb1
  obtain ⟨hlog2, hmem2⟩ := hkept h1.sound hb2
  refine ⟨m2, e2, ?_, h2, hlog2.trans hlog1, fun t x hx => hmem1 t x (hmem2 t x hx),
    fun c hc => (hk2 c hc).trans (hk1 c hc), fun s => ?_, hnext2.trans hnext1, hpos2.trans hpos1⟩
  · unfold cancelExistingQuotes
    rw [hbid]
    exact hask
  · rw [hcur2, hcur1]
    cases s <;> rfl

theorem cancelExistingQuotes_spec (h : S.Shared own m.current) (clock : TickClock) :
    ∃ m' e', m.cancelExistingQuotes S.engine clock = (m', e') ∧
      Session.Shared own m'.current { S with engine := e' } ∧ e'.tradeLog = S.engine.tradeLog ∧
      (∀ s, m'.current s = 0) ∧ m'.nextOrderId = m.nextOrderId ∧ m'.netPosition = m.netPosition := by
  obtain ⟨m', e', hcancel, h', hlog, hmem, hk, haccounts⟩ :=
    cancelExistingQuotes_tracks h.tracks clock
  refine ⟨m', e', hcancel, .of_tracks h' (fun t x hx => h.quoted.nonzero t x (hmem t x hx))
    fun c hc => ?_, hlog, haccounts⟩
  rw [hk c hc]
  exact (h.hands c hc).1

theorem placeQuote?_spec (h : S.Shared own m.current) {quote : Option (Price × Quantity)} {s : Side}
    (hs : quote ≠ none → m.current s = 0)
    (hfresh : quote ≠ none → ∀ t, m.current t ≠ m.nextOrderId)
    (hq : m.QuietQuote S.engine quote s) (time now : Timestamp) :
    ∃ m' e', m.placeQuote? S.engine quote s time now = some (m', e') ∧
      Session.Shared own m'.current { S with engine := e' } ∧ e'.tradeLog = S.engine.tradeLog ∧
      m'.netPosition = m.netPosition ∧ (quote = none ∧ m' = m ∨
        m'.current = Function.update m.current s m.nextOrderId ∧
          m'.nextOrderId = m.nextOrderId + 1) := by
  cases quote with
  | none => exact ⟨m, S.engine, rfl, h, rfl, rfl, Or.inl ⟨rfl, rfl⟩⟩
  | some q =>
    obtain ⟨h0, hp⟩ := hq q rfl
    obtain ⟨a, e1, e2, ha, he, h2, hlog⟩ :=
      h.place (hs (by simp)) h0 (hfresh (by simp)) hp q.2 time now
    rw [← m.current_issue s q.1] at h2
    refine ⟨m.issue s q.1, e2, ?_, h2, hlog, (m.track_accounts s m.nextOrderId q.1).2,
      Or.inr ⟨m.current_issue s q.1, rfl⟩⟩
    simp only [placeQuote?, placeQuote, ha, he, Option.map_some]

variable [Double D]

theorem current_new (cfg : MarketMakerConfig) : (new cfg : MarketMaker D).current = fun _ => 0 := by
  funext s
  cases s <;> rfl

/-- A tick up to its quotes: it has traded with nobody, and replaces no quote that is there. -/
theorem prepare_spec (h : S.Shared own m.current) (start : Nat) (clock : TickClock) :
    ∃ m' e' bid ask, m.prepare S.engine start clock = ((m', e'), bid, ask) ∧
      Session.Shared own m'.current { S with engine := e' } ∧ e'.tradeLog = S.engine.tradeLog ∧
      (∀ s, m'.current s = m.current s ∨ m'.current s = 0) ∧ m'.nextOrderId = m.nextOrderId ∧
      (bid ≠ none ∨ ask ≠ none → ∀ s, m'.current s = 0) ∧
      m'.netPosition = m.netPosition + if detects S.engine then Int64.ofInt
        (netTraded (fun s id => id = m.current s) (S.engine.tradeLog.drop start)) else 0 := by
  have hscan := m.scanned_same S.engine start
  have hscanPos := m.scanned_netPosition S.engine start
  rcases m.prepare_cases S.engine start clock with
    ⟨-, m', hsame, hpos, -, hprep⟩ | ⟨hl, -, m2, e2, m', hcancel, hsame, hpos, hprep⟩ |
    ⟨-, -, hd, m1, ⟨bid, ask⟩, hsame, hpos, -, hprep⟩
  · refine ⟨m', S.engine, none, none, hprep, hsame.current ▸ h, rfl,
      fun s => Or.inl (congrFun hsame.current s), hsame.nextOrderId, by simp, ?_⟩
    rw [hpos]
    split_ifs
    · exact hscanPos
    · exact (Int64.add_zero _).symm
  · have hkilled : S.Shared own { m.scanned S.engine start with killed := true }.current :=
      hscan.current ▸ h
    obtain ⟨m2', e2', hcancel', h2, hlog, hzero, hnext, hpos2⟩ :=
      cancelExistingQuotes_spec hkilled clock
    obtain ⟨rfl, rfl⟩ := Prod.mk.inj (hcancel.symm.trans hcancel')
    refine ⟨m', e2, none, none, hprep, hsame.current ▸ h2, hlog, fun s => Or.inr ?_,
      hsame.nextOrderId.trans (hnext.trans hscan.nextOrderId), by simp, ?_⟩
    · rw [hsame.current]
      exact hzero s
    · rw [if_pos hl.1, hpos, hpos2]
      exact hscanPos
  · obtain ⟨m2, e2, hcancel, h2, hlog, hzero, hnext, hpos2⟩ :=
      cancelExistingQuotes_spec (hsame.current ▸ h : S.Shared own m1.current) clock
    refine ⟨m2, e2, bid, ask, by rw [hprep, hcancel], h2, hlog, fun s => Or.inr (hzero s),
      hnext.trans hsame.nextOrderId, fun _ => hzero, ?_⟩
    rw [if_pos hd, hpos2, hpos]
    exact hscanPos

theorem mem_idsBetween {a : OrderId} :
    a ∈ Desk.idsBetween a (a + 1) ∧ a ∈ Desk.idsBetween a (a + 1 + 1) ∧
      a + 1 ∈ Desk.idsBetween a (a + 1 + 1) := by
  have h1 : a + 1 - a = 1 := by grind
  have h2 : a + 1 + 1 - a = 2 := by grind
  have hzero : a + UInt64.ofNat 0 = a := UInt64.add_zero a
  refine ⟨?_, ?_, ?_⟩
  · rw [Desk.idsBetween, h1]
    exact List.mem_map.mpr ⟨0, by decide, hzero⟩
  · rw [Desk.idsBetween, h2]
    exact List.mem_map.mpr ⟨0, by decide, hzero⟩
  · rw [Desk.idsBetween, h2]
    exact List.mem_map.mpr ⟨1, by decide, rfl⟩

/-- A quiet tick: it returns, adds the window's own trades to the position, trades with
nobody, and tracks quotes that it had or that it issues. -/
theorem onTick_spec (h : S.Shared own m.current) {start : Nat} {clock : TickClock}
    (hq : m.QuietTick S.engine start clock) :
    ∃ m' e', m.onTick S.engine start clock = some (m', e') ∧
      Session.Shared own m'.current { S with engine := e' } ∧ e'.tradeLog = S.engine.tradeLog ∧
      (m'.netPosition = m.netPosition + if detects S.engine then Int64.ofInt
        (netTraded (fun s id => id = m.current s) (S.engine.tradeLog.drop start)) else 0) ∧
      ∀ s, m'.current s = m.current s ∨ m'.current s = 0 ∨
        m'.current s ∈ Desk.idsBetween m.nextOrderId m'.nextOrderId := by
  obtain ⟨m1, e1, bid, ask, hprep, h1, hlog1, hcur1, hnext1, hzero, hpos1⟩ :=
    prepare_spec h start clock
  obtain ⟨hqbid, hqask⟩ := hq.2
  rw [hprep] at hqbid hqask
  have hfresh1 : bid ≠ none → ∀ t, m1.current t ≠ m1.nextOrderId := by
    intro hb t
    obtain ⟨q, hq⟩ := Option.ne_none_iff_exists'.mp hb
    rw [hzero (Or.inl hb) t]
    exact (hqbid q hq).1.symm
  obtain ⟨m2, e2, hbid, h2, hlog2, hpos2, hcase2⟩ := placeQuote?_spec h1 (s := .buy)
    (fun hb => hzero (Or.inl hb) .buy) hfresh1 hqbid clock.bidTime clock.bidNow
  have hq2 := hqask (m2, e2) hbid
  have hsell2 : ask ≠ none → m2.current .sell = 0 := by
    intro ha
    cases hcase2 with
    | inl h =>
      obtain ⟨-, rfl⟩ := h
      exact hzero (Or.inr ha) .sell
    | inr hcur2 =>
      rw [hcur2.1]
      exact hzero (Or.inr ha) .sell
  have hfresh2 : ask ≠ none → ∀ t, m2.current t ≠ m2.nextOrderId := by
    intro ha t
    obtain ⟨q, hq⟩ := Option.ne_none_iff_exists'.mp ha
    have h0 := (hq2 q hq).1
    cases hcase2 with
    | inl h =>
      obtain ⟨-, rfl⟩ := h
      rw [hzero (Or.inr ha) t]
      exact h0.symm
    | inr h =>
      obtain ⟨hcur2, hnext2⟩ := h
      cases t
      · rw [hcur2, hnext2, Function.update_self]
        grind
      · rw [hsell2 ha]
        exact h0.symm
  obtain ⟨m3, e3, hask, h3, hlog3, hpos3, hcase3⟩ :=
    placeQuote?_spec h2 (s := .sell) hsell2 hfresh2 hq2 clock.askTime clock.askNow
  refine ⟨m3, e3, ?_, h3, hlog3.trans (hlog2.trans hlog1), hpos3.trans (hpos2.trans hpos1), ?_⟩
  · unfold onTick
    rw [hprep]
    simp only [Option.bind_eq_bind, hbid, Option.bind_some]
    exact hask
  · intro s
    obtain ⟨hmem1, hmem2, hmem3⟩ := mem_idsBetween (a := m1.nextOrderId)
    have hold := hcur1 s
    rw [← hnext1]
    rcases hcase2 with ⟨-, rfl⟩ | ⟨hcur2, hnext2⟩ <;> rcases hcase3 with ⟨-, rfl⟩ | ⟨hcur3, hnext3⟩
    · exact hold.imp id Or.inl
    · rw [hnext3, hcur3]
      cases s
      · exact hold.imp id Or.inl
      · exact Or.inr (Or.inr hmem1)
    · rw [hnext2, hcur2]
      cases s
      · exact Or.inr (Or.inr hmem1)
      · exact hold.imp id Or.inl
    · rw [hnext3, hcur3, hcur2, hnext2]
      cases s
      · exact Or.inr (Or.inr hmem2)
      · exact Or.inr (Or.inr hmem3)

end MarketMaker

end LobCity
