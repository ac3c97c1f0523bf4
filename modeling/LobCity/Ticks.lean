import LobCity.Desk

/-! What a tick of the market maker does before it places quotes, said once: it leaves them,
withdraws them for good when the loss is too large, or withdraws them for others. -/
namespace LobCity

def Engine.midPrice (e : Engine) : Price := (e.getBestBid + e.getBestAsk) / 2

namespace MarketMaker
variable {D : Type}

def currentPx (m : MarketMaker D) : Side → Price
  | .buy => m.currentBidPx
  | .sell => m.currentAskPx

/-- Two states that differ in the accounts only. -/
structure SameQuotes (m m' : MarketMaker D) : Prop where
  config : m'.config = m.config
  current : m'.current = m.current
  currentPx : m'.currentPx = m.currentPx
  nextOrderId : m'.nextOrderId = m.nextOrderId
  killed : m'.killed = m.killed

section Accounts
variable {m m' m'' : MarketMaker D}

theorem SameQuotes.refl (m : MarketMaker D) : SameQuotes m m := ⟨rfl, rfl, rfl, rfl, rfl⟩

theorem SameQuotes.trans (h : SameQuotes m m') (h' : SameQuotes m' m'') : SameQuotes m m'' :=
  ⟨h'.config.trans h.config, h'.current.trans h.current, h'.currentPx.trans h.currentPx,
    h'.nextOrderId.trans h.nextOrderId, h'.killed.trans h.killed⟩

theorem track_switches (m : MarketMaker D) (s : Side) (id : OrderId) (price : Price) :
    (m.track s id price).config = m.config ∧ (m.track s id price).killed = m.killed := by
  cases s <;> exact ⟨rfl, rfl⟩

theorem cancelQuote_switches (m : MarketMaker D) (e : Engine) (s : Side) (now : Timestamp) :
    (m.cancelQuote e s now).1.config = m.config ∧ (m.cancelQuote e s now).1.killed = m.killed := by
  unfold cancelQuote
  split_ifs
  · exact m.track_switches s 0 0
  · exact ⟨rfl, rfl⟩

theorem cancelExistingQuotes_switches (m : MarketMaker D) (e : Engine) (clock : TickClock) :
    (m.cancelExistingQuotes e clock).1.config = m.config ∧
      (m.cancelExistingQuotes e clock).1.killed = m.killed := by
  obtain ⟨hc1, hk1⟩ := m.cancelQuote_switches e .buy clock.cancelBid
  obtain ⟨hc2, hk2⟩ := (m.cancelQuote e .buy clock.cancelBid).1.cancelQuote_switches
    (m.cancelQuote e .buy clock.cancelBid).2 .sell clock.cancelAsk
  exact ⟨hc2.trans hc1, hk2.trans hk1⟩

variable [Double D]

theorem updatePosition_same (m : MarketMaker D) (q : Int64) (px : D) :
    SameQuotes m (m.updatePosition q px) := by
  unfold updatePosition
  split_ifs <;> exact ⟨rfl, rfl, rfl, rfl, rfl⟩

theorem applyFill_same (m : MarketMaker D) (t : Trade) (s : Side) :
    SameQuotes m (m.applyFill t s) :=
  have h := m.updatePosition_same (s.signed t.quantity)
    (Double.ofInt64 t.price / Double.ofInt64 10000)
  ⟨h.config, h.current, h.currentPx, h.nextOrderId, h.killed⟩

theorem scanTrade_same (m : MarketMaker D) (t : Trade) : SameQuotes m (m.scanTrade t) := by
  unfold scanTrade
  dsimp only
  split_ifs
  · exact (m.applyFill_same t .buy).trans (applyFill_same _ t .sell)
  · exact m.applyFill_same t .buy
  · exact m.applyFill_same t .sell
  · exact SameQuotes.refl m

theorem foldl_scanTrade_same (m : MarketMaker D) (log : List Trade) :
    SameQuotes m (log.foldl scanTrade m) := by
  induction log generalizing m with
  | nil => exact SameQuotes.refl m
  | cons t log ih => exact (m.scanTrade_same t).trans (ih (m.scanTrade t))

end Accounts

section Prepare
variable [Double D]

def scanned (m : MarketMaker D) (e : Engine) (start : Nat) : MarketMaker D :=
  { m with tickCount := m.tickCount + 1 }.processFills e.tradeLog start

/-- The tick finds both sides of the book and a total PnL below `-maxLoss`. -/
def Loses (m : MarketMaker D) (e : Engine) (start : Nat) : Prop :=
  detects e = true ∧
    let m1 := m.scanned e start
    Double.lt ((m1.realizedPnl + m1.computeUnrealizedPnl e.midPrice) * Double.ofInt64 10000)
      (Double.ofInt64 (-m.config.maxLoss)) = true

theorem scanned_same (m : MarketMaker D) (e : Engine) (start : Nat) :
    SameQuotes m (m.scanned e start) :=
  have h := { m with tickCount := m.tickCount + 1 }.foldl_scanTrade_same (e.tradeLog.drop start)
  ⟨h.config, h.current, h.currentPx, h.nextOrderId, h.killed⟩

/-- Steps 1 and 2: the loss withdraws the quotes, if there was none before. -/
theorem markToMarket_cases (m : MarketMaker D) (e : Engine) (start : Nat) (clock : TickClock)
    (hd : detects e = true) :
    ∃ x history, { m with tickCount := m.tickCount + 1 }.markToMarket e start e.midPrice clock =
        ({ x.1 with pnlHistory := history }, x.2) ∧
      (m.Loses e start ∧ m.killed = false ∧
          { m.scanned e start with killed := true }.cancelExistingQuotes e clock = x ∨
        (m.Loses e start → m.killed = true) ∧ x = (m.scanned e start, e)) := by
  have hsame := m.scanned_same e start
  set m1 := m.scanned e start with hm1
  set pnl := m1.realizedPnl + m1.computeUnrealizedPnl e.midPrice with hpnl
  have hloses : m.Loses e start ↔
      Double.lt (pnl * Double.ofInt64 10000) (Double.ofInt64 (-m1.config.maxLoss)) = true := by
    rw [hsame.config]
    exact and_iff_right hd
  have hmark (x : MarketMaker D × Engine)
      (hx : (if Double.lt (pnl * Double.ofInt64 10000) (Double.ofInt64 (-m1.config.maxLoss)) ∧
          !m1.killed then { m1 with killed := true }.cancelExistingQuotes e clock else (m1, e)) = x) :
      ∃ history, { m with tickCount := m.tickCount + 1 }.markToMarket e start e.midPrice clock =
        ({ x.1 with pnlHistory := history }, x.2) := by
    subst hx
    exact ⟨_, rfl⟩
  by_cases hkill : m.Loses e start ∧ m.killed = false
  · obtain ⟨history, hx⟩ := hmark _ (if_pos ⟨hloses.mp hkill.1, by simp [hsame.killed, hkill.2]⟩)
    exact ⟨_, history, hx, Or.inl ⟨hkill.1, hkill.2, rfl⟩⟩
  · have hstay : m.Loses e start → m.killed = true := by simpa using hkill
    obtain ⟨history, hx⟩ := hmark (m1, e) (if_neg fun h => by
      have hk := hstay (hloses.mpr h.1)
      simp [hsame.killed, hk] at h)
    exact ⟨_, history, hx, Or.inr ⟨hstay, rfl⟩⟩

theorem prepare_cases (m : MarketMaker D) (e : Engine) (start : Nat) (clock : TickClock) :
    ((m.Loses e start → m.killed = true) ∧ ∃ m', SameQuotes m m' ∧
      (m'.netPosition = if detects e then (m.scanned e start).netPosition else m.netPosition) ∧
      (detects e = true → m.killed = false → (m.scanned e start).requote e.midPrice = none) ∧
      m.prepare e start clock = ((m', e), none, none)) ∨
    (m.Loses e start ∧ m.killed = false ∧ ∃ m2 e2 m',
      { m.scanned e start with killed := true }.cancelExistingQuotes e clock = (m2, e2) ∧
      SameQuotes m2 m' ∧ m'.netPosition = m2.netPosition ∧
      m.prepare e start clock = ((m', e2), none, none)) ∨
    (¬ m.Loses e start ∧ m.killed = false ∧ detects e = true ∧ ∃ m1 quotes,
      SameQuotes m m1 ∧ m1.netPosition = (m.scanned e start).netPosition ∧
      (m.scanned e start).requote e.midPrice = some quotes ∧
      m.prepare e start clock = (m1.cancelExistingQuotes e clock, quotes)) := by
  by_cases hd : detects e = true
  · have hmark : m.prepare e start clock =
        let x := { m with tickCount := m.tickCount + 1 }.markToMarket e start e.midPrice clock
        if x.1.killed then (x, none, none)
        else (x.1.requote e.midPrice).elim (x, none, none) fun quotes =>
          (x.1.cancelExistingQuotes x.2 clock, quotes) := by
      unfold prepare
      rw [if_pos hd]
      dsimp only [Engine.midPrice]
      split_ifs
      · rfl
      · split <;> simp only [*, Option.elim]
    have hsame := m.scanned_same e start
    obtain ⟨x, history, hx, hcase⟩ := m.markToMarket_cases e start clock hd
    rw [hx] at hmark
    dsimp only at hmark
    cases hcase with
    | inl h =>
      obtain ⟨hl, hk, hcancel⟩ := h
      have hkilled : x.1.killed = true := by
        rw [← hcancel]
        exact (cancelExistingQuotes_switches _ e clock).2
      rw [if_pos hkilled] at hmark
      exact Or.inr (Or.inl ⟨hl, hk, x.1, x.2, { x.1 with pnlHistory := history }, hcancel,
        ⟨rfl, rfl, rfl, rfl, rfl⟩, rfl, hmark⟩)
    | inr hstay =>
      obtain ⟨hstay, rfl⟩ := hstay
      have hfirst : SameQuotes m { m.scanned e start with pnlHistory := history } :=
        hsame.trans ⟨rfl, rfl, rfl, rfl, rfl⟩
      by_cases hk : (m.scanned e start).killed = true
      · rw [if_pos hk] at hmark
        rw [hsame.killed] at hk
        exact Or.inl ⟨fun _ => hk, _, hfirst, (if_pos hd).symm,
          fun _ hlive => absurd (hlive.symm.trans hk) Bool.false_ne_true, hmark⟩
      · have hrequote : { m.scanned e start with pnlHistory := history }.requote e.midPrice =
            (m.scanned e start).requote e.midPrice := rfl
        rw [if_neg hk, hrequote] at hmark
        rw [hsame.killed] at hk
        cases hq : (m.scanned e start).requote e.midPrice with
        | none =>
          rw [hq] at hmark
          exact Or.inl ⟨hstay, _, hfirst, (if_pos hd).symm, fun _ _ => rfl, hmark⟩
        | some quotes =>
          rw [hq] at hmark
          exact Or.inr (Or.inr ⟨fun hl => hk (hstay hl), by simpa using hk, hd, _, quotes, hfirst,
            rfl, rfl, hmark⟩)
  · refine Or.inl ⟨fun h => absurd h.1 hd, { m with tickCount := m.tickCount + 1 },
      ⟨rfl, rfl, rfl, rfl, rfl⟩, (if_neg hd).symm, fun h => absurd h hd, ?_⟩
    unfold prepare
    rw [if_neg hd]

end Prepare
end MarketMaker
end LobCity
