import LobCity.FillAccounting

/-! What the market maker counts for its report: ticks, fills, quotes, and a snapshot for every
tick that gets to the fill detection. -/
namespace LobCity
open Library

namespace MarketMaker
variable {D : Type}

structure SameTallies (m m' : MarketMaker D) : Prop where
  pnlHistory : m'.pnlHistory = m.pnlHistory
  tickCount : m'.tickCount = m.tickCount
  totalFills : m'.totalFills = m.totalFills
  totalQuoteUpdates : m'.totalQuoteUpdates = m.totalQuoteUpdates

namespace SameTallies
variable {m m' m'' : MarketMaker D}

theorem refl (m : MarketMaker D) : SameTallies m m := ⟨rfl, rfl, rfl, rfl⟩

theorem trans (h : SameTallies m m') (h' : SameTallies m' m'') : SameTallies m m'' :=
  ⟨h'.pnlHistory.trans h.pnlHistory, h'.tickCount.trans h.tickCount,
    h'.totalFills.trans h.totalFills, h'.totalQuoteUpdates.trans h.totalQuoteUpdates⟩

end SameTallies

theorem cancelQuote_tallies (m : MarketMaker D) (e : Engine) (s : Side) (now : Timestamp) :
    SameTallies m (m.cancelQuote e s now).1 := by
  unfold cancelQuote
  split_ifs
  · cases s <;> exact ⟨rfl, rfl, rfl, rfl⟩
  · exact .refl m

theorem cancelExistingQuotes_tallies (m : MarketMaker D) (e : Engine) (clock : TickClock) :
    SameTallies m (m.cancelExistingQuotes e clock).1 :=
  (m.cancelQuote_tallies e .buy clock.cancelBid).trans
    ((m.cancelQuote e .buy clock.cancelBid).1.cancelQuote_tallies _ .sell clock.cancelAsk)

theorem cancelExistingQuotes_holding (m : MarketMaker D) (e : Engine) (clock : TickClock) :
    (m.cancelExistingQuotes e clock).1.netPosition = m.netPosition ∧
      (m.cancelExistingQuotes e clock).1.realizedPnl = m.realizedPnl ∧
      (m.cancelExistingQuotes e clock).1.nextOrderId = m.nextOrderId := by
  have hquote (m : MarketMaker D) (e : Engine) (s : Side) (now : Timestamp) :
      (m.cancelQuote e s now).1.netPosition = m.netPosition ∧
        (m.cancelQuote e s now).1.realizedPnl = m.realizedPnl ∧
        (m.cancelQuote e s now).1.nextOrderId = m.nextOrderId := by
    unfold cancelQuote
    split_ifs
    · cases s <;> exact ⟨rfl, rfl, rfl⟩
    · exact ⟨rfl, rfl, rfl⟩
  have hbid := hquote m e .buy clock.cancelBid
  have hask := hquote (m.cancelQuote e .buy clock.cancelBid).1
    (m.cancelQuote e .buy clock.cancelBid).2 .sell clock.cancelAsk
  exact ⟨hask.1.trans hbid.1, hask.2.1.trans hbid.2.1, hask.2.2.trans hbid.2.2⟩

theorem placeQuote?_tallies {m m' : MarketMaker D} {e e' : Engine}
    {quote : Option (Price × Quantity)} {s : Side} {time now : Timestamp}
    (h : m.placeQuote? e quote s time now = some (m', e')) :
    m'.pnlHistory = m.pnlHistory ∧ m'.tickCount = m.tickCount ∧ m'.totalFills = m.totalFills ∧
      m'.totalQuoteUpdates - m.totalQuoteUpdates = m'.nextOrderId - m.nextOrderId := by
  cases quote with
  | none =>
    obtain ⟨rfl, -⟩ := Prod.mk.inj (Option.some.inj h)
    exact ⟨rfl, rfl, rfl, by rw [UInt64.sub_self, UInt64.sub_self]⟩
  | some q =>
    obtain ⟨e2, -, hm⟩ := Option.map_eq_some_iff.mp h
    obtain ⟨rfl, -⟩ := Prod.mk.inj hm
    cases s with
    | buy => exact ⟨rfl, rfl, rfl, by grind [issue, track]⟩
    | sell => exact ⟨rfl, rfl, rfl, by grind [issue, track]⟩

variable [Double D]

theorem updatePosition_tallies (m : MarketMaker D) (qtyChange : Int64) (fillPrice : D) :
    SameTallies m (m.updatePosition qtyChange fillPrice) := by
  unfold updatePosition
  dsimp only
  split_ifs <;> exact ⟨rfl, rfl, rfl, rfl⟩

theorem applyFill_tallies (m : MarketMaker D) (t : Trade) (s : Side) :
    SameTallies { m with totalFills := m.totalFills + 1 } (m.applyFill t s) := by
  have h := m.updatePosition_tallies (s.signed t.quantity)
    (Double.ofInt64 t.price / Double.ofInt64 10000)
  exact ⟨h.pnlHistory, h.tickCount, congrArg (· + 1) h.totalFills, h.totalQuoteUpdates⟩

theorem applyFill_tallies_if (m : MarketMaker D) (t : Trade) (s : Side) (c : Prop) [Decidable c]
    (i : Nat) :
    SameTallies { m with totalFills :=
        m.totalFills + UInt64.ofNat (if c then [(i, s)] else []).length }
      (if c then m.applyFill t s else m) := by
  split_ifs
  · exact m.applyFill_tallies t s
  · exact ⟨rfl, rfl, (UInt64.add_zero _).symm, rfl⟩

theorem traceFills_tallies (m : MarketMaker D) (i : Nat) (log : List Trade) :
    SameTallies { m with totalFills :=
        m.totalFills + UInt64.ofNat (m.traceFills i log).1.length } (m.traceFills i log).2 := by
  induction log generalizing m i with
  | nil => exact ⟨rfl, rfl, (UInt64.add_zero _).symm, rfl⟩
  | cons t log ih =>
    set m1 := if t.buyOrderId = m.currentBidId then m.applyFill t .buy else m with hm1
    set m2 := if t.sellOrderId = m1.currentAskId then m1.applyFill t .sell else m1 with hm2
    have h1 := m.applyFill_tallies_if t .buy (t.buyOrderId = m.currentBidId) i
    have h2 := m1.applyFill_tallies_if t .sell (t.sellOrderId = m1.currentAskId) i
    have h3 := ih m2 (i + 1)
    refine ⟨h3.pnlHistory.trans (h2.pnlHistory.trans h1.pnlHistory),
      h3.tickCount.trans (h2.tickCount.trans h1.tickCount), ?_,
      h3.totalQuoteUpdates.trans (h2.totalQuoteUpdates.trans h1.totalQuoteUpdates)⟩
    have hfills : (m.traceFills i (t :: log)).1.length =
        (if t.buyOrderId = m.currentBidId then [(i, Side.buy)] else []).length +
          (if t.sellOrderId = m1.currentAskId then [(i, Side.sell)] else []).length +
          (m2.traceFills (i + 1) log).1.length := by
      rw [← List.length_append, ← List.length_append]
      rfl
    refine h3.totalFills.trans ?_
    show m2.totalFills + _ = m.totalFills + _
    rw [show m2.totalFills = _ from h2.totalFills, show m1.totalFills = _ from h1.totalFills, hfills,
      UInt64.ofNat_add, UInt64.ofNat_add]
    dsimp only
    grind

theorem scanned_tallies (m : MarketMaker D) (e : Engine) (start : Nat) :
    SameTallies { m with
        tickCount := m.tickCount + 1
        totalFills := m.totalFills +
          UInt64.ofNat (m.traceFills start (e.tradeLog.drop start)).1.length }
      (m.scanned e start) := by
  set m0 := { m with tickCount := m.tickCount + 1 } with hm0
  have h := m0.traceFills_tallies start (e.tradeLog.drop start)
  have hsame : (m0.traceFills start (e.tradeLog.drop start)).1 =
      (m.traceFills start (e.tradeLog.drop start)).1 := by
    rw [traceFills_fst, traceFills_fst]
    rfl
  rw [hsame, traceFills_snd] at h
  exact h

def snapshot (m : MarketMaker D) (e : Engine) (start : Nat) : PnlSnapshot D :=
  let m1 := m.scanned e start
  ⟨m1.tickCount, m1.netPosition, m1.realizedPnl, m1.computeUnrealizedPnl e.midPrice,
    m1.realizedPnl + m1.computeUnrealizedPnl e.midPrice, e.midPrice⟩

theorem markToMarket_tallies (m : MarketMaker D) (e : Engine) (start : Nat) (clock : TickClock) :
    SameTallies { m.scanned e start with pnlHistory := m.pnlHistory ++ [m.snapshot e start] }
      ({ m with tickCount := m.tickCount + 1 }.markToMarket e start e.midPrice clock).1 := by
  have hscan := m.scanned_tallies e start
  set m1 := m.scanned e start with hm1
  have hcancelled := cancelExistingQuotes_tallies { m1 with killed := true } e clock
  obtain ⟨hnet, hrealized, -⟩ := cancelExistingQuotes_holding { m1 with killed := true } e clock
  set x := { m1 with killed := true }.cancelExistingQuotes e clock with hx
  have hstopped : SameTallies m1 x.1 := ⟨hcancelled.pnlHistory, hcancelled.tickCount,
    hcancelled.totalFills, hcancelled.totalQuoteUpdates⟩
  have hend (m2 : MarketMaker D) (h : SameTallies m1 m2) (hn : m2.netPosition = m1.netPosition)
      (hr : m2.realizedPnl = m1.realizedPnl) :
      SameTallies { m1 with pnlHistory := m.pnlHistory ++ [m.snapshot e start] }
        { m2 with pnlHistory := m2.pnlHistory ++ [⟨m2.tickCount, m2.netPosition, m2.realizedPnl,
          m1.computeUnrealizedPnl e.midPrice,
          m1.realizedPnl + m1.computeUnrealizedPnl e.midPrice, e.midPrice⟩] } := by
    refine ⟨?_, h.tickCount, h.totalFills, h.totalQuoteUpdates⟩
    show m2.pnlHistory ++ _ = m.pnlHistory ++ _
    rw [h.pnlHistory, hscan.pnlHistory, h.tickCount, hn, hr]
    rfl
  have hmark : ({ m with tickCount := m.tickCount + 1 }.markToMarket e start e.midPrice clock).1 =
      let m2 := (if Double.lt ((m1.realizedPnl + m1.computeUnrealizedPnl e.midPrice) *
          Double.ofInt64 10000) (Double.ofInt64 (-m1.config.maxLoss)) ∧ !m1.killed then x
        else (m1, e)).1
      { m2 with pnlHistory := m2.pnlHistory ++ [⟨m2.tickCount, m2.netPosition, m2.realizedPnl,
        m1.computeUnrealizedPnl e.midPrice,
        m1.realizedPnl + m1.computeUnrealizedPnl e.midPrice, e.midPrice⟩] } := rfl
  rw [hmark]
  split_ifs
  · exact hend x.1 hstopped hnet hrealized
  · exact hend m1 (.refl m1) rfl rfl

/-- What a tick adds to the counts. -/
structure Tallied (m m' : MarketMaker D) (e : Engine) (start : Nat) : Prop where
  tickCount : m'.tickCount = m.tickCount + 1
  pnlHistory : m'.pnlHistory =
    m.pnlHistory ++ if detects e then [m.snapshot e start] else []
  totalFills : m'.totalFills = m.totalFills +
    if detects e then UInt64.ofNat (m.traceFills start (e.tradeLog.drop start)).1.length else 0
  totalQuoteUpdates : m'.totalQuoteUpdates - m.totalQuoteUpdates = m'.nextOrderId - m.nextOrderId

theorem prepare_tallies (m : MarketMaker D) (e : Engine) (start : Nat) (clock : TickClock) :
    SameTallies { m with
        tickCount := m.tickCount + 1
        pnlHistory := m.pnlHistory ++ if detects e then [m.snapshot e start] else []
        totalFills := m.totalFills + if detects e then
          UInt64.ofNat (m.traceFills start (e.tradeLog.drop start)).1.length else 0 }
      (m.prepare e start clock).1.1 := by
  unfold prepare
  by_cases hd : detects e = true
  · rw [if_pos hd]
    simp only [hd, if_true]
    have hscan := m.scanned_tallies e start
    have hmark := m.markToMarket_tallies e start clock
    have hdetected : SameTallies { m with
        tickCount := m.tickCount + 1
        pnlHistory := m.pnlHistory ++ [m.snapshot e start]
        totalFills := m.totalFills +
          UInt64.ofNat (m.traceFills start (e.tradeLog.drop start)).1.length }
        ({ m with tickCount := m.tickCount + 1 }.markToMarket e start e.midPrice clock).1 :=
      ⟨hmark.pnlHistory, hmark.tickCount.trans hscan.tickCount,
        hmark.totalFills.trans hscan.totalFills,
        hmark.totalQuoteUpdates.trans hscan.totalQuoteUpdates⟩
    rw [Engine.midPrice] at hdetected
    split_ifs
    · exact hdetected
    · split
      · exact hdetected
      · exact hdetected.trans (cancelExistingQuotes_tallies _ _ clock)
  · rw [if_neg hd]
    simp only [hd, List.append_nil]
    exact ⟨rfl, rfl, (UInt64.add_zero _).symm, rfl⟩

theorem prepare_nextOrderId (m : MarketMaker D) (e : Engine) (start : Nat) (clock : TickClock) :
    (m.prepare e start clock).1.1.nextOrderId = m.nextOrderId := by
  rcases m.prepare_cases e start clock with
    ⟨-, m1, hsame, -, -, hprep⟩ | ⟨-, -, m2, e2, m1, hcancel, hsame, -, hprep⟩ |
    ⟨-, -, -, m1, quotes, hsame, -, -, hprep⟩
  · rw [hprep]
    exact hsame.nextOrderId
  · have hnext := (cancelExistingQuotes_holding { m.scanned e start with killed := true } e clock).2.2
    rw [hcancel] at hnext
    rw [hprep]
    exact hsame.nextOrderId.trans (hnext.trans (m.scanned_same e start).nextOrderId)
  · rw [hprep]
    exact (m1.cancelExistingQuotes_holding e clock).2.2.trans hsame.nextOrderId

theorem onTick_next {m m' : MarketMaker D} {e e' : Engine} {start : Nat} {clock : TickClock}
    (h : m.onTick e start clock = some (m', e')) :
    m'.nextOrderId = m.nextOrderId ∨ m'.nextOrderId = m.nextOrderId + 1 ∨
      m'.nextOrderId = m.nextOrderId + 1 + 1 := by
  have hquote {m m' : MarketMaker D} {e e' : Engine} {quote : Option (Price × Quantity)} {s : Side}
      {time now : Timestamp} (h : m.placeQuote? e quote s time now = some (m', e')) :
      m'.nextOrderId = m.nextOrderId ∨ m'.nextOrderId = m.nextOrderId + 1 := by
    cases quote with
    | none =>
      obtain ⟨rfl, -⟩ := Prod.mk.inj (Option.some.inj h)
      exact Or.inl rfl
    | some q =>
      obtain ⟨e2, -, hm⟩ := Option.map_eq_some_iff.mp h
      obtain ⟨rfl, -⟩ := Prod.mk.inj hm
      exact Or.inr rfl
  have hnext := m.prepare_nextOrderId e start clock
  obtain ⟨⟨m2, e2⟩, hbid, hask⟩ := Option.bind_eq_some_iff.mp h
  have hfirst : m2.nextOrderId = (m.prepare e start clock).1.1.nextOrderId ∨
      m2.nextOrderId = (m.prepare e start clock).1.1.nextOrderId + 1 := hquote hbid
  rw [hnext] at hfirst
  rcases hquote hask with hsecond | hsecond <;> rw [hsecond]
  · exact hfirst.imp (fun h => h) Or.inl
  · rcases hfirst with hfirst | hfirst <;> rw [hfirst]
    · exact Or.inr (Or.inl rfl)
    · exact Or.inr (Or.inr rfl)

theorem onTick_tallied {m m' : MarketMaker D} {e e' : Engine} {start : Nat} {clock : TickClock}
    (h : m.onTick e start clock = some (m', e')) : m.Tallied m' e start := by
  have hprep := m.prepare_tallies e start clock
  obtain ⟨⟨m2, e2⟩, hbid, hask⟩ := Option.bind_eq_some_iff.mp h
  obtain ⟨hhistory1, htick1, hfills1, hquotes1⟩ := placeQuote?_tallies hbid
  obtain ⟨hhistory2, htick2, hfills2, hquotes2⟩ := placeQuote?_tallies hask
  have hnext := m.prepare_nextOrderId e start clock
  refine ⟨htick2.trans (htick1.trans hprep.tickCount),
    hhistory2.trans (hhistory1.trans hprep.pnlHistory),
    hfills2.trans (hfills1.trans hprep.totalFills), ?_⟩
  have hquotes : (m.prepare e start clock).1.1.totalQuoteUpdates = m.totalQuoteUpdates :=
    hprep.totalQuoteUpdates
  have hfirst : m2.totalQuoteUpdates - (m.prepare e start clock).1.1.totalQuoteUpdates =
      m2.nextOrderId - (m.prepare e start clock).1.1.nextOrderId := hquotes1
  rw [hquotes, hnext] at hfirst
  clear hbid hask h hquotes1
  grind

end MarketMaker
end LobCity
