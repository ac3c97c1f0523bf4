import LobCity.MakerReport
import LobCity.Pnl

/-! The profit and loss of whole runs. Over rationals, and whatever the others do, every
snapshot is the exact account of the fills that had gone into the position by then, each
read off the trade log. -/
namespace LobCity
open Library

/-- What a fill of an order of side `s` adds to the position, and its price in dollars. -/
def Trade.fill (t : Trade) (s : Side) : Int64 × ℚ :=
  (s.signed t.quantity, Double.ofInt64 t.price / Double.ofInt64 10000)

def fillsAt (log : List Trade) (places : List (Nat × Side)) : List (Int64 × ℚ) :=
  places.filterMap fun p => log[p.1]?.map fun t => t.fill p.2

theorem fillsAt_append (log : List Trade) (places places' : List (Nat × Side)) :
    fillsAt log (places ++ places') = fillsAt log places ++ fillsAt log places' :=
  List.filterMap_append

/-- Places in the log stay where they are when it grows. -/
theorem fillsAt_grown {log : List Trade} {places : List (Nat × Side)}
    (h : ∀ p ∈ places, p.1 < log.length) (new : List Trade) :
    fillsAt (log ++ new) places = fillsAt log places := by
  refine List.filterMap_congr fun p hp => ?_
  rw [List.getElem?_append_left (h p hp)]

theorem fillsAt_here (done log : List Trade) (t : Trade) (s : Side) (c : Prop) [Decidable c] :
    fillsAt (done ++ t :: log) (if c then [(done.length, s)] else []) =
      if c then [t.fill s] else [] := by
  have hget : (done ++ t :: log)[done.length]? = some t := by simp
  split_ifs
  · rw [fillsAt, List.filterMap_cons, hget]
    rfl
  · rfl

namespace MarketMaker
variable {m : MarketMaker ℚ}

theorem holding_applyFills (m : MarketMaker ℚ) (fills : List (Int64 × ℚ)) :
    (m.applyFills fills).holding =
      fills.foldl (fun h f => h.update Double.ofInt64 f.1 f.2) m.holding := by
  induction fills generalizing m with
  | nil => rfl
  | cons f fills ih =>
    rw [List.foldl_cons, ← holding_updatePosition]
    exact ih (m.updatePosition f.1 f.2)

theorem applyFills_append (m : MarketMaker ℚ) (fills fills' : List (Int64 × ℚ)) :
    m.applyFills (fills ++ fills') = (m.applyFills fills).applyFills fills' := List.foldl_append

theorem holding_applyFill_if (m : MarketMaker ℚ) (t : Trade) (s : Side) (c : Prop) [Decidable c] :
    (if c then m.applyFill t s else m).holding =
      (m.applyFills (if c then [t.fill s] else [])).holding := by
  split_ifs <;> rfl

theorem traceFills_places (m : MarketMaker ℚ) (i : Nat) (log : List Trade) :
    ∀ p ∈ (m.traceFills i log).1, p.1 < i + log.length := by
  induction log generalizing m i with
  | nil => simp [traceFills]
  | cons t log ih =>
    intro p hp
    simp only [traceFills, List.mem_append] at hp
    have hhere (s : Side) (c : Prop) [Decidable c] (hp : p ∈ if c then [(i, s)] else []) :
        p.1 < i + (t :: log).length := by
      have hplace : p.1 = i := by
        split_ifs at hp
        · rw [List.mem_singleton.mp hp]
        · exact absurd hp List.not_mem_nil
      rw [hplace, List.length_cons]
      omega
    rcases hp with (hp | hp) | hp
    · exact hhere _ _ hp
    · exact hhere _ _ hp
    · have hlater := ih _ _ p hp
      rw [List.length_cons]
      omega

/-- The scan makes of the position what the fills do that it applies. -/
theorem traceFills_holding (m : MarketMaker ℚ) (done log : List Trade) :
    (m.traceFills done.length log).2.holding =
      (m.applyFills (fillsAt (done ++ log) (m.traceFills done.length log).1)).holding := by
  induction log generalizing m done with
  | nil => rfl
  | cons t log ih =>
    set m1 := if t.buyOrderId = m.currentBidId then m.applyFill t .buy else m with hm1
    set m2 := if t.sellOrderId = m1.currentAskId then m1.applyFill t .sell else m1 with hm2
    have hrest := ih m2 (done ++ [t])
    rw [List.length_append, List.length_singleton, List.append_assoc, List.singleton_append] at hrest
    have htrace : m.traceFills done.length (t :: log) =
        ((if t.buyOrderId = m.currentBidId then [(done.length, .buy)] else []) ++
          (if t.sellOrderId = m1.currentAskId then [(done.length, .sell)] else []) ++
            (m2.traceFills (done.length + 1) log).1, (m2.traceFills (done.length + 1) log).2) := rfl
    have hfirst := m.holding_applyFill_if t .buy (t.buyOrderId = m.currentBidId)
    have hsecond := m1.holding_applyFill_if t .sell (t.sellOrderId = m1.currentAskId)
    rw [← hm1] at hfirst
    rw [← hm2] at hsecond
    rw [htrace, fillsAt_append, fillsAt_append, fillsAt_here, fillsAt_here, applyFills_append,
      applyFills_append, holding_applyFills, holding_applyFills, ← hfirst, ← holding_applyFills,
      ← hsecond, ← holding_applyFills]
    exact hrest

/-- The snapshot shows this maker at the snapshot's own mid price. -/
structure ShownBy (m : MarketMaker ℚ) (snap : PnlSnapshot ℚ) : Prop where
  netPosition : snap.netPosition = m.netPosition
  realizedPnl : snap.realizedPnl = m.realizedPnl
  unrealizedPnl : snap.unrealizedPnl = m.computeUnrealizedPnl snap.midPrice
  totalPnl : snap.totalPnl = snap.realizedPnl + snap.unrealizedPnl

theorem ShownBy.of_holding {m' : MarketMaker ℚ} {snap : PnlSnapshot ℚ} (h : m.ShownBy snap)
    (heq : m'.holding = m.holding) : m'.ShownBy snap := by
  obtain ⟨hnet, hrealized, -⟩ := Holding.mk.inj heq
  refine ⟨h.netPosition.trans hnet.symm, h.realizedPnl.trans hrealized.symm, ?_, h.totalPnl⟩
  rw [h.unrealizedPnl, computeUnrealizedPnl_eq, computeUnrealizedPnl_eq, heq]

theorem snapshot_shownBy (m : MarketMaker ℚ) (e : Engine) (start : Nat) :
    (m.scanned e start).ShownBy (m.snapshot e start) := ⟨rfl, rfl, rfl, rfl⟩

theorem holding_cancelExistingQuotes (m : MarketMaker ℚ) (e : Engine) (clock : TickClock) :
    (m.cancelExistingQuotes e clock).1.holding = m.holding := by
  have hquote (m : MarketMaker ℚ) (e : Engine) (s : Side) (now : Timestamp) :
      (m.cancelQuote e s now).1.holding = m.holding := by
    unfold cancelQuote
    split_ifs
    · cases s <;> rfl
    · rfl
  exact (hquote _ _ .sell clock.cancelAsk).trans (hquote m e .buy clock.cancelBid)

theorem holding_placeQuote? {m m' : MarketMaker ℚ} {e e' : Engine}
    {quote : Option (Price × Quantity)} {s : Side} {time now : Timestamp}
    (h : m.placeQuote? e quote s time now = some (m', e')) : m'.holding = m.holding := by
  cases quote with
  | none =>
    obtain ⟨rfl, -⟩ := Prod.mk.inj (Option.some.inj h)
    rfl
  | some q =>
    obtain ⟨e2, -, hm⟩ := Option.map_eq_some_iff.mp h
    obtain ⟨rfl, -⟩ := Prod.mk.inj hm
    cases s <;> rfl

theorem holding_prepare (m : MarketMaker ℚ) (e : Engine) (start : Nat) (clock : TickClock) :
    (m.prepare e start clock).1.1.holding =
      if detects e then (m.scanned e start).holding else m.holding := by
  unfold prepare
  by_cases hd : detects e = true
  · rw [if_pos hd]
    simp only [hd, if_true]
    have hmark : ({ m with tickCount := m.tickCount + 1 }.markToMarket e start e.midPrice
        clock).1.holding = (m.scanned e start).holding := by
      unfold markToMarket
      dsimp only
      split_ifs
      · exact holding_cancelExistingQuotes _ e clock
      · rfl
    rw [Engine.midPrice] at hmark
    split_ifs
    · exact hmark
    · split
      · exact hmark
      · exact (holding_cancelExistingQuotes _ _ clock).trans hmark
  · rw [if_neg hd]
    simp only [hd]
    rfl

/-- A tick that gets to the fill detection leaves the position that the scan has made, one
that does not leaves it alone. -/
theorem onTick_holding {m' : MarketMaker ℚ} {e e' : Engine} {start : Nat} {clock : TickClock}
    (h : m.onTick e start clock = some (m', e')) :
    m'.holding = if detects e then (m.scanned e start).holding else m.holding := by
  obtain ⟨⟨m2, e2⟩, hbid, hask⟩ := Option.bind_eq_some_iff.mp h
  exact ((holding_placeQuote? hask).trans (holding_placeQuote? hbid)).trans
    (m.holding_prepare e start clock)

theorem scanned_holding (m : MarketMaker ℚ) (e : Engine) (done log : List Trade)
    (hlog : e.tradeLog = done ++ log) :
    (m.scanned e done.length).holding =
      (m.applyFills (fillsAt e.tradeLog (m.traceFills done.length log).1)).holding := by
  have htrace := traceFills_holding { m with tickCount := m.tickCount + 1 } done log
  have hplaces : ({ m with tickCount := m.tickCount + 1 }.traceFills done.length log).1 =
      (m.traceFills done.length log).1 := by
    rw [traceFills_fst, traceFills_fst]
    rfl
  rw [traceFills_snd, hplaces, holding_applyFills] at htrace
  have hscan : m.scanned e done.length =
      log.foldl scanTrade { m with tickCount := m.tickCount + 1 } := by
    rw [scanned, processFills, hlog, List.drop_left]
  rw [hscan, htrace, hlog, holding_applyFills]
  rfl

end MarketMaker

namespace Desk
variable {w w' : Desk ℚ} {cfg : MarketMakerConfig}

structure Booked (cfg : MarketMakerConfig) (w : Desk ℚ) : Prop where
  places : ∀ p ∈ w.applied, p.1 < w.session.engine.tradeLog.length
  holding : w.maker.holding =
    ((MarketMaker.new cfg).applyFills (fillsAt w.session.engine.tradeLog w.applied)).holding
  history : ∀ snap ∈ w.maker.pnlHistory, ∃ places, places <+: w.applied ∧
    ((MarketMaker.new cfg).applyFills (fillsAt w.session.engine.tradeLog places)).ShownBy snap

theorem tradeLog_run {S S' : Session} {ops : List Op} (h : S.Sound)
    (hok : Along Session.step Session.Owned S ops) (hrun : run Session.step S ops = some S') :
    S'.Sound ∧ ∃ new, S'.engine.tradeLog = S.engine.tradeLog ++ new := by
  induction ops generalizing S with
  | nil =>
    obtain rfl := Option.some.inj hrun
    exact ⟨h, [], (List.append_nil _).symm⟩
  | cons op ops ih =>
    obtain ⟨S1, hstep, hrest⟩ := Option.bind_eq_some_iff.mp hrun
    obtain ⟨hop, hok⟩ := hok
    obtain ⟨S2, hstep2, h2, hb, -⟩ := h.step hop
    obtain rfl := Option.some.inj (hstep.symm.trans hstep2)
    obtain ⟨h', new, hlog⟩ := ih h2 (hok _ hstep) hrest
    exact ⟨h', S.newTrades op ++ new,
      by rw [hlog, Session.tradeLog_of_book hb, List.append_assoc]⟩

theorem Booked.fillsAt_front (h : w.Booked cfg) {new : List Trade}
    (hlog : w'.session.engine.tradeLog = w.session.engine.tradeLog ++ new)
    {places : List (Nat × Side)} (hfront : places <+: w.applied) :
    fillsAt w'.session.engine.tradeLog places = fillsAt w.session.engine.tradeLog places := by
  rw [hlog]
  exact fillsAt_grown (fun p hp => h.places p (hfront.subset hp)) new

/-- Snapshots taken before are still those of the first fills. -/
theorem Booked.history_front (h : w.Booked cfg) {new : List Trade}
    (hlog : w'.session.engine.tradeLog = w.session.engine.tradeLog ++ new)
    (happlied : w.applied <+: w'.applied) :
    ∀ snap ∈ w.maker.pnlHistory, ∃ places, places <+: w'.applied ∧
      ((MarketMaker.new cfg).applyFills (fillsAt w'.session.engine.tradeLog places)).ShownBy snap := by
  intro snap hsnap
  obtain ⟨places, hplaces, hshown⟩ := h.history snap hsnap
  exact ⟨places, hplaces.trans happlied, by rw [h.fillsAt_front hlog hplaces]; exact hshown⟩

/-- The others trade, and the tick does not look. -/
theorem Booked.unseen (h : w.Booked cfg) {new : List Trade}
    (hlog : w'.session.engine.tradeLog = w.session.engine.tradeLog ++ new)
    (happlied : w'.applied = w.applied) (hholding : w'.maker.holding = w.maker.holding)
    (hhistory : w'.maker.pnlHistory = w.maker.pnlHistory) : w'.Booked cfg := by
  refine ⟨fun p hp => ?_, ?_, ?_⟩
  · rw [happlied] at hp
    have hplace := h.places p hp
    rw [hlog, List.length_append]
    omega
  · rw [hholding, happlied, h.fillsAt_front hlog (List.prefix_refl _)]
    exact h.holding
  · rw [hhistory]
    exact h.history_front hlog (by rw [happlied])

/-- The others trade, the tick applies what it finds in the log so far, and takes a snapshot;
what trades after that is not in the fills. -/
theorem Booked.seen (h : w.Booked cfg) {new more : List Trade} {found : List (Nat × Side)}
    (hlog : w'.session.engine.tradeLog = w.session.engine.tradeLog ++ new ++ more)
    (hplaces : ∀ p ∈ found, p.1 < (w.session.engine.tradeLog ++ new).length)
    (happlied : w'.applied = w.applied ++ found)
    (hholding : w'.maker.holding =
      (w.maker.applyFills (fillsAt (w.session.engine.tradeLog ++ new) found)).holding)
    {snap : PnlSnapshot ℚ} (hshown : w'.maker.ShownBy snap)
    (hhistory : w'.maker.pnlHistory = w.maker.pnlHistory ++ [snap]) : w'.Booked cfg := by
  have hwhole : w'.session.engine.tradeLog = w.session.engine.tradeLog ++ (new ++ more) := by
    rw [hlog, List.append_assoc]
  have hfound : fillsAt w'.session.engine.tradeLog found =
      fillsAt (w.session.engine.tradeLog ++ new) found := by
    rw [hlog]
    exact fillsAt_grown hplaces more
  have hend : w'.maker.holding =
      ((MarketMaker.new cfg).applyFills (fillsAt w'.session.engine.tradeLog w'.applied)).holding := by
    rw [happlied, fillsAt_append, h.fillsAt_front hwhole (List.prefix_refl _), hfound,
      MarketMaker.applyFills_append, MarketMaker.holding_applyFills, ← h.holding,
      ← MarketMaker.holding_applyFills]
    exact hholding
  refine ⟨fun p hp => ?_, hend, fun s hs => ?_⟩
  · rw [hlog, List.length_append]
    rw [happlied] at hp
    cases List.mem_append.mp hp with
    | inl hp =>
      have hplace := h.places p hp
      rw [List.length_append]
      omega
    | inr hp =>
      have hplace := hplaces p hp
      omega
  · rw [hhistory] at hs
    cases List.mem_append.mp hs with
    | inl hs =>
      exact h.history_front hwhole (by rw [happlied]; exact List.prefix_append _ _) s hs
    | inr hs =>
      obtain rfl := List.mem_singleton.mp hs
      exact ⟨w'.applied, List.prefix_refl _, hshown.of_holding hend.symm⟩

theorem Booked.step {tick : Tick} (h : w.Booked cfg) (hsound : w.session.Sound) (hfair : w.Fair tick)
    (hstep : w.step tick = some w') : w'.Booked cfg ∧ w'.session.Sound := by
  obtain ⟨S, m, e, hS, htick, hmaker, hsession, -, happlied⟩ := step_parts hstep
  obtain ⟨hsoundS, new, hlog⟩ := tradeLog_run hsound hfair hS
  obtain ⟨m1, e1, -, -, more, -, htick1, hsound', hlog', -⟩ :=
    MarketMaker.onTick_ticked hsoundS w.maker w.session.engine.tradeLog.length tick.clock
  obtain ⟨rfl, rfl⟩ := Prod.mk.inj (Option.some.inj (htick.symm.trans htick1))
  have hlater : w'.session.engine.tradeLog = w.session.engine.tradeLog ++ new ++ more := by
    rw [hsession, ← hlog]
    exact hlog'
  have hholding := MarketMaker.onTick_holding htick
  have hhistory := (MarketMaker.onTick_tallied htick).pnlHistory
  rw [← hmaker] at hholding hhistory
  refine ⟨?_, by rw [hsession]; exact hsound'⟩
  by_cases hd : MarketMaker.detects S.engine = true
  · rw [if_pos hd] at happlied hholding hhistory
    have hdrop : S.engine.tradeLog.drop w.session.engine.tradeLog.length = new := by
      rw [hlog]
      exact List.drop_left
    have hscanned := MarketMaker.scanned_holding w.maker S.engine w.session.engine.tradeLog new hlog
    rw [hdrop] at happlied
    rw [← hholding, hlog] at hscanned
    refine h.seen hlater ?_ happlied hscanned ?_ hhistory
    · rw [List.length_append]
      exact w.maker.traceFills_places _ _
    · exact (w.maker.snapshot_shownBy S.engine _).of_holding hholding
  · rw [if_neg hd, List.append_nil] at happlied hhistory
    rw [if_neg hd] at hholding
    exact h.unseen (by rw [hlater, List.append_assoc]) happlied hholding hhistory

end Desk

section Range
variable {fills : List (Int64 × ℚ)}

/-- A quantity of the log has 32 bits. -/
theorem fillsAt_quantity {log : List Trade} {places : List (Nat × Side)} :
    ∀ f ∈ fillsAt log places, |f.1.toInt| < 2 ^ 32 := by
  intro f hf
  obtain ⟨p, -, hp⟩ := List.mem_filterMap.mp hf
  obtain ⟨t, -, rfl⟩ := Option.map_eq_some_iff.mp hp
  have hq := t.quantity.toNat_lt
  have hsigned := t.quantity.toInt_toSigned
  cases p.2 with
  | buy =>
    show |t.quantity.toSigned.toInt| < _
    rw [hsigned, abs_lt]
    omega
  | sell =>
    have hne : t.quantity.toSigned ≠ Int64.minValue := by
      refine InRange.ne_min ?_
      rw [hsigned]
      exact ⟨by omega, by omega⟩
    have hneg : (-t.quantity.toSigned).toInt = -t.quantity.toSigned.toInt :=
      Fits64.neg_iff.mpr (Fits64.neg_of_ne_min hne)
    show |(-t.quantity.toSigned).toInt| < _
    rw [hneg, hsigned, abs_lt]
    omega

theorem abs_position_le (hq : ∀ f ∈ fills, |f.1.toInt| < 2 ^ 32) :
    |Holding.position (exactFills fills)| ≤ fills.length * (2 ^ 32 - 1) := by
  induction fills with
  | nil => exact Int.le_refl 0
  | cons f fills ih =>
    have hhead := hq f (by simp)
    have htail := ih fun g hg => hq g (by simp [hg])
    have hsum : Holding.position (exactFills (f :: fills)) =
        f.1.toInt + Holding.position (exactFills fills) := rfl
    rw [hsum, List.length_cons]
    rw [abs_lt] at hhead
    rw [abs_le] at htail ⊢
    push_cast
    omega

/-- Fewer than `2 ^ 31` fills overflow no position. -/
theorem noOverflow_of_length (hq : ∀ f ∈ fills, |f.1.toInt| < 2 ^ 32)
    (hlength : fills.length < 2 ^ 31) : NoOverflow 0 fills := by
  refine ⟨fun f hf => ?_, fun reached hreached => ?_⟩
  · have hsize := abs_lt.mp (hq f hf)
    exact ⟨by omega, by omega⟩
  · have hposition := abs_le.mp (abs_position_le fun f hf => hq f (hreached.subset hf))
    have hcount := hreached.length_le
    exact ⟨by omega, by omega⟩

end Range

namespace MarketMaker

theorem new_balanced (cfg : MarketMakerConfig) {fills : List (Int64 × ℚ)} (h : NoOverflow 0 fills)
    (midPrice : Price) :
    let m := (new cfg : MarketMaker ℚ).applyFills fills
    Balanced (exactFills fills) (midPrice.toInt / 10000) m.netPosition.toInt m.realizedPnl
      (m.computeUnrealizedPnl midPrice) := by
  intro m
  have hrun : m.holding.exact = (Holding.mk 0 0 0).run (exactFills fills) :=
    applyFills_exact (new cfg) h
  have hnet : m.holding.net.toInt = Holding.position (exactFills fills) :=
    (congrArg Holding.net hrun).trans (Holding.run_total _ 0 0 0).1
  have hend : InRange m.holding.net.toInt := by
    have hlast := h.2 fills (List.prefix_refl fills)
    rwa [zero_add, ← hnet] at hlast
  have hten : (Double.ofInt64 10000 : ℚ) = 10000 := by
    show (((10000 : Int64).toInt : ℤ) : ℚ) = 10000
    norm_num [show (10000 : Int64).toInt = 10000 by decide]
  have hmark : m.computeUnrealizedPnl midPrice =
      m.holding.exact.unrealized Int.cast (midPrice.toInt / 10000) := by
    rw [computeUnrealizedPnl_eq, exact_unrealized _ hend, hten]
    rfl
  have hbalanced := run_balanced (exactFills fills) 0 (midPrice.toInt / 10000)
  rw [← hrun, ← hmark] at hbalanced
  exact hbalanced

end MarketMaker

namespace Desk

/-- The account of a run: the position is what the applied fills sum to, and every snapshot's
profit is the cash of the first of these fills and the position at the mid price shown. -/
structure AddsUp (w : Desk ℚ) : Prop where
  position : w.maker.netPosition.toInt =
    Holding.position (exactFills (fillsAt w.session.engine.tradeLog w.applied))
  snapshots : ∀ snap ∈ w.maker.pnlHistory, ∃ places, places <+: w.applied ∧
    Balanced (exactFills (fillsAt w.session.engine.tradeLog places)) (snap.midPrice.toInt / 10000)
      snap.netPosition.toInt snap.realizedPnl snap.unrealizedPnl ∧
    snap.totalPnl = snap.realizedPnl + snap.unrealizedPnl

theorem Booked.addsUp {w : Desk ℚ} {cfg : MarketMakerConfig} (h : w.Booked cfg)
    (hlength : w.applied.length < 2 ^ 31) : w.AddsUp := by
  have hrange {places : List (Nat × Side)} (hfront : places <+: w.applied) :
      NoOverflow 0 (fillsAt w.session.engine.tradeLog places) := by
    refine noOverflow_of_length fillsAt_quantity ?_
    have hcount := hfront.length_le
    have hle : (fillsAt w.session.engine.tradeLog places).length ≤ places.length :=
      List.length_filterMap_le _ _
    omega
  refine ⟨?_, fun snap hsnap => ?_⟩
  · have hbalanced := MarketMaker.new_balanced cfg (hrange (List.prefix_refl _)) 0
    have hposition : w.maker.netPosition =
        ((MarketMaker.new cfg).applyFills (fillsAt w.session.engine.tradeLog w.applied)).netPosition :=
      congrArg Holding.net h.holding
    rw [hposition]
    exact hbalanced.position
  · obtain ⟨places, hfront, hshown⟩ := h.history snap hsnap
    have hbalanced := MarketMaker.new_balanced cfg (hrange hfront) snap.midPrice
    refine ⟨places, hfront, ?_, hshown.totalPnl⟩
    rw [hshown.netPosition, hshown.realizedPnl, hshown.unrealizedPnl]
    exact hbalanced

/-- In exact arithmetic the profit and loss of every run are those of the fills in its trade
log. -/
theorem simulate_addsUp {poolSize : Nat} {udpPub : Bool} {cfg : MarketMakerConfig} {seed : List Op}
    {ticks : List Tick}
    (hseed : Along Session.step Session.Owned (Session.new poolSize udpPub) seed)
    (hfair : ∀ w : Desk ℚ, seeded poolSize udpPub cfg seed = some w → Along step Fair w ticks) :
    ∃ w : Desk ℚ, simulate poolSize udpPub cfg seed ticks = some w ∧
      (w.applied.length < 2 ^ 31 → w.AddsUp) := by
  obtain ⟨S, hS, hsound⟩ := run_invariant (fun S op h hop => by
    obtain ⟨S', hs, h', -⟩ := h.step hop
    exact ⟨S', hs, h'⟩) (Session.new_sound poolSize udpPub) hseed
  have hw0 : seeded poolSize udpPub cfg seed = some (⟨S, .new cfg, [], [], 0⟩ : Desk ℚ) := by
    simp [seeded, hS]
  have hstart : Booked cfg (⟨S, .new cfg, [], [], 0⟩ : Desk ℚ) :=
    ⟨by simp, rfl, by simp [MarketMaker.new]⟩
  have hturn (u : Desk ℚ) (tick : Tick) (hu : u.Booked cfg ∧ u.session.Sound) (hok : u.Fair tick) :
      ∃ u', u.step tick = some u' ∧ u'.Booked cfg ∧ u'.session.Sound := by
    obtain ⟨u', hstep, -⟩ := step_returns hu.2 hok
    exact ⟨u', hstep, hu.1.step hu.2 hok hstep⟩
  obtain ⟨w, hw, hbooked, -⟩ := run_invariant hturn ⟨hstart, hsound⟩ (hfair _ hw0)
  exact ⟨w, by simp [simulate, hw0, hw], hbooked.addsUp⟩

/-- Three shares bought at 149 dollars, marked at the mid price of 150. -/
theorem simulate_addsUp_sold :
    ∃ w : Desk ℚ, simulate 8 false quoteConfig quoteSeed soldTicks = some w ∧
      w.maker.pnlHistory.map PnlSnapshot.totalPnl = [0, 3] ∧ w.AddsUp := by
  have hseed : Along Session.step Session.Owned (Session.new 8 false) quoteSeed := by decide +kernel
  have hall : (seeded 8 false quoteConfig quoteSeed).all (fun w : Desk ℚ =>
      decide (Along step Fair w soldTicks)) = true := by decide +kernel
  have hend : (simulate 8 false quoteConfig quoteSeed soldTicks).map (fun w : Desk ℚ =>
      (w.applied, w.maker.pnlHistory.map PnlSnapshot.totalPnl)) = some ([(0, .buy)], [0, 3]) := by
    decide +kernel
  obtain ⟨w, hw, hadds⟩ := simulate_addsUp hseed fun w hw => by
    simpa using (Option.all_eq_true _ _).mp hall w hw
  rw [hw] at hend
  obtain ⟨happlied, htotals⟩ := Prod.mk.inj (Option.some.inj hend)
  exact ⟨w, hw, htotals, hadds (by rw [happlied]; decide)⟩

end Desk
end LobCity
