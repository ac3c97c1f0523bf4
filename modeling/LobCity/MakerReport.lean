import LobCity.Backtests
import LobCity.Library.Drawdown
import Mathlib.Algebra.Order.Ring.Rat

/-! The market maker's report: the counts of a run, and what one pass over the snapshots finds
out about them, in whatever way `double` rounds. -/
namespace LobCity
open Library
open Double (ofInt64)

/-- What `printReport` prints; the extremes only of a history that has a snapshot, the PnL for
each fill only if there was one. -/
structure MakerReport (D : Type) where
  ticksProcessed : UInt64
  totalFills : UInt64
  quoteUpdates : UInt64
  finalPosition : Int64
  avgEntryPrice : D
  realizedPnl : D
  unrealizedPnl : D
  totalPnl : D
  maxDrawdown : Option D
  pnlPerFill : Option D
  maxLong : Option Int64
  maxShort : Option Int64
  killed : Bool

namespace MarketMaker
variable {D : Type}

section Extremes
variable [Double D]

/-- The loop over the snapshots that keeps the peak and the largest fall below it. -/
def maxDrawdown (first : PnlSnapshot D) (history : List (PnlSnapshot D)) : D :=
  (history.foldl (fun (peak, maxDrawdown) snap =>
    let peak := if Double.lt peak snap.totalPnl then snap.totalPnl else peak
    let dd := peak - snap.totalPnl
    (peak, if Double.lt maxDrawdown dd then dd else maxDrawdown)) (first.totalPnl, ofInt64 0)).2

def maxPos (history : List (PnlSnapshot D)) : Int64 :=
  history.foldl (fun maxPos snap => if snap.netPosition > maxPos then snap.netPosition else maxPos) 0

def minPos (history : List (PnlSnapshot D)) : Int64 :=
  history.foldl (fun minPos snap => if snap.netPosition < minPos then snap.netPosition else minPos) 0

def finalMid (e : Engine) : Price :=
  if e.getBestBid > 0 ∧ e.getBestAsk > 0 then (e.getBestBid + e.getBestAsk) / 2 else 0

end Extremes

def printReport [DoubleCasts D] (m : MarketMaker D) (e : Engine) : MakerReport D :=
  let unrealized := m.computeUnrealizedPnl (finalMid e)
  let total := m.realizedPnl + unrealized
  { ticksProcessed := m.tickCount
    totalFills := m.totalFills
    quoteUpdates := m.totalQuoteUpdates
    finalPosition := m.netPosition
    avgEntryPrice := m.avgEntryPrice
    realizedPnl := m.realizedPnl
    unrealizedPnl := unrealized
    totalPnl := total
    maxDrawdown := m.pnlHistory.head?.map fun first => maxDrawdown first m.pnlHistory
    pnlPerFill := if m.pnlHistory ≠ [] ∧ m.totalFills > 0 then
      some (total / DoubleCasts.ofSize m.totalFills) else none
    maxLong := m.pnlHistory.head?.map fun _ => maxPos m.pnlHistory
    maxShort := m.pnlHistory.head?.map fun _ => abs64 (minPos m.pnlHistory)
    killed := m.killed }

end MarketMaker

/-- What the report relies on: a comparison of the totals, and a difference that is no less
from higher up. -/
structure Double.Ordered (D : Type) [Double D] : Prop where
  compares : StrictWeak (Double.lt : D → D → Bool)
  falls : FallsMore (Double.lt : D → D → Bool) (· - ·)

theorem Int64.strictWeak : StrictWeak fun a b : Int64 => decide (a < b) := by
  refine ⟨fun {a b} hab => ?_, fun {a c} hac b => ?_⟩
  · have hab := of_decide_eq_true hab
    exact decide_eq_false (by grind)
  · have hac := of_decide_eq_true hac
    by_cases h : a < b
    · exact Or.inl (decide_eq_true h)
    · exact Or.inr (decide_eq_true (by grind))

namespace MarketMaker
variable {D : Type} {m : MarketMaker D} {first : PnlSnapshot D} {rest : List (PnlSnapshot D)}

theorem maxDrawdown_eq [Double D] (first : PnlSnapshot D) (history : List (PnlSnapshot D)) :
    maxDrawdown first history = ((history.map PnlSnapshot.totalPnl).foldl
      (fallStep Double.lt (· - ·)) (first.totalPnl, ofInt64 0)).2 := by
  rw [List.foldl_map]
  rfl

theorem maxPos_spec (history : List (PnlSnapshot D)) :
    (maxPos history = 0 ∨ ∃ snap ∈ history, maxPos history = snap.netPosition) ∧
      0 ≤ maxPos history ∧ ∀ snap ∈ history, snap.netPosition ≤ maxPos history := by
  have heq : maxPos history = runningPeak (fun a b : Int64 => decide (a < b)) 0
      (history.map PnlSnapshot.netPosition) := by
    rw [runningPeak, List.foldl_map, maxPos]
    simp only [keepLarger, decide_eq_true_eq, gt_iff_lt]
  obtain ⟨hmem, hle⟩ := runningPeak_spec Int64.strictWeak 0 (history.map PnlSnapshot.netPosition)
  rw [← heq] at hmem hle
  have hbelow (y : Int64) (hy : y ∈ 0 :: history.map PnlSnapshot.netPosition) : y ≤ maxPos history :=
    Int64.not_lt.mp (of_decide_eq_false (hle y hy))
  refine ⟨(List.mem_cons.mp hmem).imp (fun h => h) fun h => ?_, hbelow 0 List.mem_cons_self,
    fun snap hsnap => hbelow _ (List.mem_cons_of_mem _ (List.mem_map_of_mem hsnap))⟩
  obtain ⟨snap, hsnap, hnet⟩ := List.mem_map.mp h
  exact ⟨snap, hsnap, hnet.symm⟩

theorem minPos_spec (history : List (PnlSnapshot D)) :
    (minPos history = 0 ∨ ∃ snap ∈ history, minPos history = snap.netPosition) ∧
      minPos history ≤ 0 ∧ ∀ snap ∈ history, minPos history ≤ snap.netPosition := by
  have heq : minPos history = runningPeak (fun a b : Int64 => decide (b < a)) 0
      (history.map PnlSnapshot.netPosition) := by
    rw [runningPeak, List.foldl_map, minPos]
    simp only [keepLarger, decide_eq_true_eq]
  obtain ⟨hmem, hle⟩ := runningPeak_spec Int64.strictWeak.flip 0 (history.map PnlSnapshot.netPosition)
  rw [← heq] at hmem hle
  have habove (y : Int64) (hy : y ∈ 0 :: history.map PnlSnapshot.netPosition) : minPos history ≤ y :=
    Int64.not_lt.mp (of_decide_eq_false (hle y hy))
  refine ⟨(List.mem_cons.mp hmem).imp (fun h => h) fun h => ?_, habove 0 List.mem_cons_self,
    fun snap hsnap => habove _ (List.mem_cons_of_mem _ (List.mem_map_of_mem hsnap))⟩
  obtain ⟨snap, hsnap, hnet⟩ := List.mem_map.mp h
  exact ⟨snap, hsnap, hnet.symm⟩

/-- The drawdown of the report is the largest fall from a snapshot to a later one, or none;
the two positions are the largest and the smallest of the snapshots, or 0. -/
theorem printReport_extremes [DoubleCasts D] (hordered : Double.Ordered D) (m : MarketMaker D)
    (e : Engine) (hsome : m.pnlHistory ≠ []) :
    ∃ fall long short, (m.printReport e).maxDrawdown = some fall ∧
      (m.printReport e).maxLong = some long ∧ (m.printReport e).maxShort = some (abs64 short) ∧
      (∀ a b, Precedes m.pnlHistory a b →
        NotAbove Double.lt (a.totalPnl - b.totalPnl) fall) ∧
      NotAbove Double.lt (ofInt64 0) fall ∧
      (fall = ofInt64 0 ∨ ∃ a b, Precedes m.pnlHistory a b ∧ fall = a.totalPnl - b.totalPnl) ∧
      (∀ snap ∈ m.pnlHistory, short ≤ snap.netPosition ∧ snap.netPosition ≤ long) ∧
      short ≤ 0 ∧ 0 ≤ long ∧ (long = 0 ∨ ∃ snap ∈ m.pnlHistory, long = snap.netPosition) ∧
      (short = 0 ∨ ∃ snap ∈ m.pnlHistory, short = snap.netPosition) := by
  obtain ⟨first, rest, hhistory⟩ := List.exists_cons_of_ne_nil hsome
  obtain ⟨hlong, hlong0, hlongs⟩ := maxPos_spec m.pnlHistory
  obtain ⟨hshort, hshort0, hshorts⟩ := minPos_spec m.pnlHistory
  have hseries := fallOf_series hordered.compares hordered.falls (ofInt64 0) first.totalPnl
    (rest.map PnlSnapshot.totalPnl)
  rw [← List.map_cons, ← hhistory] at hseries
  have hhead : m.pnlHistory.head? = some first := by rw [hhistory]; rfl
  refine ⟨maxDrawdown first m.pnlHistory, maxPos m.pnlHistory, minPos m.pnlHistory, ?_, ?_, ?_,
    fun a b hab => ?_, ?_, ?_, fun snap hsnap => ⟨hshorts snap hsnap, hlongs snap hsnap⟩, hshort0,
    hlong0, hlong, hshort⟩
  · simp only [printReport, hhead, Option.map_some]
  · simp only [printReport, hhead, Option.map_some]
  · simp only [printReport, hhead, Option.map_some]
  · rw [maxDrawdown_eq]
    exact hseries.larger _ _ (precedes_map.mpr ⟨a, b, hab, rfl, rfl⟩)
  · rw [maxDrawdown_eq]
    exact hseries.zero_le
  · rw [maxDrawdown_eq]
    refine hseries.fall.imp (fun h => h) fun hpair => ?_
    obtain ⟨x, y, hxy, hfall⟩ := hpair
    obtain ⟨a, b, hab, rfl, rfl⟩ := precedes_map.mp hxy
    exact ⟨a, b, hab, hfall⟩

end MarketMaker

theorem Double.ordered_rat : Double.Ordered ℚ := by
  refine ⟨StrictWeak.of_linearOrder, fun {a b} hab c => ?_⟩
  · have hab : a ≤ b := not_lt.mp (of_decide_eq_false hab)
    exact decide_eq_false (not_lt.mpr (sub_le_sub_right hab c))

namespace MarketMaker

def lossMaker : MarketMaker ℚ :=
  { new {} with
    pnlHistory := [⟨1, 5, 3, 0, 3, 0⟩, ⟨2, -4, -2, 0, -2, 0⟩, ⟨3, 1, 1, 0, 1, 0⟩] }

theorem printReport_extremes_loss :
    ∃ fall long short, (lossMaker.printReport (Engine.new 0 false)).maxDrawdown = some fall ∧
      (lossMaker.printReport (Engine.new 0 false)).maxLong = some long ∧
      (lossMaker.printReport (Engine.new 0 false)).maxShort = some (abs64 short) ∧
      fall = 5 ∧ long = 5 ∧ abs64 short = 4 ∧
      ∀ snap ∈ lossMaker.pnlHistory, short ≤ snap.netPosition ∧ snap.netPosition ≤ long := by
  obtain ⟨fall, long, short, hfall, hlong, hshort, -, -, -, hbounds, -⟩ :=
    printReport_extremes Double.ordered_rat lossMaker (Engine.new 0 false) (by decide)
  have hends : (lossMaker.printReport (Engine.new 0 false)).maxDrawdown = some 5 ∧
      (lossMaker.printReport (Engine.new 0 false)).maxLong = some 5 ∧
      (lossMaker.printReport (Engine.new 0 false)).maxShort = some 4 := by decide +kernel
  refine ⟨fall, long, short, hfall, hlong, hshort, ?_, ?_, ?_, hbounds⟩
  · exact Option.some.inj (hfall.symm.trans hends.1)
  · exact Option.some.inj (hlong.symm.trans hends.2.1)
  · exact Option.some.inj (hshort.symm.trans hends.2.2)

end MarketMaker

namespace Desk
variable {D : Type} [Double D] {w w' : Desk D}

def seesBoth (w : Desk D) (tick : Tick) : Bool :=
  (run Session.step w.session tick.ops).any fun S => MarketMaker.detects S.engine

def sawBoth (w : Desk D) (ticks : List Tick) (i : Nat) : Bool :=
  (run step w (ticks.take i)).any fun u => (ticks[i]?).any u.seesBoth

/-- What the maker has counted in the ticks since `w0` is what has happened in them. -/
structure Counted (w w0 : Desk D) (since : List Tick) : Prop where
  ticks : w.maker.tickCount = UInt64.ofNat since.length
  fills : w.maker.totalFills = UInt64.ofNat w.applied.length
  quotes : w.maker.totalQuoteUpdates = UInt64.ofNat w.issued.length
  numbers : w.maker.pnlHistory.map PnlSnapshot.tickNumber =
    ((List.range since.length).filter (w0.sawBoth since)).map fun i => UInt64.ofNat (i + 1)

theorem length_idsBetween (a b : OrderId) :
    UInt64.ofNat (idsBetween a b).length = b - a := by
  rw [idsBetween, List.length_map, List.length_range]
  exact UInt64.ofNat_toNat

theorem step_parts {tick : Tick} (hstep : w.step tick = some w') :
    ∃ S m e, run Session.step w.session tick.ops = some S ∧
      w.maker.onTick S.engine w.session.engine.tradeLog.length tick.clock = some (m, e) ∧
      w'.maker = m ∧ w'.session = { S with engine := e } ∧
      w'.issued = w.issued ++ idsBetween w.maker.nextOrderId m.nextOrderId ∧
      w'.applied = w.applied ++ if MarketMaker.detects S.engine then
        (w.maker.traceFills w.session.engine.tradeLog.length
          (S.engine.tradeLog.drop w.session.engine.tradeLog.length)).1 else [] := by
  obtain ⟨S, hS, hrest⟩ := Option.bind_eq_some_iff.mp hstep
  obtain ⟨⟨m, e⟩, htick, hend⟩ := Option.bind_eq_some_iff.mp hrest
  refine ⟨S, m, e, hS, htick, ?_⟩
  dsimp only at hend
  by_cases hd : MarketMaker.detects S.engine = true
  · rw [if_pos hd] at hend
    obtain rfl := Option.some.inj hend
    exact ⟨rfl, rfl, rfl, by rw [if_pos hd]⟩
  · rw [if_neg hd] at hend
    obtain rfl := Option.some.inj hend
    exact ⟨rfl, rfl, rfl, by rw [if_neg hd, List.append_nil]⟩

theorem filter_sawBoth {w0 : Desk D} {ticks : List Tick} {tick : Tick}
    (hrun : run step w0 ticks = some w) :
    (List.range (ticks ++ [tick]).length).filter (w0.sawBoth (ticks ++ [tick])) =
      (List.range ticks.length).filter (w0.sawBoth ticks) ++
        if w.seesBoth tick then [ticks.length] else [] := by
  have hlast : w0.sawBoth (ticks ++ [tick]) ticks.length = w.seesBoth tick := by
    simp [sawBoth, hrun]
  have hearlier : ∀ i ∈ List.range ticks.length,
      w0.sawBoth (ticks ++ [tick]) i = w0.sawBoth ticks i := by
    intro i hi
    have hlt := List.mem_range.mp hi
    rw [sawBoth, List.take_append_of_le_length hlt.le, List.getElem?_append_left hlt, sawBoth]
  rw [List.length_append, List.length_singleton, List.range_succ, List.filter_append,
    List.filter_congr hearlier, List.filter_singleton, hlast]
  cases w.seesBoth tick <;> rfl

theorem Counted.step {w0 : Desk D} {ticks : List Tick} {tick : Tick} (h : w.Counted w0 ticks)
    (hrun : run step w0 ticks = some w) (hstep : w.step tick = some w') :
    w'.Counted w0 (ticks ++ [tick]) := by
  obtain ⟨S, m, e, hS, htick, rfl, -, hissued, happlied⟩ := step_parts hstep
  have htallied := MarketMaker.onTick_tallied htick
  have hlength : (ticks ++ [tick]).length = ticks.length + 1 := List.length_append
  have hticks : w'.maker.tickCount = UInt64.ofNat (ticks.length + 1) := by
    rw [htallied.tickCount, h.ticks, UInt64.ofNat_add]
    rfl
  refine ⟨by rw [hticks, hlength], ?_, ?_, ?_⟩
  · rw [htallied.totalFills, h.fills, happlied, List.length_append, UInt64.ofNat_add]
    split_ifs <;> rfl
  · rw [hissued, List.length_append, UInt64.ofNat_add, length_idsBetween,
      ← htallied.totalQuoteUpdates, ← h.quotes]
    grind
  · have hsees : w.seesBoth tick = MarketMaker.detects S.engine := by simp [seesBoth, hS]
    rw [htallied.pnlHistory, List.map_append, h.numbers, filter_sawBoth hrun, hsees,
      List.map_append]
    split_ifs
    · have hnumber : (w.maker.snapshot S.engine w.session.engine.tradeLog.length).tickNumber =
          UInt64.ofNat (ticks.length + 1) := by
        rw [← hticks, htallied.tickCount]
        exact (w.maker.scanned_tallies S.engine w.session.engine.tradeLog.length).tickCount
      rw [List.map_singleton, hnumber]
      rfl
    · rfl

theorem step_returns {tick : Tick} (h : w.session.Sound) (hfair : w.Fair tick) :
    ∃ w', w.step tick = some w' ∧ w'.session.Sound := by
  obtain ⟨S, hS, hsound⟩ := run_invariant (fun S op h hop => by
    obtain ⟨S', hs, h', -⟩ := h.step hop
    exact ⟨S', hs, h'⟩) h hfair
  obtain ⟨m, e, -, -, -, -, htick, hsound', -⟩ :=
    MarketMaker.onTick_ticked hsound w.maker w.session.engine.tradeLog.length tick.clock
  by_cases hd : MarketMaker.detects S.engine = true
  · exact ⟨_, by simp [step, hS, htick, hd]; rfl, hsound'⟩
  · exact ⟨_, by simp [step, hS, htick, hd]; rfl, hsound'⟩

theorem Counted.run {w0 : Desk D} (h0 : w0.Counted w0 []) {ticks : List Tick}
    (hrun : Library.run Desk.step w0 ticks = some w) : w.Counted w0 ticks := by
  induction ticks using List.reverseRecOn generalizing w with
  | nil =>
    obtain rfl := Option.some.inj hrun
    exact h0
  | append_singleton ticks tick ih =>
    rw [run_append] at hrun
    obtain ⟨w1, hfirst, hlast⟩ := Option.bind_eq_some_iff.mp hrun
    obtain ⟨w2, hstep, hend⟩ := Option.bind_eq_some_iff.mp hlast
    obtain rfl := Option.some.inj hend
    exact (ih hfirst).step hfirst hstep

/-- In every run the counts of the report are what has happened, modulo the width of a
counter: the ticks, the fills that went into the position, the quotes that took an id; and
there is a snapshot of each tick that saw both sides, in order, under its own number. -/
theorem simulate_counted {poolSize : Nat} {udpPub : Bool} {cfg : MarketMakerConfig} {seed : List Op}
    {ticks : List Tick}
    (hseed : Along Session.step Session.Owned (Session.new poolSize udpPub) seed)
    (hfair : ∀ w : Desk D, seeded poolSize udpPub cfg seed = some w → Along step Fair w ticks) :
    ∃ w0 w : Desk D, seeded poolSize udpPub cfg seed = some w0 ∧
      simulate poolSize udpPub cfg seed ticks = some w ∧ w.Counted w0 ticks := by
  obtain ⟨S, hS, hsound⟩ := run_invariant (fun S op h hop => by
    obtain ⟨S', hs, h', -⟩ := h.step hop
    exact ⟨S', hs, h'⟩) (Session.new_sound poolSize udpPub) hseed
  have hw0 : seeded poolSize udpPub cfg seed = some (⟨S, .new cfg, [], [], 0⟩ : Desk D) := by
    simp [seeded, hS]
  obtain ⟨w, hw, -⟩ := run_invariant (fun (u : Desk D) tick hu hok => step_returns hu hok) hsound
    (hfair _ hw0)
  have hstart : Counted (⟨S, .new cfg, [], [], 0⟩ : Desk D) ⟨S, .new cfg, [], [], 0⟩ [] :=
    ⟨rfl, rfl, rfl, rfl⟩
  exact ⟨_, w, hw0, by simp [simulate, hw0, hw], hstart.run hw⟩

theorem simulate_counted_sold :
    ∃ w : Desk ℚ, simulate 8 false quoteConfig quoteSeed soldTicks = some w ∧
      w.maker.totalFills = 1 ∧ w.maker.totalQuoteUpdates = 4 ∧
      w.maker.pnlHistory.map PnlSnapshot.tickNumber = [1, 2] ∧
      ∃ w0, seeded 8 false quoteConfig quoteSeed = some w0 ∧ w.Counted w0 soldTicks := by
  have hseed : Along Session.step Session.Owned (Session.new 8 false) quoteSeed := by decide +kernel
  have hall : (seeded 8 false quoteConfig quoteSeed).all (fun w : Desk ℚ =>
      decide (Along step Fair w soldTicks)) = true := by decide +kernel
  have hend : (simulate 8 false quoteConfig quoteSeed soldTicks).map (fun w : Desk ℚ =>
      (w.maker.totalFills, w.maker.totalQuoteUpdates,
        w.maker.pnlHistory.map PnlSnapshot.tickNumber)) = some (1, 4, [1, 2]) := by decide +kernel
  obtain ⟨w0, w, hw0, hw, hcounted⟩ := simulate_counted (D := ℚ) hseed fun w hw => by
    simpa using (Option.all_eq_true _ _).mp hall w hw
  rw [hw] at hend
  obtain ⟨hfills, hrest⟩ := Prod.mk.inj (Option.some.inj hend)
  obtain ⟨hquotes, hnumbers⟩ := Prod.mk.inj hrest
  exact ⟨w, hw, hfills, hquotes, hnumbers, w0, hw0, hcounted⟩

end Desk
end LobCity
