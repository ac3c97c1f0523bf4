import LobCity.SimulatorRuns
import LobCity.TradeCounts

/-! Whole runs of the simulator, whatever its distributions return: the book stays sound and
uncrossed and the pool large enough, the market maker keeps within its cap, and at the end
none of its orders is left. -/
namespace LobCity
open Library

namespace Floor
variable {D : Type} [DoubleCasts D] {f f' : Floor D} {cfg : MarketMakerConfig} {n : Nat}

structure Capped (cfg : MarketMakerConfig) (f : Floor D) : Prop where
  covers : f.mm.Covers (f.engine.book.openShares (cfg.startingId ≤ ·))
  history : ∀ snap ∈ f.mm.pnlHistory, cfg.Allows snap.netPosition

theorem Capped.turn (h : f.Capped cfg) (hmax : 0 ≤ cfg.maxPosition) (hsteady : f.Steady cfg (n + 1))
    {tick : SimTick D} (hsize : Simulator.Sized f.sim.simCfg tick) (hturn : f.turn tick = some f') :
    f'.Capped cfg := by
  obtain ⟨sim, e, mm, e', hf, hacts, htick, hsteady', -⟩ := hsteady.turn hsize
  obtain rfl := Option.some.inj (hturn.symm.trans hf)
  obtain ⟨new, hq, hlog, hnew, htrim⟩ := hacts.reaches.quoting hsteady.quoting
  have hnumbers := hsteady.numbers e f.engine.tradeLog.length tick.clock
  have hwindow : e.tradeLog.drop f.engine.tradeLog.length = new := by
    rw [show e.tradeLog = _ from hlog]
    exact List.drop_left
  have hcovers := (h.covers.onTick (hsteady.config ▸ hmax) hq hnumbers
    (by rw [hwindow]; exact fun t ht s => (hnew t ht).orderId hsteady.owned s)
    (by rw [hwindow]; exact htrim.open_add_filled) htick).1
  have hallows : cfg.Allows mm.netPosition := by
    have hcfg : mm.config = cfg := hsteady'.config
    rw [← hcfg]
    exact hcovers.allows (hcfg ▸ hmax)
  refine ⟨hcovers, fun snap hsnap => ?_⟩
  have hhistory : mm.pnlHistory = _ := (MarketMaker.onTick_tallied htick).pnlHistory
  have hmem : snap ∈ mm.pnlHistory := hsnap
  rw [hhistory] at hmem
  cases List.mem_append.mp hmem with
  | inl hold => exact h.history snap hold
  | inr hlast =>
    obtain ⟨m1, e1, htick1, -, -, hpos, -⟩ := MarketMaker.onTick_cases hq hnumbers
    obtain ⟨rfl, rfl⟩ := Prod.mk.inj (Option.some.inj (htick1.symm.trans htick))
    obtain ⟨hd, hlast⟩ := List.mem_ite_nil_right.mp hlast
    obtain rfl := List.mem_singleton.mp hlast
    rw [if_pos hd] at hpos
    rwa [hpos] at hallows

theorem Steady.shutdown (h : f.Steady cfg n) (clock : TickClock) :
    (f.shutdown clock).engine.Uncrossed ∧ (f.shutdown clock).sim = f.sim ∧
      (f.shutdown clock).mm.netPosition = f.mm.netPosition ∧
      (f.shutdown clock).mm.pnlHistory = f.mm.pnlHistory ∧
      (f.shutdown clock).engine.book.RestingIds (· ∈ f.sim.outstandingOrders) ∧
      Session.Reaches (fun _ => True) 0 ⟨f.engine, []⟩ ⟨(f.shutdown clock).engine, []⟩ := by
  have hreach := f.mm.cancelExistingQuotes_reaches ⟨f.engine, []⟩ clock
  obtain ⟨m, e, hcancel, hq, hzero, -, hpos, -⟩ := h.quoting.cancelExistingQuotes clock
  have hcancel : f.mm.cancelExistingQuotes f.engine clock = (m, e) := hcancel
  have htallies := f.mm.cancelExistingQuotes_tallies f.engine clock
  have hshut : f.shutdown clock = { f with engine := e, mm := m } := by
    rw [Floor.shutdown, hcancel]
  obtain ⟨m1, e1, hcancel1, -, -, -, -, -, -, -, hmem, -⟩ :=
    MarketMaker.cancelExistingQuotes_sound h.regular.toSound f.mm clock
  obtain ⟨rfl, rfl⟩ := Prod.mk.inj (hcancel.symm.trans hcancel1)
  rw [hcancel] at htallies
  rw [hcancel] at hreach
  rw [hshut]
  refine ⟨(hreach.regular h.regular).2 h.uncrossed, rfl, hpos, htallies.pnlHistory,
    fun s r hr => ?_, hreach⟩
  cases h.lists.resting s r (hmem s r hr) with
  | inl hown => exact absurd hown (hq.shared.quoted.no_own (hzero s) hr)
  | inr hlisted => exact hlisted

end Floor

/-- Casts towards zero. -/
instance : DoubleCasts ℚ where
  ofSize n := n.toNat
  castPrice x := Int64.ofInt (x.num.tdiv x.den)
  castInt x := Int32.ofInt (x.num.tdiv x.den)
  castQuantity x := UInt32.ofNat (x.num.tdiv x.den).toNat
  castSize x := UInt64.ofNat (x.num.tdiv x.den).toNat

namespace Simulator

def oneLevel : SimConfig ℚ :=
  { numTicks := 4, seedDepthLevels := 1, seedQtyPerLevel := 5, seedTickSize := 500000 }

def smallCap : MarketMakerConfig :=
  { halfSpread := 10000, quoteSize := 5, maxPosition := 5, startingId := 50 }

def fourTicks : SimInputs ℚ where
  seed _ := ⟨1, 1, 1, 1⟩
  ticks i := ⟨⟨0, [99 / 100, 70 / 100, 70 / 100, 80 / 100].getD i 0, 60 / 100, 0, 10 / 100, 0⟩,
    1, 1, ⟨20, 21, 22, 23, 24, 25⟩⟩
  shutdown := ⟨20, 21, 22, 23, 24, 25⟩

variable {D : Type} [DoubleCasts D] {sc : SimConfig D} {mc : MarketMakerConfig}
  {inputs : SimInputs D}

def levels (sc : SimConfig D) : Nat := sc.seedDepthLevels.toNatClampNeg

def turns (sc : SimConfig D) : Nat := sc.numTicks.toNatClampNeg

/-- The ids of the simulator end before those of the market maker begin, these do not wrap
around, and no order is empty. -/
structure Fits (sc : SimConfig D) (mc : MarketMakerConfig) (inputs : SimInputs D) : Prop where
  ids : 2 * levels sc + turns sc < mc.startingId.toNat
  room : mc.startingId.toNat + 2 * turns sc < 2 ^ 64
  seedQty : sc.seedQtyPerLevel.toUInt32 ≠ 0
  sized : ∀ i < turns sc, Sized sc (inputs.ticks i)

/-- The configurations of `main`. -/
def mainSim : SimConfig D := { numTicks := 100000, startPrice := Double.ofInt64 150 }

def mainMaker : MarketMakerConfig :=
  { halfSpread := 5000, quoteSize := 50, maxPosition := 500, skewPerUnit := 100,
    maxLoss := 50000000 }

theorem mainSim_sizes :
    levels (mainSim : SimConfig D) = 10 ∧ turns (mainSim : SimConfig D) = 100000 := by
  have hlevels : (10 : Int32).toNatClampNeg = 10 := by decide
  have hturns : (100000 : Int32).toNatClampNeg = 100000 := by decide
  exact ⟨hlevels, hturns⟩

theorem main_fits (hsized : ∀ i < 100000, Sized mainSim (inputs.ticks i)) :
    Fits mainSim mainMaker inputs := by
  obtain ⟨hlevels, hturns⟩ := mainSim_sizes (D := D)
  have hfirst : mainMaker.startingId.toNat = 5000000 := by decide
  have hseed : (200 : Int32).toUInt32 ≠ 0 := by decide
  refine ⟨?_, ?_, hseed, ?_⟩
  · rw [hlevels, hturns, hfirst]
    decide
  · rw [hturns, hfirst]
    decide
  · rwa [hturns]

instance (sc : SimConfig ℚ) : DecidablePred (Sized sc) :=
  fun _ => inferInstanceAs (Decidable (_ ≠ _))

theorem fourTicks_fits : Fits oneLevel smallCap fourTicks :=
  ⟨by decide +kernel, by decide +kernel, by decide +kernel, by decide +kernel⟩

theorem new_uncrossed (poolSize : Nat) (udpPub : Bool) :
    (Session.new poolSize udpPub).engine.Uncrossed := by
  intro bid hbid
  simp [Session.new, Engine.best?, Engine.levels, Engine.new, SortedMap.first?,
    SortedMap.empty] at hbid

theorem Fits.seeded (h : Fits sc mc inputs) (poolSize : Nat) :
    ∃ f, (new sc mc).seeded poolSize inputs = some f ∧ f.Steady mc (turns sc) ∧ f.sim.simCfg = sc ∧
      f.mm = .new mc ∧ Session.Reaches (fun _ => True) (2 * levels sc) (Session.new poolSize false)
        ⟨f.engine, []⟩ := by
  have hids := h.ids
  have hS := Session.new_regular poolSize false
  have hlists : (new sc mc).Lists mc.startingId (Session.new poolSize false).engine.book := by
    refine ⟨List.nodup_nil, by simp [new], fun s r hr => ?_⟩
    have hb := (Engine.new_wellFormed poolSize false).2
    rw [show (Session.new poolSize false).engine = Engine.new poolSize false from rfl, hb] at hr
    simp [Book.new] at hr
  have hn : (new sc mc).Numbered mc.startingId (turns sc + 2 * levels sc) := by
    refine ⟨(by decide : (0 : UInt64) < 1), ?_⟩
    have hone : (new sc mc).nextOrderId.toNat = 1 := rfl
    omega
  obtain ⟨sim, e, hseed, hacts⟩ := hlists.seedLevels hS hn h.seedQty (new sc mc).midPx inputs.seed 1
  have hbook : (new sc mc).seedBook (Engine.new poolSize false) inputs.seed = some (sim, e) := hseed
  obtain ⟨-, hq, -⟩ := hacts.reaches.quoting
    (Session.Quoting.new (D := D) poolSize false mc (mc.startingId ≤ ·))
  obtain ⟨hS', hu'⟩ := hacts.reaches.regular hS
  have hcur := congrFun (MarketMaker.current_new (D := D) mc)
  refine ⟨⟨sim, e, .new mc⟩, ?_, ⟨hS', hu' (new_uncrossed poolSize false), hacts.lists, hacts.numbered _ hn, hq, rfl,
    fun s hs => absurd (hcur s) hs, Nat.le_refl _, h.room⟩, hacts.simCfg, rfl,
    hacts.reaches.mono (fun _ _ => trivial) (Nat.le_refl _)⟩
  rw [Simulator.seeded, hbook]
  rfl

/-- A run to its end, with a property that the seeded floor has and every turn keeps. -/
theorem Fits.runWith (h : Fits sc mc inputs) (poolSize : Nat) (Inv : Floor D → Prop)
    (hseeded : ∀ f, (new sc mc).seeded poolSize inputs = some f → f.Steady mc (turns sc) →
      f.mm = .new mc → Inv f)
    (hturn : ∀ (f f' : Floor D) (k : Nat) (tick : SimTick D), f.Steady mc (k + 1) →
      Sized f.sim.simCfg tick → f.turn tick = some f' → f.mm.killed = false → Inv f → Inv f') :
    ∃ f, (new sc mc).runWith poolSize inputs = some (f.shutdown inputs.shutdown) ∧ Inv f ∧
      f.Steady mc 0 ∧ Session.Reaches (fun _ => True) (2 * levels sc + 3 * turns sc)
        (Session.new poolSize false) ⟨f.engine, []⟩ := by
  obtain ⟨f, hf, hsteady, hcfg, hmm, hreach⟩ := h.seeded poolSize
  set ticks := (List.range (turns sc)).map inputs.ticks with hticks
  have hlength : ticks.length = turns sc := by rw [hticks, List.length_map, List.length_range]
  have hsteady0 : f.Steady mc (0 + ticks.length) := by rwa [hlength, Nat.zero_add]
  obtain ⟨f', hloop, hsteady', hinv, hreach'⟩ :=
    hsteady0.loop hturn (by rw [hmm]; rfl) (hseeded f hf hsteady hmm) fun tick ht => by
      obtain ⟨i, hi, rfl⟩ := List.mem_map.mp ht
      rw [hcfg]
      exact h.sized i (List.mem_range.mp hi)
  rw [hlength] at hreach'
  refine ⟨f', ?_, hinv, hsteady', hreach.trans hreach'⟩
  unfold Simulator.runWith
  rw [hf]
  show (f.loop ticks).bind _ = _
  rw [hloop]
  rfl

/-- A run whose ids and sizes fit returns, and what it has done to the book are well-behaved
calls: no order is submitted twice or empty or under an id that rests, the book is uncrossed
after each of them, and a pool that has room for every order never allocates. -/
theorem runWith_calls (h : Fits sc mc inputs) (poolSize : Nat) :
    ∃ f ops, (new sc mc).runWith poolSize inputs = some f ∧
      Library.run Session.step (Session.new poolSize false) ops = some ⟨f.engine, []⟩ ∧
      Along Session.step Session.Orderly (Session.new poolSize false) ops ∧
      f.engine.BookInvariant ∧
      (∀ k S, Library.run Session.step (Session.new poolSize false) (ops.take k) = some S →
        S.engine.Uncrossed) ∧
      (2 * levels sc + 3 * turns sc ≤ poolSize → f.engine.allAllocated = List.range poolSize) := by
  obtain ⟨f, hrun, -, hsteady, hreach⟩ :=
    h.runWith poolSize (fun _ => True) (fun _ _ _ _ => trivial) fun _ _ _ _ _ _ _ _ _ => trivial
  obtain ⟨-, -, -, -, -, hstop⟩ := hsteady.shutdown inputs.shutdown
  have hall := hreach.trans hstop
  have hS := Session.new_regular poolSize false
  have hregular := (hall.regular hS).1
  have hroom := hall.allocated hS
  obtain ⟨ops, hops, hok, -⟩ := hall
  refine ⟨_, ops, hrun, hops, hok, hregular.bookInvariant,
    fun k S hk => Session.Reaches.uncrossed_take hS (new_uncrossed poolSize false) hok k hk, fun hfit => ?_⟩
  exact hroom (by rw [show (Session.new poolSize false).engine.freeList.length = poolSize by simp
    [Session.new, Engine.new, OrderPool.new]]; exact hfit)

theorem runWith_calls_sold :
    ∃ f ops, (new oneLevel smallCap).runWith 16 fourTicks = some f ∧ f.mm.netPosition = 5 ∧
      Library.run Session.step (Session.new 16 false) ops = some ⟨f.engine, []⟩ ∧
      f.engine.BookInvariant ∧ f.engine.allAllocated = List.range 16 := by
  have hend : ((new oneLevel smallCap).runWith 16 fourTicks).map (fun f => f.mm.netPosition) =
      some 5 := by decide +kernel
  obtain ⟨f, ops, hrun, hops, -, hinv, -, hroom⟩ := runWith_calls fourTicks_fits 16
  rw [hrun] at hend
  exact ⟨f, ops, hrun, Option.some.inj hend, hops, hinv, hroom (by decide)⟩

theorem runWith_trades (h : Fits sc mc inputs) (poolSize : Nat) :
    ∃ f, (new sc mc).runWith poolSize inputs = some f ∧
      f.engine.tradeLog.length ≤ 2 * levels sc + 3 * turns sc := by
  obtain ⟨f, hrun, -, hsteady, hreach⟩ :=
    h.runWith poolSize (fun _ => True) (fun _ _ _ _ => trivial) fun _ _ _ _ _ _ _ _ _ => trivial
  obtain ⟨-, -, -, -, -, hstop⟩ := hsteady.shutdown inputs.shutdown
  exact ⟨_, hrun, (hreach.trans hstop).trades_new⟩

/-- The program's own run: its log stays within the 1000000 trades that are reserved for it. -/
theorem main_trades (hsized : ∀ i < 100000, Sized mainSim (inputs.ticks i)) :
    ∃ f, (new (D := D) mainSim mainMaker).run inputs = some f ∧
      f.engine.tradeLog.length ≤ 300020 := by
  obtain ⟨f, hrun, hlength⟩ := runWith_trades (main_fits hsized) 2000000
  obtain ⟨hlevels, hturns⟩ := mainSim_sizes (D := D)
  rw [hlevels, hturns] at hlength
  exact ⟨f, hrun, hlength⟩

/-- After every tick the position is within the cap: in the end, and in every snapshot. -/
theorem runWith_keepsCap (h : Fits sc mc inputs) (hmax : 0 ≤ mc.maxPosition) (poolSize : Nat) :
    ∃ f, (new sc mc).runWith poolSize inputs = some f ∧ mc.Allows f.mm.netPosition ∧
      ∀ snap ∈ f.mm.pnlHistory, mc.Allows snap.netPosition := by
  have hseeded (f : Floor D) (hsteady : f.Steady mc (turns sc)) (hmm : f.mm = .new mc) :
      f.Capped mc := by
    have hcur := congrFun (MarketMaker.current_new (D := D) mc)
    have hnone (s : Side) : f.engine.book.openShares (mc.startingId ≤ ·) s = 0 :=
      hsteady.quoting.no_open (by rw [hmm]; exact hcur s)
    have hmax := Int64.le_iff_toInt_le.mp hmax
    have hzero : (0 : Int64).toInt = 0 := rfl
    refine ⟨⟨?_, ?_⟩, by rw [hmm]; simp [MarketMaker.new]⟩
    · rw [hnone, hmm]
      show (0 : Int64).toInt + _ ≤ mc.maxPosition.toInt
      omega
    · rw [hnone, hmm]
      show -mc.maxPosition.toInt ≤ (0 : Int64).toInt - _
      omega
  obtain ⟨f, hrun, hcapped, hsteady, -⟩ := h.runWith poolSize (Floor.Capped mc) (fun f _ => hseeded f)
    fun f f' k tick hsteady hsize hturn _ hcapped => hcapped.turn hmax hsteady hsize hturn
  obtain ⟨-, -, hpos, hhistory, -⟩ := hsteady.shutdown inputs.shutdown
  refine ⟨_, hrun, ?_, ?_⟩
  · have hallows := hcapped.covers.allows (hsteady.config ▸ hmax)
    rwa [hpos, ← hsteady.config]
  · rw [hhistory]
    exact hcapped.history

theorem runWith_keepsCap_sold :
    ∃ f, (new oneLevel smallCap).runWith 16 fourTicks = some f ∧
      f.mm.pnlHistory.map PnlSnapshot.netPosition = [0, 4, 5] ∧
      ∀ snap ∈ f.mm.pnlHistory, smallCap.Allows snap.netPosition := by
  have hend : ((new oneLevel smallCap).runWith 16 fourTicks).map
      (fun f => f.mm.pnlHistory.map PnlSnapshot.netPosition) = some [0, 4, 5] := by decide +kernel
  obtain ⟨f, hrun, -, hcap⟩ := runWith_keepsCap fourTicks_fits (by decide) 16
  rw [hrun] at hend
  exact ⟨f, hrun, Option.some.inj hend, hcap⟩

/-- At the end every resting order is one that the simulator still lists, under an id of its
own; of the market maker nothing rests. -/
theorem runWith_leaves (h : Fits sc mc inputs) (poolSize : Nat) :
    ∃ f, (new sc mc).runWith poolSize inputs = some f ∧ f.sim.outstandingOrders.Nodup ∧
      (∀ id ∈ f.sim.outstandingOrders, 0 < id ∧ id < f.sim.nextOrderId ∧ id < mc.startingId) ∧
      ∀ id ∈ f.engine.restingIds, id ∈ f.sim.outstandingOrders := by
  obtain ⟨f, hrun, -, hsteady, -⟩ :=
    h.runWith poolSize (fun _ => True) (fun _ _ _ _ => trivial) fun _ _ _ _ _ _ _ _ _ => trivial
  obtain ⟨-, hsim, -, -, hresting, -⟩ := hsteady.shutdown inputs.shutdown
  refine ⟨_, hrun, ?_, fun id hid => ?_, fun id hid => ?_⟩
  · rw [hsim]
    exact hsteady.lists.nodup
  · rw [hsim] at hid ⊢
    obtain ⟨hpos, hlt⟩ := hsteady.lists.handed id hid
    have hbelow := hsteady.numbered.below
    exact ⟨hpos, hlt, UInt64.lt_of_lt_of_le hlt (UInt64.le_iff_toNat_le.mpr hbelow)⟩
  · obtain ⟨s, r, hr, rfl⟩ := Engine.mem_restingIds.mp hid
    rw [hsim]
    exact hresting s r hr

theorem runWith_leaves_sold :
    ∃ f, (new oneLevel smallCap).runWith 16 fourTicks = some f ∧ f.sim.outstandingOrders = [2] ∧
      ∀ id ∈ f.engine.restingIds, id ∈ f.sim.outstandingOrders := by
  have hend : ((new oneLevel smallCap).runWith 16 fourTicks).map
      (fun f => f.sim.outstandingOrders) = some [2] := by decide +kernel
  obtain ⟨f, hrun, -, -, hleaves⟩ := runWith_leaves fourTicks_fits 16
  rw [hrun] at hend
  exact ⟨f, hrun, Option.some.inj hend, hleaves⟩

end Simulator
end LobCity
