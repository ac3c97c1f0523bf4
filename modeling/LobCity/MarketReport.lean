import LobCity.Quantities
import LobCity.Reaches
import LobCity.Totals
import Mathlib.Tactic.Linarith

/-! What the engine prints of the market: a page with the first five levels of each side, and
the trades so far beside the top of the book. -/
namespace LobCity
open Library
open Double (ofInt64)

structure BookRow (D : Type) where
  quantity : Quantity
  price : D
deriving DecidableEq, Repr

structure BookPage (D : Type) where
  asks : List (BookRow D)
  bids : List (BookRow D)
deriving DecidableEq, Repr

structure TopOfBook (D : Type) where
  bestBid : D
  bestAsk : D
  spread : D
  midPrice : D
deriving DecidableEq, Repr

/-- What `printMarketStats` prints; the top only if both sides have an order. -/
structure MarketStats (D : Type) where
  totalTrades : Nat
  totalVolume : UInt64
  vwap : D
  top : Option (TopOfBook D)
deriving DecidableEq, Repr

namespace Engine
variable {D : Type} [Double D]

def topLevels (e : Engine) (s : Side) : List (Price × PriceLevel) := (e.levels s).entries.take 5

def bookRow (l : Price × PriceLevel) : BookRow D := ⟨l.2.totalVolume, ofInt64 l.1 / ofInt64 10000⟩

def display (e : Engine) : BookPage D where
  asks := (e.topLevels .sell).reverse.map bookRow
  bids := (e.topLevels .buy).map bookRow

def printMarketStats (e : Engine) : MarketStats D where
  totalTrades := e.tradeLog.length
  totalVolume := e.tradeLog.foldl (fun totalQty t => totalQty + t.quantity.toUInt64) 0
  vwap := e.getVWAP
  top := do
    let bidLevel ← (e.levels .buy).first?
    let askLevel ← (e.levels .sell).first?
    let bid := ofInt64 bidLevel.1 / ofInt64 10000
    let ask := ofInt64 askLevel.1 / ofInt64 10000
    return ⟨bid, ask, ask - bid, (bid + ask) / ofInt64 2⟩

end Engine

def dollars (p : Price) : ℚ := p.toInt / 10000

theorem dollars_lt {p q : Price} : dollars p < dollars q ↔ p < q := by
  rw [dollars, dollars, div_lt_div_iff_of_pos_right (by norm_num), Int.cast_lt]
  exact Int64.lt_iff_toInt_lt.symm

theorem dollars_eq (p : Price) : (ofInt64 p / ofInt64 10000 : ℚ) = dollars p := rfl

structure SideShown (e : Engine) (s : Side) (rows : List (BookRow ℚ)) : Prop where
  /-- a row is a level: there are orders at its price, and the quantity is theirs -/
  level : ∀ row ∈ rows, ∃ p, row.price = dollars p ∧ e.book.queue s p ≠ [] ∧
    row.quantity.toNat = depth (e.book.queue s p) % 2 ^ 32
  /-- an order that is not on the page is behind five levels -/
  behind : ∀ a ∈ e.orders s, (∃ row ∈ rows, row.price = dollars (e.heap a).price) ∨
    rows.length = 5 ∧ ∀ row ∈ rows, ∃ p, row.price = dollars p ∧ s.better p (e.heap a).price

structure PageRight (e : Engine) (page : BookPage ℚ) : Prop where
  falling : ((page.asks ++ page.bids).map BookRow.price).Pairwise (· > ·)
  asks : SideShown e .sell page.asks.reverse
  bids : SideShown e .buy page.bids

section Levels
variable {e : Engine} {hands : List Addr} {s : Side} {p : Price} {lvl : PriceLevel}

theorem Engine.WellFormed.level_queue (h : e.WellFormed hands) (hl : (p, lvl) ∈ (e.levels s).entries) :
    e.book.queue s p ≠ [] ∧ lvl.totalVolume = volume (e.book.queue s p) := by
  have hl := (SortedMap.mem_entries_iff _ _ _).mp hl
  obtain ⟨-, hhead, hchained, hvolume⟩ := h.level s p lvl hl
  rw [h.book_queue hl]
  refine ⟨fun hnil => ?_, ?_⟩
  · rw [List.map_eq_nil_iff.mp hnil] at hchained
    exact hhead hchained.head
  · rw [hvolume, volume, List.map_map]
    rfl

theorem Engine.WellFormed.sideShown (h : e.WellFormed hands) (s : Side) :
    SideShown e s ((e.topLevels s).map Engine.bookRow) := by
  refine ⟨fun row hrow => ?_, fun a ha => ?_⟩
  · obtain ⟨⟨p, lvl⟩, hl, rfl⟩ := List.mem_map.mp hrow
    obtain ⟨hne, hvolume⟩ := h.level_queue (List.mem_of_mem_take hl)
    refine ⟨p, rfl, hne, ?_⟩
    rw [← toNat_volume, ← hvolume]
    rfl
  · obtain ⟨p, lvl, hl, ha⟩ := Engine.mem_orders.mp ha
    have hprice := (h.order s p lvl hl a ha).1
    have hentry := (SortedMap.mem_entries_iff _ _ _).mpr hl
    rw [← List.take_append_drop 5 (e.levels s).entries] at hentry
    cases List.mem_append.mp hentry with
    | inl htake => exact Or.inl ⟨_, List.mem_map_of_mem htake, by rw [hprice]; rfl⟩
    | inr hdrop =>
      have hlength := List.length_pos_of_mem hdrop
      rw [List.length_drop] at hlength
      refine Or.inr ⟨?_, fun row hrow => ?_⟩
      · rw [List.length_map, Engine.topLevels, List.length_take]
        omega
      · obtain ⟨l, hl, rfl⟩ := List.mem_map.mp hrow
        have hsorted := (e.levels s).sorted
        rw [← List.take_append_drop 5 (e.levels s).entries] at hsorted
        refine ⟨l.1, rfl, ?_⟩
        rw [hprice]
        exact (List.pairwise_append.mp hsorted).2.2 l hl _ hdrop

/-- In an uncrossed book every level of bids is below every level of asks. -/
theorem Engine.WellFormed.levels_apart (h : e.WellFormed hands) (hu : e.book.Uncrossed)
    {bid ask : Price × PriceLevel} (hbid : bid ∈ (e.levels .buy).entries)
    (hask : ask ∈ (e.levels .sell).entries) : bid.1 < ask.1 := by
  have hmem {s : Side} {l : Price × PriceLevel} (hl : l ∈ (e.levels s).entries) :
      ∃ r ∈ e.book.side s, r.price = l.1 := by
    obtain ⟨r, hr⟩ := List.exists_mem_of_ne_nil _ (h.level_queue hl).1
    exact ⟨r, (List.mem_filter.mp hr).1, of_decide_eq_true (List.mem_filter.mp hr).2⟩
  obtain ⟨r, hr, hrprice⟩ := hmem hbid
  obtain ⟨x, hx, hxprice⟩ := hmem hask
  exact hrprice ▸ hxprice ▸ hu .buy r hr x hx

theorem Engine.WellFormed.pageRight (h : e.WellFormed hands) (hu : e.book.Uncrossed) :
    PageRight e e.display := by
  have hsorted (s : Side) : (e.topLevels s).Pairwise fun l l' => s.better l.1 l'.1 :=
    (e.levels s).sorted.sublist (List.take_sublist 5 _)
  refine ⟨?_, ?_, h.sideShown .buy⟩
  · rw [Engine.display, List.map_append, List.map_map, List.map_map, List.pairwise_append,
      List.pairwise_map, List.pairwise_map, List.pairwise_reverse]
    refine ⟨(hsorted .sell).imp fun hlt => dollars_lt.mpr hlt,
      (hsorted .buy).imp fun hlt => dollars_lt.mpr hlt, fun x hx y hy => ?_⟩
    obtain ⟨ask, hask, rfl⟩ := List.mem_map.mp hx
    obtain ⟨bid, hbid, rfl⟩ := List.mem_map.mp hy
    exact dollars_lt.mpr (h.levels_apart hu (List.mem_of_mem_take hbid)
      (List.mem_of_mem_take (List.mem_reverse.mp hask)))
  · have hrows := h.sideShown .sell
    rw [Engine.display, ← List.map_reverse, List.reverse_reverse]
    exact hrows

end Levels

section Log
variable {log : List Trade}

theorem totalQty_eq (log : List Trade) (n : UInt64) :
    log.foldl (fun totalQty t => totalQty + t.quantity.toUInt64) n =
      n + UInt64.ofNat (log.map fun t => t.quantity.toNat).sum := by
  induction log generalizing n with
  | nil => exact (UInt64.add_zero n).symm
  | cons t log ih =>
    have hquantity : t.quantity.toUInt64 = UInt64.ofNat t.quantity.toNat := by
      rw [← UInt64.toNat_inj]
      simp
    rw [List.foldl_cons, ih, List.map_cons, List.sum_cons, UInt64.ofNat_add, hquantity,
      UInt64.add_assoc]

/-- Both sums of the loop, added up exactly. -/
theorem vwapSums_exact (log : List Trade) :
    (Engine.vwapSums log : ℚ × ℚ) = ((log.map fun t => dollars t.price * t.quantity.toNat).sum,
      (((log.map fun t => t.quantity.toNat).sum : ℕ) : ℚ)) := by
  have hquantity (t : Trade) : (ofInt64 t.quantity.toSigned : ℚ) = t.quantity.toNat := by
    show ((t.quantity.toSigned.toInt : ℤ) : ℚ) = _
    rw [t.quantity.toInt_toSigned]
    rfl
  induction log using List.reverseRecOn with
  | nil => rfl
  | append_singleton log t ih =>
    have hconcat : (Engine.vwapSums (log ++ [t]) : ℚ × ℚ) =
        ((Engine.vwapSums log : ℚ × ℚ).1 + dollars t.price * ofInt64 t.quantity.toSigned,
          (Engine.vwapSums log : ℚ × ℚ).2 + ofInt64 t.quantity.toSigned) := by
      simp [Engine.vwapSums, dollars_eq]
    rw [hconcat, ih, hquantity]
    simp

/-- A mean with positive weights lies between the values. -/
theorem turnover_bounds {lo hi : ℚ} (h : ∀ t ∈ log, lo ≤ dollars t.price ∧ dollars t.price ≤ hi) :
    lo * ((log.map fun t => t.quantity.toNat).sum : ℕ) ≤
        (log.map fun t => dollars t.price * t.quantity.toNat).sum ∧
      (log.map fun t => dollars t.price * t.quantity.toNat).sum ≤
        hi * ((log.map fun t => t.quantity.toNat).sum : ℕ) := by
  induction log with
  | nil => simp
  | cons t log ih =>
    obtain ⟨hlo, hhi⟩ := h t List.mem_cons_self
    obtain ⟨ihlo, ihhi⟩ := ih fun t' ht' => h t' (List.mem_cons_of_mem t ht')
    have hq : (0 : ℚ) ≤ t.quantity.toNat := Nat.cast_nonneg _
    simp only [List.map_cons, List.sum_cons, Nat.cast_add, mul_add]
    exact ⟨add_le_add (mul_le_mul_of_nonneg_right hlo hq) ihlo,
      add_le_add (mul_le_mul_of_nonneg_right hhi hq) ihhi⟩

theorem sum_quantity_pos (hne : log ≠ []) (hlog : ∀ t ∈ log, 0 < t.quantity) :
    0 < (log.map fun t => t.quantity.toNat).sum := by
  obtain ⟨t, rest, rfl⟩ := List.exists_cons_of_ne_nil hne
  have ht := UInt32.lt_iff_toNat_lt.mp (hlog t List.mem_cons_self)
  rw [List.map_cons, List.sum_cons]
  exact Nat.add_pos_left ht _

end Log

structure StatsRight (e : Engine) (page : BookPage ℚ) (stats : MarketStats ℚ) : Prop where
  trades : stats.totalTrades = e.tradeLog.length
  volume : stats.totalVolume = UInt64.ofNat (e.tradeLog.map fun t => t.quantity.toNat).sum
  turnover : stats.vwap * ((e.tradeLog.map fun t => t.quantity.toNat).sum : ℕ) =
    (e.tradeLog.map fun t => dollars t.price * t.quantity.toNat).sum
  vwap : e.tradeLog ≠ [] → ∀ lo hi, (∀ t ∈ e.tradeLog, lo ≤ dollars t.price ∧ dollars t.price ≤ hi) →
    lo ≤ stats.vwap ∧ stats.vwap ≤ hi
  top : stats.top = none ↔ page.asks = [] ∨ page.bids = []
  spread : ∀ top ∈ stats.top, top.spread = top.bestAsk - top.bestBid ∧ 0 < top.spread ∧
    top.bestBid < top.midPrice ∧ top.midPrice < top.bestAsk ∧
    page.asks.getLast?.map BookRow.price = some top.bestAsk ∧
    page.bids.head?.map BookRow.price = some top.bestBid

namespace Engine.WellFormed
variable {e : Engine} {hands : List Addr}

theorem top_cases (e : Engine) :
    (((e.levels .sell).entries = [] ∨ (e.levels .buy).entries = []) ∧
      (e.printMarketStats : MarketStats ℚ).top = none) ∨
    ∃ bid bids ask asks, (e.levels .buy).entries = bid :: bids ∧
      (e.levels .sell).entries = ask :: asks ∧ (e.printMarketStats : MarketStats ℚ).top =
        some ⟨dollars bid.1, dollars ask.1, dollars ask.1 - dollars bid.1,
          (dollars bid.1 + dollars ask.1) / 2⟩ := by
  simp only [printMarketStats, SortedMap.first?]
  cases hbids : (e.levels .buy).entries with
  | nil => exact Or.inl ⟨Or.inr rfl, rfl⟩
  | cons bid bids =>
    cases hasks : (e.levels .sell).entries with
    | nil => exact Or.inl ⟨Or.inl rfl, rfl⟩
    | cons ask asks => exact Or.inr ⟨bid, bids, ask, asks, rfl, rfl, rfl⟩

theorem statsRight (h : e.WellFormed hands) (hu : e.book.Uncrossed)
    (hlog : ∀ t ∈ e.tradeLog, 0 < t.quantity) : StatsRight e e.display e.printMarketStats := by
  have hvwap (hne : e.tradeLog ≠ []) : (e.getVWAP : ℚ) =
      (e.tradeLog.map fun t => dollars t.price * t.quantity.toNat).sum /
        ((e.tradeLog.map fun t => t.quantity.toNat).sum : ℕ) := by
    rw [getVWAP, if_neg hne, vwapSums_exact]
  have hasks : (e.display : BookPage ℚ).asks = [] ↔ (e.levels .sell).entries = [] := by
    simp [display, topLevels]
  have hbids : (e.display : BookPage ℚ).bids = [] ↔ (e.levels .buy).entries = [] := by
    simp [display, topLevels]
  refine ⟨rfl, ?_, ?_, fun hne lo hi hbounds => ?_, ?_, fun top htop => ?_⟩
  · exact (totalQty_eq e.tradeLog 0).trans (UInt64.zero_add _)
  · show (e.getVWAP : ℚ) * _ = _
    by_cases hne : e.tradeLog = []
    · simp [hne]
    · have hpos := sum_quantity_pos hne hlog
      rw [hvwap hne, div_mul_cancel₀ _ (Nat.cast_ne_zero.mpr hpos.ne')]
  · have hpos : (0 : ℚ) < ((e.tradeLog.map fun t => t.quantity.toNat).sum : ℕ) :=
      Nat.cast_pos.mpr (sum_quantity_pos hne hlog)
    show lo ≤ (e.getVWAP : ℚ) ∧ (e.getVWAP : ℚ) ≤ hi
    rw [hvwap hne, le_div_iff₀ hpos, div_le_iff₀ hpos]
    exact turnover_bounds hbounds
  · rw [hasks, hbids]
    rcases top_cases e with ⟨hempty, htop⟩ | ⟨bid, bids, ask, asks, hbid, hask, htop⟩
    · exact iff_of_true htop hempty
    · rw [htop, hbid, hask]
      simp
  · rcases top_cases e with ⟨-, hnone⟩ | ⟨bid, bids, ask, asks, hbid, hask, hsome⟩
    · rw [hnone] at htop
      exact absurd htop (Option.not_mem_none top)
    · have hlt : dollars bid.1 < dollars ask.1 := dollars_lt.mpr (h.levels_apart hu
        (hbid ▸ List.mem_cons_self) (hask ▸ List.mem_cons_self))
      rw [hsome] at htop
      obtain rfl := Option.some.inj htop
      refine ⟨rfl, sub_pos.mpr hlt, ?_, ?_, ?_, ?_⟩
      · show dollars bid.1 < (dollars bid.1 + dollars ask.1) / 2
        linarith
      · show (dollars bid.1 + dollars ask.1) / 2 < dollars ask.1
        linarith
      · simp [display, topLevels, hask, bookRow, dollars_eq]
      · simp [display, topLevels, hbid, bookRow, dollars_eq]

end Engine.WellFormed

namespace Session

/-- In every state that well-behaved calls reach without re-pricing an order across the book,
the page and the statistics are right. -/
theorem run_reported {poolSize : Nat} {udpPub : Bool} {ops : List Op}
    (hok : Along Session.step Orderly (Session.new poolSize udpPub) ops) :
    ∃ S, run Session.step (Session.new poolSize udpPub) ops = some S ∧
      PageRight S.engine S.engine.display ∧
      StatsRight S.engine S.engine.display S.engine.printMarketStats := by
  have hstep (S : Session) (op : Op)
      (hS : S.Regular ∧ S.engine.Uncrossed ∧ S.engine.book.Filled) (hop : S.Orderly op) :
      ∃ S', S.step op = some S' ∧ S'.Regular ∧ S'.engine.Uncrossed ∧ S'.engine.book.Filled := by
    obtain ⟨hregular, hu, hfilled⟩ := hS
    obtain ⟨S', hs, hS', hb, -⟩ := hregular.step hop.1
    refine ⟨S', hs, hS', (hregular.uncrossed_step hu hS' hb).mpr hop.2, ?_⟩
    have hd := hregular.toSound.distinct
    rw [hb]
    cases op with
    | acquire id p q s m => exact hfilled.acquire id p q s m
    | process order time now => exact hfilled.process _ time
    | cancel id now => exact hfilled.cancel hd hregular.indexed id
    | modify origId newId newPrice newQty now =>
      exact hfilled.modify hd hregular.indexed origId newId newPrice hop.1.1
  have hnew := new_regular poolSize udpPub
  have huncrossed : (Session.new poolSize udpPub).engine.Uncrossed := by
    intro bid hbid
    exact absurd hbid (Option.not_mem_none bid)
  have hfilled : (Session.new poolSize udpPub).engine.book.Filled :=
    ⟨hnew.positive, fun t ht => absurd ht List.not_mem_nil⟩
  obtain ⟨S, hS, hregular, hu, hfilled⟩ := run_invariant hstep ⟨hnew, huncrossed, hfilled⟩ hok
  have hu := hregular.wellFormed.uncrossed_iff.mp hu
  exact ⟨S, hS, hregular.wellFormed.pageRight hu,
    hregular.wellFormed.statsRight hu hfilled.trades⟩

def quotedOps : List Op :=
  [.acquire 1 1010000 5 .sell false, .process 5 10 11, .acquire 2 1000000 6 .sell false,
    .process 4 12 13, .acquire 3 1000000 2 .buy false, .process 3 14 15,
    .acquire 4 990000 3 .buy false, .process 3 16 17]

theorem run_reported_quoted :
    ∃ S, run Session.step (Session.new 6 false) quotedOps = some S ∧
      S.engine.display = (⟨[⟨5, 101⟩, ⟨4, 100⟩], [⟨3, 99⟩]⟩ : BookPage ℚ) ∧
      S.engine.printMarketStats = (⟨1, 2, 100, some ⟨99, 100, 1, 199 / 2⟩⟩ : MarketStats ℚ) ∧
      PageRight S.engine S.engine.display ∧
      StatsRight S.engine S.engine.display S.engine.printMarketStats := by
  have hadmissible : Along Session.step Admissible (Session.new 6 false) quotedOps := by decide +kernel
  have hkinds : ∀ op ∈ quotedOps, ∀ S : Session, ¬ S.CrossingModify op := by
    simp [quotedOps, CrossingModify]
  have hok : Along Session.step Orderly (Session.new 6 false) quotedOps :=
    (hadmissible.and (along_of_forall hkinds)).mono fun S op hop => ⟨hop.1, hop.2 S⟩
  have hreport : (run Session.step (Session.new 6 false) quotedOps).map (fun S =>
      ((S.engine.display : BookPage ℚ), (S.engine.printMarketStats : MarketStats ℚ))) =
      some (⟨[⟨5, 101⟩, ⟨4, 100⟩], [⟨3, 99⟩]⟩, ⟨1, 2, 100, some ⟨99, 100, 1, 199 / 2⟩⟩) := by
    decide +kernel
  obtain ⟨S, hS, hpage, hstats⟩ := run_reported hok
  rw [hS] at hreport
  obtain ⟨hdisplay, hmarket⟩ := Prod.mk.inj (Option.some.inj hreport)
  exact ⟨S, hS, hdisplay, hmarket, hpage, hstats⟩

end Session
end LobCity
