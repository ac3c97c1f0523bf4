import LobCity.KillSwitch
import LobCity.Library.Int64Range

/-! The market maker does not trade with itself: its quotes are withdrawn before new ones are
placed, and the new ask is above the new bid. The others may use the id 0 here, so its orders
are only found by the ids it tracks. -/
namespace LobCity
open Library

def Trade.Wash (own : OrderId → Prop) (t : Trade) : Prop := own t.buyOrderId ∧ own t.sellOrderId

namespace Book
variable {b : Book} {own : OrderId → Prop} {o : Incoming}

theorem no_wash (h : own o.id → ∀ r ∈ b.side o.side.opposite, own r.id → o.reaches r.price = false)
    (time : Timestamp) :
    ∀ t ∈ (b.execution o).fills.map (Fill.trade o.side.opposite o.id time), ¬ t.Wash own := by
  intro t ht hwash
  obtain ⟨f, hf, rfl⟩ := List.mem_map.mp ht
  obtain ⟨hmaker, hreach⟩ := fillGreedily_reaches hf
  have hboth : own o.id ∧ own f.maker.id := by
    cases hs : o.side <;> rw [hs] at hwash
    · exact hwash
    · exact hwash.symm
  rw [h hboth.1 f.maker hmaker hboth.2] at hreach
  cases hreach

end Book

/-- An engine with the current quotes of a participant who has not traded with itself. -/
structure Session.Apart (own : OrderId → Prop) (cur : Side → OrderId) (S : Session) : Prop where
  tracks : S.Tracks own cur
  apart : ∀ t ∈ S.engine.tradeLog, ¬ t.Wash own

namespace Session.Apart
variable {S : Session} {own : OrderId → Prop} {cur : Side → OrderId}

theorem new (poolSize : Nat) (udpPub : Bool) (own : OrderId → Prop) (cur : Side → OrderId) :
    (Session.new poolSize udpPub).Apart own cur :=
  ⟨.new poolSize udpPub own cur, fun _ ht => absurd ht List.not_mem_nil⟩

theorem step (h : S.Apart own cur) {op : Op} (hok : S.Owned op) (hids : ∀ id ∈ op.ids, ¬ own id) :
    ∃ S', S.step op = some S' ∧ S'.Apart own cur := by
  obtain ⟨S', hs, h', hb⟩ := h.tracks.step hok hids
  refine ⟨S', hs, h', fun t ht => ?_⟩
  rw [tradeLog_of_book hb] at ht
  cases List.mem_append.mp ht with
  | inl ht =>
    exact h.apart t ht
  | inr ht =>
    cases op with
    | process order time now =>
      exact Book.no_wash (fun hown => absurd hown (h.tracks.hands order hok)) time t ht
    | acquire | cancel | modify => exact absurd ht List.not_mem_nil

theorem no_own (h : S.Apart own cur) (h0 : ¬ own 0) {s : Side} (hs : cur s = 0) :
    ∀ r ∈ S.engine.book.side s, ¬ own r.id := by
  intro r hr hown
  have hid := (h.tracks.tracked s r hr hown).1
  rw [hid, hs] at hown
  exact h0 hown

end Session.Apart

namespace MarketMaker
variable {D : Type} {m : MarketMaker D} {S : Session} {own : OrderId → Prop}

theorem placeQuote?_apart (h : S.Apart own m.current) (h0 : ¬ own 0)
    {quote : Option (Price × Quantity)} {s : Side} {px : Side → Price}
    (hpx : S.engine.book.Priced own px) (hs : quote ≠ none → m.current s = 0)
    (hfresh : quote ≠ none → ∀ t, m.current t ≠ m.nextOrderId)
    (hreach : ∀ q ∈ quote, m.current s.opposite ≠ 0 →
      (⟨0, 0, q.1, q.2, s, false⟩ : Incoming).reaches (px s.opposite) = false)
    (time now : Timestamp) :
    ∃ e', m.placeQuote? S.engine quote s time now = some (m.placed quote s, e') ∧
      Session.Apart own (m.placed quote s).current { S with engine := e' } ∧
      e'.book.Priced own (quote.elim px fun q => Function.update px s q.1) := by
  cases quote with
  | none => exact ⟨S.engine, rfl, h, hpx⟩
  | some q =>
    have hnone := h.no_own h0 (hs (by simp))
    obtain ⟨a, e1, e2, ha, he, htracks, hb, -⟩ :=
      h.tracks.submit_own hnone (hfresh (by simp)) q.1 q.2 time now
    have hside : (S.engine.book.acquire m.nextOrderId q.1 q.2 s false).2.side =
        S.engine.book.side := Book.side_acquire ..
    refine ⟨e2, ?_, ⟨?_, fun t ht => ?_⟩, ?_⟩
    · simp only [placeQuote?, placeQuote, ha, he, Option.map_some]
      rfl
    · rw [← m.current_issue s q.1] at htracks
      exact htracks
    · have hlog := congrArg Book.trades hb
      rw [Book.trades_process_eq, Book.trades_acquire] at hlog
      have ht : t ∈ e2.book.trades := ht
      rw [hlog] at ht
      cases List.mem_append.mp ht with
      | inl ht =>
        exact h.apart t ht
      | inr ht =>
        refine Book.no_wash (o := ⟨a, m.nextOrderId, q.1, q.2, s, false⟩) ?_ time t ht
        intro _ r hr hown
        rw [hside] at hr
        have hother : m.current s.opposite ≠ 0 := fun hzero => h.no_own h0 hzero r hr hown
        rw [hpx _ r hr hown]
        exact hreach q rfl hother
    · rw [hb]
      have hpriced : (S.engine.book.acquire m.nextOrderId q.1 q.2 s false).2.Priced own px := by
        unfold Book.Priced
        rw [hside]
        exact hpx
      refine hpriced.process_own (o := ⟨a, m.nextOrderId, q.1, q.2, s, false⟩) ?_ time
      rwa [hside]

/-- The two prices of a requote, whose difference is twice the half spread. -/
theorem requote_prices {mid : Price} {bid ask : Option (Price × Quantity)}
    (hquotes : m.requote mid = some (bid, ask)) (hhalf : 0 < m.config.halfSpread)
    (hfit : Fits64 (mid.toInt - m.netPosition.toInt * m.config.skewPerUnit.toInt -
        m.config.halfSpread.toInt) ∧
      Fits64 (mid.toInt - m.netPosition.toInt * m.config.skewPerUnit.toInt +
        m.config.halfSpread.toInt)) {q q' : Price × Quantity} (hq : bid = some q)
    (hq' : ask = some q') : q.1 < q'.1 := by
  unfold requote at hquotes
  dsimp only at hquotes
  rw [Option.ite_none_right_eq_some] at hquotes
  obtain ⟨hbid, hask⟩ := Prod.mk.inj (Option.some.inj hquotes.2)
  rw [hq, Option.ite_none_right_eq_some] at hbid
  rw [hq', Option.ite_none_right_eq_some] at hask
  obtain ⟨-, hbid⟩ := hbid
  obtain ⟨-, hask⟩ := hask
  have hlo : q.1 = Int64.ofInt (mid.toInt -
      m.netPosition.toInt * m.config.skewPerUnit.toInt - m.config.halfSpread.toInt) := by
    rw [← Option.some.inj hbid]
    simp only [computeSkew, Int64.ofInt_sub, Int64.ofInt_mul, Int64.ofInt_toInt]
    grind
  have hhi : q'.1 = Int64.ofInt (mid.toInt -
      m.netPosition.toInt * m.config.skewPerUnit.toInt + m.config.halfSpread.toInt) := by
    rw [← Option.some.inj hask]
    simp only [computeSkew, Int64.ofInt_sub, Int64.ofInt_add, Int64.ofInt_mul, Int64.ofInt_toInt]
    grind
  rw [Int64.lt_iff_toInt_lt, (Fits64.eq_iff hlo).mpr hfit.1, (Fits64.eq_iff hhi).mpr hfit.2]
  have hpos : 0 < m.config.halfSpread.toInt := Int64.lt_iff_toInt_lt.mp hhalf
  omega

theorem idsBetween_succ (id : OrderId) :
    Desk.idsBetween id (id + 1) = [id] ∧ Desk.idsBetween id (id + 1 + 1) = [id, id + 1] := by
  have h1 : id + 1 - id = 1 := by grind
  have h2 : id + 1 + 1 - id = 2 := by grind
  have hzero : id + UInt64.ofNat 0 = id := UInt64.add_zero id
  have hfirst : List.range (1 : OrderId).toNat = [0] := by decide
  have hboth : List.range (2 : OrderId).toNat = [0, 1] := by decide
  constructor
  · rw [Desk.idsBetween, h1, hfirst, List.map_singleton, hzero]
  · rw [Desk.idsBetween, h2, hboth, List.map_cons, List.map_singleton, hzero]
    rfl

theorem placed_issued (m : MarketMaker D) {bid ask : Option (Price × Quantity)}
    (hbid : bid ≠ none → m.nextOrderId ≠ 0)
    (hask : ask ≠ none → (if bid = none then m.nextOrderId else m.nextOrderId + 1) ≠ 0) :
    ∀ id ∈ Desk.idsBetween m.nextOrderId ((m.placed bid .buy).placed ask .sell).nextOrderId,
      id ≠ 0 := by
  obtain ⟨hone, htwo⟩ := idsBetween_succ m.nextOrderId
  intro id hid
  cases bid with
  | none =>
    cases ask with
    | none =>
      have hnil : Desk.idsBetween m.nextOrderId m.nextOrderId = [] := Venue.idsBetween_self _
      exact absurd (hnil ▸ hid) List.not_mem_nil
    | some qa =>
      have hid : id ∈ [m.nextOrderId] := hone ▸ hid
      rw [List.mem_singleton.mp hid]
      exact hask (by simp)
  | some qb =>
    cases ask with
    | none =>
      have hid : id ∈ [m.nextOrderId] := hone ▸ hid
      rw [List.mem_singleton.mp hid]
      exact hbid (by simp)
    | some qa =>
      have hid : id ∈ [m.nextOrderId, m.nextOrderId + 1] := htwo ▸ hid
      cases List.mem_pair.mp hid with
      | inl h =>
        obtain rfl := h
        exact hbid (by simp)
      | inr h =>
        obtain rfl := h
        exact hask (by simp)

/-- The two quotes of a tick, on a book that has none of the maker's, the ask above the bid. -/
theorem placeBoth_apart (h : S.Apart own m.current) (h0 : ¬ own 0) (hzero : ∀ s, m.current s = 0)
    {bid ask : Option (Price × Quantity)} (hbid : bid ≠ none → m.nextOrderId ≠ 0)
    (hask : ask ≠ none → (if bid = none then m.nextOrderId else m.nextOrderId + 1) ≠ 0)
    (habove : ∀ q ∈ bid, ∀ q' ∈ ask, q.1 < q'.1) (clock : TickClock) :
    ∃ e1 e2, m.placeQuote? S.engine bid .buy clock.bidTime clock.bidNow =
        some (m.placed bid .buy, e1) ∧
      (m.placed bid .buy).placeQuote? e1 ask .sell clock.askTime clock.askNow =
        some ((m.placed bid .buy).placed ask .sell, e2) ∧
      Session.Apart own ((m.placed bid .buy).placed ask .sell).current { S with engine := e2 } := by
  have hnone : S.engine.book.Priced own m.currentPx :=
    fun s r hr hown => absurd hown (h.no_own h0 (hzero s) r hr)
  obtain ⟨e1, hplace1, h1, hpx1⟩ := placeQuote?_apart h h0 hnone (fun _ => hzero .buy)
    (fun hb t => hzero t ▸ (hbid hb).symm) (fun _ _ hother => absurd (hzero .sell) hother)
    clock.bidTime clock.bidNow
  have hreach : ∀ q ∈ ask, (m.placed bid .buy).current .buy ≠ 0 →
      (⟨0, 0, q.1, q.2, .sell, false⟩ : Incoming).reaches
        ((bid.elim m.currentPx fun q => Function.update m.currentPx .buy q.1) .buy) = false := by
    intro q hq hother
    cases bid with
    | none => exact absurd (hzero .buy) hother
    | some qb =>
      have hbetter : Side.buy.better q.1 qb.1 := habove qb rfl q hq
      simp [Incoming.reaches, Side.opposite, hbetter]
  obtain ⟨e2, hplace2, h2, -⟩ := placeQuote?_apart h1 h0 hpx1
    (fun ha => (m.placed_fresh hzero (hask ha) .sell).2.1)
    (fun ha t => (m.placed_fresh hzero (hask ha) t).2.2) hreach clock.askTime clock.askNow
  exact ⟨e1, e2, hplace1, hplace2, h2⟩

theorem cancelExistingQuotes_apart (h : S.Apart own m.current) (clock : TickClock) :
    ∃ m' e', m.cancelExistingQuotes S.engine clock = (m', e') ∧
      Session.Apart own m'.current { S with engine := e' } ∧ (∀ s, m'.current s = 0) ∧
      m'.nextOrderId = m.nextOrderId ∧ m'.config = m.config := by
  obtain ⟨m', e', hcancel, htracks, hlog, -, -, hzero, hnext, -⟩ :=
    cancelExistingQuotes_tracks h.tracks clock
  have hcfg := (m.cancelExistingQuotes_switches S.engine clock).1
  rw [hcancel] at hcfg
  exact ⟨m', e', hcancel, ⟨htracks, fun t ht => h.apart t (hlog ▸ ht)⟩, hzero, hnext, hcfg⟩

variable [Double D]

/-- The prices that a tick would quote around the midpoint, as integers, are in range. -/
def PricesFit (m : MarketMaker D) (e : Engine) (start : Nat) : Prop :=
  let m1 := m.scanned e start
  let center := e.midPrice.toInt - m1.netPosition.toInt * m1.config.skewPerUnit.toInt
  detects e = true → m.killed = false →
    Fits64 (center - m1.config.halfSpread.toInt) ∧ Fits64 (center + m1.config.halfSpread.toInt)

instance (m : MarketMaker D) (e : Engine) (start : Nat) : Decidable (m.PricesFit e start) :=
  inferInstanceAs (Decidable (_ = true → _ = false → _ ∧ _))

theorem onTick_apart (h : S.Apart own m.current) (h0 : ¬ own 0) (hhalf : 0 < m.config.halfSpread)
    {start : Nat} {clock : TickClock} (hn : m.Numbers S.engine start clock)
    (hfit : m.PricesFit S.engine start) :
    ∃ m' e', m.onTick S.engine start clock = some (m', e') ∧
      Session.Apart own m'.current { S with engine := e' } ∧ m'.config = m.config ∧
      ∀ id ∈ Desk.idsBetween m.nextOrderId m'.nextOrderId, id ≠ 0 := by
  have hscan := m.scanned_same S.engine start
  have hnil : Desk.idsBetween m.nextOrderId m.nextOrderId = [] := Venue.idsBetween_self _
  rcases m.prepare_cases S.engine start clock with
    ⟨-, m', hsame, -, -, hprep⟩ | ⟨-, -, m2, e2, m', hcancel, hsame, -, hprep⟩ |
    ⟨-, hk, hd, m1, ⟨bid, ask⟩, hsame, -, hquotes, hprep⟩
  · refine ⟨m', S.engine, ?_, hsame.current ▸ h, hsame.config, ?_⟩
    · unfold onTick
      rw [hprep]
      rfl
    · rw [hsame.nextOrderId, hnil]
      simp
  · have hkilled : S.Apart own { m.scanned S.engine start with killed := true }.current :=
      hscan.current ▸ h
    obtain ⟨m2', e2', hcancel', h2, -, hnext, hcfg⟩ := cancelExistingQuotes_apart hkilled clock
    obtain ⟨rfl, rfl⟩ := Prod.mk.inj (hcancel.symm.trans hcancel')
    refine ⟨m', e2, ?_, hsame.current ▸ h2, hsame.config.trans (hcfg.trans hscan.config), ?_⟩
    · unfold onTick
      rw [hprep]
      rfl
    · have hsteady : m'.nextOrderId = m.nextOrderId :=
        hsame.nextOrderId.trans (hnext.trans hscan.nextOrderId)
      rw [hsteady, hnil]
      simp
  · obtain ⟨m2, e2, hcancel, h2, hzero, hnext, hcfg⟩ :=
      cancelExistingQuotes_apart (hsame.current ▸ h : S.Apart own m1.current) clock
    rw [hcancel] at hprep
    obtain ⟨hbid0, hask0⟩ := hn
    rw [hprep] at hbid0 hask0
    dsimp only at hbid0 hask0
    have hnext2 : m2.nextOrderId = m.nextOrderId := hnext.trans hsame.nextOrderId
    rw [← hnext2] at hbid0 hask0
    have habove : ∀ q ∈ bid, ∀ q' ∈ ask, q.1 < q'.1 := fun q hq q' hq' =>
      requote_prices hquotes (hscan.config ▸ hhalf) (hfit hd hk) hq hq'
    obtain ⟨e3, e4, hplace3, hplace4, h4⟩ := placeBoth_apart h2 h0 hzero hbid0 hask0 habove clock
    have hcfg3 := (m2.placed_switches bid .buy).1
    have hcfg4 := ((m2.placed bid .buy).placed_switches ask .sell).1
    refine ⟨(m2.placed bid .buy).placed ask .sell, e4, ?_, h4,
      hcfg4.trans (hcfg3.trans (hcfg.trans hsame.config)), ?_⟩
    · unfold onTick
      rw [hprep]
      simp only [Option.bind_eq_bind, hplace3, Option.bind_some]
      exact hplace4
    · rw [← hnext2]
      exact m2.placed_issued hbid0 hask0

end MarketMaker

namespace Venue
variable {D : Type} [Double D] {own : OrderId → Prop} {v : Venue D} {event : VenueEvent}

def PricesFit (v : Venue D) : VenueEvent → Prop
  | .call _ => True
  | .tick start _ => v.maker.PricesFit v.session.engine start

instance (v : Venue D) : DecidablePred v.PricesFit
  | .call _ => inferInstanceAs (Decidable True)
  | .tick start _ => inferInstanceAs (Decidable (v.maker.PricesFit v.session.engine start))

/-- The venue between two events, with a maker that has not traded with itself. -/
structure Apart (own : OrderId → Prop) (v : Venue D) : Prop where
  apart : v.session.Apart own v.maker.current
  spread : 0 < v.maker.config.halfSpread
  numbered : ∀ id ∈ v.issued, id ≠ 0

theorem Apart.step (h : v.Apart own) (h0 : ¬ own 0) (hfair : v.Fair event)
    (hids : ∀ id ∈ event.ids, ¬ own id) (hn : v.Numbers event) (hfit : v.PricesFit event) :
    ∃ v', v.step event = some v' ∧ v'.Apart own := by
  cases event with
  | call op =>
    obtain ⟨S, hs, hS⟩ := h.apart.step hfair hids
    exact ⟨{ v with session := S }, by simp [Venue.step, hs], hS, h.spread, h.numbered⟩
  | tick start clock =>
    obtain ⟨m', e', htick, hS, hcfg, hissued⟩ :=
      MarketMaker.onTick_apart h.apart h0 h.spread hn hfit
    refine ⟨_, by simp only [Venue.step, htick, Option.map_some]; rfl, hS, ?_, fun id hid => ?_⟩
    · show 0 < m'.config.halfSpread
      rw [hcfg]
      exact h.spread
    · cases List.mem_append.mp hid with
      | inl hid =>
        exact h.numbered id hid
      | inr hid =>
        exact hissued id hid

/-- In every run among others who keep off the ids that `placeQuote` issues, and in which no
quote gets the id 0, no trade has two of them. -/
theorem run_apart {poolSize : Nat} {udpPub : Bool} {cfg : MarketMakerConfig}
    {events : List VenueEvent} (hhalf : 0 < cfg.halfSpread)
    (hfair : Along step Fair (new poolSize udpPub cfg : Venue D) events)
    (hnumbers : Along step Numbers (new poolSize udpPub cfg : Venue D) events)
    (hprices : Along step PricesFit (new poolSize udpPub cfg : Venue D) events) :
    ∃ w : Venue D, run step (new poolSize udpPub cfg) events = some w ∧
      ((∀ event ∈ events, ∀ id ∈ event.ids, id ∉ w.issued) →
        ∀ t ∈ w.session.engine.tradeLog, ¬ t.Wash (· ∈ w.issued)) := by
  set own : OrderId → Prop := fun id => KeptOff VenueEvent.ids events id ∧ id ≠ 0 with hown
  have h0 : ¬ own 0 := fun h => h.2 rfl
  have hids : ∀ event ∈ events, ∀ id ∈ event.ids, ¬ own id :=
    fun event hevent id hid h => h.1 event hevent hid
  have hnew : (new poolSize udpPub cfg : Venue D).Apart own :=
    ⟨.new poolSize udpPub own _, hhalf, by simp [new]⟩
  have hok := ((hfair.and hnumbers).and hprices).and (along_of_forall hids)
  have hstep : ∀ (u : Venue D) (event : VenueEvent), u.Apart own →
      (((u.Fair event ∧ u.Numbers event) ∧ u.PricesFit event) ∧ ∀ id ∈ event.ids, ¬ own id) →
      ∃ u', u.step event = some u' ∧ u'.Apart own :=
    fun u event hu hok => hu.step h0 hok.1.1.1 hok.2 hok.1.1.2 hok.1.2
  obtain ⟨w, hw, hapart⟩ := run_invariant hstep hnew hok
  refine ⟨w, hw, fun hkeep t ht hwash => ?_⟩
  have hissued : ∀ id ∈ w.issued, own id :=
    fun id hid => ⟨KeptOff.of_unused hkeep id hid, hapart.numbered id hid⟩
  exact hapart.apart.apart t ht ⟨hissued _ hwash.1, hissued _ hwash.2⟩

section Runs

theorem run_apart_sold :
    ∃ w : Venue ℚ, run step (new 8 false Desk.quoteConfig)
        (soldEvents ++ [.tick 0 Desk.quoteClock]) = some w ∧
      w.issued = [50, 51, 52, 53] ∧ w.session.engine.tradeLog = [⟨50, 3, 1490000, 5, 1⟩] ∧
      ∀ t ∈ w.session.engine.tradeLog, ¬ t.Wash (· ∈ w.issued) := by
  obtain ⟨w, hw, hapart⟩ := @run_apart ℚ _ 8 false Desk.quoteConfig
    (soldEvents ++ [.tick 0 Desk.quoteClock]) (by decide) (by decide +kernel) (by decide +kernel)
    (by decide +kernel)
  have hend : (run step (new 8 false Desk.quoteConfig)
      (soldEvents ++ [.tick 0 Desk.quoteClock])).map (fun w : Venue ℚ =>
      (w.issued, w.session.engine.tradeLog)) =
      some ([50, 51, 52, 53], [⟨50, 3, 1490000, 5, 1⟩]) := by decide +kernel
  rw [hw] at hend
  obtain ⟨hissued, hlog⟩ := Prod.mk.inj (Option.some.inj hend)
  refine ⟨w, hw, hissued, hlog, hapart ?_⟩
  simp [hissued, soldEvents, Desk.quoteSeed, VenueEvent.ids, Op.ids]

def skewConfig : MarketMakerConfig := { wrapConfig with skewPerUnit := 50000 }

/-- Someone buys 1 from the first ask, which has the id 0. -/
def boughtEvents : List VenueEvent := wrapEvents.take 5 ++
  [.call (.acquire 13 0 1 .buy true), .call (.process 3 1 1), .tick 0 Desk.quoteClock]

/-- The second bid, at 154 dollars, buys the rest of the first ask, at 151. -/
theorem boughtEvents_wash :
    0 < skewConfig.halfSpread ∧ 1 ≤ skewConfig.startingId ∧
    Along step Fair (new 8 false skewConfig : Venue ℚ) boughtEvents ∧
    Along step PricesFit (new 8 false skewConfig : Venue ℚ) boughtEvents ∧
    ∃ w : Venue ℚ, run step (new 8 false skewConfig) boughtEvents = some w ∧
      (∀ event ∈ boughtEvents, ∀ id ∈ event.ids, id ∉ w.issued) ∧
      w.issued = [18446744073709551615, 0, 1, 2] ∧
      w.session.engine.tradeLog = [⟨13, 0, 1510000, 1, 1⟩, ⟨1, 0, 1510000, 4, 22⟩] ∧
      ¬ ∀ t ∈ w.session.engine.tradeLog, ¬ t.Wash (· ∈ w.issued) := by
  refine ⟨by decide, by decide, by decide +kernel, by decide +kernel, ?_⟩
  have hend : (run step (new 8 false skewConfig) boughtEvents).map (fun w : Venue ℚ =>
      (w.issued, w.session.engine.tradeLog)) = some ([18446744073709551615, 0, 1, 2],
        [⟨13, 0, 1510000, 1, 1⟩, ⟨1, 0, 1510000, 4, 22⟩]) := by decide +kernel
  obtain ⟨w, hw, heq⟩ := Option.map_eq_some_iff.mp hend
  obtain ⟨hissued, hlog⟩ := Prod.mk.inj heq
  refine ⟨w, hw, ?_, hissued, hlog, fun hapart => ?_⟩
  · simp [hissued, boughtEvents, wrapEvents, VenueEvent.ids, Op.ids]
  · refine hapart ⟨1, 0, 1510000, 4, 22⟩ (by simp [hlog]) ?_
    simp [Trade.Wash, hissued]

end Runs

end Venue
end LobCity
