import LobCity.OwnOrders

/-! A tick of the market maker among others, its quotes possibly trading as they are placed:
what it leaves on the book is what it tracks, no larger than what it meant to quote. -/
namespace LobCity
open Library

def quoteOf (quotes : Option (Price × Quantity) × Option (Price × Quantity)) :
    Side → Option (Price × Quantity)
  | .buy => quotes.1
  | .sell => quotes.2

namespace MarketMaker
variable {D : Type}

def placed (m : MarketMaker D) (quote : Option (Price × Quantity)) (side : Side) : MarketMaker D :=
  match quote with
  | none => m
  | some (price, _) => m.issue side price

@[simp] theorem currentPx_track (m : MarketMaker D) (s : Side) (id : OrderId) (price : Price) :
    (m.track s id price).currentPx = Function.update m.currentPx s price := by
  funext t
  cases s <;> cases t <;> rfl

@[simp] theorem currentPx_issue (m : MarketMaker D) (s : Side) (price : Price) :
    (m.issue s price).currentPx = Function.update m.currentPx s price :=
  m.currentPx_track s m.nextOrderId price

theorem placed_switches (m : MarketMaker D) (quote : Option (Price × Quantity)) (s : Side) :
    (m.placed quote s).config = m.config ∧ (m.placed quote s).killed = m.killed ∧
      (m.placed quote s).netPosition = m.netPosition := by
  cases quote with
  | none => exact ⟨rfl, rfl, rfl⟩
  | some q => cases s <;> exact ⟨rfl, rfl, rfl⟩

theorem placed_tracks (m : MarketMaker D)
    (quotes : Option (Price × Quantity) × Option (Price × Quantity)) (t : Side) :
    let m' := (m.placed quotes.1 .buy).placed quotes.2 .sell
    (∀ q ∈ quoteOf quotes t, m'.current t ∈ Desk.idsBetween m.nextOrderId m'.nextOrderId ∧
        m'.currentPx t = q.1) ∧
      (quoteOf quotes t = none → m'.current t = m.current t ∧ m'.currentPx t = m.currentPx t) := by
  obtain ⟨hmem1, hmem2, hmem3⟩ := mem_idsBetween (a := m.nextOrderId)
  obtain ⟨bid, ask⟩ := quotes
  intro m'
  cases t with
  | buy =>
    cases bid with
    | none => exact ⟨fun q hq => absurd hq (by simp [quoteOf]), fun _ => by cases ask <;> exact ⟨rfl, rfl⟩⟩
    | some q0 =>
      refine ⟨fun q hq => ?_, fun h => absurd h (by simp [quoteOf])⟩
      obtain rfl := Option.some.inj hq
      cases ask with
      | none => exact ⟨hmem1, rfl⟩
      | some => exact ⟨hmem2, rfl⟩
  | sell =>
    cases ask with
    | none => exact ⟨fun q hq => absurd hq (by simp [quoteOf]), fun _ => by cases bid <;> exact ⟨rfl, rfl⟩⟩
    | some q0 =>
      refine ⟨fun q hq => ?_, fun h => absurd h (by simp [quoteOf])⟩
      obtain rfl := Option.some.inj hq
      cases bid with
      | none => exact ⟨hmem1, rfl⟩
      | some => exact ⟨hmem3, rfl⟩

theorem current_placed (m : MarketMaker D) (hzero : ∀ s, m.current s = 0)
    (bid ask : Option (Price × Quantity)) (s : Side) :
    let m' := (m.placed bid .buy).placed ask .sell
    m'.current s ≠ 0 → m'.current s ∈ Desk.idsBetween m.nextOrderId m'.nextOrderId := by
  intro m' hs
  obtain ⟨hquote, hnone⟩ := m.placed_tracks (bid, ask) s
  cases hq : quoteOf (bid, ask) s with
  | some q => exact (hquote q hq).1
  | none => exact absurd ((hnone hq).1.trans (hzero s)) hs

theorem placed_fresh (m : MarketMaker D) (hzero : ∀ s, m.current s = 0)
    {bid : Option (Price × Quantity)}
    (h0 : (if bid = none then m.nextOrderId else m.nextOrderId + 1) ≠ 0) (t : Side) :
    (m.placed bid .buy).nextOrderId ≠ 0 ∧ (m.placed bid .buy).current .sell = 0 ∧
      (m.placed bid .buy).current t ≠ (m.placed bid .buy).nextOrderId := by
  cases bid with
  | none =>
    rw [if_pos rfl] at h0
    refine ⟨h0, hzero .sell, ?_⟩
    show m.current t ≠ m.nextOrderId
    rw [hzero t]
    exact h0.symm
  | some q =>
    rw [if_neg (by simp)] at h0
    refine ⟨h0, hzero .sell, ?_⟩
    show (m.issue .buy q.1).current t ≠ m.nextOrderId + 1
    rw [current_issue]
    cases t with
    | buy =>
      rw [Function.update_self]
      grind
    | sell =>
      rw [Function.update_of_ne (by decide), hzero .sell]
      exact h0.symm

variable [Double D]

/-- No quote of the tick gets the id that stands for no quote. -/
def Numbers (m : MarketMaker D) (e : Engine) (start : Nat) (clock : TickClock) : Prop :=
  let quotes := (m.prepare e start clock).2
  (quotes.1 ≠ none → m.nextOrderId ≠ 0) ∧
    (quotes.2 ≠ none → (if quotes.1 = none then m.nextOrderId else m.nextOrderId + 1) ≠ 0)

instance (m : MarketMaker D) (e : Engine) (start : Nat) (clock : TickClock) :
    Decidable (m.Numbers e start clock) := inferInstanceAs (Decidable ((_ → _) ∧ (_ → _)))

end MarketMaker

def quoteShares (quote : Option (Price × Quantity)) : Nat := quote.elim 0 fun q => q.2.toNat

/-- What a call of the others does to orders that it does not name. -/
theorem Session.Sound.trims {S : Session} (h : S.Sound) {op : Op} (hok : S.Owned op)
    {own : OrderId → Prop} [DecidablePred own] (hhands : ∀ c ∈ S.hands, ¬ own (S.engine.incoming c).id)
    (hids : ∀ id ∈ op.ids, ¬ own id) :
    Book.Trims own (S.newTrades op) S.engine.book (S.bookAfter op) := by
  cases op with
  | acquire id p q s m => exact .of_side (Book.side_acquire ..)
  | process order time now => exact .process _ (hhands order hok) time
  | cancel id now => exact .cancel h.distinct h.indexed (hids id (by simp [Op.ids]))
  | modify origId newId newPrice newQty now =>
    exact .modify h.distinct h.indexed (hids origId (by simp [Op.ids]))
      (hids newId (by simp [Op.ids])) _ _

/-- A market maker at a shared engine, with its orders at the prices that it tracks. -/
structure Session.Quoting {D : Type} (own : OrderId → Prop) (m : MarketMaker D) (S : Session) :
    Prop where
  shared : S.Shared own m.current
  priced : S.engine.book.Priced own m.currentPx
  logged : ∀ t ∈ S.engine.tradeLog, t.buyOrderId ≠ 0 ∧ t.sellOrderId ≠ 0

namespace Session.Quoting
variable {D : Type} {S S' : Session} {m m' : MarketMaker D} {own : OrderId → Prop} {s : Side}

theorem of_same (h : S.Quoting own m) (hsame : m.SameQuotes m') : S.Quoting own m' := by
  refine ⟨?_, ?_, h.logged⟩
  · rw [hsame.current]
    exact h.shared
  · rw [hsame.currentPx]
    exact h.priced

/-- Its order of a side is the tracked one, and the only one. -/
theorem unique (h : S.Quoting own m) {r r' : Resting} (hr : r ∈ S.engine.book.side s)
    (hr' : r' ∈ S.engine.book.side s) (hown : own r.id) (hown' : own r'.id) : r = r' := by
  obtain ⟨hid, hidx⟩ := h.shared.quoted.current s r hr hown
  obtain ⟨hid', hidx'⟩ := h.shared.quoted.current s r' hr' hown'
  rw [hid, ← hid', hidx'] at hidx
  exact (h.shared.sound.distinct.unique hr hr' (Option.some.inj hidx).symm).2

theorem cancelExistingQuotes (h : S.Quoting own m) (clock : TickClock) :
    ∃ m' e', m.cancelExistingQuotes S.engine clock = (m', e') ∧
      Quoting own m' { S with engine := e' } ∧ (∀ s, m'.current s = 0) ∧
      m'.nextOrderId = m.nextOrderId ∧ m'.netPosition = m.netPosition ∧
      m'.config = m.config ∧ m'.killed = m.killed := by
  obtain ⟨m', e', hcancel, hshared, hlog, hzero, hnext, hpos⟩ :=
    MarketMaker.cancelExistingQuotes_spec h.shared clock
  have hswitches := m.cancelExistingQuotes_switches S.engine clock
  rw [hcancel] at hswitches
  refine ⟨m', e', hcancel, ⟨hshared, ?_, ?_⟩, hzero, hnext, hpos, hswitches⟩
  · exact fun s r hr hown => absurd hown (hshared.quoted.no_own (hzero s) hr)
  · intro t ht
    exact h.logged t (hlog ▸ ht)

theorem new [Double D] (poolSize : Nat) (udpPub : Bool) (cfg : MarketMakerConfig)
    (own : OrderId → Prop) :
    (Session.new poolSize udpPub).Quoting own (.new cfg : MarketMaker D) := by
  have hshared := Session.Shared.new poolSize udpPub own (MarketMaker.new cfg : MarketMaker D).current
  refine ⟨hshared, fun s r hr hown => ?_, fun t ht => ?_⟩
  · have hcur := congrFun (MarketMaker.current_new (D := D) cfg) s
    exact absurd hown (hshared.quoted.no_own hcur hr)
  · exact absurd ht (List.not_mem_nil)

variable [DecidablePred own]

theorem no_open (h : S.Quoting own m) (hs : m.current s = 0) :
    S.engine.book.openShares own s = 0 :=
  Book.openShares_eq_zero fun _ hr => h.shared.quoted.no_own hs hr

theorem step (h : S.Quoting own m) {op : Op} (hok : S.Owned op)
    (hids : ∀ id ∈ op.ids, Foreign own id) :
    ∃ S' new, S.step op = some S' ∧ S'.Quoting own m ∧
      S'.engine.tradeLog = S.engine.tradeLog ++ new ∧ (∀ t ∈ new, t.OfQuotes own m.current) ∧
      Book.Trims own new S.engine.book S'.engine.book := by
  obtain ⟨S', hs, hshared, hb, hnew⟩ := h.shared.step hok hids
  have hlog := tradeLog_of_book hb
  have htrim : Book.Trims own (S.newTrades op) S.engine.book S'.engine.book := by
    rw [hb]
    exact h.shared.sound.trims hok (fun c hc => (h.shared.hands c hc).2) fun id hid => (hids id hid).2
  refine ⟨S', S.newTrades op, hs, ⟨hshared, htrim.priced h.priced, fun t ht => ?_⟩, hlog, hnew,
    htrim⟩
  rw [hlog] at ht
  cases List.mem_append.mp ht with
  | inl ht =>
    exact h.logged t ht
  | inr ht =>
    exact ⟨(hnew t ht).buy_ne, (hnew t ht).sell_ne⟩

theorem run (h : S.Quoting own m) {ops : List Op} (hok : Along Session.step Session.Owned S ops)
    (hids : ∀ op ∈ ops, ∀ id ∈ op.ids, Foreign own id) :
    ∃ S' new, Library.run Session.step S ops = some S' ∧ S'.Quoting own m ∧
      S'.engine.tradeLog = S.engine.tradeLog ++ new ∧ (∀ t ∈ new, t.OfQuotes own m.current) ∧
      Book.Trims own new S.engine.book S'.engine.book := by
  induction ops generalizing S with
  | nil => exact ⟨S, [], rfl, h, by simp, by simp, .of_side rfl⟩
  | cons op ops ih =>
    obtain ⟨S1, new1, hs1, h1, hlog1, hnew1, htrim1⟩ := h.step hok.1 (hids op (by simp))
    obtain ⟨S2, new2, hs2, h2, hlog2, hnew2, htrim2⟩ :=
      ih h1 (hok.2 S1 hs1) fun op hop => hids op (by simp [hop])
    refine ⟨S2, new1 ++ new2, by simp [Library.run, hs1, hs2], h2, ?_, ?_, htrim1.trans htrim2⟩
    · rw [hlog2, hlog1, List.append_assoc]
    · intro t ht
      cases List.mem_append.mp ht with
      | inl ht =>
        exact hnew1 t ht
      | inr ht =>
        exact hnew2 t ht

theorem placeQuote? (h : S.Quoting own m) (quote : Option (Price × Quantity)) (s : Side)
    (hs : quote ≠ none → m.current s = 0) (h0 : quote ≠ none → m.nextOrderId ≠ 0)
    (hfresh : quote ≠ none → ∀ t, m.current t ≠ m.nextOrderId) (time now : Timestamp) :
    ∃ e', m.placeQuote? S.engine quote s time now = some (m.placed quote s, e') ∧
      Quoting own (m.placed quote s) { S with engine := e' } ∧
      ∀ t, e'.book.openShares own t ≤ S.engine.book.openShares own t +
        if t = s then quoteShares quote else 0 := by
  cases quote with
  | none => exact ⟨S.engine, rfl, h, fun t => by simp [quoteShares]⟩
  | some q =>
    have hs := hs (by simp)
    obtain ⟨a, e1, e2, ha, he, hshared, hb⟩ :=
      h.shared.submit_own hs (h0 (by simp)) (hfresh (by simp)) q.1 q.2 time now
    set b := (S.engine.book.acquire m.nextOrderId q.1 q.2 s false).2 with hacq
    have hside : b.side = S.engine.book.side := Book.side_acquire ..
    have hpriced : b.Priced own m.currentPx := by
      unfold Book.Priced
      rw [hside]
      exact h.priced
    have hnone : ∀ r ∈ b.side s, ¬ own r.id := by
      rw [hside]
      exact fun r hr => h.shared.quoted.no_own hs hr
    refine ⟨e2, ?_, ⟨?_, ?_, fun t ht => ?_⟩, fun t => ?_⟩
    · simp only [MarketMaker.placeQuote?, MarketMaker.placeQuote, ha, he, Option.map_some]
      rfl
    · rw [← m.current_issue s q.1] at hshared
      exact hshared
    · show e2.book.Priced own (m.issue s q.1).currentPx
      rw [hb, MarketMaker.currentPx_issue]
      exact hpriced.process_own (o := ⟨a, m.nextOrderId, q.1, q.2, s, false⟩) hnone time
    · have hlog := congrArg Book.trades hb
      rw [Book.trades_process_eq, hacq, Book.trades_acquire] at hlog
      have ht : t ∈ e2.book.trades := ht
      rw [hlog] at ht
      cases List.mem_append.mp ht with
      | inl ht =>
        exact h.logged t ht
      | inr ht =>
        have hrest : S.engine.book.RestingIds (· ≠ 0) := h.shared.quoted.nonzero
        have hnonzero : b.RestingIds (· ≠ 0) := hrest.acquire m.nextOrderId q.1 q.2 s false
        exact hnonzero.trades_nonzero (o := ⟨a, m.nextOrderId, q.1, q.2, s, false⟩) (h0 (by simp))
          time t ht
    · rw [hb]
      rw [← Book.openShares_congr (congrFun hside t)]
      exact b.openShares_process_le ⟨a, m.nextOrderId, q.1, q.2, s, false⟩ time t

/-- The two quotes of a tick, on a book that has none of the maker's. The ask may trade with
the bid. -/
theorem placeBoth (h : S.Quoting own m) (hzero : ∀ s, m.current s = 0)
    {bid ask : Option (Price × Quantity)} (hbid : bid ≠ none → m.nextOrderId ≠ 0)
    (hask : ask ≠ none → (if bid = none then m.nextOrderId else m.nextOrderId + 1) ≠ 0)
    (clock : TickClock) :
    ∃ e1 e2, m.placeQuote? S.engine bid .buy clock.bidTime clock.bidNow =
        some (m.placed bid .buy, e1) ∧
      (m.placed bid .buy).placeQuote? e1 ask .sell clock.askTime clock.askNow =
        some ((m.placed bid .buy).placed ask .sell, e2) ∧
      Quoting own ((m.placed bid .buy).placed ask .sell) { S with engine := e2 } ∧
      e2.book.openShares own .buy ≤ quoteShares bid ∧
      e2.book.openShares own .sell ≤ quoteShares ask := by
  obtain ⟨e1, hplace1, h1, hopen1⟩ := h.placeQuote? bid .buy (fun _ => hzero .buy) hbid
    (fun hb t => hzero t ▸ (hbid hb).symm) clock.bidTime clock.bidNow
  obtain ⟨e2, hplace2, h2, hopen2⟩ := h1.placeQuote? ask .sell
    (fun ha => (m.placed_fresh hzero (hask ha) .sell).2.1)
    (fun ha => (m.placed_fresh hzero (hask ha) .sell).1)
    (fun ha t => (m.placed_fresh hzero (hask ha) t).2.2) clock.askTime clock.askNow
  refine ⟨e1, e2, hplace1, hplace2, h2, ?_, ?_⟩
  · have hbuy1 := hopen1 .buy
    have hbuy2 := hopen2 .buy
    rw [h.no_open (hzero .buy), if_pos rfl, Nat.zero_add] at hbuy1
    rw [if_neg (by decide), Nat.add_zero] at hbuy2
    exact hbuy2.trans hbuy1
  · have hsell1 := hopen1 .sell
    have hsell2 := hopen2 .sell
    rw [h.no_open (hzero .sell), if_neg (by decide), Nat.add_zero] at hsell1
    rw [if_pos rfl] at hsell2
    dsimp only at hsell2
    omega

end Session.Quoting

namespace MarketMaker
variable {D : Type} [Double D] {m : MarketMaker D} {S : Session} {own : OrderId → Prop}
  [DecidablePred own] {start : Nat} {clock : TickClock}

/-- What a tick does: it leaves the quotes, or stops for good without any, or replaces them. -/
theorem onTick_cases (h : S.Quoting own m) (hn : m.Numbers S.engine start clock) :
    ∃ m' e', m.onTick S.engine start clock = some (m', e') ∧
      Session.Quoting own m' { S with engine := e' } ∧ m'.config = m.config ∧
      (m'.netPosition = if detects S.engine then (m.scanned S.engine start).netPosition
        else m.netPosition) ∧
      ((m.Loses S.engine start → m.killed = true) ∧ m'.killed = m.killed ∧
          m'.current = m.current ∧ m'.nextOrderId = m.nextOrderId ∧ e' = S.engine ∨
        m'.killed = true ∧ (∀ s, m'.current s = 0) ∧ m'.nextOrderId = m.nextOrderId ∨
        ¬ m.Loses S.engine start ∧ m.killed = false ∧ m'.killed = false ∧
          detects S.engine = true ∧ (∀ s, m'.current s ≠ 0 → m'.current s ∈ Desk.idsBetween m.nextOrderId m'.nextOrderId) ∧
          ∃ bid ask, (m.scanned S.engine start).requote S.engine.midPrice = some (bid, ask) ∧
            e'.book.openShares own .buy ≤ quoteShares bid ∧
            e'.book.openShares own .sell ≤ quoteShares ask) := by
  rcases m.prepare_cases S.engine start clock with
    ⟨hstay, m', hsame, hpos, -, hprep⟩ | ⟨hl, hk, m2, e2, m', hcancel, hsame, hpos, hprep⟩ |
    ⟨hl, hk, hd, m1, ⟨bid, ask⟩, hsame, hpos, hquotes, hprep⟩
  · refine ⟨m', S.engine, ?_, h.of_same hsame, hsame.config, hpos,
      Or.inl ⟨hstay, hsame.killed, hsame.current, hsame.nextOrderId, rfl⟩⟩
    unfold onTick
    rw [hprep]
    rfl
  · have h1 := h.of_same (m.scanned_same S.engine start)
    have hkilled : S.Quoting own { m.scanned S.engine start with killed := true } :=
      ⟨h1.shared, h1.priced, h1.logged⟩
    obtain ⟨m2', e2', hcancel', h2, hzero, hnext, hpos2, hcfg, hk2⟩ :=
      hkilled.cancelExistingQuotes clock
    obtain ⟨rfl, rfl⟩ := Prod.mk.inj (hcancel.symm.trans hcancel')
    have hscan := m.scanned_same S.engine start
    refine ⟨m', e2, ?_, h2.of_same hsame, hsame.config.trans (hcfg.trans hscan.config), ?_,
      Or.inr (Or.inl ⟨hsame.killed.trans hk2, fun s => ?_,
        hsame.nextOrderId.trans (hnext.trans hscan.nextOrderId)⟩)⟩
    · unfold onTick
      rw [hprep]
      rfl
    · rw [if_pos hl.1, hpos, hpos2]
    · rw [hsame.current]
      exact hzero s
  · obtain ⟨m2, e2, hcancel, h2, hzero, hnext, hpos2, hcfg, hk2⟩ :=
      (h.of_same hsame).cancelExistingQuotes clock
    rw [hcancel] at hprep
    obtain ⟨hbid0, hask0⟩ := hn
    rw [hprep] at hbid0 hask0
    dsimp only at hbid0 hask0
    have hnext2 : m2.nextOrderId = m.nextOrderId := hnext.trans hsame.nextOrderId
    rw [← hnext2] at hbid0 hask0
    obtain ⟨e3, e4, hplace3, hplace4, h4, hbuy, hsell⟩ := h2.placeBoth hzero hbid0 hask0 clock
    obtain ⟨hcfg3, hk3, hpos3⟩ := m2.placed_switches bid .buy
    obtain ⟨hcfg4, hk4, hpos4⟩ := (m2.placed bid .buy).placed_switches ask .sell
    refine ⟨(m2.placed bid .buy).placed ask .sell, e4, ?_, h4,
      hcfg4.trans (hcfg3.trans (hcfg.trans hsame.config)), ?_,
      Or.inr (Or.inr ⟨hl, hk, ?_, hd, ?_, bid, ask, hquotes, hbuy, hsell⟩)⟩
    · unfold onTick
      rw [hprep]
      simp only [Option.bind_eq_bind, hplace3, Option.bind_some]
      exact hplace4
    · rw [if_pos hd, hpos4, hpos3, hpos2, hpos]
    · rw [hk4, hk3, hk2, hsame.killed, hk]
    · rw [← hnext2]
      exact m2.current_placed hzero bid ask

end MarketMaker
end LobCity
