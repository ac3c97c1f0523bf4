import LobCity.Requotes

/-! The account of a quote: what is executed when it is placed, and by the other quote of the
same tick, and what of it rests then make up its size. -/
namespace LobCity
open Library

theorem filled_taken (picked : OrderId → Prop) [DecidablePred picked] {taker : OrderId}
    (ht : picked taker) (s : Side) (F : List Fill) (time : Timestamp) :
    filled picked s.opposite (F.map (Fill.trade s taker time)) =
      (F.map fun f => f.quantity.toNat).sum := by
  induction F with
  | nil => rfl
  | cons f F ih =>
    have hid : (Fill.trade s taker time f).orderId s.opposite = taker := by cases s <;> rfl
    have hq : (Fill.trade s taker time f).quantity = f.quantity := rfl
    simp only [filled, List.map_cons, List.sum_cons, hid, if_pos ht, hq] at ih ⊢
    rw [ih]

namespace Book
variable {b b' b'' : Book} {o : Incoming} {s : Side} {new new' : List Trade}

theorem openShares_process_own (hm : o.isMarket = false) (hfresh : ∀ r ∈ b.side o.side, r.id ≠ o.id)
    (time : Timestamp) :
    (b.process o time).openShares (· = o.id) o.side +
      filled (· = o.id) o.side ((b.execution o).fills.map (Fill.trade o.side.opposite o.id time)) =
      o.quantity.toNat := by
  have hexec : o.quantity.toNat = (b.execution o).left.toNat +
      ((b.execution o).fills.map fun f => f.quantity.toNat).sum := execution_taker _ _ _
  have hmatched : (b.matched o time).openShares (· = o.id) o.side = 0 := by
    refine openShares_eq_zero fun r hr => ?_
    obtain ⟨r0, hr0, hs, -⟩ := mem_of_matched hr
    rw [hs.2.1]
    exact hfresh r0 hr0
  have hopp : o.side.opposite.opposite = o.side := by cases o.side <;> rfl
  have hfilled := filled_taken (· = o.id) rfl o.side.opposite (b.execution o).fills time
  rw [hopp] at hfilled
  rw [hfilled, hexec]
  cases process_cases b o time with
  | inl hb =>
    have hshares : shares (· = o.id) { o with quantity := (b.execution o).left }.resting =
        (b.execution o).left.toNat := if_pos rfl
    rw [hb.2.2, openShares_rest, hmatched, if_pos rfl, hshares, Nat.zero_add]
  | inr hb =>
    have hleft : (b.execution o).left = 0 := hb.1.resolve_left (by simp [hm])
    rw [hb.2, hleft]
    exact congrArg (· + _) hmatched

/-- What placing a quote under an id does to the book: the quote may come to rest, other
orders only lose shares, and the trades account for the shares of each id. -/
structure Placement (id : OrderId) (quote : Option (Price × Quantity)) (s : Side)
    (new : List Trade) (b b' : Book) : Prop where
  mem : ∀ t, ∀ x ∈ b'.side t,
    (∃ q ∈ quote, t = s ∧ x.id = id ∧ x.price = q.1 ∧ 0 < x.quantity) ∨
      ∃ r ∈ b.side t, x.Same r ∧ (0 < r.quantity → 0 < x.quantity)
  own : ∀ q ∈ quote, (∀ r ∈ b.side s, r.id ≠ id) →
    b'.openShares (· = id) s + filled (· = id) s new = q.2.toNat
  others : ∀ k, (quote ≠ none → k ≠ id) → ∀ t,
    b'.openShares (· = k) t + filled (· = k) t new = b.openShares (· = k) t

theorem Placement.none (id : OrderId) (s : Side) (b : Book) : Placement id none s [] b b where
  mem _ x hx := Or.inr ⟨x, hx, .refl x, fun h => h⟩
  own _ hq := absurd hq (by simp)
  others _ _ _ := rfl

theorem Placement.process (a : Addr) (id : OrderId) (q : Price × Quantity) (s : Side) (b : Book)
    (time : Timestamp) :
    Placement id (some q) s
      ((b.execution ⟨a, id, q.1, q.2, s, false⟩).fills.map (Fill.trade s.opposite id time)) b
      (b.process ⟨a, id, q.1, q.2, s, false⟩ time) where
  mem t x hx := by
    cases mem_of_process hx with
    | inl hx =>
      obtain ⟨ht, -, hleft, rfl⟩ := hx
      exact Or.inl ⟨q, rfl, ht, rfl, rfl, hleft⟩
    | inr hx =>
      exact Or.inr hx
  own q' hq' hfresh := by
    obtain rfl := Option.some.inj hq'
    exact openShares_process_own (o := ⟨a, id, q.1, q.2, s, false⟩) rfl hfresh time
  others k hk t := by
    have htrims : Trims (· = k) _ b (b.process ⟨a, id, q.1, q.2, s, false⟩ time) :=
      .process b (hk (by simp)).symm time
    exact htrims.open_add_filled t

theorem Placement.of_side {id : OrderId} {quote : Option (Price × Quantity)}
    (h : Placement id quote s new b' b'') (hside : b'.side = b.side) :
    Placement id quote s new b b'' := by
  refine ⟨?_, ?_, fun k hk t => ?_⟩
  · rw [← hside]
    exact h.mem
  · rw [← hside]
    exact h.own
  · rw [h.others k hk t]
    exact openShares_congr (congrFun hside t)

/-- An id that rests on the other side only, or not at all, does not come to this side. -/
theorem Placement.absent {id k : OrderId} {quote : Option (Price × Quantity)} {t : Side}
    (h : Placement id quote s new b b') (hts : t ≠ s) (hfresh : ∀ r ∈ b.side t, r.id ≠ k) :
    ∀ x ∈ b'.side t, x.id ≠ k := by
  intro x hx
  cases h.mem t x hx with
  | inl hx =>
    obtain ⟨-, -, hs, -⟩ := hx
    exact absurd hs hts
  | inr hx =>
    obtain ⟨r, hr, hs, -⟩ := hx
    rw [hs.2.1]
    exact hfresh r hr

end Book

namespace MarketMaker
variable {D : Type} {m : MarketMaker D} {S : Session}

theorem placeQuote?_placement (h : S.Sound) (m : MarketMaker D) (quote : Option (Price × Quantity))
    (s : Side) (time now : Timestamp) :
    ∃ e' new, m.placeQuote? S.engine quote s time now = some (m.placed quote s, e') ∧
      Session.Sound { S with engine := e' } ∧ e'.tradeLog = S.engine.tradeLog ++ new ∧
      (∀ c ∈ S.hands, e'.incoming c = S.engine.incoming c) ∧
      Book.Placement m.nextOrderId quote s new S.engine.book e'.book := by
  cases quote with
  | none =>
    exact ⟨S.engine, [], rfl, h, (List.append_nil _).symm, fun _ _ => rfl,
      .none m.nextOrderId s S.engine.book⟩
  | some q =>
    obtain ⟨a, e1, e2, ha, he, h2, -, hb, -, hk⟩ :=
      h.submit m.nextOrderId q.1 q.2 s false time now
    have hside : (S.engine.book.acquire m.nextOrderId q.1 q.2 s false).2.side =
        S.engine.book.side := Book.side_acquire ..
    have hlog := congrArg Book.trades hb
    rw [Book.trades_process_eq, Book.trades_acquire] at hlog
    refine ⟨e2, _, ?_, h2, hlog, hk, ?_⟩
    · simp only [placeQuote?, placeQuote, ha, he, Option.map_some]
      rfl
    · rw [hb]
      exact (Book.Placement.process a m.nextOrderId q s _ time).of_side hside

structure Placements (m : MarketMaker D)
    (quotes : Option (Price × Quantity) × Option (Price × Quantity)) (new : List Trade)
    (b b' : Book) : Prop where
  mem : ∀ t, ∀ x ∈ b'.side t,
    (∃ q ∈ quoteOf quotes t, x.id = m.current t ∧ x.price = q.1 ∧ 0 < x.quantity) ∨
      ∃ r ∈ b.side t, x.Same r ∧ (0 < r.quantity → 0 < x.quantity)
  account : ∀ t, ∀ q ∈ quoteOf quotes t, (∀ r ∈ b.side t, r.id ≠ m.current t) →
    b'.openShares (· = m.current t) t + filled (· = m.current t) t new = q.2.toNat

theorem current_placed_self (m : MarketMaker D) (q : Price × Quantity) (s : Side) :
    (m.placed (some q) s).current s = m.nextOrderId ∧
      (m.placed (some q) s).nextOrderId = m.nextOrderId + 1 := by
  refine ⟨?_, rfl⟩
  cases s <;> rfl

theorem current_placed_of_ne (m : MarketMaker D) (quote : Option (Price × Quantity)) {s t : Side}
    (ht : t ≠ s) : (m.placed quote s).current t = m.current t := by
  cases quote with
  | none => rfl
  | some q => cases s <;> cases t <;> first | rfl | exact absurd rfl ht

theorem Placements.of_two {bid ask : Option (Price × Quantity)} {new new' : List Trade}
    {b b1 b2 : Book} (h1 : Book.Placement m.nextOrderId bid .buy new b b1)
    (h2 : Book.Placement (m.placed bid .buy).nextOrderId ask .sell new' b1 b2) :
    Placements ((m.placed bid .buy).placed ask .sell) (bid, ask) (new ++ new') b b2 := by
  set m2 := (m.placed bid .buy).placed ask .sell with hm2
  have hbuy (q : Price × Quantity) (hq : q ∈ bid) : m2.current .buy = m.nextOrderId ∧
      (m.placed bid .buy).nextOrderId = m.nextOrderId + 1 := by
    obtain rfl : bid = some q := hq
    obtain ⟨hcur, hnext⟩ := m.current_placed_self q .buy
    exact ⟨(current_placed_of_ne _ ask (by decide)).trans hcur, hnext⟩
  have hsell (q : Price × Quantity) (hq : q ∈ ask) :
      m2.current .sell = (m.placed bid .buy).nextOrderId := by
    obtain rfl : ask = some q := hq
    exact ((m.placed bid .buy).current_placed_self q .sell).1
  refine ⟨fun t x hx => ?_, fun t q hq hfresh => ?_⟩
  · cases h2.mem t x hx with
    | inl hx =>
      obtain ⟨q, hq, rfl, hid, hrest⟩ := hx
      exact Or.inl ⟨q, hq, hid.trans (hsell q hq).symm, hrest⟩
    | inr hx =>
      obtain ⟨x1, hx1, hs, hpos⟩ := hx
      cases h1.mem t x1 hx1 with
      | inl hx1 =>
        obtain ⟨q, hq, rfl, hid, hprice, hq0⟩ := hx1
        exact Or.inl ⟨q, hq, hs.2.1.trans (hid.trans (hbuy q hq).1.symm), hs.2.2.trans hprice,
          hpos hq0⟩
      | inr hx1 =>
        obtain ⟨r, hr, hs1, hpos1⟩ := hx1
        exact Or.inr ⟨r, hr, ⟨hs.1.trans hs1.1, hs.2.1.trans hs1.2.1, hs.2.2.trans hs1.2.2⟩,
          fun h => hpos (hpos1 h)⟩
  · cases t with
    | buy =>
      obtain ⟨hcur, hnext⟩ := hbuy q hq
      rw [hcur] at hfresh ⊢
      have hown := h1.own q hq hfresh
      have hother := h2.others m.nextOrderId (fun _ => by rw [hnext]; grind) .buy
      rw [filled_append]
      omega
    | sell =>
      have hcur := hsell q hq
      rw [hcur] at hfresh ⊢
      have hbid : bid ≠ none → (m.placed bid .buy).nextOrderId ≠ m.nextOrderId := by
        intro hb
        obtain ⟨q', hq'⟩ := Option.ne_none_iff_exists'.mp hb
        rw [(hbuy q' hq').2]
        grind
      have hother := h1.others (m.placed bid .buy).nextOrderId hbid .sell
      have hempty : b.openShares (· = (m.placed bid .buy).nextOrderId) .sell = 0 :=
        Book.openShares_eq_zero hfresh
      have hown := h2.own q hq (h1.absent (by decide) hfresh)
      rw [filled_append]
      omega

/-- A quote that does not come to rest was executed. -/
theorem Placements.outcome {quotes : Option (Price × Quantity) × Option (Price × Quantity)}
    {new : List Trade} {b b' : Book} (h : Placements m quotes new b b') {t : Side}
    {q : Price × Quantity} (hq : q ∈ quoteOf quotes t) (hfresh : ∀ r ∈ b.side t, r.id ≠ m.current t) :
    (∃ r ∈ b'.side t, r.id = m.current t ∧ r.price = q.1 ∧ 0 < r.quantity) ∨
      filled (· = m.current t) t new = q.2.toNat := by
  by_cases hrest : ∃ r ∈ b'.side t, r.id = m.current t
  · obtain ⟨r, hr, hid⟩ := hrest
    cases h.mem t r hr with
    | inl hr' =>
      obtain ⟨q', hq', -, hprice, hpos⟩ := hr'
      obtain rfl := Option.mem_unique hq hq'
      exact Or.inl ⟨r, hr, hid, hprice, hpos⟩
    | inr hr' =>
      obtain ⟨r0, hr0, hs, -⟩ := hr'
      exact absurd (hs.2.1.symm.trans hid) (hfresh r0 hr0)
  · have hnone : b'.openShares (· = m.current t) t = 0 :=
      Book.openShares_eq_zero fun r hr hid => hrest ⟨r, hr, hid⟩
    have haccount := h.account t q hq hfresh
    rw [hnone, Nat.zero_add] at haccount
    exact Or.inr haccount

theorem placeBoth_placements (h : S.Sound) (m : MarketMaker D)
    (quotes : Option (Price × Quantity) × Option (Price × Quantity)) (clock : TickClock) :
    ∃ e1 e2 new, m.placeQuote? S.engine quotes.1 .buy clock.bidTime clock.bidNow =
        some (m.placed quotes.1 .buy, e1) ∧
      (m.placed quotes.1 .buy).placeQuote? e1 quotes.2 .sell clock.askTime clock.askNow =
        some ((m.placed quotes.1 .buy).placed quotes.2 .sell, e2) ∧
      Session.Sound { S with engine := e2 } ∧ e2.tradeLog = S.engine.tradeLog ++ new ∧
      (∀ c ∈ S.hands, e2.incoming c = S.engine.incoming c) ∧
      Placements ((m.placed quotes.1 .buy).placed quotes.2 .sell) quotes new S.engine.book e2.book := by
  obtain ⟨e1, new1, hplace1, h1, hlog1, hk1, hp1⟩ :=
    placeQuote?_placement h m quotes.1 .buy clock.bidTime clock.bidNow
  obtain ⟨e2, new2, hplace2, h2, hlog2, hk2, hp2⟩ :=
    placeQuote?_placement h1 (m.placed quotes.1 .buy) quotes.2 .sell clock.askTime clock.askNow
  refine ⟨e1, e2, new1 ++ new2, hplace1, hplace2, h2, ?_, fun c hc => (hk2 c hc).trans (hk1 c hc),
    .of_two hp1 hp2⟩
  rw [hlog2, hlog1, List.append_assoc]

theorem currentPx_cancelQuote (m : MarketMaker D) (e : Engine) (t : Side) (now : Timestamp) (s : Side) :
    (m.cancelQuote e t now).1.current s = (if s = t then 0 else m.current s) ∧
      ((m.cancelQuote e t now).1.currentPx s = 0 ∨
        (m.cancelQuote e t now).1.currentPx s = m.currentPx s ∧ (s = t → m.current s = 0)) := by
  rw [cancelQuote]
  by_cases ht : m.current t = 0
  · rw [if_neg (not_not.mpr ht)]
    refine ⟨?_, Or.inr ⟨rfl, fun hs => hs ▸ ht⟩⟩
    split_ifs with hs
    · rw [hs, ht]
    · rfl
  · rw [if_pos ht, current_track, currentPx_track]
    by_cases hs : s = t
    · rw [hs, Function.update_self, Function.update_self, if_pos rfl]
      exact ⟨rfl, Or.inl rfl⟩
    · rw [Function.update_of_ne hs, Function.update_of_ne hs, if_neg hs]
      exact ⟨rfl, Or.inr ⟨rfl, fun h => absurd h hs⟩⟩

/-- Withdrawn quotes are forgotten; a price that stays belongs to no quote. -/
theorem currentPx_cancelExistingQuotes (m : MarketMaker D) (e : Engine) (clock : TickClock)
    (s : Side) : (m.cancelExistingQuotes e clock).1.currentPx s = 0 ∨
      (m.cancelExistingQuotes e clock).1.currentPx s = m.currentPx s ∧ m.current s = 0 := by
  obtain ⟨hcur1, hpx1⟩ := m.currentPx_cancelQuote e .buy clock.cancelBid s
  obtain ⟨-, hpx2⟩ := (m.cancelQuote e .buy clock.cancelBid).1.currentPx_cancelQuote
    (m.cancelQuote e .buy clock.cancelBid).2 .sell clock.cancelAsk s
  rw [cancelExistingQuotes]
  cases hpx2 with
  | inl hzero => exact Or.inl hzero
  | inr hpx2 =>
    cases hpx1 with
    | inl hzero => exact Or.inl (hpx2.1.trans hzero)
    | inr hpx1 =>
      refine Or.inr ⟨hpx2.1.trans hpx1.1, ?_⟩
      cases s with
      | buy => exact hpx1.2 rfl
      | sell => exact hcur1.symm.trans (hpx2.2 rfl)

/-- What a tick does to the quotes: it keeps them or withdraws them, and then places some. -/
structure Ticked (m m1 m' : MarketMaker D)
    (quotes : Option (Price × Quantity) × Option (Price × Quantity)) (new : List Trade)
    (b b1 b' : Book) : Prop where
  kept : ∀ t, ∀ x ∈ b1.side t, x ∈ b.side t
  current : ∀ s, m1.current s = 0 ∨ m1.current s = m.current s
  currentPx : ∀ s, m1.currentPx s = 0 ∨ m1.currentPx s = m.currentPx s ∧ m1.current s = m.current s
  nextOrderId : m1.nextOrderId = m.nextOrderId
  placed : m' = (m1.placed quotes.1 .buy).placed quotes.2 .sell
  placements : Placements m' quotes new b1 b'

theorem Placements.none (m : MarketMaker D) (b : Book) : Placements m (none, none) [] b b where
  mem _ x hx := Or.inr ⟨x, hx, .refl x, fun h => h⟩
  account t _ hq := by cases t <;> exact absurd hq (by simp [quoteOf])

theorem Ticked.none {m' : MarketMaker D} {b b' : Book} (hkept : ∀ t, ∀ x ∈ b'.side t, x ∈ b.side t)
    (hcurrent : ∀ s, m'.current s = 0 ∨ m'.current s = m.current s)
    (hpx : ∀ s, m'.currentPx s = 0 ∨ m'.currentPx s = m.currentPx s ∧ m'.current s = m.current s)
    (hnext : m'.nextOrderId = m.nextOrderId) : Ticked m m' m' (none, none) [] b b' b' :=
  ⟨hkept, hcurrent, hpx, hnext, rfl, .none m' b'⟩

theorem cancelExistingQuotes_sound (h : S.Sound) (m : MarketMaker D) (clock : TickClock) :
    ∃ m' e', m.cancelExistingQuotes S.engine clock = (m', e') ∧
      Session.Sound { S with engine := e' } ∧ e'.tradeLog = S.engine.tradeLog ∧
      (∀ c ∈ S.hands, e'.incoming c = S.engine.incoming c) ∧ m'.config = m.config ∧
      m'.killed = m.killed ∧ m'.netPosition = m.netPosition ∧ m'.nextOrderId = m.nextOrderId ∧
      (∀ t, ∀ x ∈ e'.book.side t, x ∈ S.engine.book.side t) ∧ (∀ s, m'.current s = 0) ∧
      ∀ s, m'.currentPx s = 0 ∨ m'.currentPx s = m.currentPx s ∧ m'.current s = m.current s := by
  have htracks : S.Tracks (fun _ => False) m.current :=
    ⟨h, fun _ _ _ hown => hown.elim, fun _ _ hown => hown⟩
  obtain ⟨m', e', hcancel, h', hlog, hmem, hk, hzero, hnext, hpos⟩ :=
    cancelExistingQuotes_tracks htracks clock
  have hswitches := m.cancelExistingQuotes_switches S.engine clock
  have hpx := m.currentPx_cancelExistingQuotes S.engine clock
  rw [hcancel] at hswitches hpx
  refine ⟨m', e', hcancel, h'.sound, hlog, hk, hswitches.1, hswitches.2, hpos, hnext, hmem, hzero,
    fun s => ?_⟩
  exact (hpx s).imp (fun h => h) fun h => ⟨h.1, (hzero s).trans h.2.symm⟩

variable [Double D]

/-- A tick returns; if it finds both sides and does not find the loss, it leaves the quotes or
withdraws them and places those of its decision. -/
theorem onTick_ticked (h : S.Sound) (m : MarketMaker D) (start : Nat) (clock : TickClock) :
    ∃ m' e' m1 quotes new b1, m.onTick S.engine start clock = some (m', e') ∧
      Session.Sound { S with engine := e' } ∧ e'.tradeLog = S.engine.tradeLog ++ new ∧
      (∀ c ∈ S.hands, e'.incoming c = S.engine.incoming c) ∧
      Ticked m m1 m' quotes new S.engine.book b1 e'.book ∧
      (m'.killed = false ↔ m.killed = false ∧ ¬ m.Loses S.engine start) ∧
      (detects S.engine = true → m'.killed = false → m'.config = m.config ∧
        m'.netPosition = (m.scanned S.engine start).netPosition ∧
        ((m.scanned S.engine start).requote S.engine.midPrice = none ∧ m'.current = m.current ∧
            e'.book = S.engine.book ∧ new = [] ∨
          (m.scanned S.engine start).requote S.engine.midPrice = some quotes ∧
            ∀ s, m1.current s = 0)) := by
  rcases m.prepare_cases S.engine start clock with
    ⟨hstay, m', hsame, hpos, hnone, hprep⟩ | ⟨hl, hk, m2, e2, m', hcancel, hsame, hpos, hprep⟩ |
    ⟨hl, hk, hd, m1, quotes, hsame, hpos, hquotes, hprep⟩
  · refine ⟨m', S.engine, m', (none, none), [], S.engine.book, ?_, h, (List.append_nil _).symm,
      fun _ _ => rfl, .none (fun _ _ hx => hx) (fun s => Or.inr (congrFun hsame.current s))
        (fun s => Or.inr ⟨congrFun hsame.currentPx s, congrFun hsame.current s⟩) hsame.nextOrderId,
      ?_, fun hd hlive => ⟨hsame.config, ?_, Or.inl ⟨?_, hsame.current, rfl, rfl⟩⟩⟩
    · rw [onTick, hprep]
      rfl
    · rw [hsame.killed]
      refine ⟨fun hlive => ⟨hlive, fun hl => ?_⟩, fun h => h.1⟩
      exact absurd (hlive.symm.trans (hstay hl)) Bool.false_ne_true
    · rw [hpos, if_pos hd]
    · exact hnone hd (hsame.killed.symm.trans hlive)
  · have hscan := m.scanned_same S.engine start
    obtain ⟨m2', e2', hcancel', h2, hlog, hkeep, -, hk2, -, hnext, hmem, hzero, hpx⟩ :=
      cancelExistingQuotes_sound h { m.scanned S.engine start with killed := true } clock
    obtain ⟨rfl, rfl⟩ := Prod.mk.inj (hcancel.symm.trans hcancel')
    have hkilled : m'.killed = true := hsame.killed.trans hk2
    refine ⟨m', e2, m', (none, none), [], e2.book, ?_, h2, by rw [hlog, List.append_nil], hkeep,
      .none hmem (fun s => Or.inl ?_) (fun s => ?_)
        (hsame.nextOrderId.trans (hnext.trans hscan.nextOrderId)), ?_, fun _ hlive => ?_⟩
    · rw [onTick, hprep]
      rfl
    · rw [hsame.current]
      exact hzero s
    · rw [hsame.current, hsame.currentPx, ← hscan.currentPx, ← hscan.current]
      exact hpx s
    · rw [hkilled]
      exact ⟨fun h => absurd h.symm Bool.false_ne_true, fun h => absurd hl h.2⟩
    · exact absurd (hlive.symm.trans hkilled) Bool.false_ne_true
  · obtain ⟨m2, e2, hcancel, h2, hlog, hkeep, hcfg, hk2, hpos2, hnext, hmem, hzero, hpx⟩ :=
      cancelExistingQuotes_sound h m1 clock
    rw [hcancel] at hprep
    obtain ⟨e3, e4, new, hplace3, hplace4, h4, hlog4, hkeep4, hplaced⟩ :=
      placeBoth_placements h2 m2 quotes clock
    obtain ⟨hcfg3, hk3, hpos3⟩ := m2.placed_switches quotes.1 .buy
    obtain ⟨hcfg4, hk4, hpos4⟩ := (m2.placed quotes.1 .buy).placed_switches quotes.2 .sell
    refine ⟨(m2.placed quotes.1 .buy).placed quotes.2 .sell, e4, m2, quotes, new, e2.book, ?_, h4, ?_,
      fun c hc => (hkeep4 c hc).trans (hkeep c hc),
      ⟨hmem, fun s => Or.inl (hzero s), fun s => ?_, hnext.trans hsame.nextOrderId, rfl, hplaced⟩,
      iff_of_true ?_ ⟨hk, hl⟩,
      fun _ _ => ⟨hcfg4.trans (hcfg3.trans (hcfg.trans hsame.config)), ?_, Or.inr ⟨hquotes, hzero⟩⟩⟩
    · rw [onTick, hprep]
      simp only [Option.bind_eq_bind, hplace3, Option.bind_some]
      exact hplace4
    · rw [hlog4]
      exact congrArg (· ++ new) hlog
    · rw [← hsame.currentPx, ← hsame.current]
      exact hpx s
    · rw [hk4, hk3, hk2, hsame.killed, hk]
    · rw [hpos4, hpos3, hpos2, hpos]

end MarketMaker
end LobCity
