import LobCity.Placements
import LobCity.KillSwitch
import LobCity.PositionCap

/-! The market maker keeps quoting as long as no quote that the others have used up meets
unchanged prices: it notices a change of its prices or of its room, and nothing else. -/
namespace LobCity
open Library

namespace MarketMakerConfig

def quotePx (cfg : MarketMakerConfig) (position : Int64) (midPrice : Price) : Side → Price
  | .buy => midPrice - cfg.halfSpread - position * cfg.skewPerUnit
  | .sell => midPrice + cfg.halfSpread - position * cfg.skewPerUnit

def HasRoom (cfg : MarketMakerConfig) (position : Int64) : Side → Prop
  | .buy => position < cfg.maxPosition
  | .sell => position > -cfg.maxPosition

def room (cfg : MarketMakerConfig) (position : Int64) : Side → Int64
  | .buy => cfg.maxPosition - position
  | .sell => cfg.maxPosition + position

/-- A quote has shares: `quoteSize`, or what the cast leaves of the room if that is less. -/
def Sized (cfg : MarketMakerConfig) (position : Int64) (s : Side) : Prop :=
  if cfg.room position s < cfg.quoteSize.toSigned then toQuantity (cfg.room position s) ≠ 0
  else cfg.quoteSize ≠ 0

instance (cfg : MarketMakerConfig) (position : Int64) : DecidablePred (cfg.HasRoom position)
  | .buy => inferInstanceAs (Decidable (_ < _))
  | .sell => inferInstanceAs (Decidable (_ < _))

instance (cfg : MarketMakerConfig) (position : Int64) : DecidablePred (cfg.Sized position) := fun s =>
  inferInstanceAs (Decidable (if cfg.room position s < cfg.quoteSize.toSigned then _ else _))

end MarketMakerConfig

instance {p : Side → Prop} [DecidablePred p] : Decidable (∀ s, p s) :=
  decidable_of_iff (p .buy ∧ p .sell) ⟨fun h s => by cases s; exacts [h.1, h.2], fun h => ⟨h _, h _⟩⟩

namespace MarketMaker
variable {D : Type} {m m' : MarketMaker D} {midPrice : Price}

def Unmoved (m : MarketMaker D) (position : Int64) (midPrice : Price) : Prop :=
  ∀ s, m.config.quotePx position midPrice s = m.currentPx s ∧
    (m.config.HasRoom position s ∨ m.current s = 0)

instance (m : MarketMaker D) (position : Int64) (midPrice : Price) :
    Decidable (m.Unmoved position midPrice) := inferInstanceAs (Decidable (∀ _ : Side, _ ∧ _))

def newPx (m : MarketMaker D) (midPrice : Price) : Side → Price
  | .buy => midPrice - m.config.halfSpread - m.computeSkew
  | .sell => midPrice + m.config.halfSpread - m.computeSkew

def newSize (m : MarketMaker D) : Side → Quantity
  | .buy => m.cappedSize (m.netPosition < m.config.maxPosition) (m.config.maxPosition - m.netPosition)
  | .sell =>
    m.cappedSize (m.netPosition > -m.config.maxPosition) (m.config.maxPosition + m.netPosition)

/-- A side that there should be a quote on: the position is off its limit, the price positive. -/
def Wants (m : MarketMaker D) (midPrice : Price) : Side → Prop
  | .buy => m.netPosition < m.config.maxPosition ∧ 0 < m.newPx midPrice .buy
  | .sell => m.netPosition > -m.config.maxPosition ∧ 0 < m.newPx midPrice .sell

instance (m : MarketMaker D) (midPrice : Price) : DecidablePred (m.Wants midPrice)
  | .buy => inferInstanceAs (Decidable (_ ∧ _))
  | .sell => inferInstanceAs (Decidable (_ ∧ _))

theorem newPx_eq {s : Side} : m.newPx midPrice s = m.config.quotePx m.netPosition midPrice s := by
  cases s <;> rfl

theorem wants_iff {s : Side} : m.Wants midPrice s ↔ m.config.HasRoom m.netPosition s ∧
    0 < m.config.quotePx m.netPosition midPrice s := by
  cases s <;> exact Iff.rfl

theorem Wants.price {s : Side} (h : m.Wants midPrice s) : 0 < m.newPx midPrice s := by
  cases s <;> exact h.2

theorem newSize_ne_zero {s : Side} (h : m.config.HasRoom m.netPosition s) :
    m.newSize s ≠ 0 ↔ m.config.Sized m.netPosition s := by
  have hsize : m.newSize s =
      if m.config.room m.netPosition s < m.config.quoteSize.toSigned then
        toQuantity (m.config.room m.netPosition s)
      else m.config.quoteSize := by
    cases s
    · exact if_congr (and_iff_right (decide_eq_true h)) rfl rfl
    · exact if_congr (and_iff_right (decide_eq_true h)) rfl rfl
  rw [hsize, MarketMakerConfig.Sized]
  split_ifs <;> exact Iff.rfl

theorem requote_none_iff : m.requote midPrice = none ↔ m.Unmoved m.netPosition midPrice := by
  have hsides : m.Unmoved m.netPosition midPrice ↔
      (m.newPx midPrice .buy = m.currentBidPx ∧
          (m.netPosition < m.config.maxPosition ∨ m.currentBidId = 0)) ∧
        (m.newPx midPrice .sell = m.currentAskPx ∧
          (m.netPosition > -m.config.maxPosition ∨ m.currentAskId = 0)) := by
    refine ⟨fun h => ⟨h .buy, h .sell⟩, fun h s => ?_⟩
    cases s
    · exact h.1
    · exact h.2
  rw [hsides, requote, ite_eq_right_iff]
  have hunchanged {p q : Price} {quoted : Prop} [Decidable quoted] {id : OrderId} :
      ¬ (p ≠ q ∨ (!decide quoted) = true ∧ id ≠ 0) ↔ p = q ∧ (quoted ∨ id = 0) := by
    by_cases hquoted : quoted <;> simp [hquoted]
  simp only [reduceCtorEq, imp_false]
  exact not_or.trans (and_congr hunchanged hunchanged)

theorem new_congr (hcfg : m'.config = m.config) (hpos : m'.netPosition = m.netPosition) :
    m'.newPx = m.newPx ∧ m'.newSize = m.newSize ∧ m'.Wants = m.Wants := by
  have hpx : m'.newPx = m.newPx := by
    funext mid s
    cases s <;> simp only [newPx, computeSkew, hcfg, hpos]
  refine ⟨hpx, ?_, ?_⟩
  · funext s
    cases s <;> simp only [newSize, cappedSize, hcfg, hpos]
  · funext mid s
    cases s <;> simp only [Wants, hpx, hcfg, hpos]

theorem requote_some {quotes : Option (Price × Quantity) × Option (Price × Quantity)}
    (h : m.requote midPrice = some quotes) {s : Side} (hw : m.Wants midPrice s)
    (hsize : m.newSize s ≠ 0) : quoteOf quotes s = some (m.newPx midPrice s, m.newSize s) := by
  have hpos : 0 < m.newSize s := by grind
  rw [requote, Option.ite_none_right_eq_some] at h
  obtain rfl := Option.some.inj h.2
  cases s with
  | buy => exact if_pos ⟨decide_eq_true hw.1, hw.2, hpos⟩
  | sell => exact if_pos ⟨decide_eq_true hw.1, hw.2, hpos⟩

theorem requote_unsized {quotes : Option (Price × Quantity) × Option (Price × Quantity)}
    (h : m.requote midPrice = some quotes) {s : Side} (hsize : m.newSize s = 0) :
    quoteOf quotes s = none := by
  have hpos : ¬ 0 < m.newSize s := by grind
  rw [requote, Option.ite_none_right_eq_some] at h
  obtain rfl := Option.some.inj h.2
  cases s with
  | buy => exact if_neg fun h => hpos h.2.2
  | sell => exact if_neg fun h => hpos h.2.2

end MarketMaker

namespace Book
variable {b b' : Book} {own : OrderId → Prop} {issued : List OrderId} {cur : Side → OrderId}
  {px : Side → Price}

/-- What a participant may rely on who remembers one id and one price for each side: its
resting orders are its own issues, and those with the remembered id rest at the price. An
id that is issued twice spoils the latter, and so does a price that was forgotten. -/
def Recalled (own : OrderId → Prop) (issued : List OrderId) (cur : Side → OrderId)
    (px : Side → Price) (b : Book) : Prop :=
  ∀ s, ∀ r ∈ b.side s, own r.id → r.id ∈ issued ∧ 0 < r.quantity ∧
    (issued.Nodup → px s ≠ 0 → r.id = cur s → r.price = px s)

theorem Recalled.mono (h : b.Recalled own issued cur px)
    (hkept : ∀ s, ∀ x ∈ b'.side s, own x.id →
      ∃ r ∈ b.side s, x.Same r ∧ (0 < r.quantity → 0 < x.quantity)) :
    b'.Recalled own issued cur px := by
  intro s x hx hown
  obtain ⟨r, hr, hs, hpos⟩ := hkept s x hx hown
  obtain ⟨hmem, hq, hprice⟩ := h s r hr (hs.2.1 ▸ hown)
  rw [hs.2.1, hs.2.2]
  exact ⟨hmem, hpos hq, hprice⟩

theorem Recalled.ticked {D : Type} {m m1 m' : MarketMaker D} {b1 : Book}
    {quotes : Option (Price × Quantity) × Option (Price × Quantity)} {new : List Trade}
    (h : b.Recalled own issued m.current m.currentPx) (ht : m.Ticked m1 m' quotes new b b1 b') :
    b'.Recalled own (issued ++ Desk.idsBetween m.nextOrderId m'.nextOrderId) m'.current
      m'.currentPx := by
  intro t x hx hown
  obtain ⟨hquote, hnone⟩ := m1.placed_tracks quotes t
  rw [← ht.placed, ht.nextOrderId] at hquote
  rw [← ht.placed] at hnone
  cases ht.placements.mem t x hx with
  | inl hx =>
    obtain ⟨q, hq, hid, hprice, hpos⟩ := hx
    obtain ⟨hcur, hpx⟩ := hquote q hq
    rw [hid, hprice, hpx]
    exact ⟨List.mem_append_right _ hcur, hpos, fun _ _ _ => rfl⟩
  | inr hx =>
    obtain ⟨r, hr, hs, hpos⟩ := hx
    obtain ⟨hmem, hq, hold⟩ := h t r (ht.kept t r hr) (hs.2.1 ▸ hown)
    rw [hs.2.1, hs.2.2]
    refine ⟨List.mem_append_left _ hmem, hpos hq, fun hnodup hne hid => ?_⟩
    cases hqt : quoteOf quotes t with
    | some q =>
      have hcur := (hquote q hqt).1
      exact absurd (hid ▸ hcur) (List.disjoint_of_nodup_append hnodup hmem)
    | none =>
      obtain ⟨hcur, hpx⟩ := hnone hqt
      rw [hpx] at hne ⊢
      rw [hcur] at hid
      obtain ⟨hpx1, hcur1⟩ := (ht.currentPx t).resolve_left hne
      rw [hpx1] at hne ⊢
      exact hold (List.nodup_append.mp hnodup).1 hne (hid.trans hcur1)

/-- A new quote has an id that nothing on the book has, and it rests or was executed. -/
theorem Recalled.placed {D : Type} {m m1 m' : MarketMaker D} {b1 : Book}
    {quotes : Option (Price × Quantity) × Option (Price × Quantity)} {new : List Trade}
    (h : b.Recalled own issued cur px) (ht : m.Ticked m1 m' quotes new b b1 b')
    (hown : ∀ id ∈ issued ++ Desk.idsBetween m.nextOrderId m'.nextOrderId, own id)
    (hnodup : (issued ++ Desk.idsBetween m.nextOrderId m'.nextOrderId).Nodup) {s : Side}
    {q : Price × Quantity} (hq : quoteOf quotes s = some q) :
    (∃ r ∈ b'.side s, r.id = m'.current s ∧ r.price = q.1 ∧ 0 < r.quantity) ∨
      filled (· = m'.current s) s new = q.2.toNat := by
  have hquote := (m1.placed_tracks quotes s).1 q hq
  rw [← ht.placed, ht.nextOrderId] at hquote
  refine ht.placements.outcome hq fun r hr hid => ?_
  have hissued := (h s r (ht.kept s r hr) (hid ▸ hown _ (List.mem_append_right _ hquote.1))).1
  exact List.disjoint_of_nodup_append hnodup hissued (hid ▸ hquote.1)

/-- A quote that is left alone rests at the remembered price, if it rests. -/
theorem Recalled.left (h : b.Recalled own issued cur px) (hnodup : issued.Nodup) {s : Side}
    (hpx : px s ≠ 0) (hown : own (cur s)) (hrests : ∃ r ∈ b.side s, r.id = cur s) :
    ∃ r ∈ b.side s, r.id = cur s ∧ r.price = px s ∧ 0 < r.quantity := by
  obtain ⟨r, hr, hid⟩ := hrests
  obtain ⟨-, hq, hprice⟩ := h s r hr (hid ▸ hown)
  exact ⟨r, hr, hid, hprice hnodup hpx hid, hq⟩

end Book

structure Session.Recalled (own : OrderId → Prop) (issued : List OrderId) (cur : Side → OrderId)
    (px : Side → Price) (S : Session) : Prop where
  sound : S.Sound
  hands : ∀ c ∈ S.hands, ¬ own (S.engine.incoming c).id
  recalled : S.engine.book.Recalled own issued cur px

namespace Session.Recalled
variable {S : Session} {own : OrderId → Prop} {issued : List OrderId} {cur : Side → OrderId}
  {px : Side → Price}

theorem new (poolSize : Nat) (udpPub : Bool) :
    (Session.new poolSize udpPub).Recalled own issued cur px := by
  have hbook : (Session.new poolSize udpPub).engine.book = Book.new poolSize :=
    (Engine.new_wellFormed poolSize udpPub).2
  refine ⟨Session.new_sound poolSize udpPub, fun c hc => absurd hc List.not_mem_nil, ?_⟩
  rw [hbook]
  intro s r hr
  cases s <;> exact absurd hr List.not_mem_nil

theorem step (h : S.Recalled own issued cur px) {op : Op}
    (hok : S.Owned op ∧ ∀ id ∈ op.ids, ¬ own id) :
    ∃ S' new, S.step op = some S' ∧ S'.Recalled own issued cur px ∧
      S'.engine.tradeLog = S.engine.tradeLog ++ new ∧
      ∀ k, own k → Book.Trims (· = k) new S.engine.book S'.engine.book := by
  obtain ⟨howned, hids⟩ := hok
  obtain ⟨S', hs, h', hb, -⟩ := h.sound.step howned
  have hd := h.sound.distinct
  have hi := h.sound.indexed
  refine ⟨S', S.newTrades op, hs, ⟨h', h.sound.hands_ids h.hands howned hids hs,
    h.recalled.mono fun s x hx hown => ?_⟩, tradeLog_of_book hb, fun k hk => ?_⟩
  · rw [hb] at hx
    have hold (hx : x ∈ S.engine.book.side s) :
        ∃ r ∈ S.engine.book.side s, x.Same r ∧ (0 < r.quantity → 0 < x.quantity) :=
      ⟨x, hx, .refl x, fun h => h⟩
    cases op with
    | acquire id p q t m =>
      rw [bookAfter, Book.side_acquire] at hx
      exact hold hx
    | process order time now =>
      cases Book.mem_of_process hx with
      | inl hx =>
        obtain ⟨-, -, -, rfl⟩ := hx
        exact absurd hown (h.hands order howned)
      | inr hx => exact hx
    | cancel id now => exact hold (Book.mem_of_cancel hd hi hx)
    | modify origId newId newPrice newQty now =>
      cases Book.mem_of_modify hd hi hx with
      | inl hx =>
        obtain ⟨r, -, -, rfl⟩ := hx
        exact absurd hown (hids newId (by simp [Op.ids]))
      | inr hx => exact hold hx
  · rw [hb]
    refine h.sound.trims howned (fun c hc hid => ?_) fun id hid hk' => ?_
    · exact h.hands c hc (hid ▸ hk)
    · exact hids id hid (hk' ▸ hk)

theorem run (h : S.Recalled own issued cur px) {ops : List Op}
    (hok : Along Session.step Session.Owned S ops) (hids : ∀ op ∈ ops, ∀ id ∈ op.ids, ¬ own id) :
    ∃ S' new, Library.run Session.step S ops = some S' ∧ S'.Recalled own issued cur px ∧
      S'.engine.tradeLog = S.engine.tradeLog ++ new ∧
      ∀ k, own k → Book.Trims (· = k) new S.engine.book S'.engine.book := by
  induction ops generalizing S with
  | nil => exact ⟨S, [], rfl, h, (List.append_nil _).symm, fun _ _ => .of_side rfl⟩
  | cons op ops ih =>
    obtain ⟨S1, new1, hs1, h1, hlog1, htrim1⟩ := h.step ⟨hok.1, hids op (by simp)⟩
    obtain ⟨S2, new2, hs2, h2, hlog2, htrim2⟩ :=
      ih h1 (hok.2 S1 hs1) fun op hop => hids op (by simp [hop])
    refine ⟨S2, new1 ++ new2, by simp [Library.run, hs1, hs2], h2, ?_,
      fun k hk => (htrim1 k hk).trans (htrim2 k hk)⟩
    rw [hlog2, hlog1, List.append_assoc]

/-- The tracked quote rests unless the trades have taken all that it had left. -/
theorem rests_iff (h : S.Recalled own issued cur px) {b : Book} {log : List Trade} {s : Side}
    (hown : own (cur s)) (htrim : Book.Trims (· = cur s) log b S.engine.book) :
    (∃ r ∈ S.engine.book.side s, r.id = cur s) ↔
      ¬ b.openShares (· = cur s) s ≤ filled (· = cur s) s log := by
  have hused : b.openShares (· = cur s) s ≤ filled (· = cur s) s log ↔
      S.engine.book.openShares (· = cur s) s = 0 := by
    have haccount := htrim.open_add_filled s
    omega
  rw [hused]
  constructor
  · rintro ⟨r, hr, hid⟩ hzero
    have hremoved : _ + (if s = s then shares (· = cur s) r else 0) =
        S.engine.book.openShares (· = cur s) s := Book.openShares_removed h.sound.distinct hr s
    have hshares : shares (· = cur s) r = r.quantity.toNat := if_pos hid
    have hpos := UInt32.lt_iff_toNat_lt.mp (h.recalled s r hr (hid ▸ hown)).2.1
    rw [if_pos rfl, hshares, hzero] at hremoved
    have hnone : (0 : Quantity).toNat = 0 := rfl
    omega
  · intro hopen
    by_contra hno
    exact hopen (Book.openShares_eq_zero fun r hr hid => hno ⟨r, hr, hid⟩)

end Session.Recalled

namespace Desk
variable {D : Type} [Double D]

def Live (w : Desk D) (s : Side) (price : Price) : Prop :=
  ∃ r ∈ w.session.engine.book.side s, r.id = w.maker.current s ∧ r.price = price ∧ 0 < r.quantity

def Executed (w : Desk D) (s : Side) (start : Nat) : Prop :=
  0 < w.maker.newSize s ∧ filled (· = w.maker.current s) s (w.session.engine.tradeLog.drop start) =
    (w.maker.newSize s).toNat

/-- If the tick finds both sides and leaves the maker not killed, then on each side where there
should be a quote there is one at the new price, or it was executed in this tick. -/
def KeepsQuoting (w : Desk D) (tick : Tick) : Prop :=
  ∀ S, run Session.step w.session tick.ops = some S → ∀ w', w.step tick = some w' →
    MarketMaker.detects S.engine = true → w'.maker.killed = false →
    ∀ s, w'.maker.Wants S.engine.midPrice s →
      w'.Live s (w'.maker.newPx S.engine.midPrice s) ∨ w'.Executed s S.engine.tradeLog.length

def positionWith (w : Desk D) (log : List Trade) : Int64 :=
  w.maker.netPosition + Int64.ofInt (netTraded (fun s id => id = w.maker.current s) log)

def UsedUp (w : Desk D) (log : List Trade) (s : Side) : Prop :=
  w.session.engine.book.openShares (· = w.maker.current s) s ≤
    filled (· = w.maker.current s) s log

/-- On each side where there should be a quote: the others do not use it up and leave mid price
and position such that no quote would move, and if one would, a quote there has shares. -/
def Noticed (w : Desk D) (tick : Tick) : Prop :=
  ∀ S, run Session.step w.session tick.ops = some S → MarketMaker.detects S.engine = true →
    w.maker.killed = false →
    let log := S.engine.tradeLog.drop w.session.engine.tradeLog.length
    let position := w.positionWith log
    ∀ s, w.maker.config.HasRoom position s →
      0 < w.maker.config.quotePx position S.engine.midPrice s →
      (w.maker.Unmoved position S.engine.midPrice → ¬ w.UsedUp log s) ∧
        (¬ w.maker.Unmoved position S.engine.midPrice → w.maker.config.Sized position s)

variable {own : OrderId → Prop} {w w' : Desk D} {tick : Tick}

/-- The desk between two turns. `own` are the ids that the others keep off. -/
structure Recalls (own : OrderId → Prop) (w : Desk D) : Prop where
  session : w.session.Recalled own w.issued w.maker.current w.maker.currentPx
  current : ∀ s, w.maker.current s = 0 ∨ w.maker.current s ∈ w.issued

omit [Double D] in
theorem Recalls.own_current (h : w.Recalls own) (h0 : own 0) (hown : ∀ id ∈ w.issued, own id)
    (s : Side) : own (w.maker.current s) := by
  cases h.current s with
  | inl hzero =>
    rw [hzero]
    exact h0
  | inr hmem => exact hown _ hmem

/-- One turn of the loop, by way of the session `S` that the others leave. -/
structure Turn (w : Desk D) (tick : Tick) (S : Session) (w' : Desk D) (m1 : MarketMaker D)
    (quotes : Option (Price × Quantity) × Option (Price × Quantity)) (new : List Trade)
    (b1 : Book) : Prop where
  others : run Session.step w.session tick.ops = some S
  returns : w.step tick = some w'
  issued : w'.issued = w.issued ++ idsBetween w.maker.nextOrderId w'.maker.nextOrderId
  log : w'.session.engine.tradeLog = S.engine.tradeLog ++ new
  ticked : w.maker.Ticked m1 w'.maker quotes new S.engine.book b1 w'.session.engine.book
  killed : w'.maker.killed = false ↔
    w.maker.killed = false ∧ ¬ w.maker.Loses S.engine w.session.engine.tradeLog.length
  decision : MarketMaker.detects S.engine = true → w'.maker.killed = false →
    let m := w.maker.scanned S.engine w.session.engine.tradeLog.length
    w'.maker.config = w.maker.config ∧ w'.maker.netPosition = m.netPosition ∧
      (m.requote S.engine.midPrice = none ∧ w'.maker.current = w.maker.current ∧
          w'.session.engine.book = S.engine.book ∧ new = [] ∨
        m.requote S.engine.midPrice = some quotes ∧ ∀ s, m1.current s = 0)

/-- The step lemma: the others' turn spoils nothing that the maker remembers, and takes from
its quotes what the log says; and the tick remembers what it issues. -/
theorem Recalls.turn (h : w.Recalls own) (hfair : w.Fair tick)
    (hids : ∀ op ∈ tick.ops, ∀ id ∈ op.ids, ¬ own id) :
    ∃ S w' m1 quotes new b1, w.Turn tick S w' m1 quotes new b1 ∧ w'.Recalls own ∧
      S.Recalled own w.issued w.maker.current w.maker.currentPx ∧
      ∀ s, own (w.maker.current s) →
        ((∃ r ∈ S.engine.book.side s, r.id = w.maker.current s) ↔
          ¬ w.UsedUp (S.engine.tradeLog.drop w.session.engine.tradeLog.length) s) := by
  obtain ⟨S, log, hS, hrec, htraded, htrim⟩ := h.session.run hfair hids
  obtain ⟨m', e', m1, quotes, new, b1, htick, hsound, hlog, hkeep, hticked, hkilled, hdecision⟩ :=
    w.maker.onTick_ticked hrec.sound w.session.engine.tradeLog.length tick.clock
  obtain ⟨w', hw', hsession, rfl, hissued⟩ := step_eq hS htick
  have hengine : w'.session.engine = e' := by rw [hsession]
  refine ⟨S, w', m1, quotes, new, b1, ⟨hS, hw', hissued, ?_, ?_, hkilled, ?_⟩, ⟨?_, fun s => ?_⟩,
    hrec, fun s hown => ?_⟩
  · rw [hengine, hlog]
  · rw [hengine]
    exact hticked
  · rw [hengine]
    exact hdecision
  · rw [hsession, hissued]
    refine ⟨hsound, fun c hc => ?_, hrec.recalled.ticked hticked⟩
    rw [hkeep c hc]
    exact hrec.hands c hc
  · obtain ⟨hquote, hnone⟩ := m1.placed_tracks quotes s
    rw [← hticked.placed, hticked.nextOrderId] at hquote
    rw [← hticked.placed] at hnone
    rw [hissued]
    cases hqt : quoteOf quotes s with
    | some q => exact Or.inr (List.mem_append_right _ (hquote q hqt).1)
    | none =>
      rw [(hnone hqt).1]
      cases hticked.current s with
      | inl hzero => exact Or.inl hzero
      | inr hcur =>
        rw [hcur]
        exact (h.current s).imp (fun h => h) (List.mem_append_left _)
  · rw [htraded, List.drop_left]
    exact hrec.rests_iff hown (htrim _ hown)

theorem scanned_terms (w : Desk D) (e : Engine) :
    let m := w.maker.scanned e w.session.engine.tradeLog.length
    let position := w.positionWith (e.tradeLog.drop w.session.engine.tradeLog.length)
    m.config = w.maker.config ∧ m.netPosition = position ∧
      ∀ mid, m.requote mid = none ↔ w.maker.Unmoved position mid := by
  have hscan := w.maker.scanned_same e w.session.engine.tradeLog.length
  have hpos := w.maker.scanned_netPosition e w.session.engine.tradeLog.length
  refine ⟨hscan.config, hpos, fun mid => ?_⟩
  rw [MarketMaker.requote_none_iff, MarketMaker.Unmoved, hscan.config, hscan.current,
    hscan.currentPx, hpos]
  rfl

section Turn
variable {S : Session} {m1 : MarketMaker D}
  {quotes : Option (Price × Quantity) × Option (Price × Quantity)} {new : List Trade} {b1 : Book}

theorem Turn.scanned (ht : w.Turn tick S w' m1 quotes new b1)
    (hd : MarketMaker.detects S.engine = true) (hlive : w'.maker.killed = false) :
    let m := w.maker.scanned S.engine w.session.engine.tradeLog.length
    w'.maker.newPx = m.newPx ∧ w'.maker.newSize = m.newSize ∧ w'.maker.Wants = m.Wants := by
  obtain ⟨hcfg, hpos, -⟩ := ht.decision hd hlive
  have hscan := w.maker.scanned_same S.engine w.session.engine.tradeLog.length
  exact MarketMaker.new_congr (hcfg.trans hscan.config.symm) hpos

/-- A quote that is left alone is at the new price, and one that is placed rests or was executed. -/
theorem Turn.keepsQuoting (ht : w.Turn tick S w' m1 quotes new b1) (h : w.Recalls own)
    (hrec : S.Recalled own w.issued w.maker.current w.maker.currentPx)
    (hrests : ∀ s, own (w.maker.current s) →
      ((∃ r ∈ S.engine.book.side s, r.id = w.maker.current s) ↔
        ¬ w.UsedUp (S.engine.tradeLog.drop w.session.engine.tradeLog.length) s))
    (h0 : own 0) (hown : ∀ id ∈ w'.issued, own id) (hnodup : w'.issued.Nodup)
    (hnoticed : w.Noticed tick) : w.KeepsQuoting tick := by
  intro S1 hS1 w1 hw1 hd hlive s hwants
  obtain rfl := Option.some.inj (ht.others.symm.trans hS1)
  obtain rfl := Option.some.inj (ht.returns.symm.trans hw1)
  obtain ⟨-, -, hcase⟩ := ht.decision hd hlive
  obtain ⟨hpx, hsize, hwant⟩ := ht.scanned hd hlive
  obtain ⟨hcfg, hpos, hunmoved⟩ := w.scanned_terms S.engine
  rw [hwant] at hwants
  rw [ht.issued] at hown hnodup
  obtain ⟨hroom, hpositive⟩ := MarketMaker.wants_iff.mp hwants
  have hroom' := hroom
  rw [hcfg, hpos] at hroom' hpositive
  obtain ⟨hleft, hsized⟩ := hnoticed S ht.others hd (ht.killed.mp hlive).1 s hroom' hpositive
  rw [Live, Executed, hpx, hsize]
  cases hcase with
  | inl hcase =>
    obtain ⟨hnone, hcur, hbook, -⟩ := hcase
    have hstays := (hunmoved S.engine.midPrice).mp hnone
    have hsame := (hstays s).1
    have hne : w.maker.currentPx s ≠ 0 := by
      rw [← hsame]
      grind
    have hcurrent := h.own_current h0 (fun id hid => hown id (List.mem_append_left _ hid)) s
    rw [MarketMaker.newPx_eq, hcfg, hpos, hsame, hcur, hbook]
    exact Or.inl (hrec.recalled.left (List.nodup_append.mp hnodup).1 hne hcurrent
      ((hrests s hcurrent).mpr (hleft hstays)))
  | inr hcase =>
    obtain ⟨hsome, -⟩ := hcase
    have hmoves : ¬ w.maker.Unmoved _ S.engine.midPrice := mt (hunmoved S.engine.midPrice).mpr (by
      rw [hsome]
      simp)
    have hsize0 := (MarketMaker.newSize_ne_zero hroom).mpr (by
      rw [hcfg, hpos]
      exact hsized hmoves)
    have hq := MarketMaker.requote_some hsome hwants hsize0
    have hnew : w'.session.engine.tradeLog.drop S.engine.tradeLog.length = new := by
      rw [ht.log]
      exact List.drop_left
    refine (hrec.recalled.placed ht.ticked hown hnodup hq).imp (fun hr => hr) fun hfilled => ?_
    refine ⟨by grind, ?_⟩
    rw [hnew]
    exact hfilled

/-- Without a quote there is none at the new price, and no trade of it. -/
theorem Turn.noticed (ht : w.Turn tick S w' m1 quotes new b1) (h : w.Recalls own)
    (h' : w'.Recalls own)
    (hrests : ∀ s, own (w.maker.current s) →
      ((∃ r ∈ S.engine.book.side s, r.id = w.maker.current s) ↔
        ¬ w.UsedUp (S.engine.tradeLog.drop w.session.engine.tradeLog.length) s))
    (h0 : own 0) (hown : ∀ id ∈ w'.issued, own id) (hzero : 0 ∉ w'.issued)
    (hlive : w'.maker.killed = false) (hkeeps : w.KeepsQuoting tick) : w.Noticed tick := by
  intro S1 hS1 hd hk
  dsimp only
  intro s hroom hpositive
  obtain rfl := Option.some.inj (ht.others.symm.trans hS1)
  obtain ⟨-, -, hcase⟩ := ht.decision hd hlive
  obtain ⟨-, hsize, hwant⟩ := ht.scanned hd hlive
  obtain ⟨hcfg, hpos, hunmoved⟩ := w.scanned_terms S.engine
  rw [← hcfg, ← hpos] at hroom hpositive
  have hwants := MarketMaker.wants_iff.mpr ⟨hroom, hpositive⟩
  have hquote := hkeeps S ht.others w' ht.returns hd hlive s (hwant ▸ hwants)
  rw [← hcfg, ← hpos, ← MarketMaker.newSize_ne_zero hroom]
  rw [ht.issued] at hown
  cases hcase with
  | inl hcase =>
    obtain ⟨hnone, hcur, hbook, rfl⟩ := hcase
    have hcurrent := h.own_current h0 (fun id hid => hown id (List.mem_append_left _ hid)) s
    refine ⟨fun _ => (hrests s hcurrent).mp ?_, fun hmoves => ?_⟩
    · cases hquote with
      | inl hlives =>
        obtain ⟨r, hr, hid, -⟩ := hlives
        rw [hbook] at hr
        exact ⟨r, hr, hid.trans (congrFun hcur s)⟩
      | inr hexecuted =>
        obtain ⟨hsized, hfilled⟩ := hexecuted
        rw [ht.log, List.append_nil, List.drop_length] at hfilled
        have hempty : filled (· = w'.maker.current s) s [] = 0 := rfl
        have hsized := UInt32.lt_iff_toNat_lt.mp hsized
        rw [← hfilled, hempty] at hsized
        exact absurd hsized (Nat.lt_irrefl 0)
    · rw [hpos] at hmoves
      exact absurd ((hunmoved _).mp hnone) hmoves
  | inr hcase =>
    obtain ⟨hsome, hforgot⟩ := hcase
    refine ⟨fun hstays => ?_, fun _ hsize0 => ?_⟩
    · rw [hpos] at hstays
      exact absurd (hsome.symm.trans ((hunmoved _).mpr hstays)) (by simp)
    · have hnone := (m1.placed_tracks quotes s).2 (MarketMaker.requote_unsized hsome hsize0)
      rw [← ht.ticked.placed] at hnone
      cases hquote with
      | inl hlives =>
        obtain ⟨r, hr, hid, -⟩ := hlives
        rw [hnone.1, hforgot s] at hid
        have hissued := (h'.session.recalled s r hr (hid ▸ h0)).1
        exact hzero (hid ▸ hissued)
      | inr hexecuted =>
        have hsized := hexecuted.1
        rw [hsize, hsize0] at hsized
        exact absurd hsized (by decide)

end Turn

theorem seeded_recalls {poolSize : Nat} {udpPub : Bool} {cfg : MarketMakerConfig} {seed : List Op}
    (hseed : Along Session.step Session.Owned (Session.new poolSize udpPub) seed)
    (hids : ∀ op ∈ seed, ∀ id ∈ op.ids, ¬ own id) :
    ∃ w : Desk D, seeded poolSize udpPub cfg seed = some w ∧ w.Recalls own := by
  have hnew : (Session.new poolSize udpPub).Recalled own [] (.new cfg : MarketMaker D).current
      (.new cfg : MarketMaker D).currentPx := .new poolSize udpPub
  obtain ⟨S, -, hS, hrec, -⟩ := hnew.run hseed hids
  refine ⟨⟨S, .new cfg, [], [], 0⟩, by simp [seeded, hS], hrec, fun s => Or.inl ?_⟩
  exact congrFun (MarketMaker.current_new cfg) s

section Runs

instance (w : Desk ℚ) (s : Side) (price : Price) : Decidable (w.Live s price) :=
  inferInstanceAs (Decidable (∃ r ∈ w.session.engine.book.side s, _))

instance (w : Desk ℚ) (s : Side) (start : Nat) : Decidable (w.Executed s start) :=
  inferInstanceAs (Decidable (_ ∧ _))

instance (w : Desk ℚ) : DecidablePred w.KeepsQuoting := fun tick =>
  have (S : Session) : Decidable (∀ w', w.step tick = some w' →
      MarketMaker.detects S.engine = true → w'.maker.killed = false →
      ∀ s, w'.maker.Wants S.engine.midPrice s →
        w'.Live s (w'.maker.newPx S.engine.midPrice s) ∨ w'.Executed s S.engine.tradeLog.length) :=
    decidableForallSome (w.step tick) _
  decidableForallSome (run Session.step w.session tick.ops) _

instance (w : Desk ℚ) (log : List Trade) : DecidablePred (w.UsedUp log) := fun _ =>
  inferInstanceAs (Decidable (_ ≤ _))

instance (w : Desk ℚ) : DecidablePred w.Noticed := fun tick =>
  decidableForallSome (run Session.step w.session tick.ops) _

def quoteTicks : List Tick :=
  [⟨[], quoteClock⟩, ⟨[], quoteClock⟩, ⟨[.acquire 3 0 3 .sell true, .process 3 1 1], quoteClock⟩]

/-- Before the second tick someone sells 5 to the bid, and someone buys 5 from the ask. -/
def usedUpTicks : List Tick :=
  [⟨[], quoteClock⟩,
   ⟨[.acquire 3 0 5 .sell true, .process 3 1 1, .acquire 4 0 5 .buy true, .process 3 1 1], quoteClock⟩]

end Runs

end Desk
end LobCity
