import LobCity.Feed
import LobCity.Screening

/-! What the gateway is for, without pointers, pools or rings: the sequence book and the
risk engine, and for each message what it does to them and which snapshot it makes. The
gateway computes this, and pushes those snapshots. -/
namespace LobCity
open Library

structure Exchange where
  book : Book
  risk : RiskEngine

def Book.snapshot (b : Book) (now : Timestamp) : BboMessage where
  timestamp := now
  bestBidPrice := bestPrice (b.side .buy)
  bestAskPrice := bestPrice (b.side .sell)
  bestBidQty := bestVolume (b.side .buy)
  bestAskQty := bestVolume (b.side .sell)
  messageType := 66

def Book.moved (b b' : Book) (now : Timestamp) : Option BboMessage :=
  if bestPrice (b.side .buy) ≠ bestPrice (b'.side .buy) ∨
    bestPrice (b.side .sell) ≠ bestPrice (b'.side .sell) then some (b'.snapshot now) else none

/-- A ring after snapshots have been pushed; a full ring drops them. -/
def RingBuffer.pushAll {T : Type} {Size : Nat} [NeZero Size] (rb : RingBuffer T Size)
    (items : List T) : RingBuffer T Size := items.foldl (fun rb item => (rb.push item).2) rb

namespace Exchange

def synced (x : Exchange) : RiskEngine :=
  x.risk.updateBBO (bestPrice (x.book.side .buy)) (bestPrice (x.book.side .sell))

def screen (x : Exchange) (m : FixMessage × Clock) : RiskRejectReason × RiskEngine :=
  x.synced.checkOrder m.1 m.2.risk

def handle (x : Exchange) (m : FixMessage × Clock) : Exchange × Option BboMessage :=
  let msg := m.1
  if msg.msgType = byte 'D' then
    if (x.screen m).1 = .none then
      let b := (x.book.newOrder msg).2.process (x.book.newOrder msg).1 m.2.time
      (⟨b, (x.screen m).2⟩, x.book.moved b m.2.now)
    else (⟨x.book, (x.screen m).2⟩, none)
  else if msg.msgType = byte 'F' then
    let b := x.book.cancel (numericId msg.clOrdID)
    (⟨b, x.risk⟩, if x.book.index (numericId msg.clOrdID) = none then none
      else some (b.snapshot m.2.now))
  else if msg.msgType = byte 'G' then
    if (x.screen m).1 = .none then
      let b := x.book.modify (numericId msg.origClOrdID) (numericId msg.clOrdID) msg.price
        (toQuantity msg.qty)
      (⟨b, (x.screen m).2⟩, x.book.moved b m.2.now)
    else (⟨x.book, (x.screen m).2⟩, none)
  else (x, none)

section Cases
variable {x : Exchange} {m : FixMessage × Clock}

theorem handle_newOrder (hD : m.1.msgType = byte 'D') (hv : (x.screen m).1 = .none) :
    x.handle m = (⟨(x.book.newOrder m.1).2.process (x.book.newOrder m.1).1 m.2.time, (x.screen m).2⟩,
      x.book.moved ((x.book.newOrder m.1).2.process (x.book.newOrder m.1).1 m.2.time) m.2.now) := by
  simp only [handle, if_pos hD, if_pos hv]

theorem handle_cancel (hF : m.1.msgType = byte 'F') :
    x.handle m = (⟨x.book.cancel (numericId m.1.clOrdID), x.risk⟩,
      if x.book.index (numericId m.1.clOrdID) = none then none
      else some ((x.book.cancel (numericId m.1.clOrdID)).snapshot m.2.now)) := by
  have hFD : byte 'F' ≠ byte 'D' := by decide
  simp only [handle, hF, if_neg hFD, if_true]

theorem handle_replace (hG : m.1.msgType = byte 'G') (hv : (x.screen m).1 = .none) :
    x.handle m = (⟨x.book.modify (numericId m.1.origClOrdID) (numericId m.1.clOrdID) m.1.price
        (toQuantity m.1.qty), (x.screen m).2⟩,
      x.book.moved (x.book.modify (numericId m.1.origClOrdID) (numericId m.1.clOrdID) m.1.price
        (toQuantity m.1.qty)) m.2.now) := by
  have hGD : byte 'G' ≠ byte 'D' := by decide
  have hGF : byte 'G' ≠ byte 'F' := by decide
  simp only [handle, hG, if_neg hGD, if_neg hGF, if_true, if_pos hv]

theorem handle_rejected (hs : OrderEntryGateway.Screened m) (hv : (x.screen m).1 ≠ .none) :
    x.handle m = (⟨x.book, (x.screen m).2⟩, none) := by
  have hGD : byte 'G' ≠ byte 'D' := by decide
  have hGF : byte 'G' ≠ byte 'F' := by decide
  cases hs with
  | inl hD => simp only [handle, if_pos hD, if_neg hv]
  | inr hG => simp only [handle, hG, if_neg hGD, if_neg hGF, if_true, if_neg hv]

theorem handle_other (hD : m.1.msgType ≠ byte 'D') (hF : m.1.msgType ≠ byte 'F')
    (hG : m.1.msgType ≠ byte 'G') : x.handle m = (x, none) := by
  simp only [handle, if_neg hD, if_neg hF, if_neg hG]

theorem handle_shows {s : BboMessage} (hs : s ∈ (x.handle m).2) :
    s = (x.handle m).1.book.snapshot m.2.now := by
  have hmoved (b : Book) (hb : s ∈ x.book.moved b m.2.now) : s = b.snapshot m.2.now :=
    (Option.some.inj (Option.ite_none_right_eq_some.mp hb).2).symm
  by_cases hD : m.1.msgType = byte 'D'
  · by_cases hv : (x.screen m).1 = .none
    · rw [handle_newOrder hD hv] at hs ⊢
      exact hmoved _ hs
    · rw [handle_rejected (Or.inl hD) hv] at hs
      cases hs
  by_cases hF : m.1.msgType = byte 'F'
  · rw [handle_cancel hF] at hs ⊢
    exact (Option.some.inj (Option.ite_none_left_eq_some.mp hs).2).symm
  by_cases hG : m.1.msgType = byte 'G'
  · by_cases hv : (x.screen m).1 = .none
    · rw [handle_replace hG hv] at hs ⊢
      exact hmoved _ hs
    · rw [handle_rejected (Or.inr hG) hv] at hs
      cases hs
  · rw [handle_other hD hF hG] at hs
    cases hs

end Cases

def handleAll (x : Exchange) (msgs : List (FixMessage × Clock)) : Exchange :=
  msgs.foldl (fun x m => (x.handle m).1) x

def snapshots (x : Exchange) : List (FixMessage × Clock) → List BboMessage
  | [] => []
  | m :: msgs => (x.handle m).2.toList ++ (x.handle m).1.snapshots msgs

theorem handleAll_append (x : Exchange) (msgs msgs' : List (FixMessage × Clock)) :
    x.handleAll (msgs ++ msgs') = (x.handleAll msgs).handleAll msgs' := List.foldl_append

theorem snapshots_append (x : Exchange) (msgs msgs' : List (FixMessage × Clock)) :
    x.snapshots (msgs ++ msgs') = x.snapshots msgs ++ (x.handleAll msgs).snapshots msgs' := by
  induction msgs generalizing x with
  | nil => rfl
  | cons m msgs ih =>
    rw [List.cons_append, snapshots, ih, snapshots, List.append_assoc]
    rfl

theorem snapshots_concat (x : Exchange) (msgs : List (FixMessage × Clock)) (m : FixMessage × Clock) :
    x.snapshots (msgs ++ [m]) = x.snapshots msgs ++ ((x.handleAll msgs).handle m).2.toList := by
  rw [snapshots_append, snapshots, snapshots, List.append_nil]

/-- Every snapshot shows the book as it was after some of the messages. -/
theorem exists_of_mem_snapshots {x : Exchange} {msgs : List (FixMessage × Clock)} {s : BboMessage}
    (hs : s ∈ x.snapshots msgs) :
    ∃ k, s = (x.handleAll (msgs.take k)).book.snapshot s.timestamp := by
  induction msgs generalizing x with
  | nil => cases hs
  | cons m msgs ih =>
    cases List.mem_append.mp hs with
    | inl hs =>
      have hshows := handle_shows (Option.mem_toList.mp hs)
      refine ⟨1, ?_⟩
      conv_lhs => rw [hshows]
      rw [hshows]
      rfl
    | inr hs =>
      obtain ⟨k, hk⟩ := ih hs
      exact ⟨k + 1, hk⟩

end Exchange

namespace Engine

theorem WellFormed.bboSnapshot_eq {e : Engine} {hands : List Addr} (h : e.WellFormed hands)
    (now : Timestamp) : e.bboSnapshot now = e.book.snapshot now := by
  obtain ⟨hbid, hask⟩ := h.getBestBid_eq
  have hbidQty := h.bestQty_eq .buy
  have haskQty := h.bestQty_eq .sell
  unfold Book.snapshot
  rw [← hbid, ← hask, ← hbidQty, ← haskQty]
  rfl

theorem buffer_moved {e e' : Engine} {hands hands' : List Addr} (h : e.WellFormed hands)
    (h' : e'.WellFormed hands') {now : Timestamp}
    (hbuffer : e'.buffer = if e.getBestBid ≠ e'.getBestBid ∨ e.getBestAsk ≠ e'.getBestAsk then
      (e.buffer.push (e'.bboSnapshot now)).2 else e.buffer) :
    e'.buffer = e.buffer.pushAll (e.book.moved e'.book now).toList := by
  obtain ⟨hbid, hask⟩ := h.getBestBid_eq
  obtain ⟨hbid', hask'⟩ := h'.getBestBid_eq
  rw [hbid, hask, hbid', hask', h'.bboSnapshot_eq] at hbuffer
  rw [hbuffer, Book.moved]
  split_ifs <;> rfl

end Engine

def Session.shown (S : Session) (op : Op) (b : Book) : Option BboMessage :=
  match op with
  | .acquire .. => none
  | .process _ _ now | .modify _ _ _ _ now => S.engine.book.moved b now
  | .cancel id now => if S.engine.book.index id = none then none else some (b.snapshot now)

theorem Session.Sound.step_buffer {S S' : Session} {op : Op} (h : S.Sound) (h' : S'.Sound)
    (hp : S.engine.udpPub = true) (hs : S.step op = some S') :
    S'.engine.udpPub = true ∧
      S'.engine.buffer = S.engine.buffer.pushAll (S.shown op S'.engine.book).toList := by
  obtain ⟨hpub, hbuffer⟩ := step_outlet hp hs
  refine ⟨hpub, ?_⟩
  cases op with
  | acquire id p q s m => exact hbuffer
  | process order time now => exact Engine.buffer_moved h.wellFormed h'.wellFormed hbuffer
  | modify origId newId newPrice newQty now =>
    exact Engine.buffer_moved h.wellFormed h'.wellFormed hbuffer
  | cancel id now =>
    rw [h'.wellFormed.bboSnapshot_eq] at hbuffer
    rw [hbuffer, shown]
    by_cases hk : S.engine.book.index id = none
    · rw [if_pos hk, if_neg fun hpubl => hpubl hk]
      rfl
    · rw [if_neg hk]
      exact if_pos hk

namespace OrderEntryGateway

/-- The gateway without pointers. -/
def exchange (g : OrderEntryGateway) : Exchange := ⟨g.engine.book, g.risk⟩

structure Publishing (g : OrderEntryGateway) : Prop where
  sound : g.Sound
  udpPub : g.engine.udpPub = true

variable {g : OrderEntryGateway}

theorem new_publishing (poolSize : Nat) (cfg : RiskConfig) : (new poolSize true cfg).Publishing :=
  ⟨new_sound poolSize true cfg, rfl⟩

theorem Sound.synced_eq (h : g.Sound) : g.exchange.synced = g.synced := by
  obtain ⟨hbid, hask⟩ := Engine.WellFormed.getBestBid_eq h.wellFormed
  unfold Exchange.synced synced
  rw [hbid, hask]
  rfl

theorem Sound.screen_eq (h : g.Sound) (m : FixMessage × Clock) :
    g.exchange.screen m = (g.verdict m.1 m.2, g.screened m.1 m.2) := by
  unfold Exchange.screen
  rw [h.synced_eq]
  rfl

def Handles (g : OrderEntryGateway) (m : FixMessage × Clock) : Prop :=
  ∃ g', g.step m = some g' ∧ g'.Publishing ∧ g'.exchange = (g.exchange.handle m).1 ∧
    g'.engine.buffer = g.engine.buffer.pushAll (g.exchange.handle m).2.toList

theorem Publishing.rejected (h : g.Publishing) {m : FixMessage × Clock} (hr : g.Rejects m) :
    g.Handles m := by
  obtain ⟨hs, hv⟩ := hr
  have hscreen := h.sound.screen_eq m
  have hno : (g.exchange.screen m).1 ≠ .none := by
    rw [hscreen]
    exact hv
  have hhandle := Exchange.handle_rejected hs hno
  rw [hscreen] at hhandle
  have hstep := step_rejected ⟨hs, hv⟩
  rw [riskAfter, if_pos hs] at hstep
  refine ⟨_, hstep, ⟨h.sound, h.udpPub⟩, ?_, ?_⟩
  · rw [hhandle]
    rfl
  · rw [hhandle]
    rfl

theorem Publishing.newOrder (h : g.Publishing) {m : FixMessage × Clock} (hD : m.1.msgType = byte 'D')
    (hv : g.verdict m.1 m.2 = .none) : g.Handles m := by
  have hscreen := h.sound.screen_eq m
  have hhandle := Exchange.handle_newOrder hD ((congrArg Prod.fst hscreen).trans hv)
  obtain ⟨a, e1, e2, ha, he, h2, hb, -⟩ := h.sound.newOrder m.1 m.2.time m.2.now
  obtain ⟨hw1, hb1, -⟩ := h.sound.wellFormed.acquire _ _ _ _ _ ha
  have hacquired : e1.udpPub = g.engine.udpPub ∧ e1.buffer = g.engine.buffer := by
    have he1 : _ = e1 := congrArg Prod.snd ha
    rw [← he1]
    exact ⟨rfl, rfl⟩
  have hprocess : Session.step ⟨e1, [a]⟩ (.process a m.2.time m.2.now) =
      some ⟨e2, [a].erase a⟩ := by simp [Session.step, he]
  have h1 : Session.Sound ⟨e1, [a]⟩ := by
    refine ⟨hw1, ?_⟩
    show e1.book.Indexed
    rw [hb1]
    exact h.sound.indexed.acquire _ _ _ _ _
  have h2' : Session.Sound ⟨e2, [a].erase a⟩ := by simpa using h2
  obtain ⟨hpub, hmoved⟩ := h1.step_buffer h2' (hacquired.1.trans h.udpPub) hprocess
  have hpublished : e1.book.moved e2.book m.2.now = g.engine.book.moved e2.book m.2.now := by
    have hside : e1.book.side = g.engine.book.side := by
      rw [hb1]
      exact Book.side_acquire ..
    unfold Book.moved
    rw [hside]
  rw [hscreen, show g.exchange.book = g.engine.book from rfl, ← hb] at hhandle
  refine ⟨⟨e2, g.screened m.1 m.2⟩, ?_, ⟨h2, hpub⟩, ?_, ?_⟩
  · unfold step onParsedMessage
    rw [if_pos hD]
    exact handleNewOrderSingle_accepted hv ha he
  · rw [hhandle]
    rfl
  · rw [hhandle, ← hpublished, ← hacquired.2]
    exact hmoved

theorem Publishing.call (h : g.Publishing) (op : Op) (hop : Session.Owned ⟨g.engine, []⟩ op)
    {e : Engine} (hs : Session.step ⟨g.engine, []⟩ op = some ⟨e, []⟩) :
    Session.Sound ⟨e, []⟩ ∧ e.book = Session.bookAfter ⟨g.engine, []⟩ op ∧ e.udpPub = true ∧
      e.buffer = g.engine.buffer.pushAll (Session.shown ⟨g.engine, []⟩ op e.book).toList := by
  obtain ⟨S', hs', h', hb, -⟩ := Session.Sound.step h.sound hop
  obtain rfl := Option.some.inj (hs'.symm.trans hs)
  obtain ⟨hpub, hbuffer⟩ := Session.Sound.step_buffer h.sound h' h.udpPub hs
  exact ⟨h', hb, hpub, hbuffer⟩

theorem Publishing.cancel (h : g.Publishing) {m : FixMessage × Clock} (hF : m.1.msgType = byte 'F') :
    g.Handles m := by
  have hhandle := Exchange.handle_cancel (x := g.exchange) hF
  obtain ⟨h', hb, hpub, hbuffer⟩ :=
    h.call (.cancel (numericId m.1.clOrdID) m.2.now) trivial rfl
  have hbook : (g.engine.cancelOrder (numericId m.1.clOrdID) m.2.now).book =
      g.exchange.book.cancel (numericId m.1.clOrdID) := hb
  rw [← hbook] at hhandle
  refine ⟨⟨g.engine.cancelOrder (numericId m.1.clOrdID) m.2.now, g.risk⟩, ?_, ⟨h', hpub⟩, ?_, ?_⟩
  · have hFD : byte 'F' ≠ byte 'D' := by decide
    simp only [step, onParsedMessage, hF, if_neg hFD, if_true]
    rfl
  · rw [hhandle]
    rfl
  · rw [hhandle]
    exact hbuffer

theorem Publishing.replace (h : g.Publishing) {m : FixMessage × Clock}
    (hG : m.1.msgType = byte 'G') (hv : g.verdict m.1 m.2 = .none) : g.Handles m := by
  have hscreen := h.sound.screen_eq m
  have hhandle := Exchange.handle_replace hG ((congrArg Prod.fst hscreen).trans hv)
  obtain ⟨h', hb, hpub, hbuffer⟩ := h.call (.modify (numericId m.1.origClOrdID)
    (numericId m.1.clOrdID) m.1.price (toQuantity m.1.qty) m.2.now) trivial rfl
  have hbook : _ = g.exchange.book.modify (numericId m.1.origClOrdID) (numericId m.1.clOrdID)
      m.1.price (toQuantity m.1.qty) := hb
  rw [hscreen, ← hbook] at hhandle
  refine ⟨⟨g.engine.modifyOrder (numericId m.1.origClOrdID) (numericId m.1.clOrdID) m.1.price
    (toQuantity m.1.qty) m.2.now, g.screened m.1 m.2⟩, ?_, ⟨h', hpub⟩, ?_, ?_⟩
  · have hGD : byte 'G' ≠ byte 'D' := by decide
    have hGF : byte 'G' ≠ byte 'F' := by decide
    simp only [step, onParsedMessage, hG, if_neg hGD, if_neg hGF, if_true,
      handleCancelReplace_accepted hv]
  · rw [hhandle]
    rfl
  · rw [hhandle]
    exact hbuffer

/-- The step lemma: a message is handled as the exchange handles it, and its snapshot is
pushed. -/
theorem Publishing.step (h : g.Publishing) (m : FixMessage × Clock) : g.Handles m := by
  by_cases hr : g.Rejects m
  · exact h.rejected hr
  have hverdict (hs : Screened m) : g.verdict m.1 m.2 = .none := by
    by_contra hv
    exact hr ⟨hs, hv⟩
  by_cases hD : m.1.msgType = byte 'D'
  · exact h.newOrder hD (hverdict (Or.inl hD))
  by_cases hF : m.1.msgType = byte 'F'
  · exact h.cancel hF
  by_cases hG : m.1.msgType = byte 'G'
  · exact h.replace hG (hverdict (Or.inr hG))
  have hhandle := Exchange.handle_other (x := g.exchange) hD hF hG
  refine ⟨g, ?_, h, ?_, ?_⟩
  · unfold OrderEntryGateway.step onParsedMessage
    rw [if_neg hD, if_neg hF, if_neg hG]
  · rw [hhandle]
  · rw [hhandle]
    rfl

end OrderEntryGateway
end LobCity
