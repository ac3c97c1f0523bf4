import LobCity.Session
import LobCity.TopOfBook

/-! The market-data feed: a call pushes one snapshot or none, and which of the two is
decided by what it does to the best prices. -/
namespace LobCity
open Library

namespace Engine
variable {e e' : Engine} {s : Side}

/-- What a publisher sees of the engine: whether it is attached, and the ring. -/
def outlet (e : Engine) : Bool × RingBufferBBO := (e.udpPub, e.buffer)

theorem outlet_setLevels (e : Engine) (s : Side) (m : LevelMap s) :
    (e.setLevels s m).outlet = e.outlet := by cases s <;> rfl

theorem outlet_removeFrom (e : Engine) (s : Side) (p : Price) (order : Addr) :
    (e.removeFrom s p order).outlet = e.outlet := outlet_setLevels e s _

theorem outlet_eraseIfEmpty (e : Engine) (s : Side) (p : Price) :
    (e.eraseIfEmpty s p).outlet = e.outlet := by
  unfold eraseIfEmpty
  split_ifs
  · exact outlet_setLevels e s _
  · rfl

theorem outlet_addOrder (e : Engine) (order : Addr) : (e.addOrder order).outlet = e.outlet :=
  outlet_setLevels _ _ _

theorem outlet_fill (s : Side) (names : OrderId → OrderId → OrderId × OrderId) (px : Price)
    (time : Timestamp) (order resting : Addr) (e : Engine) :
    (fill s names px time order resting e).outlet = e.outlet := by
  unfold fill
  dsimp only
  split_ifs
  · exact (outlet_removeFrom _ s px resting).trans (outlet_setLevels _ s _)
  · exact outlet_setLevels _ s _

theorem outlet_matchLevel {names : OrderId → OrderId → OrderId × OrderId} {px : Price}
    {time : Timestamp} {order : Addr} {fuel : Nat} {resting : Option Addr}
    (h : matchLevel s names px time order fuel resting e = some e') : e'.outlet = e.outlet := by
  induction fuel generalizing resting e with
  | zero =>
    cases resting with
    | none => rw [← Option.some.inj h]
    | some r => simp [matchLevel] at h
  | succ fuel ih =>
    cases resting with
    | none => rw [← Option.some.inj h]
    | some r =>
      rw [matchLevel] at h
      split_ifs at h
      · exact (ih h).trans (outlet_fill ..)
      · rw [← Option.some.inj h]

theorem outlet_matchOrder {stops : Price → Price → Bool}
    {names : OrderId → OrderId → OrderId × OrderId} {time : Timestamp} {order : Addr} {fuel : Nat}
    (h : matchOrder s stops names time order fuel e = some e') : e'.outlet = e.outlet := by
  induction fuel generalizing e with
  | zero => simp [matchOrder] at h
  | succ fuel ih =>
    rw [matchOrder] at h
    split_ifs at h
    · cases hf : (e.levels s).first? with
      | none =>
        rw [hf] at h
        rw [← Option.some.inj h]
      | some l =>
        rw [hf] at h
        dsimp only at h
        split_ifs at h
        · rw [← Option.some.inj h]
        · obtain ⟨e1, h1, h2⟩ := Option.bind_eq_some_iff.mp h
          exact (ih h2).trans ((outlet_eraseIfEmpty e1 s _).trans (outlet_matchLevel h1))
    · rw [← Option.some.inj h]

theorem outlet_matchIncoming {order : Addr} {time : Timestamp}
    (h : e.matchIncoming order time = some e') : e'.outlet = e.outlet := by
  unfold matchIncoming at h
  cases hs : (e.heap order).side <;> rw [hs] at h <;> exact outlet_matchOrder h

def bestQty (e : Engine) (s : Side) : Quantity :=
  ((e.levels s).first?.map fun l => l.2.totalVolume).getD 0

/-- A publisher that is attached gets a snapshot exactly when a best price has moved. -/
theorem publishIfMoved_outlet (before : Engine) (now : Timestamp) :
    (publishIfMoved before e now).getBestBid = e.getBestBid ∧
    (publishIfMoved before e now).getBestAsk = e.getBestAsk ∧
    (publishIfMoved before e now).bboSnapshot = e.bboSnapshot ∧
    (publishIfMoved before e now).outlet =
      if e.udpPub = true ∧ (before.getBestBid ≠ e.getBestBid ∨ before.getBestAsk ≠ e.getBestAsk) then
        (e.udpPub, (e.buffer.push (e.bboSnapshot now)).2)
      else e.outlet := by
  unfold publishIfMoved publishBBO
  by_cases hm : before.getBestBid ≠ e.getBestBid ∨ before.getBestAsk ≠ e.getBestAsk
  · by_cases hp : e.udpPub = true
    · rw [if_pos hm, if_pos hp, if_pos ⟨hp, hm⟩]
      exact ⟨rfl, rfl, rfl, rfl⟩
    · rw [if_pos hm, if_neg hp, if_neg fun h => hp h.1]
      exact ⟨rfl, rfl, rfl, rfl⟩
  · rw [if_neg hm, if_neg fun h => hm h.2]
    exact ⟨rfl, rfl, rfl, rfl⟩

theorem processOrder_edits {order : Addr} {time now : Timestamp}
    (h : e.processOrder order time now = some e') :
    ∃ e2, outlet e2 = e.outlet ∧ e' = publishIfMoved e e2 now := by
  obtain ⟨e1, h1, he⟩ := Option.bind_eq_some_iff.mp h
  refine ⟨_, ?_, (Option.some.inj he).symm⟩
  rw [← outlet_matchIncoming h1]
  split_ifs
  · rfl
  · exact outlet_addOrder e1 order
  · rfl

theorem cancelOrder_edits {id : OrderId} {order : Addr} (hk : e.orderMap id = some order)
    (now : Timestamp) : ∃ e2, outlet e2 = e.outlet ∧ e.cancelOrder id now = e2.publishBBO now := by
  let e1 := e.eraseId id
  let o := e1.heap order
  refine ⟨((e1.removeFrom o.side o.price order).eraseIfEmpty o.side o.price).release order, ?_, ?_⟩
  · exact (outlet_eraseIfEmpty _ _ _).trans (outlet_removeFrom e1 _ _ order)
  · rw [cancelOrder, hk]

theorem modifyOrder_edits {origId : OrderId} {order : Addr} (hk : e.orderMap origId = some order)
    (newId : OrderId) (newPrice : Price) (newQty : Quantity) (now : Timestamp) :
    ∃ e3, outlet e3 = e.outlet ∧
      e.modifyOrder origId newId newPrice newQty now = publishIfMoved e e3 now := by
  rw [modifyOrder, hk]
  refine ⟨_, ?_, rfl⟩
  split_ifs
  · exact outlet_setLevels _ _ _
  · exact (outlet_addOrder _ order).trans
      ((outlet_eraseIfEmpty _ _ _).trans (outlet_removeFrom _ _ _ order))

end Engine

def Op.now : Op → Timestamp
  | .acquire .. => 0
  | .process _ _ now => now
  | .cancel _ now => now
  | .modify _ _ _ _ now => now

namespace Session
variable {S S' : Session} {op : Op}

/-- From `S` to `S'` the call pushes a snapshot: a cancel that finds its order, or another
call that moves a best price. -/
def Publishes (S : Session) (op : Op) (S' : Session) : Prop :=
  match op with
  | .acquire .. => False
  | .cancel id _ => S.engine.orderMap id ≠ none
  | .process .. | .modify .. =>
    S.engine.getBestBid ≠ S'.engine.getBestBid ∨ S.engine.getBestAsk ≠ S'.engine.getBestAsk

instance (S : Session) (op : Op) (S' : Session) : Decidable (S.Publishes op S') :=
  match op with
  | .acquire .. => inferInstanceAs (Decidable False)
  | .cancel .. => inferInstanceAs (Decidable (_ ≠ none))
  | .process .. | .modify .. => inferInstanceAs (Decidable (_ ∨ _))

theorem outlet_published {e : Engine} {now : Timestamp} (hp : S.engine.udpPub = true)
    (ho : e.outlet = S.engine.outlet) (hS : S'.engine = Engine.publishIfMoved S.engine e now) :
    S'.engine.udpPub = true ∧ S'.engine.buffer =
      if S.engine.getBestBid ≠ S'.engine.getBestBid ∨
        S.engine.getBestAsk ≠ S'.engine.getBestAsk then
      (S.engine.buffer.push (S'.engine.bboSnapshot now)).2 else S.engine.buffer := by
  obtain ⟨hbid, hask, hsnap, hout⟩ := Engine.publishIfMoved_outlet (e := e) S.engine now
  obtain ⟨hpub, hbuf⟩ := Prod.mk.inj ho
  rw [← hS] at hbid hask hsnap hout
  rw [hbid, hask, hsnap]
  rw [hpub, hp] at hout
  simp only [true_and] at hout
  split_ifs at hout ⊢ with hm
  · obtain ⟨h1, h2⟩ := Prod.mk.inj hout
    exact ⟨h1, by rw [h2, hbuf]⟩
  · obtain ⟨h1, h2⟩ := Prod.mk.inj (hout.trans ho)
    exact ⟨h1.trans hp, h2⟩

theorem step_outlet (hp : S.engine.udpPub = true) (hs : S.step op = some S') :
    S'.engine.udpPub = true ∧
      S'.engine.buffer = if S.Publishes op S' then
        (S.engine.buffer.push (S'.engine.bboSnapshot op.now)).2 else S.engine.buffer := by
  cases op with
  | acquire id p q s m =>
    obtain rfl := Option.some.inj hs
    exact ⟨hp, rfl⟩
  | process order time now =>
    obtain ⟨e', he, rfl⟩ := Option.map_eq_some_iff.mp hs
    obtain ⟨e2, hout, hprocess⟩ := Engine.processOrder_edits he
    exact outlet_published hp hout hprocess
  | cancel id now =>
    obtain rfl := Option.some.inj hs
    cases hk : S.engine.orderMap id with
    | none =>
      have hno : ¬ S.Publishes (.cancel id now) ⟨S.engine.cancelOrder id now, S.hands⟩ :=
        fun h => h hk
      rw [if_neg hno]
      dsimp only
      rw [Engine.cancelOrder_unknown hk]
      exact ⟨hp, rfl⟩
    | some order =>
      have hyes : S.Publishes (.cancel id now) ⟨S.engine.cancelOrder id now, S.hands⟩ := by
        show S.engine.orderMap id ≠ none
        rw [hk]
        exact Option.some_ne_none order
      obtain ⟨e2, hout, hcancel⟩ := Engine.cancelOrder_edits hk now
      obtain ⟨hpub, hbuf⟩ := Prod.mk.inj hout
      have hpush : e2.publishBBO now =
          { e2 with buffer := (e2.buffer.push (e2.bboSnapshot now)).2 } := if_pos (hpub.trans hp)
      rw [if_pos hyes]
      dsimp only
      rw [hcancel, hpush, ← hbuf]
      exact ⟨hpub.trans hp, rfl⟩
  | modify origId newId newPrice newQty now =>
    obtain rfl := Option.some.inj hs
    cases hk : S.engine.orderMap origId with
    | none =>
      have hsame := Engine.modifyOrder_unknown hk newId newPrice newQty now
      have hno : ¬ S.Publishes (.modify origId newId newPrice newQty now)
          ⟨S.engine.modifyOrder origId newId newPrice newQty now, S.hands⟩ := by
        intro h
        cases h with
        | inl h => exact h (congrArg Engine.getBestBid hsame).symm
        | inr h => exact h (congrArg Engine.getBestAsk hsame).symm
      rw [if_neg hno]
      dsimp only
      rw [hsame]
      exact ⟨hp, rfl⟩
    | some order =>
      obtain ⟨e3, hout, hmodify⟩ := Engine.modifyOrder_edits hk newId newPrice newQty now
      exact outlet_published hp hout hmodify

def MovesTop (S : Session) (op : Op) : Prop :=
  let b := S.engine.book
  match op with
  | .acquire .. => False
  | .process order _ _ => b.MovesBest (S.engine.incoming order)
  | .cancel id _ => ∃ s, ∃ r ∈ b.side s, b.index id = some r.ref ∧ b.CancelMoves s r
  | .modify origId _ newPrice _ _ =>
    ∃ s, ∃ r ∈ b.side s, b.index origId = some r.ref ∧ b.ReplaceMoves s r newPrice

/-- The call changes the shares at a best price, and no best price. -/
def ResizesTop (S : Session) (op : Op) : Prop :=
  let b := S.engine.book
  match op with
  | .acquire .. | .cancel .. => False
  | .process order _ _ =>
    ¬ b.MovesBest (S.engine.incoming order) ∧ b.ResizesBest (S.engine.incoming order)
  | .modify origId _ newPrice newQty _ =>
    ∃ s, ∃ r ∈ b.side s, b.index origId = some r.ref ∧ ¬ b.ReplaceMoves s r newPrice ∧
      b.ReplaceResizes s r newPrice newQty

theorem Sound.moves_iff (h : S.Sound) (hok : S.Owned op) (hs : S.step op = some S') :
    (∃ s, bestPrice (S'.engine.book.side s) ≠ bestPrice (S.engine.book.side s)) ↔
      S.MovesTop op := by
  have hd := h.distinct
  have hi := h.indexed
  have hsorted := h.wellFormed.represents.sorted
  obtain ⟨S1, h1, h', hb, -⟩ := h.step hok
  obtain rfl := Option.some.inj (h1.symm.trans hs)
  have hsorted' := h'.wellFormed.represents.sorted
  rw [hb] at hsorted' ⊢
  cases op with
  | acquire id p q s m => simp [bookAfter, MovesTop]
  | process order time now => exact Book.moves_process_iff (hsorted _) time
  | cancel id now =>
    constructor
    · rintro ⟨s, hs⟩
      cases hk : S.engine.book.index id with
      | none =>
        exact absurd (congrArg (fun b => bestPrice (b.side s)) (Book.cancel_unknown hk)) hs
      | some a =>
        obtain ⟨t, r, hr, rfl, -⟩ := hi id a hk
        by_cases hst : s = t
        · subst hst
          refine ⟨s, r, hr, hk, ?_⟩
          by_contra hno
          exact hs ((Book.bestPrice_cancel_iff hd hsorted hr hk).mpr hno)
        · exact absurd (congrArg bestPrice (Book.side_cancel_of_ne hd hr hk hst)) hs
    · rintro ⟨s, r, hr, hk, hm⟩
      exact ⟨s, fun hsame => (Book.bestPrice_cancel_iff hd hsorted hr hk).mp hsame hm⟩
  | modify origId newId newPrice newQty now =>
    constructor
    · rintro ⟨s, hs⟩
      cases hk : S.engine.book.index origId with
      | none =>
        have hsame := Book.modify_unknown hk newId newPrice newQty
        exact absurd (congrArg (fun b => bestPrice (b.side s)) hsame) hs
      | some a =>
        obtain ⟨t, r, hr, rfl, -⟩ := hi origId a hk
        by_cases hst : s = t
        · subst hst
          refine ⟨s, r, hr, hk, ?_⟩
          by_contra hno
          exact hs ((Book.bestPrice_modify_iff hd hi hsorted (hsorted' s) hr hk).mpr hno)
        · exact absurd (congrArg bestPrice (Book.side_modify_of_ne hd hi hr hk hst)) hs
    · rintro ⟨s, r, hr, hk, hm⟩
      exact ⟨s, fun hsame =>
        (Book.bestPrice_modify_iff hd hi hsorted (hsorted' s) hr hk).mp hsame hm⟩

/-- A cancel apart, a call that moves no best price changes the shares at one exactly if it
resizes the top. -/
theorem Sound.resizes_iff (h : S.Sound) (hok : S.Owned op) (hs : S.step op = some S')
    (hc : ∀ id now, op ≠ .cancel id now)
    (hsame : ∀ s, bestPrice (S'.engine.book.side s) = bestPrice (S.engine.book.side s)) :
    (∃ s, bestVolume (S'.engine.book.side s) ≠ bestVolume (S.engine.book.side s)) ↔
      S.ResizesTop op := by
  have hmoves : ¬ S.MovesTop op := fun hm => by
    obtain ⟨s, hne⟩ := (h.moves_iff hok hs).mpr hm
    exact hne (hsame s)
  have hd := h.distinct
  have hi := h.indexed
  have hsorted := h.wellFormed.represents.sorted
  obtain ⟨S1, h1, h', hb, -⟩ := h.step hok
  obtain rfl := Option.some.inj (h1.symm.trans hs)
  rw [hb] at hsame ⊢
  cases op with
  | acquire id p q s m => simp [bookAfter, ResizesTop]
  | process order time now =>
    have hiff := Book.resizes_process_iff (hsorted _) time hmoves
    exact hiff.trans ⟨fun h => ⟨hmoves, h⟩, fun h => h.2⟩
  | cancel id now => exact absurd rfl (hc id now)
  | modify origId newId newPrice newQty now =>
    constructor
    · rintro ⟨s, hs⟩
      cases hk : S.engine.book.index origId with
      | none =>
        have hsame := Book.modify_unknown hk newId newPrice newQty
        exact absurd (congrArg (fun b => bestVolume (b.side s)) hsame) hs
      | some a =>
        obtain ⟨t, r, hr, rfl, -⟩ := hi origId a hk
        by_cases hst : s = t
        · subst hst
          refine ⟨s, r, hr, hk, fun hm => hmoves ⟨s, r, hr, hk, hm⟩, ?_⟩
          by_contra hno
          exact hs ((Book.bestVolume_modify_iff hd hi hr hk (hsame s)).mpr hno)
        · exact absurd (congrArg bestVolume (Book.side_modify_of_ne hd hi hr hk hst)) hs
    · rintro ⟨s, r, hr, hk, -, hx⟩
      exact ⟨s, fun hv => (Book.bestVolume_modify_iff hd hi hr hk (hsame s)).mp hv hx⟩

theorem Sound.not_moves_of_resizes (h : S.Sound) (hx : S.ResizesTop op) : ¬ S.MovesTop op := by
  intro hm
  cases op with
  | acquire id p q s m => exact hx
  | process order time now => exact hx.1 hm
  | cancel id now => exact hx
  | modify origId newId newPrice newQty now =>
    obtain ⟨s, r, hr, hk, hno, -⟩ := hx
    obtain ⟨s', r', hr', hk', hm⟩ := hm
    obtain ⟨rfl, rfl⟩ := h.distinct.unique hr hr' (Option.some.inj (hk.symm.trans hk'))
    exact hno hm

end Session

def BboMessage.ShowsPrices (msg : BboMessage) (e : Engine) : Prop :=
  msg.bestBidPrice = e.getBestBid ∧ msg.bestAskPrice = e.getBestAsk

def BboMessage.Agrees (msg : BboMessage) (e : Engine) : Prop :=
  msg.ShowsPrices e ∧ msg.bestBidQty = e.bestQty .buy ∧ msg.bestAskQty = e.bestQty .sell

theorem Engine.WellFormed.getBestBid_eq {e : Engine} {hands : List Addr} (h : e.WellFormed hands) :
    e.getBestBid = bestPrice (e.book.side .buy) ∧ e.getBestAsk = bestPrice (e.book.side .sell) := by
  unfold getBestBid getBestAsk
  rw [h.best?_eq, h.best?_eq]
  exact ⟨rfl, rfl⟩

theorem Session.Sound.best_eq_iff {S S' : Session} (h : S.Sound) (h' : S'.Sound) :
    ¬ (S.engine.getBestBid ≠ S'.engine.getBestBid ∨ S.engine.getBestAsk ≠ S'.engine.getBestAsk) ↔
      ∀ s, bestPrice (S'.engine.book.side s) = bestPrice (S.engine.book.side s) := by
  obtain ⟨hbid, hask⟩ := h.wellFormed.getBestBid_eq
  obtain ⟨hbid', hask'⟩ := h'.wellFormed.getBestBid_eq
  rw [hbid, hask, hbid', hask', not_or, not_ne_iff, not_ne_iff]
  constructor
  · rintro ⟨hb, ha⟩ s
    cases s
    · exact hb.symm
    · exact ha.symm
  · exact fun h => ⟨(h .buy).symm, (h .sell).symm⟩

theorem Engine.WellFormed.bestQty_eq {e : Engine} {hands : List Addr} (h : e.WellFormed hands)
    (s : Side) : e.bestQty s = bestVolume (e.book.side s) := by
  have hr := h.represents
  unfold bestQty
  cases hf : (e.levels s).first? with
  | none =>
    rw [hr.side_of_first?_none hf]
    rfl
  | some l =>
    obtain ⟨p, lvl⟩ := l
    obtain ⟨-, hlevel, -⟩ := hr.side_of_first? hf
    have hbest : bestPrice (e.book.side s) = p := by
      have hb := h.best?_eq s
      rw [Engine.best?, hf] at hb
      rw [bestPrice, ← hb]
      rfl
    rw [bestVolume_eq, hbest]
    exact hlevel.totalVolume

theorem Engine.WellFormed.withBuffer {e : Engine} {hands : List Addr} (h : e.WellFormed hands)
    (rb : RingBufferBBO) : { e with buffer := rb }.WellFormed hands := { h with }

/-- An event of the two threads: a call on the matching side, or a `pop` by the publisher. -/
inductive FeedEvent where
  | call (op : Op)
  | pop
deriving DecidableEq, Repr

structure Feed where
  session : Session
  /-- the last snapshot that the publisher popped, all zeros before the first -/
  popped : BboMessage

namespace Feed
variable {f : Feed} {ev : FeedEvent}

def new (poolSize : Nat) : Feed := ⟨Session.new poolSize true, BboMessage.zero⟩

def ring (f : Feed) : RingBufferBBO := f.session.engine.buffer

def step (f : Feed) : FeedEvent → Option Feed
  | .call op => (f.session.step op).map fun S => { f with session := S }
  | .pop =>
    let (msg, buffer) := f.ring.pop
    some ⟨{ f.session with engine := { f.session.engine with buffer } }, msg.getD f.popped⟩

def Owned (f : Feed) : FeedEvent → Prop
  | .call op => f.session.Owned op
  | .pop => True

instance (f : Feed) : DecidablePred f.Owned
  | .call op => inferInstanceAs (Decidable (f.session.Owned op))
  | .pop => inferInstanceAs (Decidable True)

def PushFails (f : Feed) : FeedEvent → Prop
  | .call op => ∃ S' ∈ f.session.step op, f.session.Publishes op S' ∧
      (f.ring.push (S'.engine.bboSnapshot op.now)).1 = false
  | .pop => False

instance (f : Feed) : DecidablePred f.PushFails
  | .call op => inferInstanceAs (Decidable (∃ S' ∈ f.session.step op, _ ∧ _))
  | .pop => inferInstanceAs (Decidable False)

/-- The call leaves the last snapshot behind: it changes the shares at a best price and
moves no best price. -/
def Stale (f : Feed) : FeedEvent → Prop
  | .call op => f.session.ResizesTop op
  | .pop => False

structure Sound (f : Feed) : Prop where
  session : f.session.Sound
  attached : f.session.engine.udpPub = true

theorem new_sound (poolSize : Nat) : (new poolSize).Sound := ⟨Session.new_sound poolSize true, rfl⟩

theorem Sound.step (h : f.Sound) (hok : f.Owned ev) : ∃ f', f.step ev = some f' ∧ f'.Sound := by
  cases ev with
  | call op =>
    obtain ⟨S', hs, h', -⟩ := h.session.step hok
    exact ⟨_, congrArg (Option.map _) hs, h', (Session.step_outlet h.attached hs).1⟩
  | pop => exact ⟨_, rfl, ⟨h.session.wellFormed.withBuffer _, h.session.indexed⟩, h.attached⟩

theorem agrees_bboSnapshot (e : Engine) (now : Timestamp) : (e.bboSnapshot now).Agrees e :=
  ⟨⟨rfl, rfl⟩, rfl, rfl⟩

/-- A call pushes its snapshot behind the others, or leaves the ring as it is: it has none,
or the ring is full. -/
theorem Sound.ring_call (h : f.Sound) {op : Op} {S' : Session} (hs : f.session.step op = some S') :
    (f.session.Publishes op S' ∧ RingBuffer.advance f.ring.head ≠ f.ring.tail ∧
      S'.engine.buffer.newest = S'.engine.bboSnapshot op.now ∧
      S'.engine.buffer.queued = f.ring.queued ++ [S'.engine.bboSnapshot op.now]) ∨
    ((f.session.Publishes op S' → RingBuffer.advance f.ring.head = f.ring.tail) ∧
      S'.engine.buffer = f.ring) := by
  rw [(Session.step_outlet h.attached hs).2]
  by_cases hp : f.session.Publishes op S'
  · rw [if_pos hp]
    show _ ∨ _ ∧ (f.ring.push (S'.engine.bboSnapshot op.now)).2 = f.ring
    by_cases hfull : RingBuffer.advance f.ring.head = f.ring.tail
    · refine Or.inr ⟨fun _ => hfull, ?_⟩
      rw [RingBuffer.push, if_pos hfull]
    · have hdone : (f.ring.push (S'.engine.bboSnapshot op.now)).1 = true := by
        rw [RingBuffer.push, if_neg hfull]
      refine Or.inl ⟨hp, hfull, RingBuffer.newest_push (Prod.ext hdone rfl), ?_⟩
      cases RingBuffer.queued_push (Prod.ext hdone rfl : f.ring.push _ = (true, _)) with
      | inl hq => exact hq.2
      | inr hq => exact absurd hq.1 (by decide)
  · rw [if_neg hp]
    exact Or.inr ⟨fun h => absurd h hp, rfl⟩

/-- The newest snapshot after a call: its own if it pushes one with success, or the one before. -/
theorem Sound.newest_call (h : f.Sound) {op : Op} {S' : Session}
    (hs : f.session.step op = some S') (hpush : ¬ f.PushFails (.call op)) :
    S'.engine.buffer.newest = if f.session.Publishes op S' then S'.engine.bboSnapshot op.now
      else f.ring.newest := by
  cases h.ring_call hs with
  | inl hdone =>
    obtain ⟨hp, -, hnewest, -⟩ := hdone
    rw [if_pos hp]
    exact hnewest
  | inr hkeep =>
    obtain ⟨hfull, hring⟩ := hkeep
    have hp : ¬ f.session.Publishes op S' := by
      intro hp
      refine hpush ⟨S', hs, hp, ?_⟩
      rw [RingBuffer.push, if_pos (hfull hp)]
    rw [if_neg hp, hring]

/-- A call that pushes nothing moves no best price. -/
theorem Sound.publishes_of_moves (h : f.Sound) {op : Op} {S' : Session} (hok : f.session.Owned op)
    (hs : f.session.step op = some S') (hS' : S'.Sound) (hm : f.session.MovesTop op) :
    f.session.Publishes op S' := by
  have hmoves := (h.session.moves_iff hok hs).mpr hm
  have hbest := Session.Sound.best_eq_iff h.session hS'
  cases op with
  | acquire id p q s m => exact hm
  | cancel id now =>
    obtain ⟨s, r, -, hk, -⟩ := hm
    show f.session.engine.book.index id ≠ none
    rw [hk]
    exact Option.some_ne_none _
  | process order time now =>
    by_contra hp
    obtain ⟨s, hne⟩ := hmoves
    exact hne (hbest.mp hp s)
  | modify origId newId newPrice newQty now =>
    by_contra hp
    obtain ⟨s, hne⟩ := hmoves
    exact hne (hbest.mp hp s)

theorem Sound.agrees_step (h : f.Sound) (hok : f.Owned ev) (hpush : ¬ f.PushFails ev)
    (ha : f.ring.newest.Agrees f.session.engine) :
    ∃ f', f.step ev = some f' ∧ f'.Sound ∧
      (f'.ring.newest.Agrees f'.session.engine ↔ ¬ f.Stale ev) := by
  obtain ⟨f', hf, h'⟩ := h.step hok
  refine ⟨f', hf, h', ?_⟩
  cases ev with
  | pop =>
    obtain rfl := Option.some.inj hf
    refine iff_of_true ?_ not_false
    show (f.ring.pop.2.newest).Agrees f.session.engine
    rw [RingBuffer.newest_pop]
    exact ha
  | call op =>
    obtain ⟨S', hs, rfl⟩ := Option.map_eq_some_iff.mp hf
    have hnewest := h.newest_call hs hpush
    show S'.engine.buffer.newest.Agrees S'.engine ↔ ¬ f.session.ResizesTop op
    rw [hnewest]
    have hmoves := h.session.moves_iff hok hs
    have hbest := Session.Sound.best_eq_iff h.session h'.session
    by_cases hp : f.session.Publishes op S'
    · rw [if_pos hp]
      refine iff_of_true (agrees_bboSnapshot S'.engine op.now) fun hx => ?_
      have hsame : ∀ s, bestPrice (S'.engine.book.side s) =
          bestPrice (f.session.engine.book.side s) := by
        intro s
        by_contra hne
        exact h.session.not_moves_of_resizes hx (hmoves.mp ⟨s, hne⟩)
      cases op with
      | acquire id p q s m => exact hx
      | cancel id now => exact hx
      | process order time now => exact hbest.mpr hsame hp
      | modify origId newId newPrice newQty now => exact hbest.mpr hsame hp
    · rw [if_neg hp]
      by_cases hc : ∃ id now, op = .cancel id now
      · obtain ⟨id, now, rfl⟩ := hc
        have hk : f.session.engine.orderMap id = none := not_not.mp hp
        obtain rfl := Option.some.inj hs
        rw [Engine.cancelOrder_unknown hk]
        exact iff_of_true ha not_false
      · have hc : ∀ id now, op ≠ .cancel id now := fun id now h => hc ⟨id, now, h⟩
        have hsame : ∀ s, bestPrice (S'.engine.book.side s) =
            bestPrice (f.session.engine.book.side s) := by
          intro s
          by_contra hne
          exact hp (h.publishes_of_moves hok hs h'.session (hmoves.mp ⟨s, hne⟩))
        have hprices := not_or.mp (hbest.mpr hsame)
        rw [← h.session.resizes_iff hok hs hc hsame, not_exists]
        obtain ⟨⟨hbid, hask⟩, hbidQty, haskQty⟩ := ha
        simp only [not_ne_iff, ← h'.session.wellFormed.bestQty_eq, ← h.session.wellFormed.bestQty_eq]
        constructor
        · rintro ⟨-, hb, ha⟩ s
          cases s
          · exact hb.symm.trans hbidQty
          · exact ha.symm.trans haskQty
        · intro hall
          exact ⟨⟨hbid.trans (not_ne_iff.mp hprices.1), hask.trans (not_ne_iff.mp hprices.2)⟩,
            hbidQty.trans (hall .buy).symm, haskQty.trans (hall .sell).symm⟩

/-- Over every run of calls and pops in which no push fails: after each event the newest
snapshot agrees with the book, exactly when no call leaves it behind. -/
theorem run_agrees_iff {poolSize : Nat} {evs : List FeedEvent}
    (hok : Along step (fun f ev => f.Owned ev ∧ ¬ f.PushFails ev) (new poolSize) evs) :
    (∀ n f, run step (new poolSize) (evs.take n) = some f → f.ring.newest.Agrees f.session.engine) ↔
      Along step (fun f ev => ¬ f.Stale ev) (new poolSize) evs := by
  have hstep : ∀ (f : Feed) ev, f.Sound → f.Owned ev ∧ ¬ f.PushFails ev →
      f.ring.newest.Agrees f.session.engine → ∃ f', f.step ev = some f' ∧ f'.Sound ∧
        (f'.ring.newest.Agrees f'.session.engine ↔ ¬ f.Stale ev) :=
    fun f ev h hev ha => h.agrees_step hev.1 hev.2 ha
  exact forall_prefix_iff hstep (new_sound poolSize) ⟨⟨rfl, rfl⟩, rfl, rfl⟩ hok

theorem run_agrees_iff_quiet :
    (∀ n f, run step (new 2) (List.take n [.call (.acquire 1 100 5 .buy false),
        .call (.process 1 10 11), .pop, .call (.acquire 2 100 5 .sell false),
        .call (.process 0 12 13), .call (.acquire 3 99 4 .buy false), .call (.process 0 14 15),
        .call (.cancel 3 16)]) = some f → f.ring.newest.Agrees f.session.engine) ↔
      Along step (fun f ev => ¬ f.Stale ev) (new 2) [.call (.acquire 1 100 5 .buy false),
        .call (.process 1 10 11), .pop, .call (.acquire 2 100 5 .sell false),
        .call (.process 0 12 13), .call (.acquire 3 99 4 .buy false), .call (.process 0 14 15),
        .call (.cancel 3 16)] :=
  run_agrees_iff (by decide +kernel)

/-- Two buys at one price. -/
def joinedEvents : List FeedEvent :=
  [.call (.acquire 1 100 5 .buy false), .call (.process 1 10 11),
    .call (.acquire 2 100 7 .buy false), .call (.process 0 12 13)]

/-- The newest snapshot shows the shares of the first alone. -/
theorem joinedEvents_stale :
    Along step (fun f ev => f.Owned ev ∧ ¬ f.PushFails ev) (new 2) joinedEvents ∧
      ∃ f, run step (new 2) joinedEvents = some f ∧ f.ring.newest.bestBidQty = 5 ∧
        f.session.engine.bestQty .buy = 12 ∧ ¬ f.ring.newest.Agrees f.session.engine := by
  have hrun : (run step (new 2) joinedEvents).map (fun f =>
      (f.ring.newest.bestBidQty, f.session.engine.bestQty .buy)) = some (5, 12) := by
    decide +kernel
  obtain ⟨f, hf, heq⟩ := Option.map_eq_some_iff.mp hrun
  obtain ⟨hshown, hreal⟩ := Prod.mk.inj heq
  refine ⟨by decide +kernel, f, hf, hshown, hreal, fun ha => ?_⟩
  have hqty := ha.2.1
  rw [hshown, hreal] at hqty
  exact absurd hqty (by decide)

end Feed
end LobCity
