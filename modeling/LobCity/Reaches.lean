import LobCity.Crossing
import LobCity.PoolUse
import LobCity.Requotes

/-! States that well-behaved calls lead to. The market maker's turn is made of such calls, so
what they keep it keeps as well. -/
namespace LobCity
open Library

namespace Session
variable {S T U : Session} {n k : Nat} {P Q : OrderId → Prop}

/-- A well-behaved call that re-prices no order across the book. -/
def Orderly (S : Session) (op : Op) : Prop := S.Admissible op ∧ ¬ S.CrossingModify op

theorem Regular.orderly_submit (hS : S.Regular) {id : OrderId} {q : Quantity}
    (hid : id ∉ S.engine.restingIds) (hq : 0 < q) (p : Price) (s : Side) (m : Bool)
    (time now : Timestamp) :
    ∃ a e1 e2, S.engine.acquire id p q s m = (a, e1) ∧ e1.processOrder a time now = some e2 ∧
      run Session.step S [.acquire id p q s m, .process a time now] = some ⟨e2, S.hands⟩ ∧
      Along Session.step Orderly S [.acquire id p q s m, .process a time now] ∧
      e2.book = (S.engine.book.acquire id p q s m).2.process ⟨a, id, p, q, s, m⟩ time := by
  obtain ⟨a, e1, e2, ha, he, -, -, hbook, -, -⟩ := hS.submit id p q s m time now
  obtain ⟨-, hb1, hin, -⟩ := hS.wellFormed.acquire id p q s m ha
  have hacquire : S.step (.acquire id p q s m) = some ⟨e1, a :: S.hands⟩ := by
    simp [Session.step, ha]
  refine ⟨a, e1, e2, ha, he, by simp [run, Session.step, ha, he], ?_, hbook⟩
  refine ⟨⟨trivial, fun h => h⟩, fun S1 hs => ?_⟩
  obtain rfl := Option.some.inj (hacquire.symm.trans hs)
  refine ⟨⟨⟨List.mem_cons_self, ?_, ?_⟩, fun h => h⟩, fun _ _ => trivial⟩
  · show 0 < (e1.incoming a).quantity
    rw [hin]
    exact hq
  · show (e1.incoming a).id ∉ e1.restingIds
    rw [hin, Engine.mem_restingIds, Book.Rests, hb1, Book.side_acquire]
    exact mt Engine.mem_restingIds.mpr hid

/-- Orderly calls, with ids of a kind and at most `n` of them an acquire, lead from the one
state to the other. -/
def Reaches (P : OrderId → Prop) (n : Nat) (S T : Session) : Prop :=
  ∃ ops, run step S ops = some T ∧ Along step Orderly S ops ∧ ops.countP Op.acquires ≤ n ∧
    ∀ op ∈ ops, ∀ id ∈ op.ids, P id

namespace Reaches

theorem refl (P : OrderId → Prop) (S : Session) : Reaches P 0 S S :=
  ⟨[], rfl, trivial, Nat.le_refl 0, by simp⟩

theorem trans (h : Reaches P n S T) (h' : Reaches P k T U) : Reaches P (n + k) S U := by
  obtain ⟨ops, hrun, hok, hcount, hids⟩ := h
  obtain ⟨ops', hrun', hok', hcount', hids'⟩ := h'
  refine ⟨ops ++ ops', ?_, along_append.mpr ⟨hok, fun t ht => ?_⟩, ?_, fun op hop => ?_⟩
  · rw [run_append, hrun]
    exact hrun'
  · obtain rfl := Option.some.inj (hrun.symm.trans ht)
    exact hok'
  · rw [List.countP_append]
    exact Nat.add_le_add hcount hcount'
  · cases List.mem_append.mp hop with
    | inl hop => exact hids op hop
    | inr hop => exact hids' op hop

theorem mono (h : Reaches P n S T) (himp : ∀ id, P id → Q id) (hle : n ≤ k) : Reaches Q k S T := by
  obtain ⟨ops, hrun, hok, hcount, hids⟩ := h
  exact ⟨ops, hrun, hok, hcount.trans hle, fun op hop id hid => himp id (hids op hop id hid)⟩

theorem regular (h : Reaches P n S T) (hS : S.Regular) :
    T.Regular ∧ (S.engine.Uncrossed → T.engine.Uncrossed) := by
  obtain ⟨ops, hrun, hok, -⟩ := h
  have hstep (U : Session) (op : Op) (U' : Session)
      (hU : U.Regular ∧ (S.engine.Uncrossed → U.engine.Uncrossed)) (hop : U.Orderly op)
      (hs : U.step op = some U') : U'.Regular ∧ (S.engine.Uncrossed → U'.engine.Uncrossed) := by
    obtain ⟨U1, hs1, hU1, hb, -⟩ := hU.1.step hop.1
    obtain rfl := Option.some.inj (hs.symm.trans hs1)
    exact ⟨hU1, fun hu => (hU.1.uncrossed_step (hU.2 hu) hU1 hb).mpr hop.2⟩
  exact run_kept_along hstep ⟨hS, fun hu => hu⟩ hok hrun

theorem uncrossed_take {ops : List Op} (hS : S.Regular) (hu : S.engine.Uncrossed)
    (hok : Along step Orderly S ops) (k : Nat) (hrun : run step S (ops.take k) = some T) :
    T.engine.Uncrossed := by
  rw [← List.take_append_drop k ops] at hok
  have hreach : Reaches (fun _ => True) _ S T :=
    ⟨ops.take k, hrun, (along_append.mp hok).1, Nat.le_refl _, fun _ _ _ _ => trivial⟩
  exact (hreach.regular hS).2 hu

/-- The pool grows only by what does not fit into its free cells. -/
theorem allocated (h : Reaches P n S T) (hS : S.Regular) (hfree : n ≤ S.engine.freeList.length) :
    T.engine.allAllocated = S.engine.allAllocated := by
  have hT := (h.regular hS).1
  obtain ⟨ops, hrun, hok, hcount, -⟩ := h
  have howned : Along step Owned S ops := hok.mono fun _ _ hop => hop.1.owned
  have hlength := hS.toSound.run_fits howned hrun (hcount.trans hfree)
  rw [hT.wellFormed.allocated, hS.wellFormed.allocated, hlength]

theorem submit (hS : S.Regular) {id : OrderId} {q : Quantity} (hP : P id)
    (hid : id ∉ S.engine.restingIds) (hq : 0 < q) (p : Price) (s : Side) (m : Bool)
    (time now : Timestamp) :
    ∃ a e1 e2, S.engine.acquire id p q s m = (a, e1) ∧ e1.processOrder a time now = some e2 ∧
      Reaches P 1 S ⟨e2, S.hands⟩ ∧
      e2.book = (S.engine.book.acquire id p q s m).2.process ⟨a, id, p, q, s, m⟩ time := by
  obtain ⟨a, e1, e2, ha, he, hrun, hok, hbook⟩ := hS.orderly_submit hid hq p s m time now
  refine ⟨a, e1, e2, ha, he, ⟨_, hrun, hok, Nat.le_refl 1, fun op hop k hk => ?_⟩, hbook⟩
  rcases List.mem_pair.mp hop with rfl | rfl
  · obtain rfl := List.mem_singleton.mp hk
    exact hP
  · exact absurd hk List.not_mem_nil

theorem cancel (S : Session) {id : OrderId} (hP : P id) (now : Timestamp) :
    Reaches P 0 S ⟨S.engine.cancelOrder id now, S.hands⟩ := by
  refine ⟨[.cancel id now], rfl, ⟨⟨trivial, fun h => h⟩, fun _ _ => trivial⟩, Nat.le_refl 0,
    fun op hop k hk => ?_⟩
  obtain rfl := List.mem_singleton.mp hop
  obtain rfl := List.mem_singleton.mp hk
  exact hP

theorem quoting {D : Type} {m : MarketMaker D} {own : OrderId → Prop} [DecidablePred own]
    (h : Reaches (Foreign own) n S T) (hq : S.Quoting own m) :
    ∃ new, T.Quoting own m ∧ T.engine.tradeLog = S.engine.tradeLog ++ new ∧
      (∀ t ∈ new, t.OfQuotes own m.current) ∧ Book.Trims own new S.engine.book T.engine.book := by
  obtain ⟨ops, hrun, hok, -, hids⟩ := h
  obtain ⟨T', new, hrun', hq', hlog, hnew, htrim⟩ :=
    hq.run (hok.mono fun _ _ hop => hop.1.owned) hids
  obtain rfl := Option.some.inj (hrun.symm.trans hrun')
  exact ⟨new, hq', hlog, hnew, htrim⟩

end Reaches
end Session

namespace MarketMaker
variable {D : Type} {m : MarketMaker D} {S : Session} {own : OrderId → Prop}

theorem cancelQuote_reaches (m : MarketMaker D) (S : Session) (s : Side) (now : Timestamp) :
    S.Reaches (fun _ => True) 0 ⟨(m.cancelQuote S.engine s now).2, S.hands⟩ := by
  unfold cancelQuote
  split_ifs
  · exact .cancel S trivial now
  · exact .refl _ S

theorem cancelExistingQuotes_reaches (m : MarketMaker D) (S : Session) (clock : TickClock) :
    S.Reaches (fun _ => True) 0 ⟨(m.cancelExistingQuotes S.engine clock).2, S.hands⟩ :=
  (m.cancelQuote_reaches S .buy clock.cancelBid).trans
    ((m.cancelQuote S.engine .buy clock.cancelBid).1.cancelQuote_reaches
      ⟨(m.cancelQuote S.engine .buy clock.cancelBid).2, S.hands⟩ .sell clock.cancelAsk)

/-- Its quotes are fresh: what rests of it carries an id that it tracks. -/
theorem nextOrderId_fresh (h : S.Quoting own m) (hown : own m.nextOrderId)
    (hcur : ∀ t, m.current t ≠ m.nextOrderId) : m.nextOrderId ∉ S.engine.restingIds := by
  intro hmem
  obtain ⟨t, r, hr, hid⟩ := Engine.mem_restingIds.mp hmem
  have htracked := (h.shared.quoted.current t r hr (hid ▸ hown)).1
  exact hcur t (htracked.symm.trans hid)

theorem placeQuote?_reaches (hS : S.Regular) {quote : Option (Price × Quantity)} {s : Side}
    (hid : quote ≠ none → m.nextOrderId ∉ S.engine.restingIds) (hq : ∀ q ∈ quote, 0 < q.2)
    {time now : Timestamp} {m' : MarketMaker D} {e' : Engine}
    (hplace : m.placeQuote? S.engine quote s time now = some (m', e')) :
    S.Reaches (fun _ => True) 1 ⟨e', S.hands⟩ := by
  cases quote with
  | none =>
    obtain ⟨-, rfl⟩ := Prod.mk.inj (Option.some.inj hplace)
    exact (Session.Reaches.refl _ S).mono (fun _ h => h) (Nat.zero_le 1)
  | some q =>
    obtain ⟨a, e1, e2, ha, he, hreach, -⟩ :=
      Session.Reaches.submit (P := fun _ => True) hS trivial (hid (by simp)) (hq q rfl) q.1 s
        false time now
    simp only [placeQuote?, placeQuote, ha, he, Option.map_some, Option.some.injEq,
      Prod.mk.injEq] at hplace
    obtain ⟨-, rfl⟩ := hplace
    exact hreach

theorem requote_positive {mid : Price}
    {quotes : Option (Price × Quantity) × Option (Price × Quantity)}
    (h : m.requote mid = some quotes) : ∀ s, ∀ q ∈ quoteOf quotes s, 0 < q.2 := by
  rw [requote, Option.ite_none_right_eq_some] at h
  obtain rfl := Option.some.inj h.2
  intro s q hq
  cases s with
  | buy =>
    obtain ⟨hc, hq⟩ := (Option.ite_none_right_eq_some).mp hq
    obtain rfl := Option.some.inj hq
    exact hc.2.2
  | sell =>
    obtain ⟨hc, hq⟩ := (Option.ite_none_right_eq_some).mp hq
    obtain rfl := Option.some.inj hq
    exact hc.2.2

variable [Double D] [DecidablePred own]

/-- A tick acquires two orders at most. -/
theorem onTick_reaches (hS : S.Regular) (h : S.Quoting own m) {start : Nat} {clock : TickClock}
    (hn : m.Numbers S.engine start clock) (hown : own m.nextOrderId)
    (hown' : own (m.nextOrderId + 1)) {m' : MarketMaker D} {e' : Engine}
    (htick : m.onTick S.engine start clock = some (m', e')) : S.Reaches (fun _ => True) 2 ⟨e', S.hands⟩ := by
  rcases m.prepare_cases S.engine start clock with
    ⟨-, m1, -, -, -, hprep⟩ | ⟨-, -, m2, e2, m1, hcancel, -, -, hprep⟩ |
    ⟨-, -, -, m1, ⟨bid, ask⟩, hsame, -, hquotes, hprep⟩
  · have hstay : m.onTick S.engine start clock = some (m1, S.engine) := by
      rw [onTick, hprep]
      rfl
    obtain ⟨-, rfl⟩ := Prod.mk.inj (Option.some.inj (htick.symm.trans hstay))
    exact (Session.Reaches.refl _ S).mono (fun _ h => h) (Nat.zero_le 2)
  · have hstop : m.onTick S.engine start clock = some (m1, e2) := by
      rw [onTick, hprep]
      rfl
    obtain ⟨-, rfl⟩ := Prod.mk.inj (Option.some.inj (htick.symm.trans hstop))
    have hreach := cancelExistingQuotes_reaches { m.scanned S.engine start with killed := true } S clock
    rw [hcancel] at hreach
    exact hreach.mono (fun _ h => h) (Nat.zero_le 2)
  · obtain ⟨m2, e2, hcancel, h2, hzero, hnext, -⟩ := (h.of_same hsame).cancelExistingQuotes clock
    have hreach2 := m1.cancelExistingQuotes_reaches S clock
    rw [hcancel] at hreach2 hprep
    have hS2 := (hreach2.regular hS).1
    have hnext2 : m2.nextOrderId = m.nextOrderId := hnext.trans hsame.nextOrderId
    obtain ⟨hbid0, hask0⟩ := hn
    rw [hprep] at hbid0 hask0
    dsimp only at hbid0 hask0
    rw [← hnext2] at hbid0 hask0 hown hown'
    have hpos := requote_positive hquotes
    obtain ⟨e3, hplace3, h3, -⟩ := h2.placeQuote? bid .buy (fun _ => hzero .buy) hbid0
      (fun hb t => hzero t ▸ (hbid0 hb).symm) clock.bidTime clock.bidNow
    have hreach3 := placeQuote?_reaches hS2 (fun hb => nextOrderId_fresh h2 hown
      fun t => hzero t ▸ (hbid0 hb).symm) (hpos .buy) hplace3
    have hown3 : own (m2.placed bid .buy).nextOrderId := by
      cases bid with
      | none => exact hown
      | some => exact hown'
    have hrest : m.onTick S.engine start clock =
        (m2.placed bid .buy).placeQuote? e3 ask .sell clock.askTime clock.askNow := by
      rw [onTick, hprep]
      simp only [Option.bind_eq_bind, hplace3, Option.bind_some]
    have hreach4 := placeQuote?_reaches (hreach3.regular hS2).1 (fun ha => nextOrderId_fresh h3 hown3
      fun t => (m2.placed_fresh hzero (hask0 ha) t).2.2) (hpos .sell) (hrest.symm.trans htick)
    exact (hreach2.trans hreach3).trans hreach4

end MarketMaker
end LobCity
