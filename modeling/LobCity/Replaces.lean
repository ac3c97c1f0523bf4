import LobCity.Cancels

/-! Cancel/replace. A modify keeps the order's place on a decrease at the same price only;
otherwise it queues the order again, as a cancel and a new order would. -/
namespace LobCity
open Library

namespace Book
variable {b : Book} {s : Side} {r : Resting} {newId : OrderId} {newPrice : Price} {newQty : Quantity}

theorem refs_queue_inPlace (b : Book) (s : Side) (r : Resting) (newId : OrderId) (newQty : Quantity)
    (t : Side) (p : Price) :
    refs ((b.inPlace s r newId newQty).queue t p) = refs (b.queue t p) := by
  have hq : (b.inPlace s r newId newQty).queue t p = (b.rewrite s r.ref newId newQty).queue t p := rfl
  rw [hq, Represents.queue_rewrite]
  split_ifs
  · exact Represents.refs_rewrite _ _ _ _
  · rfl

/-- A re-queued order is the last at its new price. -/
theorem refs_queue_requeue (hs : Sorted s (b.side s)) (hd : b.Distinct) (hr : r ∈ b.side s) (t : Side)
    (p : Price) :
    refs ((b.requeue s r newId newPrice newQty).queue t p) =
      (refs (b.queue t p)).erase r.ref ++ if t = s ∧ p = newPrice then [r.ref] else [] := by
  have hsorted : Sorted s (((b.eraseId r.id).drop s r.ref).side s) := by
    rw [side_removed hd hr]
    exact hs.filter _
  have hn : (refs (b.queue t p)).Nodup :=
    (hd.nodup t).sublist (List.filter_sublist.map Resting.ref)
  have hdrop : ((b.eraseId r.id).drop s r.ref).queue t p =
      (b.queue t p).filter fun x => x.ref ≠ r.ref := by
    rw [queue, side_removed hd hr, queue, List.filter_comm]
  have hq : (b.requeue s r newId newPrice newQty).queue t p = _ :=
    Represents.queue_rest (o := ⟨r.ref, newId, newPrice, newQty, s, false⟩) hsorted t p
  rw [hq, hdrop]
  split_ifs
  · rw [refs, List.map_append, ← refs, refs_filter_ref hn]
    rfl
  · rw [refs_filter_ref hn, List.append_nil]

theorem index_modify (hd : b.Distinct) (hi : b.Indexed) {origId : OrderId} {a : Addr}
    (hk : b.index origId = some a) :
    (b.modify origId newId newPrice newQty).index =
      Function.update (Function.update b.index origId none) newId (some a) := by
  obtain ⟨s, r, hr, rfl, rfl⟩ := hi origId a hk
  rw [modify_entry hd hr hk]
  split_ifs <;> rfl

end Book

namespace Engine

/-- What cancel/replace promises about priority: a modify at the same price to at most the
same size leaves every queue as it is, any other puts the order behind its new level. -/
structure PriorityRule (e e' : Engine) (origId newId : OrderId) (order : Addr) (newPrice : Price)
    (newQty : Quantity) : Prop where
  keeps : newPrice = (e.heap order).price → newQty ≤ (e.heap order).quantity →
    ∀ s p, e'.queueAt s p = e.queueAt s p
  loses : ¬ (newPrice = (e.heap order).price ∧ newQty ≤ (e.heap order).quantity) →
    ∀ s p, e'.queueAt s p = (e.queueAt s p).erase order ++
      if s = (e.heap order).side ∧ p = newPrice then [order] else []
  others : ∀ s, ∀ a ∈ e.orders s, a ≠ order → (e'.heap a).unlink = (e.heap a).unlink
  modified : (e'.heap order).unlink = Order.new newId newPrice newQty (e.heap order).side false
  index : e'.orderMap = Function.update (Function.update e.orderMap origId none) newId (some order)

variable {e : Engine} {hands : List Addr} {origId : OrderId} {order : Addr}

theorem WellFormed.entry (h : e.WellFormed hands) (hi : e.book.Indexed)
    (hk : e.orderMap origId = some order) :
    ∃ r ∈ e.book.side (e.heap order).side, r.ref = order ∧ r.id = origId ∧
      r.price = (e.heap order).price ∧ r.quantity = (e.heap order).quantity := by
  obtain ⟨s, r, hr, rfl, hid⟩ := hi origId order hk
  have hside : (e.heap r.ref).side = s := h.represents.heap_side hr
  refine ⟨r, by rwa [hside], rfl, hid, (h.represents.heap_price hr).symm, ?_⟩
  exact (h.represents.heap_quantity hr).symm

/-- A modify keeps what it does not name, whatever becomes of its priority. -/
theorem WellFormed.modify_frame (h : e.WellFormed hands) (hi : e.book.Indexed)
    (hk : e.orderMap origId = some order) (newId : OrderId) (newPrice : Price) (newQty : Quantity)
    (now : Timestamp) :
    let e' := e.modifyOrder origId newId newPrice newQty now
    (∀ s, ∀ a ∈ e.orders s, a ≠ order → (e'.heap a).unlink = (e.heap a).unlink) ∧
      (e'.heap order).unlink = Order.new newId newPrice newQty (e.heap order).side false ∧
      e'.orderMap = Function.update (Function.update e.orderMap origId none) newId (some order) := by
  intro e'
  obtain ⟨r, hr, rfl, rfl, -⟩ := h.entry hi hk
  obtain ⟨h', hb, -⟩ := h.modifyOrder hi r.id newId newPrice newQty now
  have hd := h.represents.distinct
  have hmem : ∀ {t x}, x ∈ e'.book.side t ↔
      (t = (e.heap r.ref).side ∧ x = ⟨r.ref, newId, newPrice, newQty⟩) ∨
        (x ∈ e.book.side t ∧ x.ref ≠ r.ref) := fun {t x} => by
    rw [show e'.book = _ from hb]
    exact Book.mem_modify hd hi hr hk
  refine ⟨fun s a ha hne => ?_, ?_, ?_⟩
  · obtain ⟨x, hx, rfl⟩ := h.mem_orders.mp ha
    have hx' := hmem.mpr (Or.inr ⟨hx, hne⟩)
    exact (h'.represents.cell s x hx').trans (h.represents.cell s x hx).symm
  · have hx' := hmem.mpr (Or.inl ⟨rfl, rfl⟩)
    exact h'.represents.cell _ _ hx'
  · exact (congrArg Book.index hb).trans (Book.index_modify hd hi hk)

/-- The queues after a modify: in place on a decrease at the same price, re-queued otherwise. -/
theorem WellFormed.modify_queues (h : e.WellFormed hands) (hi : e.book.Indexed)
    (hk : e.orderMap origId = some order) (newId : OrderId) (newPrice : Price) (newQty : Quantity)
    (now : Timestamp) (s : Side) (p : Price) :
    (e.modifyOrder origId newId newPrice newQty now).queueAt s p =
      if newPrice = (e.heap order).price ∧ newQty < (e.heap order).quantity then e.queueAt s p
      else (e.queueAt s p).erase order ++
        if s = (e.heap order).side ∧ p = newPrice then [order] else [] := by
  obtain ⟨r, hr, rfl, rfl, hpr, hqr⟩ := h.entry hi hk
  obtain ⟨h', hb, -⟩ := h.modifyOrder hi r.id newId newPrice newQty now
  have hd := h.represents.distinct
  rw [h'.queueAt_eq, h.queueAt_eq, hb, ← hpr, ← hqr, Book.modify_entry hd hr hk]
  split_ifs with hin
  · exact Book.refs_queue_inPlace _ _ _ _ _ _ _
  · rw [Book.refs_queue_requeue (h.represents.sorted _) hd hr, if_pos ‹_›]
  · rw [Book.refs_queue_requeue (h.represents.sorted _) hd hr, if_neg ‹_›]

/-- `modifyOrder` follows the priority rule, except that it re-queues an order whose price
and size it keeps: that is harmless for the last order of a level only. -/
theorem modifyOrder_priority (h : e.WellFormed hands) (hi : e.book.Indexed)
    (hk : e.orderMap origId = some order) (newId : OrderId) (newPrice : Price) (newQty : Quantity)
    (now : Timestamp) :
    PriorityRule e (e.modifyOrder origId newId newPrice newQty now) origId newId order newPrice
        newQty ↔
      (newPrice = (e.heap order).price → newQty = (e.heap order).quantity →
        (e.queueAt (e.heap order).side newPrice).getLast? = some order) := by
  have hqueues := h.modify_queues hi hk newId newPrice newQty now
  obtain ⟨hothers, hmodified, hindex⟩ := h.modify_frame hi hk newId newPrice newQty now
  constructor
  · intro hrule hp hq
    have hkeep := hrule.keeps hp (by grind) (e.heap order).side newPrice
    rw [hqueues, if_neg (by grind), if_pos ⟨rfl, rfl⟩] at hkeep
    rw [← hkeep]
    simp
  · intro hlast
    refine ⟨fun hp hle s p => ?_, fun hnot s p => ?_, hothers, hmodified, hindex⟩
    · rw [hqueues]
      split_ifs with hin hat
      · rfl
      · -- the last of its level comes back to where it was
        obtain ⟨rfl, rfl⟩ := hat
        have hq : newQty = (e.heap order).quantity := by grind
        obtain ⟨A, hA⟩ := List.getLast?_eq_some_iff.mp (hlast hp hq)
        have hn : (e.queueAt (e.heap order).side p).Nodup := by
          rw [h.queueAt_eq]
          exact h.represents.queue_nodup _ _
        rw [hA] at hn ⊢
        have hout : order ∉ A := fun hm =>
          (List.nodup_append.mp hn).2.2 order hm order (by simp) rfl
        rw [List.erase_append_right _ hout, List.erase_cons_head, List.append_nil]
      · -- the other levels do not hold it
        obtain ⟨r, hr, rfl, -, hpr, -⟩ := h.entry hi hk
        have hout : r.ref ∉ e.queueAt s p := by
          intro hm
          rw [h.queueAt_eq] at hm
          have hown : r.ref ∈ refs (e.book.queue (e.heap r.ref).side r.price) :=
            List.mem_map_of_mem (Represents.mem_queue hr)
          obtain ⟨hs, hpx⟩ := h.represents.queue_disjoint hm hown
          exact hat ⟨hs, hpx.trans (hpr.trans hp.symm)⟩
        rw [List.erase_of_not_mem hout, List.append_nil]
    · rw [hqueues, if_neg (by grind)]

end Engine

namespace Session

/-- Two buys of size 5 at price 100, of ids 1 and 2. -/
def twoBuysOps : List Op :=
  [.acquire 1 100 5 .buy false, .process 1 10 11, .acquire 2 100 5 .buy false, .process 0 12 13]

theorem twoBuysOps_resting :
    ∃ S, run step (new 2 false) twoBuysOps = some S ∧ S.Regular ∧ S.engine.orderMap 1 = some 1 ∧
      S.engine.queueAt .buy 100 = [1, 0] ∧ S.engine.heap 1 = ⟨1, 100, 5, .buy, false, some 0, none⟩ ∧
      S.engine.best? .sell = none := by
  have hfacts : (run step (new 2 false) twoBuysOps).map (fun S => (S.engine.orderMap 1,
      S.engine.queueAt .buy 100, S.engine.heap 1, S.engine.best? .sell)) =
      some (some 1, [1, 0], ⟨1, 100, 5, .buy, false, some 0, none⟩, none) := by decide
  have hok : Along step Admissible (new 2 false) twoBuysOps := by decide
  obtain ⟨S, hS, h⟩ := run_regular hok
  rw [hS] at hfacts
  simp only [Option.map_some, Option.some.injEq, Prod.mk.injEq] at hfacts
  obtain ⟨hk, hq, hcell, hbest⟩ := hfacts
  exact ⟨S, hS, h, hk, hq, hcell, hbest⟩

theorem modifyOrder_priority_decrease :
    ∃ S, run step (new 2 false) twoBuysOps = some S ∧
      Engine.PriorityRule S.engine (S.engine.modifyOrder 1 1 100 3 14) 1 1 1 100 3 := by
  obtain ⟨S, hS, h, hk, -, hcell, -⟩ := twoBuysOps_resting
  refine ⟨S, hS, (Engine.modifyOrder_priority h.wellFormed h.indexed hk 1 100 3 14).mpr ?_⟩
  intro _ hq
  rw [hcell] at hq
  exact absurd hq (by decide)

/-- A modify of the first of them to its own price and size sends it behind the second. -/
theorem twoBuysOps_loses_place :
    ∃ S, run step (new 2 false) twoBuysOps = some S ∧ S.engine.WellFormed S.hands ∧
      S.engine.book.Exact ∧ S.engine.orderMap 1 = some 1 ∧ (S.engine.heap 1).price = 100 ∧
      (S.engine.heap 1).quantity = 5 ∧ S.engine.queueAt .buy 100 = [1, 0] ∧
      (S.engine.modifyOrder 1 1 100 5 14).queueAt .buy 100 = [0, 1] ∧
      ¬ Engine.PriorityRule S.engine (S.engine.modifyOrder 1 1 100 5 14) 1 1 1 100 5 := by
  obtain ⟨S, hS, h, hk, hq, hcell, -⟩ := twoBuysOps_resting
  have hafter := h.wellFormed.modify_queues h.indexed hk 1 100 5 14 .buy 100
  rw [hcell, hq] at hafter
  refine ⟨S, hS, h.wellFormed, h.exact, hk, by rw [hcell], by rw [hcell], hq, hafter, fun hrule => ?_⟩
  have hkeep := hrule.keeps (by rw [hcell]) (by rw [hcell]; decide) .buy 100
  rw [hafter, hq] at hkeep
  exact absurd hkeep (by decide)

end Session

namespace Engine
variable {e : Engine} {hands : List Addr} {origId : OrderId} {order : Addr}

/-- A re-queuing modify off the other side is a cancel followed by a new limit order, which
gets the cell of the old one. -/
theorem modifyOrder_eq_cancel_submit (h : e.WellFormed hands) (hi : e.book.Indexed)
    (hk : e.orderMap origId = some order) (newId : OrderId) {newPrice : Price} {newQty : Quantity}
    (hq : 0 < newQty)
    (hstep : ¬ (newPrice = (e.heap order).price ∧ newQty < (e.heap order).quantity))
    (hclear : ∀ p, e.best? (e.heap order).side.opposite = some p →
      (e.heap order).side.opposite.better newPrice p) (now time now' now'' : Timestamp) :
    ∃ e1 e2, (e.cancelOrder origId now').acquire newId newPrice newQty (e.heap order).side false =
        (order, e1) ∧ e1.processOrder order time now'' = some e2 ∧
      SameBook (e.modifyOrder origId newId newPrice newQty now) e2 ∧
      e2.toOrderPool = (e.modifyOrder origId newId newPrice newQty now).toOrderPool := by
  obtain ⟨r, hr, rfl, rfl, hpr, hqr⟩ := h.entry hi hk
  have hd := h.represents.distinct
  set s := (e.heap r.ref).side with hs
  set b1 := (e.book.eraseId r.id).drop s r.ref with hb1
  -- the cancel puts the cell on top of the free list, and the acquire takes it off again
  have hcancel : e.book.cancel r.id = b1.release r.ref := Book.cancel_entry hd hr hk
  obtain ⟨hc, hbc, -⟩ := h.cancelOrder hi r.id now'
  rw [hcancel] at hbc
  obtain ⟨⟨a, e1⟩, ha⟩ : ∃ x, (e.cancelOrder r.id now').acquire newId newPrice newQty s false = x :=
    ⟨_, rfl⟩
  obtain ⟨h1, hbook1, hin1, -⟩ := hc.acquire newId newPrice newQty s false ha
  have horder := hc.acquire_order newId newPrice newQty s false ha
  rw [hbc] at hbook1 horder
  obtain rfl : a = r.ref := (congrArg Incoming.ref horder).symm
  obtain ⟨e2, he2, h2, hbook2, -⟩ := h1.processOrder (a := r.ref) (by simp) time now''
  -- nothing crosses, so the new order only rests
  have hhead : ∀ x ∈ (b1.side s.opposite).head?, s.opposite.better newPrice x.price := by
    intro x hx
    have hside : b1.side s.opposite = e.book.side s.opposite :=
      Book.setSide_of_ne _ _ (Book.side_opposite_ne s).symm
    rw [hside] at hx
    refine hclear x.price ?_
    rw [h.best?_eq, hx]
    rfl
  have hrests : e2.book = b1.rest ⟨r.ref, newId, newPrice, newQty, s, false⟩ := by
    rw [hbook2, hin1, hbook1]
    exact Book.process_clear (b := b1) rfl hq hhead time
  obtain ⟨h', hb', -⟩ := h.modifyOrder hi r.id newId newPrice newQty now
  have hrequeue : (e.modifyOrder r.id newId newPrice newQty now).book = e2.book := by
    rw [hb', hrests, Book.modify_entry hd hr hk, if_neg (by rwa [hpr, hqr])]
    rfl
  exact ⟨e1, e2, ha, he2, h'.sameBook_of_eq h2 hrequeue.symm⟩

end Engine

theorem Session.modifyOrder_eq_cancel_submit_taken_id :
    ∃ S, run step (new 2 false) twoBuysOps = some S ∧
      ∃ e1 e2, (S.engine.cancelOrder 1 15).acquire 2 101 7 .buy false = (1, e1) ∧
        e1.processOrder 1 16 17 = some e2 ∧
        Engine.SameBook (S.engine.modifyOrder 1 2 101 7 14) e2 ∧
        e2.toOrderPool = (S.engine.modifyOrder 1 2 101 7 14).toOrderPool := by
  obtain ⟨S, hS, h, hk, -, hcell, hbest⟩ := twoBuysOps_resting
  have hclear : ∀ p, S.engine.best? (S.engine.heap 1).side.opposite = some p →
      (S.engine.heap 1).side.opposite.better 101 p := by
    intro p hp
    rw [hcell] at hp
    exact absurd (hbest.symm.trans hp) (by simp)
  have hsubmit := Engine.modifyOrder_eq_cancel_submit h.wellFormed h.indexed hk 2
    (by decide : (0 : Quantity) < 7) (by rw [hcell]; decide) hclear 14 16 15 17
  rw [hcell] at hsubmit
  exact ⟨S, hS, hsubmit⟩

end LobCity
