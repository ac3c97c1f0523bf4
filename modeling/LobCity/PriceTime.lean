import LobCity.Session

/-! Price-time priority of one call: on any well-formed book `processOrder` computes the
greedy reference, and no limit order trades past its limit. -/
namespace LobCity
open Library

namespace Book
variable {b : Book} {o : Incoming}

theorem queue_referenceProcess (hs : Sorted o.side (b.side o.side)) (hm : o.isMarket = false)
    (hleft : 0 < (b.execution o).left) (time : Timestamp) :
    (b.referenceProcess o time).queue o.side o.price =
      b.queue o.side o.price ++ [⟨o.ref, o.id, o.price, (b.execution o).left⟩] := by
  have hside : (b.matched o time).side o.side = b.side o.side := by
    rw [side_matched, if_neg (side_opposite_ne o.side)]
  have hq : (b.matched o time).queue o.side o.price = b.queue o.side o.price := by
    rw [queue, queue, hside]
  have hrest : b.referenceProcess o time =
      (b.matched o time).rest { o with quantity := (b.execution o).left } := if_pos ⟨hm, hleft⟩
  rw [hrest, Represents.queue_rest (by rw [hside]; exact hs), if_pos ⟨rfl, rfl⟩, hq]
  rfl

theorem execution_within_limit (hm : o.isMarket = false) {f : Fill}
    (hf : f ∈ (b.execution o).fills) : ¬ o.side.opposite.better o.price f.maker.price := by
  have hr := (fillGreedily_reaches hf).2
  simpa [Incoming.reaches, hm] using hr

end Book

namespace Engine

/-- For every well-formed book and every order in hands, `processOrder` returns, and its
trades and the whole resulting book are those of the greedy reference. -/
theorem processOrder_refines_reference {e : Engine} {hands : List Addr} (hw : e.WellFormed hands)
    {order : Addr} (ho : order ∈ hands) (time now : Timestamp) :
    ∃ e', e.processOrder order time now = some e' ∧ e'.WellFormed (hands.erase order) ∧
      e'.book = e.book.referenceProcess (e.incoming order) time ∧
      ((e.heap order).isMarket = false →
        (∀ f ∈ (e.book.execution (e.incoming order)).fills,
          ¬ (e.heap order).side.opposite.better (e.heap order).price f.maker.price) ∧
        (0 < (e.book.execution (e.incoming order)).left →
          e'.book.queue (e.heap order).side (e.heap order).price =
            e.book.queue (e.heap order).side (e.heap order).price ++
              [⟨order, (e.heap order).id, (e.heap order).price,
                (e.book.execution (e.incoming order)).left⟩])) := by
  obtain ⟨e', he, hw', hb, -⟩ := hw.processOrder ho time now
  rw [Book.process_eq_reference] at hb
  refine ⟨e', he, hw', hb, fun hm => ⟨fun f hf => ?_, fun hleft => ?_⟩⟩
  · exact Book.execution_within_limit (o := e.incoming order) hm hf
  · rw [hb]
    exact Book.queue_referenceProcess (o := e.incoming order) (hw.represents.sorted _) hm hleft time

/-- A buy limit against two ask levels, the second of two orders: it uses up the first
level and the head of the second, and part of the order behind it. -/
theorem processOrder_refines_reference_two_levels :
    ∃ S, run Session.step (Session.new 4 false) [.acquire 1 101 5 .sell false, .process 3 10 11,
        .acquire 2 101 4 .sell false, .process 2 12 13, .acquire 3 100 6 .sell false,
        .process 1 14 15, .acquire 4 101 13 .buy false] = some S ∧
      ∃ e', S.engine.processOrder 0 16 17 = some e' ∧
        e'.book = S.engine.book.referenceProcess (S.engine.incoming 0) 16 := by
  have hrun : ∀ ops, Along Session.step Session.Owned (Session.new 4 false) ops →
      (run Session.step (Session.new 4 false) ops).map Session.hands = some [0] →
      ∃ S, run Session.step (Session.new 4 false) ops = some S ∧
        ∃ e', S.engine.processOrder 0 16 17 = some e' ∧
          e'.book = S.engine.book.referenceProcess (S.engine.incoming 0) 16 := by
    intro ops hok hhands
    obtain ⟨S, hS, h⟩ := Session.run_sound hok
    rw [hS] at hhands
    have hmem : 0 ∈ S.hands := by simp [Option.some.inj hhands]
    obtain ⟨e', he, -, hb, -⟩ := processOrder_refines_reference h.wellFormed hmem 16 17
    exact ⟨S, hS, e', he, hb⟩
  exact hrun _ (by decide) (by decide)

end Engine
end LobCity
