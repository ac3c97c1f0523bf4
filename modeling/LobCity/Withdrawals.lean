import LobCity.BookInvariant
import LobCity.Cancels
import LobCity.PoolUse

/-! Withdrawing orders. Cancels in any order, repeated or in vain, take out the orders that they
name and change nothing else; when they name all, the book is empty and every cell is free. -/
namespace LobCity
open Library

namespace Session
variable {S T : Session}

def cancels (ids : List (OrderId × Timestamp)) : List Op := ids.map fun c => .cancel c.1 c.2

/-- What cancels leave: the orders of other ids, each in its place, and all that no cancel
touches. -/
structure Withdrawn (S : Session) (ids : List OrderId) (T : Session) : Prop where
  regular : T.Regular
  side : ∀ s, T.engine.book.side s = (S.engine.book.side s).filter fun r => r.id ∉ ids
  tradeLog : T.engine.tradeLog = S.engine.tradeLog
  hands : T.hands = S.hands
  allocated : T.engine.book.allocated = S.engine.book.allocated

theorem Regular.withdrawn (hS : S.Regular) (ids : List (OrderId × Timestamp)) :
    ∃ T, run Session.step S (cancels ids) = some T ∧ Withdrawn S (ids.map Prod.fst) T := by
  induction ids generalizing S with
  | nil =>
    refine ⟨S, rfl, ⟨hS, fun s => ?_, rfl, rfl, rfl⟩⟩
    simp
  | cons c ids ih =>
    have hop : S.Admissible (.cancel c.1 c.2) := trivial
    obtain ⟨S1, hs, hS1, hbook, -⟩ := hS.step hop
    obtain rfl := Option.some.inj hs
    obtain ⟨T, hT, hw⟩ := ih hS1
    refine ⟨T, hT, ⟨hw.regular, fun s => ?_, ?_, hw.hands, ?_⟩⟩
    · have hbook : (S.engine.cancelOrder c.1 c.2).book = S.engine.book.cancel c.1 := hbook
      have hfirst := Book.side_cancel hS.exact hS.toSound.distinct c.1 s
      rw [hw.side, List.map_cons]
      show ((S.engine.cancelOrder c.1 c.2).book.side s).filter _ = _
      rw [hbook, hfirst, List.filter_filter]
      refine List.filter_congr fun r _ => ?_
      rw [← Bool.decide_and]
      exact decide_eq_decide.mpr (by rw [List.mem_cons, not_or, and_comm])
    · have hlog := congrArg Book.trades hbook
      exact hw.tradeLog.trans (hlog.trans (Book.trades_cancel _ _))
    · have hcells := congrArg Book.allocated hbook
      rw [hw.allocated]
      exact hcells.trans (Book.allocated_cancel _ _)

/-- An engine without orders, as a new one is, but for its trade log and its cells in hands. -/
structure WoundDown (S T : Session) : Prop where
  levels : ∀ s, (T.engine.levels s).isEmpty = true
  orders : ∀ s, T.engine.orders s = []
  orderMap : ∀ k, T.engine.orderMap k = none
  tradeLog : T.engine.tradeLog = S.engine.tradeLog
  hands : T.hands = S.hands
  cells : (T.engine.freeList ++ T.hands).Perm S.engine.allAllocated

theorem Withdrawn.woundDown {ids : List OrderId} (hS : S.Regular) (h : Withdrawn S ids T)
    (hall : ∀ id ∈ S.engine.restingIds, id ∈ ids) : WoundDown S T := by
  have hside (s : Side) : T.engine.book.side s = [] := by
    rw [h.side]
    refine List.filter_eq_nil_iff.mpr fun r hr => ?_
    have hmem := hall r.id (Engine.mem_restingIds.mpr ⟨s, r, hr, rfl⟩)
    simpa using hmem
  have horders (s : Side) : T.engine.orders s = [] := List.map_eq_nil_iff.mp (hside s)
  have hw := h.regular.wellFormed
  refine ⟨fun s => ?_, horders, fun k => ?_, h.tradeLog, h.hands, ?_⟩
  · refine List.isEmpty_iff.mpr (List.eq_nil_iff_forall_not_mem.mpr fun l hl => ?_)
    have hlevel := (SortedMap.mem_entries_iff _ _ _).mp hl
    obtain ⟨-, hhead, hchained, -⟩ := hw.level s l.1 l.2 hlevel
    have hqueue : T.engine.queue l.2 = [] := List.eq_nil_iff_forall_not_mem.mpr fun a ha =>
      absurd (Engine.mem_orders.mpr ⟨l.1, l.2, hlevel, ha⟩) (by simp [horders s])
    rw [hqueue] at hchained
    exact hhead hchained.head
  · cases hk : T.engine.orderMap k with
    | none => rfl
    | some a =>
      obtain ⟨s, r, hr, -⟩ := h.regular.indexed k a hk
      rw [hside] at hr
      exact absurd hr List.not_mem_nil
  · have howned := hw.owned
    have hlength : T.engine.allAllocated.length = S.engine.allAllocated.length := h.allocated
    have hcells : T.engine.allAllocated = S.engine.allAllocated := by
      rw [hw.allocated, hS.wellFormed.allocated, hlength]
    rwa [horders, horders, List.nil_append, List.nil_append, hcells] at howned

/-- After every well-behaved history, cancels of any ids in any order return and leave exactly the
orders of other ids, in their places; when they name all resting orders they empty the book and
free every cell that is not in hands. -/
theorem run_withdrawn {poolSize : Nat} {udpPub : Bool} {ops : List Op}
    (hok : Along Session.step Admissible (Session.new poolSize udpPub) ops)
    (ids : List (OrderId × Timestamp)) :
    ∃ S T, run Session.step (Session.new poolSize udpPub) ops = some S ∧
      run Session.step S (cancels ids) = some T ∧ Withdrawn S (ids.map Prod.fst) T ∧
      ((∀ id ∈ S.engine.restingIds, id ∈ ids.map Prod.fst) → WoundDown S T) := by
  obtain ⟨S, hS, hregular⟩ := run_regular hok
  obtain ⟨T, hT, hw⟩ := hregular.withdrawn ids
  exact ⟨S, T, hS, hT, hw, fun hall => hw.woundDown hregular hall⟩

def threeOrders : List Op :=
  [.acquire 1 100 5 .buy false, .process 1 10 11, .acquire 2 105 5 .sell false, .process 0 12 13,
    .acquire 3 100 4 .buy false, .process 2 14 15]

/-- They are cancelled in another order than they came, one of them twice. -/
theorem run_withdrawn_three :
    ∃ T, run Session.step (Session.new 2 false)
        (threeOrders ++ cancels [(3, 16), (2, 17), (3, 18), (1, 19)]) = some T ∧
      (∀ s, T.engine.orders s = []) ∧ T.engine.freeList.Perm [0, 1, 2] := by
  have hok : Along Session.step Admissible (Session.new 2 false) threeOrders := by decide +kernel
  obtain ⟨S, T, hS, hT, -, hdown⟩ := run_withdrawn hok [(3, 16), (2, 17), (3, 18), (1, 19)]
  have hstate : (run Session.step (Session.new 2 false) threeOrders).map (fun S =>
      (S.engine.restingIds, S.hands, S.engine.allAllocated)) = some ([1, 3, 2], [], [0, 1, 2]) := by decide +kernel
  rw [hS] at hstate
  obtain ⟨hids, hstate⟩ := Prod.mk.inj (Option.some.inj hstate)
  obtain ⟨hhands, hcells⟩ := Prod.mk.inj hstate
  obtain ⟨-, horders, -, -, hkept, hperm⟩ := hdown (by simp [hids])
  rw [hkept, hhands, List.append_nil, hcells] at hperm
  refine ⟨T, ?_, horders, hperm⟩
  rw [run_append, hS]
  exact hT

end Session
end LobCity
