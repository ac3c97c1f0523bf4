import LobCity.Reaches

/-! How long the trade log gets. A trade uses up one of its two orders, and no order is used up
twice: a single call may make many trades, but all calls together make no more than there are
orders, whatever ids and quantities they carry. -/
namespace LobCity
open Library

/-- Of the fills only the last can leave its maker, and then it ends the taker. -/
theorem fillGreedily_counts (reaches : Price → Bool) (L : List Resting) (q : Quantity) :
    (fillGreedily reaches L q).fills.length ≤ (fillGreedily reaches L q).gone.length + 1 ∧
      (0 < (fillGreedily reaches L q).left →
        (fillGreedily reaches L q).fills.length = (fillGreedily reaches L q).gone.length) := by
  induction L generalizing q with
  | nil => exact ⟨Nat.zero_le _, fun _ => rfl⟩
  | cons r L ih =>
    by_cases hstop : q = 0 ∨ reaches r.price = false
    · rw [fillGreedily_stop hstop]
      exact ⟨Nat.zero_le _, fun _ => rfl⟩
    by_cases hfull : min q r.quantity = r.quantity
    · obtain ⟨hle, heq⟩ := ih (q - r.quantity)
      rw [fillGreedily_full hstop hfull, Execution.gone_full, List.length_cons, List.length_cons]
      exact ⟨Nat.succ_le_succ hle, fun hleft => congrArg Nat.succ (heq hleft)⟩
    · obtain ⟨hq, -⟩ := (Quantity.min_cases q r.quantity).resolve_left fun h => hfull h.1
      have hne : q ≠ r.quantity := hq ▸ hfull
      rw [fillGreedily_outlasts hstop hfull, Execution.gone_outlasts hne]
      exact ⟨Nat.le_refl 1, fun hleft => absurd hleft (UInt32.lt_irrefl 0)⟩

/-- For each trade of a call a cell is freed. -/
theorem Book.trades_process_le (b : Book) (o : Incoming) (time : Timestamp) :
    (b.process o time).trades.length + b.free.length ≤
      b.trades.length + (b.process o time).free.length := by
  obtain ⟨hle, heq⟩ := fillGreedily_counts o.reaches (b.side o.side.opposite) o.quantity
  have hfree : (b.matched o time).free.length = (b.execution o).gone.length + b.free.length := by
    show ((refs (b.execution o).gone).reverse ++ b.free).length = _
    rw [List.length_append, List.length_reverse, refs, List.length_map]
  rw [Book.trades_process_eq, List.length_append, List.length_map]
  cases Book.process_cases b o time with
  | inl h =>
    obtain ⟨-, hleft, hbook⟩ := h
    have hfills : (b.execution o).fills.length = (b.execution o).gone.length := heq hleft
    have hkept : (b.process o time).free.length = (b.matched o time).free.length := by rw [hbook]; rfl
    omega
  | inr h =>
    have hfills : (b.execution o).fills.length ≤ (b.execution o).gone.length + 1 := hle
    have hfreed : (b.process o time).free.length = (b.matched o time).free.length + 1 := by
      rw [h.2]
      rfl
    omega

namespace Session
variable {S S' T : Session} {op : Op} {ops : List Op} {n poolSize : Nat}

/-- The trades so far, and the orders that may still be used up. -/
def tradesAndOrders (S : Session) : Nat := S.engine.tradeLog.length + S.inUse

theorem Sound.tradesAndOrders_step (h : S.Sound) (hok : S.Owned op) (hs : S.step op = some S') :
    S'.Sound ∧ S'.tradesAndOrders ≤ S.tradesAndOrders + if op.acquires then 1 else 0 := by
  obtain ⟨S1, hs1, h', hb, -⟩ := h.step hok
  obtain rfl := Option.some.inj (hs.symm.trans hs1)
  obtain ⟨hgrow, hle⟩ := h.allocated_step hok hs
  obtain ⟨hfree, hsame⟩ := h.free_step hok hs
  have huse := h.inUse_add
  have huse' := h'.inUse_add
  have htrades : S'.engine.tradeLog = (S.bookAfter op).trades := congrArg Book.trades hb
  have hfree' : S'.engine.freeList = (S.bookAfter op).free := congrArg Book.free hb
  have hkept : S.engine.tradeLog = S.engine.book.trades := rfl
  refine ⟨h', ?_⟩
  unfold tradesAndOrders
  rw [htrades]
  cases op with
  | acquire id p q s m =>
    have hlog : (S.bookAfter (.acquire id p q s m)).trades = S.engine.tradeLog :=
      Book.trades_acquire ..
    rw [hlog]
    have hone : (if Op.acquires (.acquire id p q s m) then 1 else 0) = 1 := rfl
    rw [hone] at hle hfree ⊢
    by_cases hsome : 0 < S.engine.freeList.length
    · have hstay := hsame rfl hsome
      omega
    · omega
  | process order time now =>
    have hcount : (S.bookAfter (.process order time now)).trades.length + S.engine.freeList.length ≤
        S.engine.tradeLog.length + S'.engine.freeList.length := by
      rw [hfree']
      exact S.engine.book.trades_process_le (S.engine.incoming order) time
    have hnone : (if Op.acquires (.process order time now) then 1 else 0) = 0 := rfl
    rw [hnone] at hle ⊢
    omega
  | cancel id now =>
    have hlog : (S.bookAfter (.cancel id now)).trades = S.engine.tradeLog := Book.trades_cancel ..
    have hnone : (if Op.acquires (.cancel id now) then 1 else 0) = 0 := rfl
    rw [hlog]
    rw [hnone] at hle hfree ⊢
    omega
  | modify origId newId newPrice newQty now =>
    have hlog : (S.bookAfter (.modify origId newId newPrice newQty now)).trades =
        S.engine.tradeLog := Book.trades_modify ..
    have hnone : (if Op.acquires (.modify origId newId newPrice newQty now) then 1 else 0) = 0 := rfl
    rw [hlog]
    rw [hnone] at hle hfree ⊢
    omega

theorem Sound.run_tradesAndOrders (h : S.Sound) (hok : Along Session.step Owned S ops)
    (hrun : run Session.step S ops = some T) :
    T.tradesAndOrders ≤ S.tradesAndOrders + ops.countP Op.acquires :=
  run_charged (fun _ _ _ h hok hs => h.tradesAndOrders_step hok hs) h hok hrun

theorem new_tradesAndOrders (poolSize : Nat) (udpPub : Bool) :
    (new poolSize udpPub).tradesAndOrders = 0 := by
  have huse := (new_sound poolSize udpPub).inUse_add
  have hfree : (new poolSize udpPub).engine.freeList.length = poolSize := by
    simp [new, Engine.new, OrderPool.new]
  have hall : (new poolSize udpPub).engine.allAllocated.length = poolSize := List.length_range
  have hlog : (new poolSize udpPub).engine.tradeLog.length = 0 := rfl
  unfold tradesAndOrders
  omega

/-- Whatever ids, prices and quantities the calls carry: there are no more trades than orders
acquired, less those that are held or rest, however the calls are arranged. -/
theorem run_trades {udpPub : Bool} (hok : Along step Owned (new poolSize udpPub) ops) :
    ∃ S, run step (new poolSize udpPub) ops = some S ∧
      S.engine.tradeLog.length + S.inUse ≤ ops.countP Op.acquires := by
  obtain ⟨S, hrun, -⟩ := run_sound hok
  have hle := (new_sound poolSize udpPub).run_tradesAndOrders hok hrun
  rw [new_tradesAndOrders, Nat.zero_add] at hle
  exact ⟨S, hrun, hle⟩

def sweepOps : List Op :=
  [.acquire 1 1500000 50 .sell false, .process 3 10 11, .acquire 2 1510000 50 .sell false,
    .process 2 12 13, .acquire 3 1520000 50 .sell false, .process 1 14 15,
    .acquire 4 0 120 .buy true, .process 0 16 17]

theorem run_trades_sweep :
    ∃ S, run step (new 4 false) sweepOps = some S ∧ S.engine.tradeLog.length = 3 ∧
      S.engine.tradeLog.length + S.inUse ≤ 4 := by
  have hok : Along step Owned (new 4 false) sweepOps := by decide +kernel
  have hend : (run step (new 4 false) sweepOps).map (fun S => S.engine.tradeLog.length) = some 3 := by
    decide +kernel
  obtain ⟨S, hrun, hle⟩ := run_trades hok
  rw [hrun] at hend
  exact ⟨S, hrun, Option.some.inj hend, hle⟩

theorem Reaches.tradesAndOrders {P : OrderId → Prop} (h : Reaches P n S T) (hS : S.Regular) :
    T.tradesAndOrders ≤ S.tradesAndOrders + n := by
  obtain ⟨ops, hrun, hok, hcount, -⟩ := h
  have howned : Along Session.step Owned S ops := hok.mono fun _ _ hop => hop.1.owned
  exact (hS.toSound.run_tradesAndOrders howned hrun).trans (Nat.add_le_add_left hcount _)

theorem Reaches.trades_new {P : OrderId → Prop} {udpPub : Bool}
    (h : Reaches P n (new poolSize udpPub) T) : T.engine.tradeLog.length ≤ n := by
  have hle := h.tradesAndOrders (new_regular poolSize udpPub)
  rw [new_tradesAndOrders, Nat.zero_add] at hle
  exact (Nat.le_add_right _ _).trans hle

end Session
end LobCity
