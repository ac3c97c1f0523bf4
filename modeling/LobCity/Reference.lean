import LobCity.WellFormed

/-! The reference for `processOrder`: price-time priority on the flattened opposite
side, with no loop over levels and no links. The engine is proved equal to it. -/
namespace LobCity
open Library

/-- One trade's share of a resting order. -/
structure Fill where
  maker : Resting
  quantity : Quantity
deriving DecidableEq, Repr

structure Execution where
  fills : List Fill
  /-- the opposite side afterwards -/
  rest : List Resting
  /-- what the taker still wants -/
  left : Quantity
deriving DecidableEq, Repr

/-- Fill from the front until the taker is done or the next price is out of reach. -/
def fillGreedily (reaches : Price → Bool) : List Resting → Quantity → Execution
  | [], q => ⟨[], [], q⟩
  | r :: L, q =>
    if q = 0 ∨ reaches r.price = false then ⟨[], r :: L, q⟩
    else
      let f := min q r.quantity
      if f = r.quantity then
        let x := fillGreedily reaches L (q - f)
        { x with fills := ⟨r, f⟩ :: x.fills }
      else ⟨[⟨r, f⟩], { r with quantity := r.quantity - f } :: L, q - f⟩

section Steps
variable {reaches : Price → Bool} {r : Resting} {L : List Resting} {q : Quantity}

theorem fillGreedily_stop (h : q = 0 ∨ reaches r.price = false) :
    fillGreedily reaches (r :: L) q = ⟨[], r :: L, q⟩ := by
  rw [fillGreedily, if_pos h]

theorem fillGreedily_full (h : ¬ (q = 0 ∨ reaches r.price = false)) (hf : min q r.quantity = r.quantity) :
    fillGreedily reaches (r :: L) q =
      { fillGreedily reaches L (q - r.quantity) with
        fills := ⟨r, r.quantity⟩ :: (fillGreedily reaches L (q - r.quantity)).fills } := by
  rw [fillGreedily, if_neg h]
  simp only [hf, if_true]

/-- A maker that outlasts the taker. -/
theorem fillGreedily_outlasts (h : ¬ (q = 0 ∨ reaches r.price = false))
    (hf : min q r.quantity ≠ r.quantity) :
    fillGreedily reaches (r :: L) q =
      ⟨[⟨r, q⟩], { r with quantity := r.quantity - q } :: L, 0⟩ := by
  obtain ⟨hq, -⟩ := (Quantity.min_cases q r.quantity).resolve_left fun h => hf h.1
  have hne : q ≠ r.quantity := hq ▸ hf
  rw [fillGreedily, if_neg h]
  simp only [hq, hne, if_false, sub_self]

end Steps

/-- The trade of a fill: at the resting price, buyer and seller by the side `s` of the maker. -/
def Fill.trade (s : Side) (taker : OrderId) (time : Timestamp) (f : Fill) : Trade :=
  ⟨(s.tradeIds taker f.maker.id).1, (s.tradeIds taker f.maker.id).2, f.maker.price, f.quantity, time⟩

def Execution.gone (x : Execution) : List Resting :=
  (x.fills.filter fun f => f.quantity = f.maker.quantity).map Fill.maker

theorem Execution.gone_full (r : Resting) (F : List Fill) (L : List Resting) (q : Quantity) :
    Execution.gone ⟨⟨r, r.quantity⟩ :: F, L, q⟩ = r :: Execution.gone ⟨F, L, q⟩ := by
  simp [Execution.gone]

theorem Execution.gone_outlasts {r : Resting} {f : Quantity} (h : f ≠ r.quantity) (L : List Resting)
    (q : Quantity) : Execution.gone ⟨[⟨r, f⟩], L, q⟩ = [] := by
  simp [Execution.gone, h]

namespace Book

def settle (b : Book) (s : Side) (taker : OrderId) (time : Timestamp) (x : Execution) : Book :=
  { b.setSide s x.rest with
    trades := b.trades ++ x.fills.map (Fill.trade s taker time)
    index := fun k => if k ∈ x.gone.map Resting.id then none else b.index k
    free := (refs x.gone).reverse ++ b.free }

def execution (b : Book) (o : Incoming) : Execution :=
  fillGreedily o.reaches (b.side o.side.opposite) o.quantity

/-- Settle the greedy fills; a limit remainder rests behind its own price, anything else
goes back to the pool. -/
def referenceProcess (b : Book) (o : Incoming) (time : Timestamp) : Book :=
  let x := b.execution o
  let b1 := b.settle o.side.opposite o.id time x
  if o.isMarket = false ∧ x.left > 0 then b1.rest { o with quantity := x.left }
  else b1.release o.ref

theorem setSide_eq_self {b : Book} {s : Side} {L : List Resting} (h : b.side s = L) :
    b.setSide s L = b := by
  subst h
  simp [setSide]

theorem settle_nil {b : Book} {s : Side} {taker : OrderId} {time : Timestamp} {L : List Resting}
    {q : Quantity} (h : b.side s = L) : b.settle s taker time ⟨[], L, q⟩ = b := by
  have hs := setSide_eq_self h
  simp [settle, Execution.gone, refs, hs]

/-- The loop over single trades computes the greedy execution. -/
theorem sweep_eq_settle {s : Side} {reaches : Price → Bool} {time : Timestamp} {id : OrderId}
    {L : List Resting} {q : Quantity} {b : Book} (hb : b.side s = L) :
    sweep s reaches time id L q b =
      ((fillGreedily reaches L q).left, b.settle s id time (fillGreedily reaches L q)) := by
  induction L generalizing q b with
  | nil => rw [sweep, fillGreedily, settle_nil hb]
  | cons r L ih =>
    by_cases hstop : q = 0 ∨ reaches r.price = false
    · rw [sweep, if_pos hstop, fillGreedily_stop hstop, settle_nil hb]
    rw [sweep, if_neg hstop]
    by_cases hfull : min q r.quantity = r.quantity
    · -- the maker is used up
      have hz : r.quantity - min q r.quantity = 0 := by rw [hfull]; grind
      have hside : (b.consume s time id q).side s = L := by rw [side_consume hb, if_pos hz]
      rw [ih hside, fillGreedily_full hstop hfull, hfull]
      refine Prod.ext rfl ?_
      unfold consume
      rw [hb]
      dsimp only
      rw [if_pos hz]
      simp only [settle, Execution.gone_full]
      simp only [refs, setSide, eraseId, release, Fill.trade, hfull, List.map_cons, List.reverse_cons,
        List.append_assoc, List.cons_append, List.nil_append, Function.update_idem, mk.injEq, true_and,
        and_true]
      funext k
      by_cases hk : k = r.id <;> simp [hk]
    · -- the taker is used up
      have hz : ¬ r.quantity - min q r.quantity = 0 := fun h => hfull (by grind)
      obtain ⟨hq, -⟩ := (Quantity.min_cases q r.quantity).resolve_left fun h => hfull h.1
      rw [taker_done hz, sweep_zero, fillGreedily_outlasts hstop hfull]
      refine Prod.ext rfl ?_
      unfold consume
      rw [hb]
      dsimp only
      rw [if_neg hz, hq]
      simp [settle, Execution.gone_outlasts (hq ▸ hfull), refs, setSide, Fill.trade]

theorem process_eq_reference (b : Book) (o : Incoming) (time : Timestamp) :
    b.process o time = b.referenceProcess o time := by
  have h : sweep o.side.opposite o.reaches time o.id (b.side o.side.opposite) o.quantity b =
      ((b.execution o).left, b.settle o.side.opposite o.id time (b.execution o)) :=
    sweep_eq_settle rfl
  unfold process referenceProcess
  simp only [h]
  cases o.isMarket <;> simp

end Book
end LobCity
